import Mathlib.Data.List.Basic
import DicePool.Notation.Term
import DicePool.Pool
import DicePool.Proofs.Run

/-!
This module contains the pools that pass the check, and the form that their modifiers are brought
into. The main statement is `ofSpec_toSpec`: a pool that is asked for in this form already comes out
as it is.
-/

namespace DicePool

namespace ModifierSet

structure IsFilled (m : ModifierSet) : Prop where
  cap : ∀ c ∈ m.cap, ¬ c.isEmpty
  drop : ∀ d ∈ m.drop, ¬ d.isEmpty
  keep : ∀ k ∈ m.keep, ¬ k.isEmpty
  replace : ∀ rules ∈ m.replace, rules ≠ [] ∧ ∀ r ∈ rules, ¬ r.isEmpty
  reroll : ∀ r ∈ m.reroll, ¬ r.trigger.isEmpty

theorem not_any_iff {α : Type} {p : α → Bool} {o : Option α} :
    ¬ o.any p ↔ ∀ a ∈ o, ¬ p a := by
  cases o <;> simp

theorem emptyEntry?_eq_none_iff {m : ModifierSet} : m.emptyEntry? = none ↔ m.IsFilled := by
  have hreplace : (¬ m.replace.any fun rules => rules.isEmpty || rules.any Replacement.isEmpty) ↔
      ∀ rules ∈ m.replace, rules ≠ [] ∧ ∀ r ∈ rules, ¬ r.isEmpty := by
    rw [not_any_iff]
    simp
  unfold emptyEntry?
  constructor
  · intro h
    split at h
    · contradiction
    split at h
    · contradiction
    split at h
    · contradiction
    split at h
    · contradiction
    split at h
    · contradiction
    next hcap hdrop hkeep hrules hreroll =>
    exact ⟨not_any_iff.1 hcap, not_any_iff.1 hdrop, not_any_iff.1 hkeep, hreplace.1 hrules,
      not_any_iff.1 hreroll⟩
  · intro h
    rw [if_neg (not_any_iff.2 h.cap), if_neg (not_any_iff.2 h.drop), if_neg (not_any_iff.2 h.keep),
      if_neg (hreplace.2 h.replace), if_neg (not_any_iff.2 h.reroll)]

structure IsNormal (m : ModifierSet) : Prop where
  keep : m.keep = none
  replace : ∀ rules ∈ m.replace, ∀ r ∈ rules, ∃ t : Notation.Term, r.target = t.target

end ModifierSet

theorem Replacement.split_of_target {r : Replacement} {t : Notation.Term}
    (h : r.target = t.target) : r.split = [r] := by
  obtain ⟨target, value⟩ := r
  cases h
  cases t <;> rfl

theorem Replacement.exists_term_of_mem_split {r s : Replacement} (h : s ∈ r.split) :
    ∃ t : Notation.Term, s = ⟨t.target, r.value⟩ := by
  obtain ⟨target, value⟩ := r
  cases target with
  | exact v =>
    rw [split, List.mem_singleton] at h
    exact ⟨.exact v, h⟩
  | condition c =>
    simp only [split, List.mem_append, List.mem_map] at h
    obtain (⟨v, _, rfl⟩ | ⟨bound, _, rfl⟩) | ⟨bound, _, rfl⟩ := h
    · exact ⟨.exact v, rfl⟩
    · exact ⟨.greaterThan bound, rfl⟩
    · exact ⟨.lessThan bound, rfl⟩

theorem Replacement.split_ne_nil {r : Replacement} (h : ¬ r.isEmpty) : r.split ≠ [] := by
  obtain ⟨target, value⟩ := r
  cases target with
  | exact v => simp [split]
  | condition c =>
    obtain ⟨gt, lt, exact⟩ := c
    cases gt <;> cases lt <;> simp_all [split, isEmpty, Condition.isEmpty]

theorem not_isEmpty_of_target {r : Replacement} {t : Notation.Term} (h : r.target = t.target) :
    ¬ r.isEmpty := by
  rw [Replacement.isEmpty, h]
  cases t <;> simp [Notation.Term.target, Condition.isEmpty, Condition.above, Condition.below]

namespace Pool

open ModifierSet (IsFilled IsNormal)

theorem normalize_eq (m : ModifierSet) (quantity : UInt32) :
    normalize m quantity =
      { m with
        drop := m.keep.elim m.drop fun k => some (k.toDrop quantity (m.drop.getD {}))
        keep := none
        replace := m.replace.map fun rules => rules.flatMap Replacement.split } := by
  unfold normalize ModifierSet.splitReplacements ModifierSet.resolveKeep
  split
  · next hkeep => simp [hkeep]
  · next k hkeep => simp [hkeep]

theorem isNormal_normalize (m : ModifierSet) (quantity : UInt32) :
    IsNormal (normalize m quantity) := by
  rw [normalize_eq]
  constructor
  · rfl
  · intro rules hrules r hr
    obtain ⟨rules, _, rfl⟩ := Option.map_eq_some_iff.1 hrules
    obtain ⟨s, _, hs⟩ := List.mem_flatMap.1 hr
    obtain ⟨t, rfl⟩ := Replacement.exists_term_of_mem_split hs
    exact ⟨t, rfl⟩

theorem normalize_of_isNormal {m : ModifierSet} (h : IsNormal m) (quantity : UInt32) :
    normalize m quantity = m := by
  have hsplit : ∀ rules ∈ m.replace, rules.flatMap Replacement.split = rules := by
    intro rules hrules
    calc
      rules.flatMap Replacement.split = rules.flatMap fun r => [r] := by
        apply List.flatMap_congr
        intro r hr
        obtain ⟨t, ht⟩ := h.replace rules hrules r hr
        exact Replacement.split_of_target ht
      _ = rules := List.flatMap_singleton' rules
  rw [normalize_eq, h.keep, Option.map_congr hsplit, Option.map_id', Option.elim_none, ← h.keep]

theorem normalize_empty (quantity : UInt32) : normalize {} quantity = {} := rfl

theorem isFilled_normalize {m : ModifierSet} (h : IsFilled m) (quantity : UInt32) :
    IsFilled (normalize m quantity) := by
  rw [normalize_eq]
  refine ⟨h.cap, ?_, by simp, ?_, h.reroll⟩
  · intro d hd
    cases hkeep : m.keep with
    | none =>
      rw [hkeep] at hd
      exact h.drop d hd
    | some k =>
      rw [hkeep] at hd
      obtain rfl := Option.some.inj hd
      have hk := h.keep k hkeep
      obtain ⟨highest, lowest⟩ := k
      cases highest <;> cases lowest <;> simp_all [Keep.isEmpty, Drop.isEmpty, Keep.toDrop]
  · intro rules hrules
    obtain ⟨given, hgiven, rfl⟩ := Option.map_eq_some_iff.1 hrules
    obtain ⟨hne, hall⟩ := h.replace given hgiven
    constructor
    · obtain ⟨r, rs, rfl⟩ := List.exists_cons_of_ne_nil hne
      rw [List.flatMap_cons]
      exact List.append_ne_nil_of_left_ne_nil (Replacement.split_ne_nil (hall r (by simp))) _
    · intro r hr
      obtain ⟨s, _, hs⟩ := List.mem_flatMap.1 hr
      obtain ⟨t, rfl⟩ := Replacement.exists_term_of_mem_split hs
      exact not_isEmpty_of_target rfl

end Pool

namespace PoolSpec

structure IsValid (spec : PoolSpec) : Prop where
  numbered : ∀ n, spec.sides = .numbered n → n ≠ 0
  faces : ∀ labels, spec.sides = .faces labels → labels ≠ [] ∧ spec.modifiers = {}
  quantity : spec.quantity ≤ maxQuantity
  filled : spec.modifiers.IsFilled
  cap : ∀ c ∈ spec.modifiers.cap, c.exact = []
  unique : ∀ n u, spec.sides = .numbered n → spec.modifiers.unique = some u →
    u.isSatisfiable spec.quantity n

theorem validateSides_eq_ok_iff {spec : PoolSpec} :
    spec.validateSides = .ok () ↔
      (∀ n, spec.sides = .numbered n → n ≠ 0) ∧
        ∀ labels, spec.sides = .faces labels → labels ≠ [] ∧ spec.modifiers = {} := by
  unfold validateSides
  cases spec.sides with
  | numbered n => by_cases hn : n = 0 <;> simp [hn]
  | faces labels =>
    rw [ModifierSet.isEmpty, ModifierSet.empty]
    cases labels <;> by_cases hm : spec.modifiers = {} <;> simp [hm]

theorem validateEntries_eq_ok_iff {spec : PoolSpec} :
    spec.validateEntries = .ok () ↔
      spec.modifiers.IsFilled ∧ ∀ c ∈ spec.modifiers.cap, c.exact = [] := by
  rw [← ModifierSet.emptyEntry?_eq_none_iff]
  unfold validateEntries
  cases spec.modifiers.emptyEntry? with
  | some e => simp
  | none =>
    cases spec.modifiers.cap with
    | none => simp
    | some c => by_cases hc : c.exact = [] <;> simp [hc]

theorem validateUnique_eq_ok_iff {spec : PoolSpec} :
    spec.validateUnique = .ok () ↔
      ∀ n u, spec.sides = .numbered n → spec.modifiers.unique = some u →
        u.isSatisfiable spec.quantity n := by
  unfold validateUnique
  cases spec.sides with
  | faces labels => simp
  | numbered n =>
    cases spec.modifiers.unique with
    | none => simp
    | some u => by_cases hu : u.isSatisfiable spec.quantity n <;> simp [hu, Unique.check]

theorem validate_eq_ok_iff {spec : PoolSpec} : spec.validate = .ok () ↔ spec.IsValid := by
  unfold validate
  rw [bind_eq_ok_iff]
  constructor
  · rintro ⟨_, hsides, h⟩
    obtain ⟨hnumbered, hfaces⟩ := validateSides_eq_ok_iff.1 hsides
    split at h
    · simp [bind_eq_ok_iff] at h
    · next hquantity =>
      obtain ⟨_, hentries, hunique⟩ := bind_eq_ok_iff.1 h
      obtain ⟨hfilled, hcap⟩ := validateEntries_eq_ok_iff.1 hentries
      exact ⟨hnumbered, hfaces, UInt32.not_lt.1 hquantity, hfilled, hcap,
        validateUnique_eq_ok_iff.1 hunique⟩
  · intro h
    refine ⟨(), validateSides_eq_ok_iff.2 ⟨h.numbered, h.faces⟩, ?_⟩
    rw [if_neg (UInt32.not_lt.2 h.quantity), bind_eq_ok_iff]
    exact ⟨(), validateEntries_eq_ok_iff.2 ⟨h.filled, h.cap⟩, validateUnique_eq_ok_iff.2 h.unique⟩

theorem isValid_normalize {spec : PoolSpec} (h : spec.IsValid) :
    IsValid { spec with modifiers := Pool.normalize spec.modifiers spec.quantity } := by
  have hfaces : ∀ labels, spec.sides = .faces labels →
      labels ≠ [] ∧ Pool.normalize spec.modifiers spec.quantity = {} := by
    intro labels hsides
    obtain ⟨hne, hm⟩ := h.faces labels hsides
    rw [hm, Pool.normalize_empty]
    exact ⟨hne, rfl⟩
  refine ⟨h.numbered, hfaces, h.quantity, Pool.isFilled_normalize h.filled _, ?_, ?_⟩
  · dsimp only
    rw [Pool.normalize_eq]
    exact h.cap
  · dsimp only
    rw [Pool.normalize_eq]
    exact h.unique

end PoolSpec

namespace Pool

theorem ofSpec_eq_ok_iff {spec : PoolSpec} {p : Pool} :
    ofSpec spec = .ok p ↔ spec.IsValid ∧ p = ofValid spec := by
  unfold ofSpec
  rw [bind_eq_ok_iff, ← PoolSpec.validate_eq_ok_iff]
  constructor
  · rintro ⟨_, hvalid, hp⟩
    exact ⟨hvalid, (pure_eq_ok_iff.1 hp).symm⟩
  · rintro ⟨hvalid, hp⟩
    exact ⟨(), hvalid, pure_eq_ok_iff.2 hp.symm⟩

theorem toSpec_ofValid (spec : PoolSpec) :
    (ofValid spec).toSpec = { spec with modifiers := normalize spec.modifiers spec.quantity } := by
  obtain ⟨sides, quantity, modifiers, sign⟩ := spec
  cases sides <;> rfl

theorem modifiers_ofValid (spec : PoolSpec) :
    (ofValid spec).modifiers = normalize spec.modifiers spec.quantity := by
  obtain ⟨sides, quantity, modifiers, sign⟩ := spec
  cases sides <;> rfl

theorem text_ofValid (spec : PoolSpec) :
    (ofValid spec).text = .ofList (ofValid spec).toSpec.spelling := by
  obtain ⟨sides, quantity, modifiers, sign⟩ := spec
  cases sides <;> rfl

theorem description_ofValid (spec : PoolSpec) :
    (ofValid spec).description = (ofValid spec).toSpec.describe := by
  obtain ⟨sides, quantity, modifiers, sign⟩ := spec
  cases sides <;> rfl

theorem ofSpec_toSpec {spec : PoolSpec} {p : Pool} (h : ofSpec spec = .ok p) :
    ofSpec p.toSpec = .ok p := by
  obtain ⟨hvalid, rfl⟩ := ofSpec_eq_ok_iff.1 h
  rw [ofSpec_eq_ok_iff, toSpec_ofValid]
  refine ⟨PoolSpec.isValid_normalize hvalid, ?_⟩
  have hnormal := normalize_of_isNormal (isNormal_normalize spec.modifiers spec.quantity)
  simp only [ofValid, hnormal]

theorem isValid_toSpec {spec : PoolSpec} {p : Pool} (h : ofSpec spec = .ok p) :
    p.toSpec.IsValid :=
  (ofSpec_eq_ok_iff.1 (ofSpec_toSpec h)).1

theorem isNormal_modifiers {spec : PoolSpec} {p : Pool} (h : ofSpec spec = .ok p) :
    p.modifiers.IsNormal := by
  obtain ⟨_, rfl⟩ := ofSpec_eq_ok_iff.1 h
  rw [modifiers_ofValid]
  exact isNormal_normalize _ _

theorem sides_toSpec {spec : PoolSpec} {p : Pool} (h : ofSpec spec = .ok p) :
    p.toSpec.sides = spec.sides := by
  obtain ⟨_, rfl⟩ := ofSpec_eq_ok_iff.1 h
  rw [toSpec_ofValid]

theorem text_eq {spec : PoolSpec} {p : Pool} (h : ofSpec spec = .ok p) :
    p.text = .ofList p.toSpec.spelling := by
  obtain ⟨_, rfl⟩ := ofSpec_eq_ok_iff.1 h
  exact text_ofValid spec

theorem description_eq {spec : PoolSpec} {p : Pool} (h : ofSpec spec = .ok p) :
    p.description = p.toSpec.describe := by
  obtain ⟨_, rfl⟩ := ofSpec_eq_ok_iff.1 h
  exact description_ofValid spec

theorem quantity_le {spec : PoolSpec} {p : Pool} (h : ofSpec spec = .ok p) :
    p.quantity ≤ maxQuantity :=
  (isValid_toSpec h).quantity

theorem sides_ne_zero {spec : PoolSpec} {p : Pool} (h : ofSpec spec = .ok p)
    (hfaces : p.faces = none) : p.sides ≠ 0 := by
  apply (isValid_toSpec h).numbered
  rw [toSpec, hfaces]
  rfl

theorem modifiers_of_faces {spec : PoolSpec} {p : Pool} (h : ofSpec spec = .ok p)
    {labels : List String} (hfaces : p.faces = some labels) :
    labels ≠ [] ∧ p.modifiers = {} := by
  apply (isValid_toSpec h).faces
  rw [toSpec, hfaces]
  rfl

theorem sides_of_faces {spec : PoolSpec} {p : Pool} (h : ofSpec spec = .ok p)
    {labels : List String} (hfaces : p.faces = some labels) : p.sides = .ofNat labels.length := by
  obtain ⟨_, rfl⟩ := ofSpec_eq_ok_iff.1 h
  obtain ⟨sides, quantity, modifiers, sign⟩ := spec
  cases sides with
  | numbered n => contradiction
  | faces faces =>
    cases hfaces
    rfl

theorem exists_faces_of_sides {spec : PoolSpec} {p : Pool} (h : ofSpec spec = .ok p)
    (hsides : p.sides = 0) :
    p.modifiers = {} ∧ ∃ labels, p.faces = some labels ∧ UInt32.size ∣ labels.length := by
  cases hfaces : p.faces with
  | none => exact absurd hsides (sides_ne_zero h hfaces)
  | some labels =>
    -- Faces are counted in 32 bits, so that a count of them may wrap to 0.
    refine ⟨(modifiers_of_faces h hfaces).2, labels, rfl, ?_⟩
    apply Nat.dvd_of_mod_eq_zero
    rw [← UInt32.toNat_ofNat', ← sides_of_faces h hfaces, hsides]
    rfl

theorem ofSpec_idempotent {spec : PoolSpec} {p : Pool} (h : ofSpec spec = .ok p) :
    p.modifiers.keep = none ∧
      (∀ rules ∈ p.modifiers.replace, ∀ r ∈ rules,
        (∃ v, r.target = .exact v) ∨ (∃ bound, r.target = .condition (.above bound)) ∨
          ∃ bound, r.target = .condition (.below bound)) ∧
        ofSpec p.toSpec = .ok p := by
  have hnormal := isNormal_modifiers h
  refine ⟨hnormal.keep, ?_, ofSpec_toSpec h⟩
  intro rules hrules r hr
  obtain ⟨t, ht⟩ := hnormal.replace rules hrules r hr
  cases t with
  | exact v => exact .inl ⟨v, ht⟩
  | greaterThan bound => exact .inr (.inl ⟨bound, ht⟩)
  | lessThan bound => exact .inr (.inr ⟨bound, ht⟩)

theorem ofSpec_idempotent_keep :
    ∃ (spec : PoolSpec) (p : Pool), ofSpec spec = .ok p ∧
      spec.modifiers.keep = some { highest := some 3 } ∧
      p.modifiers.drop = some { highest := some 1, lowest := some 2 } ∧
      p.modifiers.replace = some [⟨.exact 3, 4⟩, ⟨.condition (.above 5), 4⟩] ∧
      p.modifiers.keep = none ∧
      (∀ rules ∈ p.modifiers.replace, ∀ r ∈ rules,
        (∃ v, r.target = .exact v) ∨ (∃ bound, r.target = .condition (.above bound)) ∨
          ∃ bound, r.target = .condition (.below bound)) ∧
        ofSpec p.toSpec = .ok p := by
  let spec : PoolSpec :=
    { sides := .numbered 6
      quantity := 5
      modifiers :=
        { drop := some { highest := some 1, lowest := some 4 }
          keep := some { highest := some 3 }
          replace := some [⟨.condition { greaterThan := some 5, exact := [3] }, 4⟩]
          unique := some {} } }
  have h : ofSpec spec = .ok (ofValid spec) := rfl
  exact ⟨spec, _, h, rfl, by decide, rfl, ofSpec_idempotent h⟩

end Pool

end DicePool
