import DicePool.Proofs.Pool.Normal
import DicePool.Proofs.Roll.Replay

/-!
This module contains the statement that a pool which passes the check is rolled to the end, from
every source. Only the modifier for different values can fail, and what it asks for is part of the
check.
-/

namespace DicePool

variable {σ : Type}

theorem Unique.check_eq_ok_iff {u : Unique} {quantity sides : UInt32} :
    u.check quantity sides = .ok () ↔ u.isSatisfiable quantity sides := by
  unfold check
  split
  · next h => simp [h]
  · next h => simp [h]

namespace ModifierSet

theorem mem_toList_iff {m : ModifierSet} {x : Modifier} :
    x ∈ m.toList ↔ m.get? x.kind = some x := by
  rw [toList, List.mem_filterMap]
  constructor
  · rintro ⟨k, _, h⟩
    rwa [kind_of_get? h]
  · intro h
    exact ⟨x.kind, Kind.mem_inOrder _, h⟩

theorem unique_mem_toList_iff {m : ModifierSet} {u : Unique} :
    .unique u ∈ m.toList ↔ m.unique = some u := by
  rw [mem_toList_iff]
  simp [Modifier.kind, get?]

end ModifierSet

namespace Modifier

variable {sides quantity : UInt32} {draw : StateM σ Int64}

def IsApplicable (m : Modifier) (sides quantity : UInt32) : Prop :=
  ∀ u, m = .unique u → u.isSatisfiable quantity sides

theorem exists_of_rolls {m : Modifier} (h : m.IsApplicable sides quantity) (before : List Int64)
    (s : σ) : ∃ after s', (m.rolls sides quantity draw before).run s = (.ok after, s') := by
  cases m with
  | unique u =>
    rw [rolls, Unique.check_eq_ok_iff.2 (h u rfl)]
    exact ⟨_, _, rfl⟩
  | _ => exact ⟨_, _, rfl⟩

theorem exists_of_apply {m : Modifier} (h : m.IsApplicable sides quantity) (t : Tally) (s : σ) :
    ∃ t' s', (m.apply sides quantity draw t).run s = (.ok t', s') := by
  obtain ⟨after, s', hafter⟩ := exists_of_rolls h t.rolls s
  exact ⟨_, s', run_bind_eq_ok_iff.2 ⟨after, s', hafter, rfl⟩⟩

theorem exists_of_applyAll {ms : List Modifier} (h : ∀ m ∈ ms, m.IsApplicable sides quantity)
    (draw : StateM σ Int64) (t : Tally) (s : σ) :
    ∃ t' s', (applyAll ms sides quantity draw t).run s = (.ok t', s') := by
  induction ms generalizing t s with
  | nil => exact ⟨t, s, rfl⟩
  | cons m ms ih =>
    rw [List.forall_mem_cons] at h
    obtain ⟨t₁, s₁, hm⟩ := exists_of_apply h.1 t s
    obtain ⟨t', s', hms⟩ := ih h.2 t₁ s₁
    exact ⟨t', s', run_bind_eq_ok_iff.2 ⟨t₁, s₁, hm, hms⟩⟩

end Modifier

namespace Pool

variable {spec : PoolSpec} {p : Pool}

theorem isSatisfiable_of_unique (h : ofSpec spec = .ok p) {u : Unique}
    (hu : p.modifiers.unique = some u) : u.isSatisfiable p.quantity p.sides := by
  cases hfaces : p.faces with
  | none =>
    apply (isValid_toSpec h).unique p.sides u
    · rw [toSpec, hfaces]
      rfl
    · exact hu
  | some faces =>
    -- Dice with faces of their own have no modifiers.
    rw [(modifiers_of_faces h hfaces).2] at hu
    contradiction

theorem isApplicable_of_mem (h : ofSpec spec = .ok p) :
    ∀ m ∈ p.modifiers.toList, m.IsApplicable p.sides p.quantity := by
  rintro m hm u rfl
  exact isSatisfiable_of_unique h (ModifierSet.unique_mem_toList_iff.1 hm)

theorem exists_run_roll (h : ofSpec spec = .ok p) (float : StateM σ Float) (s : σ) :
    ∃ r s', (p.roll float).run s = (.ok r, s') ∧ r.pool = p := by
  let die := Draw.die float p.sides
  let initial := (Draw.times die p.quantity.toNat).run s
  obtain ⟨t, s', ht⟩ :=
    Modifier.exists_of_applyAll (isApplicable_of_mem h) die { rolls := initial.1 } initial.2
  refine ⟨.ofTally p initial.1 t, s', run_bind_eq_ok_iff.2 ?_, rfl⟩
  exact ⟨initial.1, initial.2, rfl, run_bind_eq_ok_iff.2 ⟨t, s', ht, rfl⟩⟩

end Pool

end DicePool
