import DicePool.Proofs.Notation.Denotation

/-!
This module contains the independence of the entries of a set from each other. A token reads and
writes the entry that it is about and no other one, so what tokens come to at an entry is decided by
those about it. The main statements are `mergeAll_eq_ok_iff`, which takes a run of merges apart into
one run for each entry, and `mergeAll_iff_of_filter_entry`, which follows from it: tokens about
different entries may change places.
-/

namespace DicePool

namespace ModifierSet

def only (m : ModifierSet) (e : Entry) : ModifierSet where
  cap := if e = .cap then m.cap else none
  drop := if e = .drop then m.drop else none
  keep := if e = .keep then m.keep else none
  replace := if e = .replace then m.replace else none
  reroll := if e = .reroll then m.reroll else none
  explode := e = .explode && m.explode
  compound := if e = .compound then m.compound else none
  penetrate := if e = .penetrate then m.penetrate else none
  unique := if e = .unique then m.unique else none
  plus := if e = .plus then m.plus else none
  minus := if e = .minus then m.minus else none

def ofEntries (sets : Entry → ModifierSet) : ModifierSet where
  cap := (sets .cap).cap
  drop := (sets .drop).drop
  keep := (sets .keep).keep
  replace := (sets .replace).replace
  reroll := (sets .reroll).reroll
  explode := (sets .explode).explode
  compound := (sets .compound).compound
  penetrate := (sets .penetrate).penetrate
  unique := (sets .unique).unique
  plus := (sets .plus).plus
  minus := (sets .minus).minus

theorem ofEntries_only (m : ModifierSet) : ofEntries m.only = m := rfl

theorem eq_of_only {m n : ModifierSet} (h : ∀ e, m.only e = n.only e) : m = n := by
  rw [← ofEntries_only m, ← ofEntries_only n, funext h]

end ModifierSet

namespace Notation

open ModifierSet

def Token.entry : Token → Entry
  | .modifier m => m.kind.entry
  | .keep _ => .keep

/-! ### One token -/

theorem mergeAll_only (m : ModifierSet) (t : Token) :
    mergeAll (m.only t.entry) [t] = (·.only t.entry) <$> mergeAll m [t] := by
  cases t with
  | keep k => rfl
  | modifier x =>
    rw [mergeAll_modifier, mergeAll_modifier]
    cases x with
    | plus value =>
      simp only [merge, map_bind, map_pure]
      rfl
    | minus value =>
      simp only [merge, map_bind, map_pure]
      rfl
    | _ => rfl

theorem only_of_mergeAll {m m' : ModifierSet} {t : Token} (h : mergeAll m [t] = .ok m') {e : Entry}
    (he : e ≠ t.entry) : m'.only e = m.only e := by
  cases t with
  | keep k =>
    cases h
    have he : e ≠ .keep := he
    simp [mergeKeep, only, he]
  | modifier x =>
    rw [mergeAll_modifier] at h
    cases x with
    | plus value =>
      rw [merge, bind_eq_ok_iff] at h
      obtain ⟨sum, _, h⟩ := h
      cases h
      have he : e ≠ .plus := he
      simp [only, he]
    | minus value =>
      rw [merge, bind_eq_ok_iff] at h
      obtain ⟨sum, _, h⟩ := h
      cases h
      have he : e ≠ .minus := he
      simp [only, he]
    | _ =>
      cases h
      simp_all [only, Token.entry, Modifier.kind, Kind.entry]

/-! ### Runs of tokens -/

theorem mergeAll_eq_ok_iff {ts : List Token} {m m' : ModifierSet} :
    mergeAll m ts = .ok m' ↔
      ∀ e, mergeAll (m.only e) (ts.filter (·.entry = e)) = .ok (m'.only e) := by
  induction ts generalizing m with
  | nil =>
    have hnil : ∀ m : ModifierSet, mergeAll m [] = .ok m := fun _ => rfl
    simp only [List.filter_nil, hnil, Except.ok.injEq]
    constructor
    · rintro rfl e
      rfl
    · exact eq_of_only
  | cons t ts ih =>
    rw [mergeAll_cons, bind_eq_ok_iff]
    simp only [ih]
    constructor
    · rintro ⟨m₁, ht, hts⟩ e
      by_cases he : t.entry = e
      · subst he
        rw [List.filter_cons_of_pos (by simp), mergeAll_cons, mergeAll_only, ht]
        exact hts t.entry
      · rw [List.filter_cons_of_neg (by simpa using he), ← only_of_mergeAll ht (Ne.symm he)]
        exact hts e
    · intro h
      -- The entry that the token is about tells that merging it gives a result.
      have ht := h t.entry
      rw [List.filter_cons_of_pos (by simp), mergeAll_cons, mergeAll_only, bind_eq_ok_iff] at ht
      obtain ⟨n, hn, hts⟩ := ht
      obtain ⟨m₁, hm₁, rfl⟩ := map_eq_ok_iff.1 hn
      refine ⟨m₁, hm₁, ?_⟩
      intro e
      by_cases he : t.entry = e
      · subst he
        exact hts
      · rw [only_of_mergeAll hm₁ (Ne.symm he)]
        have := h e
        rwa [List.filter_cons_of_neg (by simpa using he)] at this

/-! ### Merging in place -/

theorem run_addInto (e : Entry) (value : Int64) (sum : ModifierSet → Option Int64)
    (write : Int64 → ModifierSet → ModifierSet) (m : ModifierSet) :
    (addInto e value sum write).run m =
      ((fun _ => ()) <$> addTerm e (sum m) value,
        (addTerm e (sum m) value).toOption.elim m fun total => write total m) :=
  run_get_bind_modify (fun m => addTerm e (sum m) value) write m

theorem run_mergeInto (t : Token) (m : ModifierSet) :
    t.mergeInto.run m =
      ((fun _ => ()) <$> mergeAll m [t], (mergeAll m [t]).toOption.getD m) := by
  cases t with
  | keep k => rfl
  | modifier x =>
    rw [mergeAll_modifier]
    cases x with
    | plus value =>
      rw [Token.mergeInto, mergeInto, run_addInto, merge]
      cases addTerm .plus m.plus value <;> rfl
    | minus value =>
      rw [Token.mergeInto, mergeInto, run_addInto, merge]
      cases addTerm .minus m.minus value <;> rfl
    | _ => rfl

theorem run_mergeInto_eq_ok_iff {t : Token} {m m' : ModifierSet} :
    t.mergeInto.run m = (.ok (), m') ↔ mergeAll m [t] = .ok m' := by
  rw [run_mergeInto]
  cases mergeAll m [t] with
  | ok merged =>
    constructor
    · rintro ⟨⟩
      rfl
    · rintro ⟨⟩
      rfl
  | error e =>
    constructor
    · rintro ⟨⟩
    · rintro ⟨⟩

theorem run_mergeInto_eq_error_iff {t : Token} {m m' : ModifierSet} {fault : OptionsFault} :
    t.mergeInto.run m = (.error fault, m') ↔ mergeAll m [t] = .error fault ∧ m' = m := by
  rw [run_mergeInto]
  cases mergeAll m [t] with
  | ok merged =>
    constructor
    · rintro ⟨⟩
    · rintro ⟨⟨⟩, _⟩
  | error e =>
    constructor
    · rintro ⟨⟩
      exact ⟨rfl, rfl⟩
    · rintro ⟨⟨⟩, rfl⟩
      rfl

theorem mergeAll_iff_of_filter_entry {ts us : List Token}
    (h : ∀ e, ts.filter (·.entry = e) = us.filter (·.entry = e)) (m : ModifierSet) :
    (∀ m', mergeAll m ts = .ok m' ↔ mergeAll m us = .ok m') ∧
      ∀ t m',
        (t.mergeInto.run m = (.ok (), m') ↔ mergeAll m [t] = .ok m') ∧
          ∀ fault, t.mergeInto.run m = (.error fault, m') ↔
            mergeAll m [t] = .error fault ∧ m' = m := by
  constructor
  · intro m'
    rw [mergeAll_eq_ok_iff, mergeAll_eq_ok_iff]
    simp only [h]
  · intro t m'
    exact ⟨run_mergeInto_eq_ok_iff, fun _ => run_mergeInto_eq_error_iff⟩

theorem mergeAll_iff_of_filter_entry_shuffled :
    ∃ (ts us : List Token) (m : ModifierSet),
      (∀ e, ts.filter (·.entry = e) = us.filter (·.entry = e)) ∧
        mergeAll {} ts = .ok m ∧ mergeAll {} us = .ok m ∧
          mergeAll { plus := some Int64.maxValue } ts = .error (.outOfRange .plus) := by
  let ts : List Token :=
    [.modifier (.plus 3), .keep { highest := some 1 }, .modifier (.cap (.above 5)),
      .modifier (.unique { notUnique := [4, 1, 4] }), .modifier (.plus 4),
      .keep { highest := some 3 }, .modifier (.cap (.below 2))]
  let us : List Token :=
    [.modifier (.cap (.above 5)), .modifier (.cap (.below 2)), .keep { highest := some 1 },
      .keep { highest := some 3 }, .modifier (.unique { notUnique := [4, 1, 4] }),
      .modifier (.plus 3), .modifier (.plus 4)]
  have h : ∀ e, ts.filter (·.entry = e) = us.filter (·.entry = e) := by
    intro e
    cases e <;> rfl
  have hts : mergeAll {} ts =
      .ok { cap := some { greaterThan := some 5, lessThan := some 2 }
            keep := some { highest := some 3 }
            unique := some { notUnique := [4, 1] }
            plus := some 7 } := by
    decide +kernel
  have hus := ((mergeAll_iff_of_filter_entry h {}).1 _).1 hts
  have hover : mergeAll { plus := some Int64.maxValue } ts = .error (.outOfRange .plus) := by
    decide +kernel
  exact ⟨ts, us, _, h, hts, hus, hover⟩

end Notation

end DicePool
