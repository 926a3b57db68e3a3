import DicePool.Proofs.Pool.Normal

/-!
This module contains what replacing does to the dice of a pool. The main statement is
`applyAll_flatMap_split`: rules may be split into one rule for each value or bound that they look
for. A die that one part of a rule has changed may meet further parts of it, but all of them write
the same value.
-/

namespace DicePool.Replacement

def replaceAll (rules : List Replacement) (value : Int64) : Int64 :=
  rules.foldl (fun value r => r.replace value) value

theorem replaceAll_cons (r : Replacement) (rules : List Replacement) (value : Int64) :
    replaceAll (r :: rules) value = replaceAll rules (r.replace value) := rfl

theorem applyAll_cons (r : Replacement) (rules : List Replacement) (rolls : List Int64) :
    applyAll (r :: rules) rolls = applyAll rules (rolls.map r.replace) := rfl

theorem applyAll_eq_map (rules : List Replacement) (rolls : List Int64) :
    applyAll rules rolls = rolls.map (replaceAll rules) := by
  induction rules generalizing rolls with
  | nil => exact (List.map_id' rolls).symm
  | cons r rules ih =>
    rw [applyAll_cons, ih, List.map_map]
    rfl

theorem replaceAll_of_value {rules : List Replacement} {written : Int64}
    (h : ∀ r ∈ rules, r.value = written) (value : Int64) :
    replaceAll rules value =
      if rules.any (·.target.holds value) then written else value := by
  induction rules generalizing value with
  | nil => rfl
  | cons r rules ih =>
    rw [List.forall_mem_cons] at h
    rw [replaceAll_cons, ih h.2, replace, List.any_cons]
    cases r.target.holds value with
    | true =>
      -- What this rule wrote stays: the others leave it or write it once more.
      rw [if_pos rfl, h.1, ite_self, Bool.true_or, if_pos rfl]
    | false => rw [if_neg Bool.false_ne_true, Bool.false_or]

theorem any_holds_split (r : Replacement) (value : Int64) :
    r.split.any (·.target.holds value) = r.target.holds value := by
  obtain ⟨target, written⟩ := r
  cases target with
  | exact v => simp [split]
  | condition c =>
    obtain ⟨above, below, exact⟩ := c
    cases above <;> cases below <;>
      simp [split, Target.holds, Condition.holds, Condition.above, Condition.below,
        Function.comp_def, List.any_beq, Bool.or_assoc]

theorem replaceAll_split (r : Replacement) (value : Int64) :
    replaceAll r.split value = r.replace value := by
  have hvalue : ∀ s ∈ r.split, s.value = r.value := by
    intro s hs
    obtain ⟨t, rfl⟩ := exists_term_of_mem_split hs
    rfl
  rw [replaceAll_of_value hvalue, any_holds_split, replace]

theorem applyAll_flatMap_split (rules : List Replacement) (rolls : List Int64) :
    applyAll (rules.flatMap split) rolls = applyAll rules rolls ∧
      (∀ s ∈ rules.flatMap split, ∃ t : Notation.Term, s.target = t.target) ∧
        ∀ m : ModifierSet, { m with replace := some rules }.splitReplacements =
          { m with replace := some (rules.flatMap split) } := by
  refine ⟨?_, ?_, fun _ => rfl⟩
  · induction rules generalizing rolls with
    | nil => rfl
    | cons r rules ih =>
      have hsplit : applyAll r.split rolls = rolls.map r.replace := by
        rw [applyAll_eq_map, funext (replaceAll_split r)]
      rw [List.flatMap_cons, applyAll_append, hsplit, ih, applyAll_cons]
  · intro s hs
    obtain ⟨r, _, hr⟩ := List.mem_flatMap.1 hs
    obtain ⟨t, rfl⟩ := exists_term_of_mem_split hr
    exact ⟨t, rfl⟩

theorem applyAll_flatMap_split_overlapping :
    ∃ rules : List Replacement, (rules.flatMap split).length = 5 ∧
      applyAll rules [3, 7, 4, -1, 9] = [8, 8, 4, 8, 8] ∧
        applyAll (rules.flatMap split) [3, 7, 4, -1, 9] = [8, 8, 4, 8, 8] ∧
          ∀ s ∈ rules.flatMap split, ∃ t : Notation.Term, s.target = t.target := by
  let rules : List Replacement :=
    [⟨.condition { greaterThan := some 6, lessThan := some 2, exact := [3, 3] }, 1⟩,
      ⟨.exact 1, 8⟩]
  obtain ⟨happly, hterms, _⟩ := applyAll_flatMap_split rules [3, 7, 4, -1, 9]
  have hrules : applyAll rules [3, 7, 4, -1, 9] = [8, 8, 4, 8, 8] := by decide
  exact ⟨rules, rfl, hrules, happly.trans hrules, hterms⟩

end DicePool.Replacement
