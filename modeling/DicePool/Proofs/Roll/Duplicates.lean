import DicePool.Proofs.Roll.Turns
import DicePool.Proofs.Roll.Unique

/-!
This module contains the duplicates that the modifier for different values leaves. The main
statement is `Unique.exists_walk_of_rolls`: a die keeps its value or takes the first draw that
differs from the dice to the left of it, and a value is left on two dice only after all draws that
were allowed have been made in vain.
-/

namespace DicePool.Unique

variable {σ : Type} {u : Unique} {draw : StateM σ Int64} {seen : Std.HashSet Int64} {s s' : σ}
  {kept rolls : List Int64} {t : Turn}

/-! ### Single dice -/

def MayFollow (u : Unique) (kept : List Int64) (value : Int64) : Prop :=
  u.isExempt value ∨ value ∉ kept

theorem admits_iff (hseen : ∀ v, v ∈ seen ↔ v ∈ kept) (value : Int64) :
    u.admits seen value ↔ u.MayFollow kept value := by
  rw [admits, MayFollow, ← hseen]
  simp

/--
What becomes of a die after those that are left with `kept`. It keeps its value if it may, and
otherwise takes the first draw that may follow them, or the last of 1000 draws.
-/
structure Settles (u : Unique) (kept : List Int64) (t : Turn) : Prop where
  kept_iff : t.draws = [] ∧ t.after = t.before ↔ u.MayFollow kept t.before
  redrawn : ¬ u.MayFollow kept t.before → Draw.EndsAt (u.MayFollow kept) 1000 t.draws t.after

theorem exists_turn_of_settle (u : Unique) (draw : StateM σ Int64)
    (hseen : ∀ v, v ∈ seen ↔ v ∈ kept) (value : Int64) (s : σ) :
    ∃ draws value' s', (u.settle draw seen value).run s = (value', s') ∧
      Draw.Supplies draw s draws s' ∧ u.Settles kept ⟨value, draws, value'⟩ := by
  rw [settle]
  split
  · next h =>
    rw [admits_iff hseen] at h
    exact ⟨[], value, s, rfl, .nil draw s, iff_of_true ⟨rfl, rfl⟩ h, fun hnot => absurd h hnot⟩
  · next h =>
    rw [admits_iff hseen] at h
    obtain ⟨draws, last, s', hsupplies, hends, hrun⟩ :=
      Draw.exists_draws_of_last (fun x => u.admits seen x) draw (maxDraws - 1) s
    simp only [admits_iff hseen] at hends
    refine ⟨draws, last, s', ?_, hsupplies, iff_of_false ?_ h, fun _ => hends⟩
    · rw [redraw_eq u seen draw _ 0, hrun]
    · exact fun hkept => hends.ne_nil hkept.1

theorem Settles.exhausted (h : u.Settles kept t) (hafter : ¬ u.MayFollow kept t.after) :
    t.draws.length = 1000 ∧ ∀ x ∈ t.draws, ¬ u.MayFollow kept x := by
  by_cases hbefore : u.MayFollow kept t.before
  · rw [(h.kept_iff.2 hbefore).2] at hafter
    contradiction
  · exact (h.redrawn hbefore).exhausted hafter

/-! ### Walks -/

theorem exists_walk_of_applyAfter (u : Unique) (draw : StateM σ Int64)
    (hseen : ∀ v, v ∈ seen ↔ v ∈ kept) (rolls : List Int64) (s : σ) :
    ∃ turns result s', (u.applyAfter draw seen rolls).run s = (result, s') ∧
      Walk draw rolls s turns result s' ∧
        ∀ j t, turns[j]? = some t → u.Settles (kept ++ (turns.take j).map Turn.after) t := by
  induction rolls generalizing seen kept s with
  | nil => exact ⟨[], [], s, rfl, .nil draw s, by simp⟩
  | cons value rolls ih =>
    obtain ⟨draws, value', s₁, hsettle, hsupplies, hturn⟩ :=
      exists_turn_of_settle u draw hseen value s
    have hinsert : ∀ v, v ∈ seen.insert value' ↔ v ∈ kept ++ [value'] := by
      intro v
      rw [Std.HashSet.mem_insert, beq_iff_eq, hseen, List.mem_append, List.mem_singleton, or_comm,
        eq_comm]
    obtain ⟨turns, result, s', hrun, hwalk, hturns⟩ := ih hinsert s₁
    let t : Turn := ⟨value, draws, value'⟩
    refine ⟨t :: turns, value' :: result, s', run_applyAfter_cons hsettle hrun,
      hwalk.cons (t := t) hsupplies, ?_⟩
    refine forall_turns_cons (P := fun earlier t => u.Settles (kept ++ earlier.map Turn.after) t) ?_
      fun j t' ht' => ?_
    · rw [List.map_nil, List.append_nil]
      exact hturn
    · rw [List.map_cons, List.append_cons]
      exact hturns j t' ht'

theorem applyAfter_eq_pure (u : Unique) (draw : StateM σ Int64)
    (hseen : ∀ v ∈ rolls, u.admits seen v) (h : rolls.Pairwise fun v w => v = w → u.isExempt v) :
    u.applyAfter draw seen rolls = pure rolls := by
  induction rolls generalizing seen with
  | nil => rfl
  | cons value rolls ih =>
    rw [List.forall_mem_cons] at hseen
    rw [List.pairwise_cons] at h
    have hrest : ∀ v ∈ rolls, u.admits (seen.insert value) v := by
      intro v hv
      have hadmits := hseen.2 v hv
      have hdiffers := h.1 v hv
      grind [admits]
    rw [applyAfter_cons, settle, if_pos hseen.1, pure_bind, ih hrest h.2, pure_bind]

theorem run_rolls_eq {sides quantity : UInt32} (h : u.check quantity sides = .ok ())
    {result : List Int64} (hrun : (u.apply draw rolls).run s = (result, s')) :
    (Modifier.rolls (.unique u) sides quantity draw rolls).run s = (.ok result, s') := by
  rw [Modifier.rolls, h]
  exact run_liftM_eq_ok_iff.2 hrun

theorem exists_walk_of_rolls {sides quantity : UInt32} (h : u.check quantity sides = .ok ())
    (draw : StateM σ Int64) (rolls : List Int64) (s : σ) :
    ∃ turns result s',
      (Modifier.rolls (.unique u) sides quantity draw rolls).run s = (.ok result, s') ∧
        Walk draw rolls s turns result s' ∧ result.length = rolls.length ∧
        (∀ j t, turns[j]? = some t → u.Settles (result.take j) t) ∧
        (∀ i j v, i < j → result[i]? = some v → result[j]? = some v → ¬ u.isExempt v →
          ∃ t, turns[j]? = some t ∧ t.draws.length = 1000 ∧
            ∀ x ∈ t.draws, ¬ u.isExempt x ∧ x ∈ result.take j) ∧
        (result.Pairwise (fun v w => v = w → u.isExempt v) → ∀ s₁,
          (Modifier.rolls (.unique u) sides quantity draw result).run s₁ = (.ok result, s₁)) := by
  have hempty : ∀ v, v ∈ (∅ : Std.HashSet Int64) ↔ v ∈ ([] : List Int64) := by simp
  obtain ⟨turns, result, s', hrun, hwalk, hturns⟩ :=
    exists_walk_of_applyAfter u draw hempty rolls s
  have hsettles : ∀ j t, turns[j]? = some t → u.Settles (result.take j) t := by
    intro j t ht
    rw [← hwalk.after, ← List.map_take]
    exact hturns j t ht
  refine ⟨turns, result, s', run_rolls_eq h hrun, hwalk, hwalk.length_eq, hsettles, ?_, ?_⟩
  · intro i j v hij hi hj hexempt
    obtain ⟨t, ht, rfl⟩ : ∃ t, turns[j]? = some t ∧ t.after = v := by
      rwa [← hwalk.after, List.getElem?_map, Option.map_eq_some_iff] at hj
    have hmem : t.after ∈ result.take j :=
      List.mem_of_getElem? ((List.getElem?_take_of_lt hij).trans hi)
    have hvain := (hsettles j t ht).exhausted (by simp [MayFollow, hexempt, hmem])
    refine ⟨t, ht, hvain.1, fun x hx => ?_⟩
    simpa [MayFollow] using hvain.2 x hx
  · intro hpairwise s₁
    apply run_rolls_eq h
    rw [apply, applyAfter_eq_pure u draw (by simp [admits]) hpairwise]
    rfl

theorem exists_walk_of_rolls_redrawn :
    ∃ (u : Unique) (draw : StateM Nat Int64) (turns : List Turn),
      u.check 5 6 = .ok () ∧
        (Modifier.rolls (.unique u) 6 5 draw [3, 3, 5, 1, 1]).run 0 = (.ok [3, 5, 4, 1, 1], 3) ∧
        Walk draw [3, 3, 5, 1, 1] 0 turns [3, 5, 4, 1, 1] 3 ∧
        ∀ j t, turns[j]? = some t → u.Settles ([3, 5, 4, 1, 1].take j) t := by
  let u : Unique := { notUnique := [1] }
  let draw : StateM Nat Int64 := Draw.cycle #[3, 5, 4] 0
  have hcheck : u.check 5 6 = .ok () := rfl
  have happly : (u.apply draw [3, 3, 5, 1, 1]).run 0 = ([3, 5, 4, 1, 1], 3) := by
    -- Of all the retries two are written out, which is more than any of these dice needs.
    obtain ⟨n, hn⟩ : ∃ n, maxDraws - 1 = n + 2 := ⟨997, rfl⟩
    simp only [apply, applyAfter, admits, hn, redraw, Std.HashSet.contains_insert,
      Std.HashSet.contains_empty]
    rfl
  obtain ⟨turns, result, s', hrun, hwalk, -, hsettles, -, -⟩ :=
    exists_walk_of_rolls hcheck draw [3, 3, 5, 1, 1] 0
  rw [run_rolls_eq hcheck happly] at hrun
  cases hrun
  exact ⟨u, draw, turns, hcheck, run_rolls_eq hcheck happly, hwalk, hsettles⟩

end DicePool.Unique
