import DicePool.Modifier.Reroll
import DicePool.Proofs.Roll.Turns

/-!
This module contains the walk over the dice that are rolled again. The main statement is
`Reroll.exists_walk_of_apply`, which says for each die whether it is rolled again and at which draw
this ends.
-/

namespace DicePool.Reroll

variable {σ : Type} {trigger : Condition} {quota : Option Nat} {draw : StateM σ Int64} {s s' : σ}
  {rolls : List Int64}

theorem exists_draws_of_redraw (trigger : Condition) (draw : StateM σ Int64) (s : σ) :
    ∃ draws value s', (redraw trigger draw (maxDrawsPerDie - 1)).run s = (value, s') ∧
      Draw.Supplies draw s draws s' ∧
        Draw.EndsAt (fun x => ¬ trigger.holds x) 99 draws value := by
  obtain ⟨draws, last, s', hsupplies, hends, hrun⟩ :=
    Draw.exists_draws_of_last (fun x => ¬ trigger.holds x) draw (maxDrawsPerDie - 1) s
  refine ⟨draws, last, s', ?_, hsupplies, hends⟩
  rw [redraw_eq trigger draw _ 0, hrun]

/--
What becomes of a die after those that had their turns `earlier`. It is rolled again if `trigger`
holds for it, as long as fewer than `quota` dice have been, which is to say that `trigger` holds for
fewer than `quota` of the earlier ones.
-/
structure Settles (trigger : Condition) (quota : Option Nat) (earlier : List Turn) (t : Turn) :
    Prop where
  drawn_iff : t.isDrawn ↔
    trigger.holds t.before ∧ ∀ n ∈ quota, earlier.countP Turn.isDrawn < n
  first_iff : t.isDrawn ↔
    trigger.holds t.before ∧ ∀ n ∈ quota, earlier.countP (fun u => trigger.holds u.before) < n
  kept : t.draws = [] → t.after = t.before
  redrawn : t.isDrawn → Draw.EndsAt (fun x => ¬ trigger.holds x) 99 t.draws t.after

namespace Settles

variable {earlier : List Turn} {t u : Turn}

theorem of_drawn (hholds : trigger.holds t.before) (hquota : quota ≠ some 0)
    (hends : Draw.EndsAt (fun x => ¬ trigger.holds x) 99 t.draws t.after) :
    Settles trigger quota [] t := by
  have hdrawn : t.isDrawn := t.isDrawn_iff.2 hends.ne_nil
  have hpos : ∀ n ∈ quota, 0 < n := by
    intro n hn
    rw [Nat.pos_iff_ne_zero]
    rintro rfl
    exact hquota hn
  exact {
    drawn_iff := iff_of_true hdrawn ⟨hholds, hpos⟩
    first_iff := iff_of_true hdrawn ⟨hholds, hpos⟩
    kept := fun h => absurd h hends.ne_nil
    redrawn := fun _ => hends }

theorem of_kept {value : Int64} (h : ¬ (trigger.holds value ∧ quota ≠ some 0)) :
    Settles trigger quota [] ⟨value, [], value⟩ := by
  have hquota : ¬ (trigger.holds value ∧ ∀ n ∈ quota, 0 < n) := by
    rintro ⟨hholds, hpos⟩
    refine h ⟨hholds, ?_⟩
    rintro rfl
    exact absurd (hpos 0 rfl) (Nat.lt_irrefl 0)
  exact {
    drawn_iff := iff_of_false Bool.false_ne_true hquota
    first_iff := iff_of_false Bool.false_ne_true hquota
    kept := fun _ => rfl
    redrawn := fun h => absurd h Bool.false_ne_true }

theorem forall_countP_cons_lt_iff {p : Turn → Bool} (hu : p u) :
    (∀ n ∈ quota.map (· - 1), earlier.countP p < n) ↔ ∀ n ∈ quota, (u :: earlier).countP p < n := by
  rw [List.countP_cons_of_pos hu]
  simp [Nat.lt_sub_iff_add_lt]

theorem after_drawn (hholds : trigger.holds u.before) (hdrawn : u.isDrawn)
    (h : Settles trigger (quota.map (· - 1)) earlier t) :
    Settles trigger quota (u :: earlier) t where
  drawn_iff := h.drawn_iff.trans (and_congr_right' (forall_countP_cons_lt_iff hdrawn))
  first_iff := h.first_iff.trans (and_congr_right' (forall_countP_cons_lt_iff hholds))
  kept := h.kept
  redrawn := h.redrawn

theorem after_kept (hu : ¬ (trigger.holds u.before ∧ quota ≠ some 0)) (hdrawn : ¬ u.isDrawn)
    (h : Settles trigger quota earlier t) : Settles trigger quota (u :: earlier) t where
  drawn_iff := by
    rw [h.drawn_iff, List.countP_cons_of_neg hdrawn]
  first_iff := by
    rw [h.first_iff]
    by_cases hholds : trigger.holds u.before
    · -- The quota is used up, so that no later die is rolled again either.
      obtain rfl : quota = some 0 := by simpa [hholds] using hu
      simp
    · simp only [List.countP_cons, hholds, Bool.false_eq_true, if_false, Nat.add_zero]
  kept := h.kept
  redrawn := h.redrawn

theorem exhausted (h : Settles trigger quota earlier t) (hafter : trigger.holds t.after) :
    (t.draws = [] ∧ ∃ n ∈ quota, n ≤ earlier.countP Turn.isDrawn) ∨
      (t.draws.length = 99 ∧ ∀ x ∈ t.draws, trigger.holds x) := by
  by_cases hdrawn : t.isDrawn
  · right
    have hends := (h.redrawn hdrawn).exhausted (not_not.2 hafter)
    simpa only [not_not] using hends
  · left
    have hnil : t.draws = [] := by simpa [Turn.isDrawn] using hdrawn
    rw [h.kept hnil] at hafter
    rw [h.drawn_iff] at hdrawn
    refine ⟨hnil, ?_⟩
    by_contra hnone
    exact hdrawn ⟨hafter, fun n hn => Nat.lt_of_not_le fun hle => hnone ⟨n, hn, hle⟩⟩

end Settles

theorem exists_walk_of_applyWithin (trigger : Condition) (draw : StateM σ Int64)
    (quota : Option Nat) (rolls : List Int64) (s : σ) :
    ∃ turns result s', (applyWithin trigger draw quota rolls).run s = (result, s') ∧
      Walk draw rolls s turns result s' ∧
        ∀ i t, turns[i]? = some t → Settles trigger quota (turns.take i) t := by
  induction rolls generalizing quota s with
  | nil => exact ⟨[], [], s, rfl, .nil draw s, by simp⟩
  | cons value rolls ih =>
    rw [applyWithin]
    split
    · next h =>
      obtain ⟨hholds, hquota⟩ := h
      obtain ⟨draws, value', s₁, hredraw, hsupplies, hends⟩ := exists_draws_of_redraw trigger draw s
      obtain ⟨turns, result, s', hrun, hwalk, hsettles⟩ := ih (quota.map (· - 1)) s₁
      let t : Turn := ⟨value, draws, value'⟩
      have ht : t.isDrawn := t.isDrawn_iff.2 hends.ne_nil
      refine ⟨t :: turns, value' :: result, s', ?_, hwalk.cons (t := t) hsupplies, ?_⟩
      · rw [run_state_bind, hredraw, run_state_bind, hrun]
        rfl
      · exact forall_turns_cons (.of_drawn hholds hquota hends) fun i u hu =>
          (hsettles i u hu).after_drawn hholds ht
    · next h =>
      obtain ⟨turns, result, s', hrun, hwalk, hsettles⟩ := ih quota s
      let t : Turn := ⟨value, [], value⟩
      refine ⟨t :: turns, value :: result, s', ?_, hwalk.cons (t := t) (.nil draw s), ?_⟩
      · rw [run_state_bind, hrun]
        rfl
      · exact forall_turns_cons (.of_kept h) fun i u hu =>
          (hsettles i u hu).after_kept h Bool.false_ne_true

theorem exists_walk_of_apply (r : Reroll) (draw : StateM σ Int64) (rolls : List Int64) (s : σ) :
    ∃ turns result s', (r.apply draw rolls).run s = (result, s') ∧
      Walk draw rolls s turns result s' ∧ result.length = rolls.length ∧
        ∀ i t, turns[i]? = some t →
          Settles r.trigger (r.max.map UInt32.toNat) (turns.take i) t ∧
            (r.trigger.holds t.after →
              (t.draws = [] ∧ ∃ n ∈ r.max, n.toNat ≤ (turns.take i).countP Turn.isDrawn) ∨
                (t.draws.length = 99 ∧ ∀ x ∈ t.draws, r.trigger.holds x)) := by
  obtain ⟨turns, result, s', hrun, hwalk, hsettles⟩ :=
    exists_walk_of_applyWithin r.trigger draw (r.max.map UInt32.toNat) rolls s
  refine ⟨turns, result, s', hrun, hwalk, hwalk.length_eq, fun i t ht => ⟨hsettles i t ht, ?_⟩⟩
  intro hafter
  have hexhausted := (hsettles i t ht).exhausted hafter
  simpa using hexhausted

end DicePool.Reroll
