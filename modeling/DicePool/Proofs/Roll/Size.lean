import DicePool.Proofs.Roll.Replay

/-!
This module contains the numbers of dice in a pool while its modifiers are applied. Dropping takes
dice away, exploding adds some, and every other modifier leaves as many as there were.
-/

namespace DicePool

variable {σ : Type}

theorem Drop.length_apply_le (d : Drop) (rolls : List Int64) :
    (d.apply rolls).length ≤ rolls.length := by
  have hfilter := List.length_filter_le (fun v => !d.filter.holds v) rolls
  simp only [apply, trim, ranked, List.length_map, List.length_mergeSort, List.length_drop,
    List.length_take, List.length_zipIdx]
  omega

theorem Replacement.length_applyAll (rules : List Replacement) (rolls : List Int64) :
    (applyAll rules rolls).length = rolls.length := by
  induction rules generalizing rolls with
  | nil => rfl
  | cons r rules ih =>
    rw [← List.singleton_append, applyAll_append, ih]
    exact List.length_map _

theorem Reroll.length_applyWithin (trigger : Condition) (draw : StateM σ Int64)
    (quota : Option Nat) (rolls : List Int64) (s : σ) :
    ((applyWithin trigger draw quota rolls).run s).1.length = rolls.length := by
  induction rolls generalizing quota s with
  | nil => rfl
  | cons value rolls ih =>
    rw [applyWithin]
    split
    · exact congrArg (· + 1) (ih _ _)
    · exact congrArg (· + 1) (ih _ _)

theorem Burst.length_growAll (gain : Int64 → Int64) (depth : Depth) (sides : UInt32)
    (draw : StateM σ Int64) (rolls : List Int64) (s : σ) :
    ((growAll gain depth sides draw rolls).run s).1.length = rolls.length := by
  induction rolls generalizing s with
  | nil => rfl
  | cons value rolls ih =>
    rw [growAll]
    split
    · exact congrArg (· + 1) (ih _)
    · exact congrArg (· + 1) (ih _)

theorem Unique.length_applyAfter (u : Unique) (draw : StateM σ Int64) (seen : Std.HashSet Int64)
    (rolls : List Int64) (s : σ) :
    ((u.applyAfter draw seen rolls).run s).1.length = rolls.length := by
  induction rolls generalizing seen s with
  | nil => rfl
  | cons value rolls ih =>
    rw [applyAfter]
    split
    · exact congrArg (· + 1) (ih _ _)
    · exact congrArg (· + 1) (ih _ _)

theorem Unique.length_apply (u : Unique) (draw : StateM σ Int64) (rolls : List Int64) (s : σ) :
    ((u.apply draw rolls).run s).1.length = rolls.length :=
  length_applyAfter u draw ∅ rolls s

namespace Modifier

variable {sides quantity : UInt32} {draw : StateM σ Int64} {s s' : σ}

theorem run_rolls_unique {u : Unique} {before after : List Int64}
    (h : (rolls (.unique u) sides quantity draw before).run s = (.ok after, s')) :
    (u.apply draw before).run s = (after, s') := by
  rw [rolls] at h
  cases hcheck : u.check quantity sides with
  | error e =>
    rw [hcheck] at h
    cases h
  | ok _ =>
    rw [hcheck] at h
    exact run_liftM_eq_ok_iff.1 h

theorem length_rolls_le {m : Modifier} (hm : m ≠ .explode) {before after : List Int64}
    (h : (m.rolls sides quantity draw before).run s = (.ok after, s')) :
    after.length ≤ before.length := by
  cases m with
  | cap bounds =>
    obtain ⟨rfl, _⟩ := run_pure_eq_ok_iff.1 h
    rw [List.length_map]
  | drop d =>
    obtain ⟨rfl, _⟩ := run_pure_eq_ok_iff.1 h
    exact d.length_apply_le before
  | replace rules =>
    obtain ⟨rfl, _⟩ := run_pure_eq_ok_iff.1 h
    rw [Replacement.length_applyAll]
  | reroll r =>
    rw [eq_of_run_liftM h]
    exact (Reroll.length_applyWithin _ _ _ _ _).le
  | explode => contradiction
  | compound depth | penetrate depth =>
    rw [eq_of_run_liftM h]
    exact (Burst.length_growAll _ _ _ _ _ _).le
  | unique u =>
    have hlength := Unique.length_apply u draw before s
    rw [run_rolls_unique h] at hlength
    exact hlength.le
  | plus n | minus n =>
    obtain ⟨rfl, _⟩ := run_pure_eq_ok_iff.1 h
    exact Nat.le_refl _

theorem length_rolls_explode {before after : List Int64}
    (h : (rolls .explode sides quantity draw before).run s = (.ok after, s')) :
    after.length = before.length + before.count (Burst.top sides) := by
  have hafter : after = before ++ ((Draw.times draw (before.count (Burst.top sides))).run s).1 :=
    eq_of_run_liftM h
  rw [hafter, List.length_append, Draw.length_times]

theorem length_applyAll_le_pow {ms : List Modifier} {t t' : Tally}
    (h : (applyAll ms sides quantity draw t).run s = (.ok t', s')) :
    t'.rolls.length ≤ 2 ^ ms.count .explode * t.rolls.length := by
  induction ms generalizing t s with
  | nil =>
    obtain ⟨rfl, _⟩ := run_pure_eq_ok_iff.1 h
    simp
  | cons m ms ih =>
    obtain ⟨t₁, s₁, hm, hms⟩ := run_bind_eq_ok_iff.1 h
    have hrest := ih hms
    have hrolls := run_rolls_of_run_apply hm
    by_cases hexplode : m = .explode
    · subst hexplode
      have hlength := length_rolls_explode hrolls
      have hcount := List.count_le_length (a := Burst.top sides) (l := t.rolls)
      calc
        t'.rolls.length ≤ 2 ^ ms.count .explode * t₁.rolls.length := hrest
        _ ≤ 2 ^ ms.count .explode * (2 * t.rolls.length) := Nat.mul_le_mul_left _ (by omega)
        _ = 2 ^ (explode :: ms).count .explode * t.rolls.length := by
          rw [List.count_cons_self, Nat.pow_succ, Nat.mul_assoc]
    · rw [List.count_cons_of_ne hexplode]
      exact hrest.trans (Nat.mul_le_mul_left _ (length_rolls_le hexplode hrolls))

end Modifier

end DicePool
