import Mathlib.Algebra.Order.Group.Multiset
import Mathlib.Algebra.Order.Sub.Basic
import Mathlib.Data.List.Basic
import DicePool.Proofs.Run
import DicePool.Roll

/-!
This module contains the replay of logs. The logs that a roll leaves behind lead from the first
rolls to the last ones, stage by stage, if the rolls are counted by value.
-/

namespace DicePool

variable {σ : Type}

/-! ### Differences -/

theorem ascendingDifference_add (before after : List Int64) :
    (before : Multiset Int64) + ↑(ascendingDifference before after).1 =
      ↑after + ↑(ascendingDifference before after).2 := by
  -- The lists need not be ascending for this: every value is put on one side or on both.
  fun_induction ascendingDifference before after with
  | case1 after => simp
  | case2 before _ => simp
  | case3 before y after ih =>
    rw [← Multiset.cons_coe, ← Multiset.cons_coe, Multiset.cons_add, Multiset.cons_add, ih]
  | case4 x before y after _ _ added removed heq ih =>
    rw [heq] at ih
    dsimp only at ih ⊢
    rw [← Multiset.cons_coe x before, ← Multiset.cons_coe x removed, Multiset.cons_add,
      Multiset.add_cons, ih]
  | case5 x before y after _ _ added removed heq ih =>
    rw [heq] at ih
    dsimp only at ih ⊢
    rw [← Multiset.cons_coe y added, ← Multiset.cons_coe y after, Multiset.cons_add,
      Multiset.add_cons, ih]

theorem ascendingDifference_sublist (before after : List Int64) :
    (ascendingDifference before after).2.Sublist before := by
  fun_induction ascendingDifference before after with
  | case1 after => simp
  | case2 before _ => simp
  | case3 before y after ih => exact ih.cons _
  | case4 x before y after _ _ added removed heq ih =>
    rw [heq] at ih
    exact ih.cons_cons x
  | case5 x before y after _ _ added removed heq ih =>
    rw [heq] at ih
    exact ih

theorem ascendingDifference_self (rolls : List Int64) :
    ascendingDifference rolls rolls = ([], []) := by
  induction rolls with
  | nil => rw [ascendingDifference]
  | cons x rolls ih => rw [ascendingDifference, if_pos rfl, ih]

theorem difference_add (before after : List Int64) :
    (before : Multiset Int64) + ↑(difference before after).1 =
      ↑after + ↑(difference before after).2 := by
  have h := ascendingDifference_add before.mergeSort after.mergeSort
  rwa [Multiset.coe_eq_coe.2 (List.mergeSort_perm before _),
    Multiset.coe_eq_coe.2 (List.mergeSort_perm after _)] at h

theorem difference_removed_le (before after : List Int64) :
    (↑(difference before after).2 : Multiset Int64) ≤ ↑before :=
  Multiset.coe_le.2
    ((ascendingDifference_sublist _ _).subperm.trans (List.mergeSort_perm before _).subperm)

/-! ### Replays -/

def StageLog.replay (rolls : Multiset Int64) (log : StageLog) : Option (Multiset Int64) :=
  if (log.removed : Multiset Int64) ≤ rolls then some (rolls - ↑log.removed + ↑log.added) else none

def replay (rolls : Multiset Int64) (logs : List StageLog) : Option (Multiset Int64) :=
  logs.foldlM StageLog.replay rolls

theorem replay_ofRolls (m : Modifier) (before after : List Int64) :
    (StageLog.ofRolls m before after).replay ↑before = some ↑after := by
  have hle := difference_removed_le before after
  have hadd := difference_add before after
  have hremoved : (StageLog.ofRolls m before after).removed = (difference before after).2 := rfl
  have hadded : (StageLog.ofRolls m before after).added = (difference before after).1 := rfl
  rw [StageLog.replay, hremoved, hadded, if_pos hle, tsub_add_eq_add_tsub hle, hadd,
    add_tsub_cancel_right]

/-! ### Stages -/

structure Tally.Explains (t : Tally) (ms : List Modifier) (logs : List StageLog) (t' : Tally) :
    Prop where
  appended : t'.logs = t.logs ++ logs
  modifiers : logs.map StageLog.modifier = ms
  kinds : ∀ log ∈ logs, log.kind = log.modifier.kind
  replayed : replay ↑t.rolls logs = some ↑t'.rolls
  arithmetic : ∀ log ∈ logs, log.kind = .plus ∨ log.kind = .minus →
    log.added = [] ∧ log.removed = []
  bonus : t'.bonus = ms.foldl (fun bonus m => m.bonus bonus) t.bonus

namespace Tally

theorem Explains.refl (t : Tally) : t.Explains [] [] t where
  appended := (List.append_nil _).symm
  modifiers := rfl
  kinds := by simp
  replayed := rfl
  arithmetic := by simp
  bonus := rfl

theorem Explains.trans {t t' t'' : Tally} {ms ms' : List Modifier} {logs logs' : List StageLog}
    (h : t.Explains ms logs t') (h' : t'.Explains ms' logs' t'') :
    t.Explains (ms ++ ms') (logs ++ logs') t'' where
  appended := by rw [h'.appended, h.appended, List.append_assoc]
  modifiers := by rw [List.map_append, h.modifiers, h'.modifiers]
  kinds := List.forall_mem_append.2 ⟨h.kinds, h'.kinds⟩
  replayed := by
    rw [replay, List.foldlM_append]
    exact Option.bind_eq_some_iff.2 ⟨_, h.replayed, h'.replayed⟩
  arithmetic := List.forall_mem_append.2 ⟨h.arithmetic, h'.arithmetic⟩
  bonus := by rw [h'.bonus, h.bonus, List.foldl_append]

end Tally

theorem difference_self (rolls : List Int64) : difference rolls rolls = ([], []) :=
  ascendingDifference_self _

namespace Modifier

variable {sides quantity : UInt32} {draw : StateM σ Int64} {s s' : σ} {t t' : Tally}

theorem rolls_eq_of_kind {m : Modifier} (hm : m.kind = .plus ∨ m.kind = .minus)
    {before after : List Int64}
    (h : (m.rolls sides quantity draw before).run s = (.ok after, s')) : after = before := by
  cases m with
  | plus n => exact (run_pure_eq_ok_iff.1 h).1.symm
  | minus n => exact (run_pure_eq_ok_iff.1 h).1.symm
  | _ => simp [kind] at hm

theorem explains_of_apply {m : Modifier}
    (h : (m.apply sides quantity draw t).run s = (.ok t', s')) :
    ∃ log, t.Explains [m] [log] t' := by
  obtain ⟨rolls, s₁, hrolls, hpure⟩ := run_bind_eq_ok_iff.1 h
  obtain ⟨rfl, _⟩ := run_pure_eq_ok_iff.1 hpure
  refine ⟨.ofRolls m t.rolls rolls, rfl, rfl, ?_, ?_, ?_, rfl⟩
  · rw [List.forall_mem_singleton]
    rfl
  · exact Option.bind_eq_some_iff.2 ⟨_, replay_ofRolls m t.rolls rolls, rfl⟩
  · rw [List.forall_mem_singleton]
    intro hm
    rw [rolls_eq_of_kind hm hrolls, StageLog.ofRolls, difference_self]
    exact ⟨rfl, rfl⟩

theorem run_rolls_of_run_apply {m : Modifier}
    (h : (m.apply sides quantity draw t).run s = (.ok t', s')) :
    (m.rolls sides quantity draw t.rolls).run s = (.ok t'.rolls, s') := by
  obtain ⟨after, s₁, hafter, hpure⟩ := run_bind_eq_ok_iff.1 h
  obtain ⟨rfl, rfl⟩ := run_pure_eq_ok_iff.1 hpure
  exact hafter

def applyAll (ms : List Modifier) (sides quantity : UInt32) (draw : StateM σ Int64) (t : Tally) :
    ExceptT RollError (StateM σ) Tally :=
  ms.foldlM (fun t m => m.apply sides quantity draw t) t

theorem rolls_of_applyAll {P : List Int64 → Prop} {ms : List Modifier}
    (hstep : ∀ m ∈ ms, ∀ before after s s', P before →
      (m.rolls sides quantity draw before).run s = (.ok after, s') → P after)
    (ht : P t.rolls) (h : (applyAll ms sides quantity draw t).run s = (.ok t', s')) :
    P t'.rolls := by
  induction ms generalizing t s with
  | nil =>
    obtain ⟨rfl, _⟩ := run_pure_eq_ok_iff.1 h
    exact ht
  | cons m ms ih =>
    rw [List.forall_mem_cons] at hstep
    obtain ⟨t₁, s₁, hm, hms⟩ := run_bind_eq_ok_iff.1 h
    exact ih hstep.2 (hstep.1 _ _ _ _ ht (run_rolls_of_run_apply hm)) hms

theorem explains_of_applyAll {ms : List Modifier}
    (h : (applyAll ms sides quantity draw t).run s = (.ok t', s')) :
    ∃ logs, t.Explains ms logs t' := by
  induction ms generalizing t s with
  | nil =>
    obtain ⟨rfl, _⟩ := run_pure_eq_ok_iff.1 h
    exact ⟨[], .refl t⟩
  | cons m ms ih =>
    obtain ⟨t₁, s₁, hm, hms⟩ := run_bind_eq_ok_iff.1 h
    obtain ⟨log, hlog⟩ := explains_of_apply hm
    obtain ⟨logs, hlogs⟩ := ih hms
    exact ⟨log :: logs, hlog.trans hlogs⟩

theorem exists_of_applyAll_append {ms ms' : List Modifier}
    (h : (applyAll (ms ++ ms') sides quantity draw t).run s = (.ok t', s')) :
    ∃ t₁ s₁, (applyAll ms sides quantity draw t).run s = (.ok t₁, s₁) ∧
      (applyAll ms' sides quantity draw t₁).run s₁ = (.ok t', s') := by
  rw [applyAll, List.foldlM_append] at h
  exact run_bind_eq_ok_iff.1 h

end Modifier

/-! ### Sets of modifiers -/

namespace ModifierSet

theorem kind_of_get? {m : ModifierSet} {k : Kind} {x : Modifier} (h : m.get? k = some x) :
    x.kind = k := by
  cases k <;> simp only [get?, Option.map_eq_some_iff] at h
  case explode =>
    split at h
    · cases h
      rfl
    · contradiction
  all_goals
    obtain ⟨_, _, rfl⟩ := h
    rfl

theorem map_kind_toList (m : ModifierSet) :
    m.toList.map Modifier.kind = Kind.inOrder.filter fun k => (m.get? k).isSome := by
  rw [toList]
  induction Kind.inOrder with
  | nil => rfl
  | cons k ks ih =>
    cases hk : m.get? k with
    | none => simp [hk, ih]
    | some x => simp [hk, ih, kind_of_get? hk]

theorem foldl_bonus_of_kind {xs : List Modifier}
    (h : ∀ x ∈ xs, x.kind ≠ .plus ∧ x.kind ≠ .minus) (bonus : Int64) :
    xs.foldl (fun bonus x => x.bonus bonus) bonus = bonus := by
  induction xs with
  | nil => rfl
  | cons x xs ih =>
    rw [List.forall_mem_cons] at h
    have hx : x.bonus bonus = bonus := by
      cases x with
      | plus n => exact absurd rfl h.1.1
      | minus n => exact absurd rfl h.1.2
      | _ => rfl
    rw [List.foldl_cons, hx, ih h.2]

theorem foldl_bonus_toList (m : ModifierSet) :
    m.toList.foldl (fun bonus x => x.bonus bonus) 0 =
      Bounded.sub (Bounded.add 0 (m.plus.getD 0)) (m.minus.getD 0) := by
  let front : List Kind :=
    [.cap, .drop, .replace, .reroll, .explode, .compound, .penetrate, .unique]
  have hfront : ∀ x ∈ front.filterMap m.get?, x.kind ≠ .plus ∧ x.kind ≠ .minus := by
    intro x hx
    obtain ⟨k, hk, hget⟩ := List.mem_filterMap.1 hx
    rw [kind_of_get? hget]
    have : ∀ k ∈ front, k ≠ .plus ∧ k ≠ .minus := by decide
    exact this k hk
  -- The list ends with the two kinds that count, if they are there.
  have hsplit : m.toList = front.filterMap m.get? ++ [Kind.plus, Kind.minus].filterMap m.get? := by
    rw [← List.filterMap_append]
    rfl
  have hzero : Bounded.add 0 0 = 0 := by decide
  rw [hsplit, List.foldl_append, foldl_bonus_of_kind hfront]
  cases hp : m.plus <;> cases hm : m.minus <;> simp [get?, hp, hm, Modifier.bonus, hzero]

end ModifierSet

/-! ### Rolls -/

theorem die_one (float : StateM σ Float) :
    Draw.die float 1 = (do let _ ← float; return 1) := by
  have hmin : ∀ n, min n ((1 : UInt32).toNat - 1) = 0 := Nat.min_zero
  unfold Draw.die Draw.below
  simp only [if_neg (by decide : ¬ (1 : UInt32) = 0), hmin, bind_assoc, pure_bind]
  rfl

namespace Pool

variable {p : Pool} {float : StateM σ Float} {s s' : σ} {r : Record}

def rollUpTo (p : Pool) (float : StateM σ Float) (k : Nat) :
    ExceptT RollError (StateM σ) Tally := do
  let die := Draw.die float p.sides
  let initialRolls ← Draw.times die p.quantity.toNat
  Modifier.applyAll (p.modifiers.toList.take k) p.sides p.quantity die { rolls := initialRolls }

theorem exists_of_roll (h : (p.roll float).run s = (.ok r, s')) :
    ∃ initialRolls s₁ t,
      (Draw.times (Draw.die float p.sides) p.quantity.toNat).run s = (initialRolls, s₁) ∧
        (Modifier.applyAll p.modifiers.toList p.sides p.quantity (Draw.die float p.sides)
          { rolls := initialRolls }).run s₁ = (.ok t, s') ∧
        r = .ofTally p initialRolls t := by
  obtain ⟨initialRolls, s₁, hinitial, happly⟩ := run_bind_eq_ok_iff.1 h
  obtain ⟨t, s₂, ht, hpure⟩ := run_bind_eq_ok_iff.1 happly
  obtain ⟨rfl, rfl⟩ := run_pure_eq_ok_iff.1 hpure
  exact ⟨initialRolls, s₁, t, run_liftM_eq_ok_iff.1 hinitial, ht, rfl⟩

/--
What the record of a roll says about how it came about. The `k`-th stage is what the same draws
leave after the first `k` modifiers.
-/
structure Audit (p : Pool) (float : StateM σ Float) (s : σ) (r : Record) : Prop where
  quantity : r.history.initialRolls.length = p.quantity.toNat
  modifiers : r.history.logs.map StageLog.modifier = p.modifiers.toList
  kinds : r.history.logs.map StageLog.kind =
    Kind.inOrder.filter fun k => (p.modifiers.get? k).isSome
  stages : ∀ k, ∃ t s', (p.rollUpTo float k).run s = (.ok t, s') ∧
    t.logs = r.history.logs.take k ∧
      replay ↑r.history.initialRolls (r.history.logs.take k) = some ↑t.rolls
  replayed : replay ↑r.history.initialRolls r.history.logs = some ↑r.history.modifiedRolls
  arithmetic : ∀ log ∈ r.history.logs, log.kind = .plus ∨ log.kind = .minus →
    log.added = [] ∧ log.removed = []
  bonus : r.history.bonus =
    Bounded.sub (Bounded.add 0 (p.modifiers.plus.getD 0)) (p.modifiers.minus.getD 0)
  rolls : r.rolls = r.history.modifiedRolls
  total : r.total = Bounded.add (Bounded.sum r.rolls) r.history.bonus
  historyTotal : r.history.total = r.total
  appliedTotal : r.appliedTotal = p.sign.apply r.total
  consistent : r.isConsistent

theorem take_append_of_lengths {α : Type} {xs ys : List α} {k n : Nat} (hx : xs.length = min k n)
    (hy : ys.length = n - k) : (xs ++ ys).take k = xs := by
  have hys : ys.take (k - xs.length) = [] := by
    rw [List.take_eq_nil_iff]
    by_cases hk : k ≤ n
    · left
      omega
    · right
      apply List.eq_nil_of_length_eq_zero
      omega
  rw [List.take_append, List.take_of_length_le (by omega), hys, List.append_nil]

theorem exists_of_stage (h : (p.roll float).run s = (.ok r, s')) (k : Nat) :
    ∃ t s', (p.rollUpTo float k).run s = (.ok t, s') ∧
      t.logs = r.history.logs.take k ∧
        replay ↑r.history.initialRolls (r.history.logs.take k) = some ↑t.rolls := by
  obtain ⟨initialRolls, s₁, t, hinitial, happly, rfl⟩ := exists_of_roll h
  rw [← List.take_append_drop k p.modifiers.toList] at happly
  obtain ⟨u, s₂, hfront, hback⟩ := Modifier.exists_of_applyAll_append happly
  obtain ⟨logs, hlogs⟩ := Modifier.explains_of_applyAll hfront
  obtain ⟨logs', hlogs'⟩ := Modifier.explains_of_applyAll hback
  have hu : u.logs = logs := hlogs.appended
  -- There is one log for each modifier, so that the first `k` logs are those of the front part.
  have htake : t.logs.take k = u.logs := by
    rw [hlogs'.appended]
    apply take_append_of_lengths
    · rw [hu, ← List.length_map StageLog.modifier, hlogs.modifiers, List.length_take]
    · rw [← List.length_map StageLog.modifier, hlogs'.modifiers, List.length_drop]
  refine ⟨u, s₂, ?_, htake.symm, ?_⟩
  · exact run_bind_eq_ok_iff.2 ⟨initialRolls, s₁, run_liftM_eq_ok_iff.2 hinitial, hfront⟩
  · change replay ↑initialRolls (t.logs.take k) = _
    rw [htake, hu]
    exact hlogs.replayed

theorem audit_of_roll (h : (p.roll float).run s = (.ok r, s')) :
    r.pool = p ∧ p.Audit float s r := by
  have hstages := exists_of_stage h
  obtain ⟨initialRolls, s₁, t, hinitial, happly, rfl⟩ := exists_of_roll h
  obtain ⟨logs, hlogs⟩ := Modifier.explains_of_applyAll happly
  have ht : t.logs = logs := hlogs.appended
  have hlength : initialRolls.length = p.quantity.toNat := by
    have := Draw.length_times (Draw.die float p.sides) p.quantity.toNat s
    rwa [hinitial] at this
  have hkinds : logs.map StageLog.kind = p.modifiers.toList.map Modifier.kind := by
    rw [← hlogs.modifiers, List.map_map]
    exact List.map_congr_left hlogs.kinds
  have hbonus := hlogs.bonus
  rw [ModifierSet.foldl_bonus_toList] at hbonus
  refine ⟨rfl, ⟨hlength, ?_, ?_, hstages, ?_, ?_, hbonus, rfl, rfl, rfl, rfl, ?_⟩⟩
  · change t.logs.map StageLog.modifier = _
    rw [ht, hlogs.modifiers]
  · change t.logs.map StageLog.kind = _
    rw [ht, hkinds, ModifierSet.map_kind_toList]
  · change replay ↑initialRolls t.logs = _
    rw [ht]
    exact hlogs.replayed
  · change ∀ log ∈ t.logs, _
    rw [ht]
    exact hlogs.arithmetic
  · simp [Record.isConsistent, Record.ofTally, Tally.total, hlength]

theorem audit_of_roll_compound :
    ∃ (p : Pool) (float : StateM Nat Float) (r : Record),
      (p.roll float).run 0 = (.ok r, 6) ∧ r.history.initialRolls = [1, 1] ∧
        r.rolls = [3, 3] ∧ r.appliedTotal = -9 ∧ p.Audit float 0 r := by
  let p := ofValid
    { sides := .numbered 1
      quantity := 2
      modifiers := { compound := some ⟨2⟩, plus := some 3 }
      sign := .subtract }
  let float : StateM Nat Float := Draw.stream fun _ => 0.5
  have hinitial : (Draw.times (Draw.die float 1) 2).run 0 = ([1, 1], 2) := by
    rw [die_one]
    rfl
  have hcompound : (Burst.compound ⟨2⟩ 1 (Draw.die float 1) [1, 1]).run 2 = ([3, 3], 6) := by
    rw [die_one]
    rfl
  let t : Tally :=
    { rolls := [3, 3]
      bonus := Bounded.add 0 3
      logs := [.ofRolls (.compound ⟨2⟩) [1, 1] [3, 3], .ofRolls (.plus 3) [3, 3] [3, 3]] }
  have happly : (p.modifiers.apply 1 2 (Draw.die float 1) [1, 1]).run 2 = (.ok t, 6) := by
    refine run_bind_eq_ok_iff.2 ⟨{ t with bonus := 0, logs := t.logs.take 1 }, 6, ?_, rfl⟩
    exact run_bind_eq_ok_iff.2 ⟨[3, 3], 6, run_liftM_eq_ok_iff.2 hcompound, rfl⟩
  have hroll : (p.roll float).run 0 = (.ok (.ofTally p [1, 1] t), 6) :=
    run_bind_eq_ok_iff.2 ⟨[1, 1], 2, run_liftM_eq_ok_iff.2 hinitial,
      run_bind_eq_ok_iff.2 ⟨t, 6, happly, rfl⟩⟩
  exact ⟨p, float, _, hroll, rfl, rfl, by decide, (audit_of_roll hroll).2⟩

end Pool

end DicePool
