import Mathlib.Data.List.Sort
import Std.Data.HashMap
import DicePool.Proofs.Roll.Replay

/-!
This module contains the difference of rolls before and after a modifier. The main statement is
`difference_exact`: it is the only pair of ascending lists without a common value that leads from
the ones to the others, and it is also what comes out if every value is counted on its own, in
whatever order the counts are gathered.
-/

namespace DicePool

variable {before after : List Int64} {d : List Int64 × List Int64}

/-! ### Differences of multisets -/

/--
What it means that `d.1` has been added to some rolls and `d.2` has been removed from them. Both are
ascending, and no value is in both.
-/
structure IsDifference (before after : List Int64) (d : List Int64 × List Int64) : Prop where
  added_ascending : d.1.Pairwise (· ≤ ·)
  removed_ascending : d.2.Pairwise (· ≤ ·)
  disjoint : d.1.Disjoint d.2
  balance : (before : Multiset Int64) + ↑d.1 = ↑after + ↑d.2

namespace IsDifference

theorem count_eq (h : IsDifference before after d) (v : Int64) :
    d.1.count v = after.count v - before.count v ∧
      d.2.count v = before.count v - after.count v := by
  have hbalance := congrArg (Multiset.count v) h.balance
  rw [Multiset.count_add, Multiset.count_add] at hbalance
  simp only [Multiset.coe_count] at hbalance
  have hone : d.1.count v = 0 ∨ d.2.count v = 0 := by
    by_cases hv : v ∈ d.1
    · exact .inr (List.count_eq_zero.2 (h.disjoint hv))
    · exact .inl (List.count_eq_zero.2 hv)
  omega

theorem of_count (hadded : d.1.Pairwise (· ≤ ·)) (hremoved : d.2.Pairwise (· ≤ ·))
    (hcount : ∀ v, d.1.count v = after.count v - before.count v ∧
      d.2.count v = before.count v - after.count v) : IsDifference before after d where
  added_ascending := hadded
  removed_ascending := hremoved
  disjoint := by
    intro v hv hv'
    have := hcount v
    rw [← List.count_pos_iff] at hv hv'
    omega
  balance := by
    ext v
    have := hcount v
    rw [Multiset.count_add, Multiset.count_add]
    simp only [Multiset.coe_count]
    omega

theorem unique {d' : List Int64 × List Int64} (h : IsDifference before after d)
    (h' : IsDifference before after d') : d = d' := by
  have hadded : d.1.Perm d'.1 := by
    rw [List.perm_iff_count]
    intro v
    rw [(h.count_eq v).1, (h'.count_eq v).1]
  have hremoved : d.2.Perm d'.2 := by
    rw [List.perm_iff_count]
    intro v
    rw [(h.count_eq v).2, (h'.count_eq v).2]
  apply Prod.ext
  · exact hadded.eq_of_pairwise' h.added_ascending h'.added_ascending
  · exact hremoved.eq_of_pairwise' h.removed_ascending h'.removed_ascending

end IsDifference

/-! ### Differences of ascending lists -/

theorem ascendingDifference_sublist_after (before after : List Int64) :
    (ascendingDifference before after).1.Sublist after := by
  fun_induction ascendingDifference before after with
  | case1 after => simp
  | case2 before _ => simp
  | case3 before y after ih => exact ih.cons _
  | case4 x before y after _ _ added removed heq ih =>
    rw [heq] at ih
    exact ih
  | case5 x before y after _ _ added removed heq ih =>
    rw [heq] at ih
    exact ih.cons_cons y

theorem ascendingDifference_disjoint (hbefore : before.Pairwise (· ≤ ·))
    (hafter : after.Pairwise (· ≤ ·)) :
    (ascendingDifference before after).1.Disjoint (ascendingDifference before after).2 := by
  fun_induction ascendingDifference before after with
  | case1 after => exact List.disjoint_nil_right _
  | case2 before _ => exact List.disjoint_nil_left _
  | case3 before y after ih => exact ih hbefore.of_cons hafter.of_cons
  | case4 x before y after hne hlt added removed heq ih =>
    have hsub := ascendingDifference_sublist_after before (y :: after)
    rw [heq] at ih hsub
    rw [List.disjoint_cons_right]
    refine ⟨fun hx => ?_, ih hbefore.of_cons hafter⟩
    obtain rfl | hx := List.mem_cons.1 (hsub.mem hx)
    · exact hne rfl
    · exact absurd (List.rel_of_pairwise_cons hafter hx) (Int64.not_le.2 hlt)
  | case5 x before y after hne hlt added removed heq ih =>
    have hsub := ascendingDifference_sublist (x :: before) after
    rw [heq] at ih hsub
    rw [List.disjoint_cons_left]
    refine ⟨fun hy => ?_, ih hbefore hafter.of_cons⟩
    obtain rfl | hy := List.mem_cons.1 (hsub.mem hy)
    · exact hne rfl
    · exact hlt (Int64.lt_of_le_of_ne (List.rel_of_pairwise_cons hbefore hy) hne)

theorem isDifference_difference (before after : List Int64) :
    IsDifference before after (difference before after) := by
  have hbefore := List.pairwise_mergeSort' (· ≤ ·) before
  have hafter := List.pairwise_mergeSort' (· ≤ ·) after
  exact {
    added_ascending := hafter.sublist (ascendingDifference_sublist_after _ _)
    removed_ascending := hbefore.sublist (ascendingDifference_sublist _ _)
    disjoint := ascendingDifference_disjoint hbefore hafter
    balance := difference_add before after }

theorem isDifference_iff : IsDifference before after d ↔ d = difference before after := by
  constructor
  · intro h
    exact h.unique (isDifference_difference before after)
  · rintro rfl
    exact isDifference_difference before after

theorem difference_eq_nil_iff : difference before after = ([], []) ↔ after.Perm before := by
  rw [eq_comm, ← isDifference_iff]
  constructor
  · intro h
    have hbalance : (before : Multiset Int64) + 0 = ↑after + 0 := h.balance
    rw [add_zero, add_zero, Multiset.coe_eq_coe] at hbalance
    exact hbalance.symm
  · intro h
    exact ⟨.nil, .nil, List.disjoint_nil_left _, congrArg (· + 0) (Multiset.coe_eq_coe.2 h.symm)⟩

theorem StageLog.isNoop_ofRolls_iff (m : Modifier) :
    (StageLog.ofRolls m before after).isNoop ↔ after.Perm before := by
  rw [← difference_eq_nil_iff, Prod.ext_iff, isNoop, Bool.and_eq_true, List.isEmpty_iff,
    List.isEmpty_iff]
  rfl

/-! ### Counting every value on its own -/

def shift (step : Int) (balances : Std.HashMap Int64 Int) (value : Int64) : Std.HashMap Int64 Int :=
  balances.insert value (balances.getD value 0 + step)

def balances (before after : List Int64) : Std.HashMap Int64 Int :=
  after.foldl (shift 1) (before.foldl (shift (-1)) ∅)

def gather : List (Int64 × Int) → List Int64 × List Int64
  | [] => ([], [])
  | (value, balance) :: entries =>
    let (added, removed) := gather entries
    let copies := List.replicate balance.natAbs value
    if 0 < balance then (copies ++ added, removed) else (added, copies ++ removed)

theorem getD_foldl_shift (step : Int) (rolls : List Int64) (counts : Std.HashMap Int64 Int)
    (v : Int64) :
    (rolls.foldl (shift step) counts).getD v 0 = counts.getD v 0 + step * rolls.count v := by
  induction rolls generalizing counts with
  | nil => simp
  | cons x rolls ih =>
    rw [List.foldl_cons, ih, shift, Std.HashMap.getD_insert]
    by_cases hx : x = v
    · rw [hx, List.count_cons_self, if_pos (beq_self_eq_true v), Int.natCast_add, Int.mul_add]
      omega
    · rw [List.count_cons_of_ne hx, if_neg (by simpa using hx)]

theorem getD_balances (before after : List Int64) (v : Int64) :
    (balances before after).getD v 0 = after.count v - before.count v := by
  rw [balances, getD_foldl_shift, getD_foldl_shift, Std.HashMap.getD_empty]
  omega

theorem gather_eq (entries : List (Int64 × Int)) :
    gather entries = (entries.flatMap fun e => List.replicate e.2.toNat e.1,
      entries.flatMap fun e => List.replicate (-e.2).toNat e.1) := by
  induction entries with
  | nil => rfl
  | cons e entries ih =>
    obtain ⟨value, balance⟩ := e
    simp only [gather, ih, List.flatMap_cons]
    split
    · next hpos =>
      rw [show balance.natAbs = balance.toNat by omega, show (-balance).toNat = 0 by omega]
      rfl
    · next hneg =>
      rw [show balance.natAbs = (-balance).toNat by omega, show balance.toNat = 0 by omega]
      rfl

theorem count_flatMap_replicate {values : List Int64} (h : values.Nodup) (copies : Int64 → Nat)
    (v : Int64) :
    (values.flatMap fun x => List.replicate (copies x) x).count v =
      if v ∈ values then copies v else 0 := by
  induction values with
  | nil => simp
  | cons x values ih =>
    rw [List.nodup_cons] at h
    rw [List.flatMap_cons, List.count_append, ih h.2, List.count_replicate]
    by_cases hx : x = v
    · subst hx
      simp [h.1]
    · simp [hx, Ne.symm hx]

theorem count_flatMap_of_perm {counts : Std.HashMap Int64 Int} {entries : List (Int64 × Int)}
    (h : entries.Perm counts.toList) (copies : Int → Nat) (hcopies : copies 0 = 0) (v : Int64) :
    (entries.flatMap fun e => List.replicate (copies e.2) e.1).count v =
      copies (counts.getD v 0) := by
  have hentry : ∀ e ∈ entries, e.2 = counts.getD e.1 0 := by
    intro e he
    have hget := Std.HashMap.mem_toList_iff_getElem?_eq_some.1 (h.mem_iff.1 he)
    rw [Std.HashMap.getD_eq_getD_getElem?, hget, Option.getD_some]
  have hkeys : (entries.map Prod.fst).Perm counts.keys := by
    rw [← Std.HashMap.map_fst_toList_eq_keys]
    exact h.map _
  have hmap : (entries.flatMap fun e => List.replicate (copies e.2) e.1) =
      (entries.map Prod.fst).flatMap fun x => List.replicate (copies (counts.getD x 0)) x := by
    rw [List.flatMap_map]
    apply List.flatMap_congr
    intro e he
    rw [hentry e he]
  rw [hmap, count_flatMap_replicate (hkeys.nodup_iff.2 Std.HashMap.nodup_keys)]
  split
  · rfl
  · next hv =>
    rw [hkeys.mem_iff, Std.HashMap.mem_keys] at hv
    rw [Std.HashMap.getD_eq_fallback hv, hcopies]

theorem isDifference_gather {entries : List (Int64 × Int)}
    (h : entries.Perm (balances before after).toList) :
    IsDifference before after ((gather entries).1.mergeSort, (gather entries).2.mergeSort) := by
  apply IsDifference.of_count
  · exact List.pairwise_mergeSort' (· ≤ ·) _
  · exact List.pairwise_mergeSort' (· ≤ ·) _
  · intro v
    rw [(List.mergeSort_perm _ _).count_eq, (List.mergeSort_perm _ _).count_eq, gather_eq]
    dsimp only
    rw [count_flatMap_of_perm h Int.toNat rfl, count_flatMap_of_perm h (fun n => (-n).toNat) rfl,
      getD_balances]
    omega

/-! ### Logs -/

theorem difference_exact (before after : List Int64) :
    (∀ d, IsDifference before after d ↔ d = difference before after) ∧
      (∀ before' after' : List Int64, before'.Perm before → after'.Perm after →
        difference before' after' = difference before after) ∧
      (∀ entries : List (Int64 × Int), entries.Perm (balances before after).toList →
        ((gather entries).1.mergeSort, (gather entries).2.mergeSort) = difference before after) ∧
      ∀ m, (StageLog.ofRolls m before after).isNoop ↔ after.Perm before := by
  refine ⟨fun d => isDifference_iff, ?_, ?_, StageLog.isNoop_ofRolls_iff⟩
  · intro before' after' hbefore hafter
    obtain ⟨hadded, hremoved, hdisjoint, hbalance⟩ := isDifference_difference before' after'
    rw [Multiset.coe_eq_coe.2 hbefore, Multiset.coe_eq_coe.2 hafter] at hbalance
    exact isDifference_iff.1 ⟨hadded, hremoved, hdisjoint, hbalance⟩
  · intro entries hentries
    exact isDifference_iff.1 (isDifference_gather hentries)

theorem difference_exact_reordered :
    let entries := (balances [3, 1, 1] [1, 2, 3, 2]).toList.reverse
    difference [3, 1, 1] [1, 2, 3, 2] = ([2, 2], [1]) ∧
      difference [1, 3, 1] [3, 2, 2, 1] = ([2, 2], [1]) ∧
        ((gather entries).1.mergeSort, (gather entries).2.mergeSort) = ([2, 2], [1]) ∧
          ¬ (StageLog.ofRolls .explode [3, 1, 1] [1, 2, 3, 2]).isNoop := by
  obtain ⟨honly, hperm, hcounts, hnoop⟩ := difference_exact [3, 1, 1] [1, 2, 3, 2]
  have hdifference : difference [3, 1, 1] [1, 2, 3, 2] = ([2, 2], [1]) := by
    symm
    apply (honly _).1
    exact ⟨by decide, by decide, by simp, by decide⟩
  refine ⟨hdifference, ?_, ?_, ?_⟩
  · rw [hperm [1, 3, 1] [3, 2, 2, 1] (by decide) (by decide), hdifference]
  · rw [hcounts _ (List.reverse_perm _), hdifference]
  · rw [hnoop]
    decide

end DicePool
