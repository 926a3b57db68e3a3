import Mathlib.Data.List.Sort
import DicePool.Modifier.Drop

/-!
This module contains what dropping leaves of a pool. The main statement is `leaves_apply`: the dice
that stay keep their order, and their values are a slice of all values in ascending order.
-/

namespace DicePool.Drop

variable {rolls : List Int64}

theorem mergeSort_congr {xs ys : List Int64} (h : xs.Perm ys) : xs.mergeSort = ys.mergeSort := by
  have hperm : xs.mergeSort.Perm ys.mergeSort :=
    (List.mergeSort_perm xs _).trans (h.trans (List.mergeSort_perm ys _).symm)
  exact hperm.eq_of_pairwise' (List.pairwise_mergeSort' (· ≤ ·) xs)
    (List.pairwise_mergeSort' (· ≤ ·) ys)

/-! ### Rankings -/

theorem map_fst_ranked (rolls : List Int64) : (ranked rolls).map Prod.fst = rolls.mergeSort := by
  have hmap : (ranked rolls).map Prod.fst = (rolls.zipIdx.map Prod.fst).mergeSort :=
    List.map_mergeSort fun _ _ _ _ => rfl
  rw [hmap, List.zipIdx_map_fst]

theorem pairwise_zipIdx (rolls : List Int64) : rolls.zipIdx.Pairwise fun a b => a.2 ≤ b.2 := by
  rw [← List.pairwise_map, List.zipIdx_map_snd]
  exact List.pairwise_le_range' _

theorem nodup_ranked (rolls : List Int64) : (ranked rolls).Nodup := by
  have hplaces : (rolls.zipIdx.map Prod.snd).Nodup := by
    rw [List.zipIdx_map_snd]
    exact List.nodup_range' _
  exact (List.mergeSort_perm _ _).nodup_iff.2 hplaces.of_map

theorem eq_of_mem_zipIdx {a b : Int64 × Nat} (ha : a ∈ rolls.zipIdx) (hb : b ∈ rolls.zipIdx)
    (h : a.2 = b.2) : a = b := by
  rw [List.mem_zipIdx_iff_getElem?] at ha hb
  rw [h, hb] at ha
  exact Prod.ext (Option.some.inj ha).symm h

theorem sublist_zipIdx {kept : List (Int64 × Nat)} (h : kept.Sublist (ranked rolls)) :
    (kept.mergeSort fun a b => a.2 ≤ b.2).Sublist rolls.zipIdx := by
  obtain ⟨entries, hperm, hsub⟩ := h.subperm.trans (List.mergeSort_perm rolls.zipIdx _).subperm
  have hkept : (kept.mergeSort fun a b => a.2 ≤ b.2).Perm entries :=
    (List.mergeSort_perm kept _).trans hperm.symm
  -- No two entries have the same place, so that their order by place is the only one.
  have hplace : ∀ a b, a ∈ kept.mergeSort (fun a b => a.2 ≤ b.2) → b ∈ entries →
      a.2 ≤ b.2 → b.2 ≤ a.2 → a = b := by
    intro a b ha hb hab hba
    have ha' : a ∈ rolls.zipIdx := hsub.mem (hkept.mem_iff.1 ha)
    exact eq_of_mem_zipIdx ha' (hsub.mem hb) (Nat.le_antisymm hab hba)
  have hsorted := List.pairwise_mergeSort' (fun a b : Int64 × Nat => a.2 ≤ b.2) kept
  have heq := hkept.eq_of_pairwise hplace hsorted ((pairwise_zipIdx rolls).sublist hsub)
  rw [heq]
  exact hsub

/-! ### What is left -/

theorem sublist_trim (highest lowest : Nat) (rolls : List Int64) :
    (trim highest lowest rolls).Sublist rolls := by
  have hkept : (((ranked rolls).take (rolls.length - highest)).drop lowest).Sublist
      (ranked rolls) :=
    (List.drop_sublist _ _).trans (List.take_sublist _ _)
  have hmap := (sublist_zipIdx hkept).map Prod.fst
  rwa [List.zipIdx_map_fst] at hmap

theorem mergeSort_trim (highest lowest : Nat) (rolls : List Int64) :
    (trim highest lowest rolls).mergeSort =
      (rolls.mergeSort.take (rolls.length - highest)).drop lowest := by
  have hkept : (((ranked rolls).take (rolls.length - highest)).drop lowest).map Prod.fst =
      (rolls.mergeSort.take (rolls.length - highest)).drop lowest := by
    rw [List.map_drop, List.map_take, map_fst_ranked]
  have hsorted : ((rolls.mergeSort.take (rolls.length - highest)).drop lowest).Pairwise (· ≤ ·) :=
    (List.pairwise_mergeSort' (· ≤ ·) rolls).sublist
      ((List.drop_sublist _ _).trans (List.take_sublist _ _))
  calc (trim highest lowest rolls).mergeSort
    _ = ((rolls.mergeSort.take (rolls.length - highest)).drop lowest).mergeSort := by
      rw [← hkept]
      exact mergeSort_congr ((List.mergeSort_perm _ _).map _)
    _ = (rolls.mergeSort.take (rolls.length - highest)).drop lowest :=
      List.mergeSort_eq_self (· ≤ ·) hsorted

/--
What it means that the `highest` highest and the `lowest` lowest of some values have been left out.
The others keep their order. In ascending order they are the values from the place `lowest` on and
before the place at which the highest ones begin.
-/
structure Leaves (highest lowest : Nat) (rolls left : List Int64) : Prop where
  order : left.Sublist rolls
  slice : left.mergeSort = rolls.mergeSort.extract lowest (rolls.length - highest)
  length : left.length = rolls.length - highest - lowest
  none_left : rolls.length ≤ highest + lowest → left = []

theorem leaves_trim (highest lowest : Nat) (rolls : List Int64) :
    Leaves highest lowest rolls (trim highest lowest rolls) := by
  have hslice := mergeSort_trim highest lowest rolls
  have hlength := congrArg List.length hslice
  rw [List.length_mergeSort, List.length_drop, List.length_take, List.length_mergeSort] at hlength
  constructor
  case order => exact sublist_trim highest lowest rolls
  case slice => rw [hslice, List.extract_eq_take_drop, List.drop_take]
  case length => omega
  case none_left =>
    intro hle
    rw [← List.length_eq_zero_iff]
    omega

theorem leaves_apply (d : Drop) (rolls : List Int64) :
    (d.apply rolls).Sublist rolls ∧
      Leaves (d.highest.elim 0 UInt32.toNat) (d.lowest.elim 0 UInt32.toNat)
        (rolls.filter fun v => !d.filter.holds v) (d.apply rolls) := by
  have hleaves := leaves_trim (d.highest.elim 0 UInt32.toNat) (d.lowest.elim 0 UInt32.toNat)
    (rolls.filter fun v => !d.filter.holds v)
  exact ⟨hleaves.order.trans List.filter_sublist, hleaves⟩

example :
    let d : Drop := { highest := some 1, lowest := some 2, filter := .oneOf [5] }
    d.apply [5, 9, 1, 4, 4, 8] = [4, 8] := by
  cbv

end DicePool.Drop
