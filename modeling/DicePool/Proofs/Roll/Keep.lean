import DicePool.Proofs.Roll.Drop
import DicePool.Proofs.Roll.Stages

/-!
This module contains the statement that dice which a pool asks to keep are kept. They are turned
into dice to drop when the pool is made, counted against its quantity, and dropped from what the cap
has left of the first rolls. The main statement is `Pool.exists_run_roll_kept`.
-/

namespace DicePool

variable {σ : Type}

theorem drop_inter_take {α : Type} [BEq α] [LawfulBEq α] {xs : List α} (h : xs.Nodup) (i j : Nat) :
    xs.drop i ∩ xs.take j = (xs.take j).drop i := by
  have hfront : ∀ y ∈ (xs.take j).drop i, (xs.take j).elem y := by
    intro y hy
    exact List.elem_eq_true_of_mem (List.mem_of_mem_drop hy)
  have hback : ∀ y ∈ (xs.drop j).drop (i - (xs.take j).length), ¬ (xs.take j).elem y := by
    intro y hy hmem
    exact List.disjoint_take_drop h (Nat.le_refl j) (List.mem_of_elem_eq_true hmem)
      (List.mem_of_mem_drop hy)
  calc xs.drop i ∩ xs.take j
    _ = ((xs.take j ++ xs.drop j).drop i).filter (xs.take j).elem := by
      rw [List.take_append_drop]
      rfl
    _ = (xs.take j).drop i := by
      rw [List.drop_append, List.filter_append, List.filter_eq_self.2 hfront,
        List.filter_eq_nil_iff.2 hback, List.append_nil]

namespace Keep

variable {k : Keep} {quantity : UInt32} {rolls : List Int64}

theorem toNat_surplus (quantity kept : UInt32) :
    (surplus quantity kept).toNat = quantity.toNat - kept.toNat := by
  unfold surplus
  split
  · next h => exact UInt32.toNat_sub_of_le _ _ h
  · next h =>
    rw [UInt32.le_iff_toNat_le] at h
    rw [UInt32.toNat_zero]
    omega

def greatest (count : Nat) (rolls : List Int64) : List (Int64 × Nat) :=
  (Drop.ranked rolls).drop (rolls.length - count)

def least (count : Nat) (rolls : List Int64) : List (Int64 × Nat) :=
  (Drop.ranked rolls).take count

/--
What it means that dice have been kept of a pool. They stand in the order in which they were rolled.
In ascending order they are the values of the pool from the place at which the highest ones begin up
to the place at which the lowest ones end, none if these do not meet.
-/
structure Keeps (k : Keep) (rolls kept : List Int64) : Prop where
  order : kept.Sublist rolls
  slice : kept.mergeSort = rolls.mergeSort.extract
    (rolls.length - k.highest.elim rolls.length UInt32.toNat)
    (min rolls.length (k.lowest.elim rolls.length UInt32.toNat))
  highest : ∀ count, k = { highest := some count } →
    kept.mergeSort = (greatest count.toNat rolls).map Prod.fst ∧
      kept.length = min count.toNat rolls.length
  lowest : ∀ count, k = { lowest := some count } →
    kept.mergeSort = (least count.toNat rolls).map Prod.fst ∧
      kept.length = min count.toNat rolls.length
  both : ∀ high low, k = { highest := some high, lowest := some low } →
    kept.mergeSort = (greatest high.toNat rolls ∩ least low.toNat rolls).map Prod.fst

theorem apply_toDrop (k : Keep) (quantity : UInt32) (rolls : List Int64) :
    (k.toDrop quantity {}).apply rolls =
      Drop.trim (quantity.toNat - k.lowest.elim quantity.toNat UInt32.toNat)
        (quantity.toNat - k.highest.elim quantity.toNat UInt32.toNat) rolls := by
  obtain ⟨highest, lowest⟩ := k
  have hfilter : rolls.filter (fun v => !({} : Condition).holds v) = rolls := by
    rw [List.filter_eq_self]
    intro v _
    rw [Condition.not_holds_of_isEmpty rfl]
    rfl
  rw [Drop.apply, toDrop, hfilter]
  cases highest <;> cases lowest <;> simp [toNat_surplus]

theorem map_fst_greatest (count : Nat) (rolls : List Int64) :
    (greatest count rolls).map Prod.fst = rolls.mergeSort.drop (rolls.length - count) := by
  rw [greatest, List.map_drop, Drop.map_fst_ranked]

theorem map_fst_least (count : Nat) (rolls : List Int64) :
    (least count rolls).map Prod.fst = rolls.mergeSort.take count := by
  rw [least, List.map_take, Drop.map_fst_ranked]

theorem map_fst_greatest_inter_least (high low : Nat) (rolls : List Int64) :
    (greatest high rolls ∩ least low rolls).map Prod.fst =
      (rolls.mergeSort.take low).drop (rolls.length - high) := by
  rw [greatest, least, drop_inter_take (Drop.nodup_ranked rolls), List.map_drop, List.map_take,
    Drop.map_fst_ranked]

theorem mergeSort_apply_toDrop (k : Keep) (hlength : rolls.length = quantity.toNat) :
    ((k.toDrop quantity {}).apply rolls).mergeSort =
      (rolls.mergeSort.take (k.lowest.elim rolls.length UInt32.toNat)).drop
        (rolls.length - k.highest.elim rolls.length UInt32.toNat) := by
  have htake : ∀ count, rolls.mergeSort.take (min rolls.length count) =
      rolls.mergeSort.take count := by
    intro count
    rw [List.take_eq_take_iff, List.length_mergeSort]
    omega
  rw [apply_toDrop, Drop.mergeSort_trim, hlength, Nat.sub_sub_eq_min, ← hlength, htake]

theorem keeps_apply_toDrop (k : Keep) (hlength : rolls.length = quantity.toNat) :
    k.Keeps rolls ((k.toDrop quantity {}).apply rolls) := by
  have hslice := mergeSort_apply_toDrop k hlength
  have hlen := congrArg List.length hslice
  rw [List.length_mergeSort, List.length_drop, List.length_take, List.length_mergeSort] at hlen
  constructor
  case order =>
    rw [apply_toDrop]
    exact Drop.sublist_trim _ _ _
  case slice =>
    rw [hslice, List.drop_take, List.take_eq_take_iff, List.length_drop, List.length_mergeSort]
    omega
  case highest =>
    rintro count rfl
    rw [Option.elim_some, Option.elim_none] at hslice hlen
    constructor
    · rw [hslice, map_fst_greatest, List.take_of_length_le (by rw [List.length_mergeSort])]
    · omega
  case lowest =>
    rintro count rfl
    rw [Option.elim_some, Option.elim_none] at hslice hlen
    constructor
    · rw [hslice, map_fst_least, Nat.sub_self, List.drop_zero]
    · omega
  case both =>
    rintro high low rfl
    rw [hslice, map_fst_greatest_inter_least]
    rfl

end Keep

namespace Pool

variable {spec : PoolSpec} {p : Pool} {float : StateM σ Float} {s s' : σ} {t : Tally} {r : Record}
  {kinds : List Kind}

theorem modifiers_of_keep (h : ofSpec spec = .ok p) {k : Keep}
    (hkeep : spec.modifiers.keep = some k) (hdrop : spec.modifiers.drop = none) :
    p.modifiers.cap = spec.modifiers.cap ∧
      p.modifiers.drop = some (k.toDrop spec.quantity {}) := by
  obtain ⟨_, rfl⟩ := ofSpec_eq_ok_iff.1 h
  rw [modifiers_ofValid, normalize_eq, hkeep, hdrop]
  exact ⟨rfl, rfl⟩

theorem quantity_eq (h : ofSpec spec = .ok p) : p.quantity = spec.quantity := by
  obtain ⟨_, rfl⟩ := ofSpec_eq_ok_iff.1 h
  change (ofValid spec).toSpec.quantity = spec.quantity
  rw [toSpec_ofValid]

theorem exists_dropped (h : ofSpec spec = .ok p) {d : Drop} (hd : p.modifiers.drop = some d)
    (ht : (p.rollThrough float kinds).run s = (.ok t, s')) :
    ∃ t', (p.rollThrough float (kinds ++ [.drop])).run s = (.ok t', s') ∧
      t'.rolls = d.apply t.rolls := by
  obtain ⟨t', s₁, ht', hdropped⟩ := exists_run_rollThrough_snoc h ht .drop
  refine ⟨t', ?_⟩
  rw [ModifierSet.get?, hd] at hdropped
  obtain ⟨hnone, _⟩ | ⟨m, hm, hrolls⟩ := hdropped
  · contradiction
  · cases hm
    obtain ⟨hafter, rfl⟩ := run_pure_eq_ok_iff.1 hrolls
    exact ⟨ht', hafter.symm⟩

theorem exists_run_roll_kept (h : ofSpec spec = .ok p) {k : Keep}
    (hkeep : spec.modifiers.keep = some k) (hdrop : spec.modifiers.drop = none)
    (float : StateM σ Float) (s : σ) :
    ∃ r s' capped kept s₁, (p.roll float).run s = (.ok r, s') ∧
      (p.rollThrough float [.cap]).run s = (.ok capped, s₁) ∧
      (p.rollThrough float [.cap, .drop]).run s = (.ok kept, s₁) ∧
      kept.logs <+: r.history.logs ∧
      capped.rolls = r.history.initialRolls.map (spec.modifiers.cap.elim id capRoll) ∧
      capped.rolls.length = spec.quantity.toNat ∧
      k.Keeps capped.rolls kept.rolls := by
  obtain ⟨hcap, hd⟩ := modifiers_of_keep h hkeep hdrop
  obtain ⟨r, s', hroll, _⟩ := exists_run_roll h float s
  obtain ⟨initialRolls, s₁, t, hinitial, _, rfl⟩ := exists_of_roll hroll
  obtain ⟨capped, hcapped, hmap⟩ := exists_capped h hinitial
  obtain ⟨kept, hkept, happly⟩ := exists_dropped h hd hcapped
  have hlength : capped.rolls.length = spec.quantity.toNat := by
    have hcount := Draw.length_times (Draw.die float p.sides) p.quantity.toNat s
    rw [hinitial] at hcount
    rw [hmap, List.length_map, ← quantity_eq h, hcount]
  refine ⟨_, s', capped, kept, s₁, hroll, hcapped, hkept, prefix_logs_of_roll rfl hroll hkept, ?_,
    hlength, ?_⟩
  · rw [hmap, hcap]
    rfl
  · rw [happly]
    exact k.keeps_apply_toDrop hlength

theorem exists_run_roll_kept_both :
    ∃ (spec : PoolSpec) (p : Pool) (float : StateM Nat Float) (k : Keep) (r : Record) (s' : Nat)
      (capped kept : Tally) (s₁ : Nat), ofSpec spec = .ok p ∧ spec.modifiers.keep = some k ∧
      spec.modifiers.drop = none ∧ (p.roll float).run 0 = (.ok r, s') ∧
      r.history.initialRolls = [6, 1, 4, 6] ∧
      (p.rollThrough float [.cap]).run 0 = (.ok capped, s₁) ∧ capped.rolls = [5, 1, 4, 5] ∧
      (p.rollThrough float [.cap, .drop]).run 0 = (.ok kept, s₁) ∧ kept.rolls = [4] ∧
      k.Keeps capped.rolls kept.rolls := by
  let k : Keep := { highest := some 3, lowest := some 2 }
  let spec : PoolSpec :=
    { sides := .numbered 6
      quantity := 4
      modifiers := { cap := some (.above 5), keep := some k } }
  let float : StateM Nat Float := Draw.cycle #[0.9, 0.0, 0.5, 0.9] 0
  have h : ofSpec spec = .ok (ofValid spec) := rfl
  obtain ⟨r, s', capped, kept, s₁, hroll, hcap, hdrop, _, hmap, _, hkept⟩ :=
    exists_run_roll_kept h (k := k) rfl rfl float 0
  have hfirst : r.history.initialRolls = [6, 1, 4, 6] := by
    obtain ⟨initialRolls, _, _, hinitial, _, rfl⟩ := exists_of_roll hroll
    calc initialRolls
      _ = ((Draw.times (Draw.die float 6) 4).run 0).1 := (congrArg Prod.fst hinitial).symm
      _ = [6, 1, 4, 6] := by decide +kernel
  have hcapped : capped.rolls = [5, 1, 4, 5] := by
    rw [hmap, hfirst]
    decide
  have hascending : ([5, 1, 4, 5] : List Int64).mergeSort = [1, 4, 5, 5] :=
    (Drop.mergeSort_congr (by decide)).trans (List.mergeSort_eq_self (· ≤ ·) (by decide))
  have hslice : kept.rolls.mergeSort = [4] := by
    rw [hkept.slice, hcapped, hascending]
    decide
  have hperm : kept.rolls.Perm [4] := by
    rw [← hslice]
    exact (List.mergeSort_perm _ _).symm
  exact ⟨spec, _, float, k, r, s', capped, kept, s₁, h, rfl, rfl, hroll, hfirst, hcap, hcapped,
    hdrop, hperm.eq_singleton, hkept⟩

end Pool

end DicePool
