import DicePool.Proofs.Roll.Exact
import DicePool.Proofs.Roll.Turns

/-!
This module contains the walk over the dice that grow. The draws of a die depend on its value only,
not on what it gains by them. The main statements are `Burst.exists_walk_of_compound`, the closed
form of what a compounding die comes to, and `Burst.exists_walks_of_penetrate`, which says by how
much a penetrating die in its place falls short of that.
-/

namespace DicePool

variable {σ : Type} {draw : StateM σ Int64} {sides : UInt32}

theorem Walk.forall_mem_draws {P : Int64 → Prop} {rolls result : List Int64} {s s' : σ}
    {turns : List Turn} (h : Walk draw rolls s turns result s') (hdraw : Draw.Yields draw P) :
    ∀ t ∈ turns, ∀ x ∈ t.draws, P x := by
  intro t ht x hx
  exact hdraw.of_supplies h.draws x (List.mem_flatMap.2 ⟨t, ht, hx⟩)

theorem Depth.limit_eq (depth : Depth) :
    depth.limit = if depth.draws = 0 then 99 else min depth.draws.toNat 99 := by
  simp [limit, isUnlimited, maxDrawsPerDie]

namespace Burst

variable {depth : Depth} {limit : Nat} {value last : Int64} {draws : List Int64} {t t' : Turn}

/-! ### The draws of growing dice -/

structure Chases (top : Int64) (limit : Nat) (value : Int64) (draws : List Int64) : Prop where
  other : value ≠ top → draws = []
  highest : value = top → ∃ last, Draw.EndsAt (· ≠ top) limit draws last

def grownTurn (gain : Int64 → Int64) (value : Int64) (draws : List Int64) : Turn :=
  ⟨value, draws, draws.foldl (fun v x => v + gain x) value⟩

theorem exists_draws_of_growDie (depth : Depth) (sides : UInt32) (draw : StateM σ Int64)
    (value : Int64) (s : σ) :
    ∃ draws s', Draw.Supplies draw s draws s' ∧ Chases (top sides) depth.limit value draws ∧
      ∀ gain, (growDie gain depth sides draw value).run s =
        ((grownTurn gain value draws).after, s') := by
  by_cases hvalue : value = top sides
  · obtain ⟨limit, hlimit⟩ := Nat.exists_eq_add_one.2 depth.limit_pos
    obtain ⟨draws, last, s', hsupplies, hends, hrun⟩ :=
      Draw.exists_draws_of_foldUntil (· ≠ top sides) draw limit s
    rw [← hlimit] at hends hrun
    have hchases : Chases (top sides) depth.limit value draws :=
      ⟨absurd hvalue, fun _ => ⟨last, hends⟩⟩
    refine ⟨draws, s', hsupplies, hchases, fun gain => ?_⟩
    rw [growDie, if_pos hvalue, grow_eq, hrun]
    rfl
  · refine ⟨[], s, .nil draw s, ⟨fun _ => rfl, fun h => absurd h hvalue⟩, fun gain => ?_⟩
    rw [growDie, if_neg hvalue]
    rfl

theorem exists_walk_of_growAll (depth : Depth) (sides : UInt32) (draw : StateM σ Int64)
    (rolls : List Int64) (s : σ) :
    ∃ (dice : List (Int64 × List Int64)) (s' : σ),
      (∀ d ∈ dice, Chases (top sides) depth.limit d.1 d.2) ∧
        ∀ gain, ∃ result, (growAll gain depth sides draw rolls).run s = (result, s') ∧
          Walk draw rolls s (dice.map fun d => grownTurn gain d.1 d.2) result s' := by
  induction rolls generalizing s with
  | nil => exact ⟨[], s, by simp, fun gain => ⟨[], rfl, .nil draw s⟩⟩
  | cons value rolls ih =>
    obtain ⟨draws, s₁, hsupplies, hchases, hdie⟩ := exists_draws_of_growDie depth sides draw value s
    obtain ⟨dice, s', hall, hdice⟩ := ih s₁
    refine ⟨(value, draws) :: dice, s', List.forall_mem_cons.2 ⟨hchases, hall⟩, fun gain => ?_⟩
    obtain ⟨result, hrun, hwalk⟩ := hdice gain
    refine ⟨(grownTurn gain value draws).after :: result, ?_,
      hwalk.cons (t := grownTurn gain value draws) hsupplies⟩
    rw [growAll_cons, run_state_bind, hdie, run_state_bind, hrun]
    rfl

/-! ### What the dice come to -/

theorem toInt_foldl_add {gain : Int64 → Int64} (hgain : ∀ x ∈ draws, IsFace sides.toNat (gain x))
    (hvalue : 0 ≤ value.toInt)
    (hfits : value.toInt + draws.length * sides.toNat ≤ Int64.maxValue.toInt) :
    (draws.foldl (fun v x => v + gain x) value).toInt =
      value.toInt + exactSum (draws.map gain) := by
  induction draws generalizing value with
  | nil => exact (Int.add_zero _).symm
  | cons x draws ih =>
    rw [List.forall_mem_cons] at hgain
    have hrest := Int.natCast_nonneg (draws.length * sides.toNat)
    rw [List.length_cons, Int.natCast_add, Int.add_mul] at hfits
    have hadd : (value + gain x).toInt = value.toInt + (gain x).toInt :=
      Bounded.toInt_eq_of_int64?_eq_some (int64?_add_face hgain.1 hvalue (by omega))
    obtain ⟨hlo, hhi⟩ := hgain.1
    rw [List.foldl_cons, ih hgain.2 (by omega) (by omega), hadd, List.map_cons, exactSum,
      Int.add_assoc]

theorem exactSum_of_endsAt (h : Draw.EndsAt (· ≠ top sides) limit draws last) :
    exactSum draws + sides.toNat = sides.toNat * draws.length + last.toInt := by
  obtain ⟨n, hn⟩ := Nat.exists_eq_add_one.2 (List.length_pos_iff.2 h.ne_nil)
  have hfront : draws.dropLast = List.replicate n (top sides) := by
    rw [List.eq_replicate_iff, List.length_dropLast, hn, Nat.add_sub_cancel]
    exact ⟨rfl, fun x hx => not_not.1 (h.earlier x hx)⟩
  have hsum : exactSum draws = n * sides.toNat + last.toInt := by
    rw [h.eq_append, hfront, exactSum_append, exactSum_replicate, toInt_top, exactSum, exactSum,
      Int.add_zero]
  rw [hsum, hn, Int.natCast_add, Int.mul_add, Int.mul_comm n]
  omega

theorem toInt_after_grownTurn (gain : Int64 → Int64)
    (h : Chases (top sides) depth.limit value draws)
    (hgain : ∀ x ∈ draws, IsFace sides.toNat (gain x)) :
    (grownTurn gain value draws).after.toInt = value.toInt + exactSum (draws.map gain) := by
  by_cases hvalue : value = top sides
  · obtain ⟨last, hends⟩ := h.highest hvalue
    have htop := toInt_top sides
    have hfits := fits_limit depth sides
    have hlength : draws.length * sides.toNat ≤ depth.limit * sides.toNat :=
      Nat.mul_le_mul_right _ hends.length_le
    rw [hvalue]
    apply toInt_foldl_add hgain
    · omega
    · omega
  · rw [h.other hvalue]
    exact (Int.add_zero _).symm

/-! ### Compounding dice -/

/--
What becomes of a compounding die with `sides` sides. One that shows the highest face takes `k`
draws, up to the first that is not the highest face and up to `limit`, and comes to `k` times the
highest face and the last draw. Any other die is left as it is.
-/
structure Compounds (sides : UInt32) (limit : Nat) (t : Turn) : Prop where
  other : t.before ≠ top sides → t.draws = [] ∧ t.after = t.before
  highest : t.before = top sides → ∃ last, Draw.EndsAt (· ≠ top sides) limit t.draws last ∧
    t.after.toInt = sides.toNat * t.draws.length + last.toInt

theorem compounds_of_chases (h : Chases (top sides) depth.limit value draws)
    (hdraws : ∀ x ∈ draws, IsFace sides.toNat x) :
    Compounds sides depth.limit (grownTurn id value draws) where
  other := by
    intro hvalue
    rw [h.other hvalue]
    exact ⟨rfl, rfl⟩
  highest := by
    rintro rfl
    obtain ⟨last, hends⟩ := h.highest rfl
    refine ⟨last, hends, ?_⟩
    rw [toInt_after_grownTurn id h hdraws, toInt_top, List.map_id, Int.add_comm]
    exact exactSum_of_endsAt hends

theorem forall_compounds_of_chases {dice : List (Int64 × List Int64)}
    (hchases : ∀ d ∈ dice, Chases (top sides) depth.limit d.1 d.2)
    (hfaces : ∀ t ∈ dice.map fun d => grownTurn id d.1 d.2, ∀ x ∈ t.draws,
      IsFace sides.toNat x) :
    ∀ t ∈ dice.map fun d => grownTurn id d.1 d.2, Compounds sides depth.limit t := by
  intro t ht
  have hdraws := hfaces t ht
  obtain ⟨d, hd, rfl⟩ := List.mem_map.1 ht
  exact compounds_of_chases (hchases d hd) hdraws

theorem Compounds.bounds (h : Compounds sides limit t)
    (hdraws : ∀ x ∈ t.draws, IsFace sides.toNat x) (hchanged : t.after ≠ t.before) :
    sides.toNat + 1 ≤ t.after.toInt ∧ t.after.toInt ≤ sides.toNat * (limit + 1) := by
  by_cases hbefore : t.before = top sides
  · obtain ⟨last, hends, hafter⟩ := h.highest hbefore
    obtain ⟨hlo, hhi⟩ := hdraws last (List.mem_of_getLast? hends.getLast)
    have hfirst : sides.toNat * 1 ≤ sides.toNat * t.draws.length :=
      Nat.mul_le_mul_left _ (List.length_pos_iff.2 hends.ne_nil)
    have hlast : sides.toNat * t.draws.length ≤ sides.toNat * limit :=
      Nat.mul_le_mul_left _ hends.length_le
    rw [Int.mul_add]
    omega
  · exact absurd (h.other hbefore).2 hchanged

theorem exists_walk_of_compound (hdraw : Draw.Yields draw (IsFace sides.toNat)) (depth : Depth)
    (rolls : List Int64) (s : σ) :
    depth.limit = (if depth.draws = 0 then 99 else min depth.draws.toNat 99) ∧
      ∃ turns result s', (compound depth sides draw rolls).run s = (result, s') ∧
        Walk draw rolls s turns result s' ∧ result.length = rolls.length ∧
        (∀ t ∈ turns, Compounds sides depth.limit t) ∧
        ∀ t ∈ turns, t.after ≠ t.before →
          sides.toNat + 1 ≤ t.after.toInt ∧ t.after.toInt ≤ sides.toNat * (depth.limit + 1) := by
  obtain ⟨dice, s', hchases, hgrowAll⟩ := exists_walk_of_growAll depth sides draw rolls s
  obtain ⟨result, hrun, hwalk⟩ := hgrowAll id
  have hfaces := hwalk.forall_mem_draws hdraw
  have hcompounds := forall_compounds_of_chases hchases hfaces
  refine ⟨depth.limit_eq, _, result, s', hrun, hwalk, hwalk.length_eq, hcompounds, fun t ht => ?_⟩
  exact (hcompounds t ht).bounds (hfaces t ht)

theorem exists_walk_of_compound_limited :
    ∃ (draw : StateM Nat Int64) (depth : Depth) (turns : List Turn),
      Draw.Yields draw (IsFace (6 : UInt32).toNat) ∧ depth.limit = 2 ∧
        (compound depth 6 draw [6, 1, 6]).run 0 = ([18, 1, 8], 3) ∧
        Walk draw [6, 1, 6] 0 turns [18, 1, 8] 3 ∧ (∀ t ∈ turns, Compounds 6 depth.limit t) ∧
        ∀ t ∈ turns, t.after ≠ t.before →
          (6 : UInt32).toNat + 1 ≤ t.after.toInt ∧
            t.after.toInt ≤ (6 : UInt32).toNat * (depth.limit + 1) := by
  let draw : StateM Nat Int64 := Draw.stream fun i => if i = 2 then 2 else 6
  have hdraw : Draw.Yields draw (IsFace (6 : UInt32).toNat) := by
    intro i
    change IsFace 6 (if i = 2 then 2 else 6)
    split
    · exact ⟨by decide, by decide⟩
    · exact ⟨by decide, by decide⟩
  have hcompound : (compound ⟨2⟩ 6 draw [6, 1, 6]).run 0 = ([18, 1, 8], 3) := rfl
  obtain ⟨hlimit, turns, result, s', hrun, hwalk, -, hcompounds, hbounds⟩ :=
    exists_walk_of_compound hdraw ⟨2⟩ [6, 1, 6] 0
  rw [hcompound] at hrun
  cases hrun
  exact ⟨draw, ⟨2⟩, turns, hdraw, hlimit, hcompound, hwalk, hcompounds, hbounds⟩

/-! ### Penetrating dice -/

theorem exactSum_map_penetrating (hdraws : ∀ x ∈ draws, IsFace sides.toNat x) :
    exactSum (draws.map fun x => max (x - 1) 1) = exactSum draws - draws.countP (1 < ·) := by
  induction draws with
  | nil => rfl
  | cons x draws ih =>
    rw [List.forall_mem_cons] at hdraws
    have hx := hdraws.1.one_le
    have hone : (1 : Int64) < x ↔ 1 < x.toInt := Int64.lt_iff_toInt_lt
    rw [List.map_cons, exactSum, exactSum, ih hdraws.2, toInt_penetrating hx, List.countP_cons]
    simp only [decide_eq_true_eq, hone]
    split
    · omega
    · omega

structure FallsShort (t t' : Turn) : Prop where
  before : t'.before = t.before
  draws : t'.draws = t.draws
  after : t'.after.toInt = t.after.toInt - t.draws.countP (1 < ·)

theorem fallsShort_of_chases (h : Chases (top sides) depth.limit value draws)
    (hdraws : ∀ x ∈ draws, IsFace sides.toNat x) :
    FallsShort (grownTurn id value draws) (grownTurn (fun x => max (x - 1) 1) value draws) where
  before := rfl
  draws := rfl
  after := by
    have hgain : ∀ x ∈ draws, IsFace sides.toNat (max (x - 1) 1) :=
      fun x hx => isFace_penetrating (hdraws x hx)
    rw [toInt_after_grownTurn _ h hgain, toInt_after_grownTurn id h hdraws, List.map_id,
      exactSum_map_penetrating hdraws]
    exact (Int.add_sub_assoc _ _ _).symm

namespace FallsShort

theorem after_le (h : FallsShort t t') : t'.after ≤ t.after := by
  rw [Int64.le_iff_toInt_le, h.after]
  omega

theorem after_eq (h : FallsShort t t') (hdraws : ∀ x ∈ t.draws, IsFace 1 x) :
    t'.after = t.after := by
  have hcount : t.draws.countP (1 < ·) = 0 := by
    rw [List.countP_eq_zero]
    intro x hx
    have := (hdraws x hx).le
    rw [decide_eq_true_eq, Int64.lt_iff_toInt_lt]
    change ¬ 1 < x.toInt
    omega
  rw [← Int64.toInt_inj, h.after, hcount]
  exact Int.sub_zero _

end FallsShort

theorem exists_walks_of_penetrate (hdraw : Draw.Yields draw (IsFace sides.toNat)) (depth : Depth)
    (rolls : List Int64) (s : σ) :
    ∃ turns turns' compounded penetrated s',
      (compound depth sides draw rolls).run s = (compounded, s') ∧
        (penetrate depth sides draw rolls).run s = (penetrated, s') ∧
        Walk draw rolls s turns compounded s' ∧ Walk draw rolls s turns' penetrated s' ∧
        (∀ t ∈ turns, Compounds sides depth.limit t) ∧ List.Forall₂ FallsShort turns turns' ∧
        List.Forall₂ (· ≤ ·) penetrated compounded ∧ (sides = 1 → penetrated = compounded) := by
  obtain ⟨dice, s', hchases, hgrowAll⟩ := exists_walk_of_growAll depth sides draw rolls s
  obtain ⟨compounded, hcompound, hwalk⟩ := hgrowAll id
  obtain ⟨penetrated, hpenetrate, hwalk'⟩ := hgrowAll fun x => max (x - 1) 1
  have hdraws := hwalk.forall_mem_draws hdraw
  have hcompounds := forall_compounds_of_chases hchases hdraws
  have hfaces : ∀ d ∈ dice, ∀ x ∈ d.2, IsFace sides.toNat x :=
    fun d hd => hdraws _ (List.mem_map_of_mem hd)
  have hshort : ∀ d ∈ dice,
      FallsShort (grownTurn id d.1 d.2) (grownTurn (fun x => max (x - 1) 1) d.1 d.2) :=
    fun d hd => fallsShort_of_chases (hchases d hd) (hfaces d hd)
  refine ⟨_, _, compounded, penetrated, s', hcompound, hpenetrate, hwalk, hwalk', hcompounds,
    ?_, ?_, ?_⟩
  · rw [List.forall₂_map_left_iff, List.forall₂_map_right_iff, List.forall₂_same]
    exact hshort
  · rw [← hwalk.after, ← hwalk'.after, List.map_map, List.map_map, List.forall₂_map_left_iff,
      List.forall₂_map_right_iff, List.forall₂_same]
    exact fun d hd => (hshort d hd).after_le
  · rintro rfl
    rw [← hwalk.after, ← hwalk'.after, List.map_map, List.map_map]
    apply List.map_congr_left
    exact fun d hd => (hshort d hd).after_eq (hfaces d hd)

theorem exists_walks_of_penetrate_floored :
    ∃ (draw : StateM Nat Int64) (turns turns' : List Turn),
      Draw.Yields draw (IsFace (6 : UInt32).toNat) ∧
        (compound ⟨2⟩ 6 draw [6, 2, 6]).run 0 = ([13, 2, 10], 3) ∧
        (penetrate ⟨2⟩ 6 draw [6, 2, 6]).run 0 = ([12, 2, 9], 3) ∧
        Walk draw [6, 2, 6] 0 turns [13, 2, 10] 3 ∧ Walk draw [6, 2, 6] 0 turns' [12, 2, 9] 3 ∧
        (∀ t ∈ turns, Compounds 6 (⟨2⟩ : Depth).limit t) ∧ List.Forall₂ FallsShort turns turns' ∧
        List.Forall₂ (· ≤ ·) [12, 2, 9] ([13, 2, 10] : List Int64) := by
  -- The draw of 1 that ends the growth of the first die counts in full.
  let draw : StateM Nat Int64 := Draw.stream fun i => if i = 0 then 6 else if i = 1 then 1 else 4
  have hdraw : Draw.Yields draw (IsFace (6 : UInt32).toNat) := by
    intro i
    change IsFace 6 (if i = 0 then 6 else if i = 1 then 1 else 4)
    split
    · exact ⟨by decide, by decide⟩
    · split
      · exact ⟨by decide, by decide⟩
      · exact ⟨by decide, by decide⟩
  have hcompound : (compound ⟨2⟩ 6 draw [6, 2, 6]).run 0 = ([13, 2, 10], 3) := rfl
  have hpenetrate : (penetrate ⟨2⟩ 6 draw [6, 2, 6]).run 0 = ([12, 2, 9], 3) := by
    unfold draw
    rfl
  obtain ⟨turns, turns', compounded, penetrated, s', hrun, hrun', hwalk, hwalk', hcompounds,
    hshort, hle, -⟩ := exists_walks_of_penetrate hdraw ⟨2⟩ [6, 2, 6] 0
  rw [hcompound] at hrun
  rw [hpenetrate] at hrun'
  cases hrun
  cases hrun'
  exact ⟨draw, turns, turns', hdraw, hcompound, hpenetrate, hwalk, hwalk', hcompounds, hshort, hle⟩

end Burst

end DicePool
