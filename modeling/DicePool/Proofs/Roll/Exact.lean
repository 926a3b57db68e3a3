import DicePool.Proofs.Roll.Values

/-!
This module contains the statement that the arithmetic of ordinary pools is exact. Sums stop at the
ends of the 64-bit range, but the dice of a pool never come near them: only a cap, a replacement or
the bonus can bring large numbers in.
-/

namespace DicePool

variable {σ : Type}

/-! ### Sums -/

def exactSum : List Int64 → Int
  | [] => 0
  | value :: values => value.toInt + exactSum values

theorem length_le_exactSum {n : Nat} {values : List Int64} (h : ∀ v ∈ values, IsFace n v) :
    values.length ≤ exactSum values ∧ exactSum values ≤ (values.length * n : Nat) := by
  induction values with
  | nil => simp [exactSum]
  | cons value values ih =>
    rw [List.forall_mem_cons] at h
    obtain ⟨hlo, hhi⟩ := h.1
    have := ih h.2
    rw [exactSum, List.length_cons, Nat.add_one_mul]
    omega

theorem exactSum_nonneg {values : List Int64} (h : ∀ v ∈ values, 0 ≤ v.toInt) :
    0 ≤ exactSum values := by
  induction values with
  | nil => exact Int.le_refl _
  | cons value values ih =>
    rw [List.forall_mem_cons] at h
    exact Int.add_nonneg h.1 (ih h.2)

theorem exactSum_append (xs ys : List Int64) :
    exactSum (xs ++ ys) = exactSum xs + exactSum ys := by
  induction xs with
  | nil => exact (Int.zero_add _).symm
  | cons x xs ih => rw [List.cons_append, exactSum, exactSum, ih, Int.add_assoc]

theorem exactSum_replicate (n : Nat) (value : Int64) :
    exactSum (List.replicate n value) = n * value.toInt := by
  induction n with
  | zero => exact (Int.zero_mul _).symm
  | succ n ih =>
    rw [List.replicate_succ, exactSum, ih, Int.natCast_succ, Int.add_mul, Int.one_mul, Int.add_comm]

namespace Bounded

theorem foldl_add_eq_clamp {values : List Int64} (h : ∀ v ∈ values, 0 ≤ v.toInt) (acc : Int64) :
    values.foldl add acc = clamp (acc.toInt + exactSum values) := by
  induction values generalizing acc with
  | nil => rw [exactSum, Int.add_zero, clamp_toInt, List.foldl_nil]
  | cons value values ih =>
    rw [List.forall_mem_cons] at h
    have hvalue := h.1
    have hrest := exactSum_nonneg h.2
    have hlo := acc.minValue_le_toInt
    rw [List.foldl_cons, ih h.2, exactSum, add, toInt_clamp]
    apply Int64.toInt_inj.1
    rw [toInt_clamp, toInt_clamp]
    omega

theorem toInt_sum {values : List Int64} (h : ∀ v ∈ values, 0 ≤ v.toInt) :
    (sum values).toInt = min (exactSum values) Int64.maxValue.toInt := by
  have hnonneg := exactSum_nonneg h
  have hmin : Int64.minValue.toInt = -2 ^ 63 := rfl
  have hmax : Int64.maxValue.toInt = 2 ^ 63 - 1 := rfl
  have hzero : (0 : Int64).toInt = 0 := rfl
  rw [sum, foldl_add_eq_clamp h, toInt_clamp, hzero]
  omega

theorem toInt_sum_of_fits {n : Nat} {values : List Int64} (h : ∀ v ∈ values, IsFace n v)
    (hfits : (values.length * n : Nat) ≤ Int64.maxValue.toInt) :
    (sum values).toInt = exactSum values := by
  have hnonneg : ∀ v ∈ values, 0 ≤ v.toInt := by
    intro v hv
    have := (h v hv).one_le
    omega
  have hle := (length_le_exactSum h).2
  rw [toInt_sum hnonneg]
  omega

theorem toInt_add_bonus {total plus minus : Int64} (htotal : 0 ≤ total.toInt)
    (hplus : 0 ≤ plus.toInt) (hminus : 0 ≤ minus.toInt) :
    (add total (sub (add 0 plus) minus)).toInt =
      min Int64.maxValue.toInt (total.toInt + plus.toInt - minus.toInt) := by
  have hmin : Int64.minValue.toInt = -2 ^ 63 := rfl
  have hmax : Int64.maxValue.toInt = 2 ^ 63 - 1 := rfl
  have hzero : (0 : Int64).toInt = 0 := rfl
  have hplus' := plus.toInt_le
  have hminus' := minus.toInt_le
  rw [add, sub, add, toInt_clamp, toInt_clamp, toInt_clamp, hzero]
  omega

end Bounded

theorem Sign.toInt_apply (sign : Sign) {total : Int64}
    (h : -Int64.maxValue.toInt ≤ total.toInt) :
    (sign.apply total).toInt =
      match sign with
      | .add => total.toInt
      | .subtract => -total.toInt := by
  cases sign with
  | add => rfl
  | subtract =>
    have hmin : Int64.minValue.toInt = -2 ^ 63 := rfl
    have hmax : Int64.maxValue.toInt = 2 ^ 63 - 1 := rfl
    have hle := total.toInt_le
    change (Bounded.neg total).toInt = -total.toInt
    rw [Bounded.neg, Bounded.toInt_clamp]
    omega

theorem getD_nonneg {value : Option Int64} (h : ∀ v ∈ value, 0 ≤ v) :
    0 ≤ (value.getD 0).toInt := by
  cases value with
  | none => exact Int.le_refl _
  | some v => exact Int64.le_iff_toInt_le.1 (h v rfl)

/-! ### Rolls -/

namespace Pool

variable {spec : PoolSpec} {p : Pool} {float : StateM σ Float} {s s' : σ}

structure IsOrdinary (p : Pool) : Prop where
  numbered : p.faces = none
  cap : p.modifiers.cap = none
  replace : p.modifiers.replace = none
  plus : ∀ value ∈ p.modifiers.plus, 0 ≤ value
  minus : ∀ value ∈ p.modifiers.minus, 0 ≤ value

/--
What the record of a roll says about its numbers: they are those of unbounded arithmetic, and only
the total may stop at the upper end of the range.
-/
structure IsExact (p : Pool) (float : StateM σ Float) (r : Record) : Prop where
  rolls : ∀ v ∈ r.rolls, IsFace (100 * p.sides.toNat) v
  faces : p.modifiers.compound = none → p.modifiers.penetrate = none →
    ∀ v ∈ r.rolls, IsFace p.sides.toNat v
  compound : ∀ depth ∈ p.modifiers.compound, ∀ rolls,
    (Burst.compound? depth p.sides (Draw.die float p.sides) rolls).run =
      some <$> Burst.compound depth p.sides (Draw.die float p.sides) rolls
  penetrate : ∀ depth ∈ p.modifiers.penetrate, ∀ rolls,
    (Burst.penetrate? depth p.sides (Draw.die float p.sides) rolls).run =
      some <$> Burst.penetrate depth p.sides (Draw.die float p.sides) rolls
  sum : ∀ k, (Bounded.sum (r.rolls.take k)).toInt = exactSum (r.rolls.take k)
  total : r.total.toInt = min Int64.maxValue.toInt
    (exactSum r.rolls + (p.modifiers.plus.getD 0).toInt - (p.modifiers.minus.getD 0).toInt)
  appliedTotal : r.appliedTotal.toInt =
    match p.sign with
    | .add => r.total.toInt
    | .subtract => -r.total.toInt
  plain : p.modifiers = {} →
    p.quantity.toNat ≤ r.total.toInt ∧ r.total.toInt ≤ (p.quantity.toNat * p.sides.toNat : Nat)

theorem bonus_of_rollThrough {t : Tally}
    (h : (p.rollThrough float Kind.inOrder).run s = (.ok t, s')) :
    t.bonus =
      Bounded.sub (Bounded.add 0 (p.modifiers.plus.getD 0)) (p.modifiers.minus.getD 0) := by
  obtain ⟨initialRolls, s₁, _, happly⟩ := run_bind_eq_ok_iff.1 h
  obtain ⟨logs, hlogs⟩ := Modifier.explains_of_applyAll happly
  exact hlogs.bonus.trans (ModifierSet.foldl_bonus_toList p.modifiers)

theorem length_rollThrough_of_empty {t : Tally} (hm : p.modifiers = {})
    (h : (p.rollThrough float Kind.inOrder).run s = (.ok t, s')) :
    t.rolls.length = p.quantity.toNat := by
  obtain ⟨initialRolls, s₁, hinitial, happly⟩ := run_bind_eq_ok_iff.1 h
  rw [hm] at happly
  obtain ⟨rfl, _⟩ := run_pure_eq_ok_iff.1 happly
  rw [eq_of_run_liftM hinitial]
  exact Draw.length_times _ _ _

theorem fits_of_length_le (h : ofSpec spec = .ok p) {n : Nat} (hn : n ≤ 2 * p.quantity.toNat) :
    (n * (100 * p.sides.toNat) : Nat) ≤ Int64.maxValue.toInt := by
  have hmax : Int64.maxValue.toInt = 2 ^ 63 - 1 := rfl
  have hquantity : p.quantity.toNat ≤ 10000 := UInt32.le_iff_toNat_le.1 (quantity_le h)
  have hsides := p.sides.toNat_lt
  -- That is 20000 times 100 times 2^32 at most, which is below 2^63.
  have hmul : n * (100 * p.sides.toNat) ≤ 20000 * (100 * p.sides.toNat) :=
    Nat.mul_le_mul_right _ (by omega)
  omega

section Ordinary

variable {t : Tally} (h : ofSpec spec = .ok p) (hp : p.IsOrdinary)
  (ht : (p.rollThrough float Kind.inOrder).run s = (.ok t, s'))

include h hp ht

theorem forall_isFace_of_isOrdinary : ∀ v ∈ t.rolls, IsFace (100 * p.sides.toNat) v :=
  forall_isFace_of_rollThrough (sides_ne_zero h hp.numbered) (by omega) hp.cap hp.replace (.inl rfl)
    ht

theorem forall_isFace_of_not_growing (hcompound : p.modifiers.compound = none)
    (hpenetrate : p.modifiers.penetrate = none) : ∀ v ∈ t.rolls, IsFace p.sides.toNat v :=
  forall_isFace_of_rollThrough (sides_ne_zero h hp.numbered) (Nat.le_refl _) hp.cap hp.replace
    (.inr ⟨hcompound, hpenetrate⟩) ht

theorem toInt_sum_take (k : Nat) :
    (Bounded.sum (t.rolls.take k)).toInt = exactSum (t.rolls.take k) := by
  have hrolls := forall_isFace_of_isOrdinary h hp ht
  have hlength : t.rolls.length ≤ 2 * p.quantity.toNat := length_rollThrough_le ht
  apply Bounded.toInt_sum_of_fits fun v hv => hrolls v (List.mem_of_mem_take hv)
  apply fits_of_length_le h
  rw [List.length_take]
  omega

theorem toInt_total : t.total.toInt = min Int64.maxValue.toInt
    (exactSum t.rolls + (p.modifiers.plus.getD 0).toInt - (p.modifiers.minus.getD 0).toInt) := by
  have hnonneg : 0 ≤ exactSum t.rolls :=
    (Int.natCast_nonneg _).trans (length_le_exactSum (forall_isFace_of_isOrdinary h hp ht)).1
  have hsum := toInt_sum_take h hp ht t.rolls.length
  rw [List.take_length] at hsum
  rw [← hsum] at hnonneg ⊢
  rw [Tally.total, bonus_of_rollThrough ht]
  exact Bounded.toInt_add_bonus hnonneg (getD_nonneg hp.plus) (getD_nonneg hp.minus)

theorem neg_max_le_toInt_total : -Int64.maxValue.toInt ≤ t.total.toInt := by
  have hmax : Int64.maxValue.toInt = 2 ^ 63 - 1 := rfl
  have hsum := (length_le_exactSum (forall_isFace_of_isOrdinary h hp ht)).1
  have hplus := getD_nonneg hp.plus
  have hminus := (p.modifiers.minus.getD 0).toInt_le
  rw [toInt_total h hp ht]
  omega

theorem toInt_total_of_empty (hm : p.modifiers = {}) :
    p.quantity.toNat ≤ t.total.toInt ∧
      t.total.toInt ≤ (p.quantity.toNat * p.sides.toNat : Nat) := by
  have hrolls := forall_isFace_of_not_growing h hp ht (by rw [hm]) (by rw [hm])
  have hsum := length_le_exactSum hrolls
  rw [length_rollThrough_of_empty hm ht] at hsum
  have hquantity : p.quantity.toNat ≤ 2 * p.quantity.toNat := by omega
  have hfits := fits_of_length_le h hquantity
  have hmul : p.quantity.toNat * p.sides.toNat ≤ p.quantity.toNat * (100 * p.sides.toNat) :=
    Nat.mul_le_mul_left _ (by omega)
  have htotal : t.total.toInt = min Int64.maxValue.toInt (exactSum t.rolls + 0 - 0) := by
    rw [toInt_total h hp ht, hm]
    rfl
  omega

end Ordinary

theorem exists_run_roll_exact (h : ofSpec spec = .ok p) (hp : p.IsOrdinary)
    (float : StateM σ Float) (s : σ) :
    ∃ r s', (p.roll float).run s = (.ok r, s') ∧ p.IsExact float r := by
  obtain ⟨t, s', ht⟩ := exists_run_rollThrough h float Kind.inOrder s
  obtain ⟨initialRolls, hroll⟩ := run_roll_of_rollThrough ht
  have hdie := Draw.yields_die float (sides_ne_zero h hp.numbered)
  refine ⟨_, s', hroll, ?_⟩
  exact {
    rolls := forall_isFace_of_isOrdinary h hp ht
    faces := forall_isFace_of_not_growing h hp ht
    compound := fun depth _ rolls => Burst.run_compound? hdie depth rolls
    penetrate := fun depth _ rolls => Burst.run_penetrate? hdie depth rolls
    sum := toInt_sum_take h hp ht
    total := toInt_total h hp ht
    appliedTotal := p.sign.toInt_apply (neg_max_le_toInt_total h hp ht)
    plain := toInt_total_of_empty h hp ht }

theorem exists_run_roll_exact_penetrate :
    ∃ (spec : PoolSpec) (p : Pool) (float : StateM Nat Float) (r : Record),
      ofSpec spec = .ok p ∧ p.IsOrdinary ∧ (p.roll float).run 0 = (.ok r, 6) ∧
        r.rolls = [3, 3] ∧ r.total = 9 ∧ r.appliedTotal = -9 ∧ p.IsExact float r := by
  let spec : PoolSpec :=
    { sides := .numbered 1
      quantity := 2
      modifiers := { penetrate := some ⟨2⟩, plus := some 4, minus := some 1 }
      sign := .subtract }
  let float : StateM Nat Float := Draw.stream fun _ => 0.5
  have hordinary : (ofValid spec).IsOrdinary := by
    refine ⟨rfl, rfl, rfl, ?_, ?_⟩
    · rintro value ⟨⟩
      decide
    · rintro value ⟨⟩
      decide
  have hinitial : (Draw.times (Draw.die float 1) 2).run 0 = ([1, 1], 2) := by
    rw [die_one]
    rfl
  have hpenetrate : (Burst.penetrate ⟨2⟩ 1 (Draw.die float 1) [1, 1]).run 2 = ([3, 3], 6) := by
    rw [die_one]
    rfl
  let t₁ : Tally := { rolls := [3, 3], logs := [.ofRolls (.penetrate ⟨2⟩) [1, 1] [3, 3]] }
  let t₂ : Tally :=
    { t₁ with bonus := Bounded.add 0 4, logs := t₁.logs ++ [.ofRolls (.plus 4) [3, 3] [3, 3]] }
  let t₃ : Tally :=
    { t₂ with
      bonus := Bounded.sub (Bounded.add 0 4) 1
      logs := t₂.logs ++ [.ofRolls (.minus 1) [3, 3] [3, 3]] }
  have hroll : ((ofValid spec).roll float).run 0 =
      (.ok (.ofTally (ofValid spec) [1, 1] t₃), 6) := by
    refine run_bind_eq_ok_iff.2 ⟨[1, 1], 2, run_liftM_eq_ok_iff.2 hinitial, ?_⟩
    refine run_bind_eq_ok_iff.2 ⟨t₃, 6, ?_, rfl⟩
    refine run_bind_eq_ok_iff.2 ⟨t₁, 6, ?_, rfl⟩
    exact run_bind_eq_ok_iff.2 ⟨[3, 3], 6, run_liftM_eq_ok_iff.2 hpenetrate, rfl⟩
  have h : ofSpec spec = .ok (ofValid spec) := rfl
  obtain ⟨r, s', hrun, hexact⟩ := exists_run_roll_exact h hordinary float 0
  rw [hroll] at hrun
  cases hrun
  exact ⟨spec, _, float, _, h, hordinary, hroll, rfl, by decide, by decide, hexact⟩

end Pool

end DicePool
