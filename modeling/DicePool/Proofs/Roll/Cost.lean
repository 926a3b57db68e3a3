import DicePool.Proofs.Roll.Values

/-!
This module contains the numbers of values that a roll takes from its source. The main statement is
`Pool.exists_run_roll_counted`: every roll ends after a number of draws that is bounded by the
number of dice, whatever the source yields. Every die takes a value of its own first, unless it has
so many faces that their count wraps to 0: such a die takes none.
-/

namespace DicePool

variable {σ α β : Type}

/-! ### Draws -/

namespace Draw

/--
A computation takes at least `lo` and at most `hi` values, from whatever state it starts.
-/
def Takes (x : StateM (σ × Nat) α) (lo hi : Nat) : Prop :=
  ∀ s, s.2 + lo ≤ (x.run s).2.2 ∧ (x.run s).2.2 ≤ s.2 + hi

variable {x draw : StateM (σ × Nat) α} {lo hi : Nat}

theorem Takes.pure (a : α) : Takes (Pure.pure a : StateM (σ × Nat) α) 0 hi :=
  fun _ => ⟨Nat.le_refl _, Nat.le_add_right _ _⟩

theorem Takes.bind {f : α → StateM (σ × Nat) β} {lo' hi' : Nat} (hx : Takes x lo hi)
    (hf : ∀ a, Takes (f a) lo' hi') : Takes (x >>= f) (lo + lo') (hi + hi') := by
  intro s
  obtain ⟨hlo, hhi⟩ := hx s
  obtain ⟨hlo', hhi'⟩ := hf (x.run s).1 (x.run s).2
  rw [run_state_bind]
  omega

theorem Takes.mono {lo' hi' : Nat} (hx : Takes x lo hi) (hlo : lo' ≤ lo) (hhi : hi ≤ hi') :
    Takes x lo' hi' := by
  intro s
  have := hx s
  omega

theorem Takes.bind_pure {f : α → β} (hx : Takes x lo hi) :
    Takes (x >>= fun a => Pure.pure (f a)) lo hi := by
  have hpure : ∀ a, Takes (Pure.pure (f a) : StateM (σ × Nat) β) 0 0 := fun a => .pure (f a)
  exact hx.bind hpure

theorem Takes.bind_le {f : α → StateM (σ × Nat) β} {hi' n : Nat} (hx : Takes x 0 hi)
    (hf : ∀ a, Takes (f a) 0 hi') (hn : hi + hi' ≤ n) : Takes (x >>= f) 0 n :=
  (hx.bind hf).mono (Nat.le_refl _) hn

theorem Takes.times (h : Takes draw lo hi) (n : Nat) : Takes (times draw n) (n * lo) (n * hi) := by
  induction n with
  | zero =>
    rw [Nat.zero_mul, Nat.zero_mul]
    exact .pure []
  | succ n ih =>
    have hcons (x : α) : Takes (Draw.times draw n >>= fun xs => Pure.pure (x :: xs)) (n * lo)
        (n * hi) :=
      ih.bind_pure
    refine (h.bind hcons).mono ?_ ?_
    · rw [Nat.add_one_mul, Nat.add_comm]
    · rw [Nat.add_one_mul, Nat.add_comm]

theorem Takes.foldUntil (h : Takes draw 0 1) (stop : α → Prop) [DecidablePred stop] (f : β → α → β)
    (limit : Nat) (acc : β) : Takes (foldUntil stop f draw limit acc) 0 limit := by
  induction limit generalizing acc with
  | zero => exact .pure acc
  | succ limit ih =>
    refine h.bind_le (fun x => ?_) (Nat.le_of_eq (Nat.add_comm 1 _))
    split
    · exact .pure _
    · exact ih _

theorem Takes.of_run_liftM {ε : Type} (hx : Takes x lo hi) {s s' : σ × Nat} {a : α}
    (h : (liftM x : ExceptT ε (StateM (σ × Nat)) α).run s = (.ok a, s')) :
    s.2 + lo ≤ s'.2 ∧ s'.2 ≤ s.2 + hi := by
  have hs := hx s
  rwa [run_liftM_eq_ok_iff.1 h] at hs

theorem takes_counted (draw : StateM σ α) : Takes (counted draw) 1 1 :=
  fun _ => ⟨Nat.le_refl _, Nat.le_refl _⟩

def perDie (sides : UInt32) : Nat :=
  if sides = 0 then 0 else 1

theorem perDie_le (sides : UInt32) : perDie sides ≤ 1 := by
  unfold perDie
  split <;> omega

theorem takes_die (float : StateM σ Float) (sides : UInt32) :
    Takes (die (counted float) sides) (perDie sides) (perDie sides) := by
  have hbelow : Takes (below (counted float) sides) (perDie sides) (perDie sides) := by
    unfold below perDie
    split
    · exact .pure 0
    · exact (takes_counted float).bind_pure
  exact hbelow.bind_pure

theorem run_times_die_zero (float : StateM σ Float) (n : Nat) (s : σ) :
    (times (die float 0) n).run s = (List.replicate n 1, s) := by
  induction n with
  | zero => rfl
  | succ n ih =>
    rw [List.replicate_succ]
    exact congrArg (fun result => (1 :: result.1, result.2)) ih

end Draw

/-! ### Modifiers -/

section Modifiers

variable {draw : StateM (σ × Nat) Int64} (h : Draw.Takes draw 0 1)

include h

theorem Reroll.takes_redraw (trigger : Condition) (retries : Nat) :
    Draw.Takes (redraw trigger draw retries) 0 (retries + 1) := by
  rw [redraw_eq trigger draw retries 0]
  exact h.foldUntil _ _ _ 0

theorem Reroll.takes_applyWithin (trigger : Condition) (quota : Option Nat) (rolls : List Int64) :
    Draw.Takes (applyWithin trigger draw quota rolls) 0 (maxDrawsPerDie * rolls.length) := by
  induction rolls generalizing quota with
  | nil => exact .pure []
  | cons value rolls ih =>
    rw [applyWithin, List.length_cons, Nat.mul_add_one]
    split
    · have hdie := takes_redraw h trigger (maxDrawsPerDie - 1)
      refine hdie.bind_le (fun value => (ih _).bind_pure) ?_
      have hdraws : maxDrawsPerDie = 99 := rfl
      omega
    · exact (ih _).bind_pure.mono (Nat.le_refl _) (Nat.le_add_right _ _)

theorem Burst.takes_grow (top : Int64) (gain : Int64 → Int64) (draws : Nat) (value : Int64) :
    Draw.Takes (grow top gain draw draws value) 0 draws := by
  rw [grow_eq]
  exact h.foldUntil _ _ _ value

theorem Burst.takes_growAll (gain : Int64 → Int64) (depth : Depth) (sides : UInt32)
    (rolls : List Int64) :
    Draw.Takes (growAll gain depth sides draw rolls) 0
      (maxDrawsPerDie * rolls.count (top sides)) := by
  induction rolls with
  | nil => exact .pure []
  | cons value rolls ih =>
    have hrest : ∀ v, Draw.Takes (growAll gain depth sides draw rolls >>= fun vs => pure (v :: vs))
        0 (maxDrawsPerDie * rolls.count (top sides)) :=
      fun _ => ih.bind_pure
    rw [growAll_cons, growDie]
    split
    · next heq =>
      have hlimit := depth.limit_le
      rw [heq, List.count_cons_self, Nat.mul_add_one]
      exact (takes_grow h _ gain depth.limit _).bind_le hrest (by omega)
    · next hne =>
      rw [List.count_cons_of_ne hne]
      exact (Draw.Takes.pure value).bind_le hrest (Nat.le_of_eq (Nat.zero_add _))

theorem Unique.takes_redraw (u : Unique) (seen : Std.HashSet Int64) (retries : Nat) :
    Draw.Takes (u.redraw seen draw retries) 0 (retries + 1) := by
  rw [redraw_eq u seen draw retries 0]
  exact h.foldUntil _ _ _ 0

theorem Unique.takes_applyAfter (u : Unique) (seen : Std.HashSet Int64) (rolls : List Int64) :
    Draw.Takes (u.applyAfter draw seen rolls) 0 (maxDraws * rolls.length) := by
  induction rolls generalizing seen with
  | nil => exact .pure []
  | cons value rolls ih =>
    have hdraws : maxDraws = 1000 := rfl
    have hsettle : Draw.Takes (u.settle draw seen value) 0 maxDraws := by
      rw [settle]
      split
      · exact .pure value
      · exact takes_redraw h u seen (maxDraws - 1)
    rw [applyAfter_cons, List.length_cons, Nat.mul_add_one]
    refine hsettle.bind_le (fun v => (ih _).bind_pure) ?_
    omega

end Modifiers

def Kind.allowance (sides : UInt32) (before : List Int64) : Kind → Nat
  | .reroll => maxDrawsPerDie * before.length
  | .explode => before.count (Burst.top sides)
  | .compound => maxDrawsPerDie * before.count (Burst.top sides)
  | .penetrate => maxDrawsPerDie * before.count (Burst.top sides)
  | .unique => Unique.maxDraws * before.length
  | _ => 0

namespace Modifier

variable {sides quantity : UInt32} {draw : StateM (σ × Nat) Int64} {s s' : σ × Nat}
  {before after : List Int64}

theorem taken_le (hdraw : Draw.Takes draw 0 1) {m : Modifier}
    (h : (m.rolls sides quantity draw before).run s = (.ok after, s')) :
    s.2 ≤ s'.2 ∧ s'.2 ≤ s.2 + m.kind.allowance sides before := by
  cases m with
  | reroll r => exact (Reroll.takes_applyWithin hdraw _ _ before).of_run_liftM h
  | explode =>
    have htimes := hdraw.times (before.count (Burst.top sides))
    rw [Nat.mul_zero, Nat.mul_one] at htimes
    exact htimes.bind_pure.of_run_liftM h
  | compound depth | penetrate depth =>
    exact (Burst.takes_growAll hdraw _ _ _ before).of_run_liftM h
  | unique u =>
    have htakes := Unique.takes_applyAfter hdraw u ∅ before s
    rwa [← Unique.apply, run_rolls_unique h] at htakes
  | cap _ | drop _ | replace _ | plus _ | minus _ =>
    obtain ⟨_, rfl⟩ := run_pure_eq_ok_iff.1 h
    exact ⟨Nat.le_refl _, Nat.le_add_right _ _⟩

theorem taken_explode (hdraw : Draw.Takes draw 1 1)
    (h : (rolls .explode sides quantity draw before).run s = (.ok after, s')) :
    s'.2 = s.2 + before.count (Burst.top sides) := by
  have htimes := hdraw.times (before.count (Burst.top sides))
  rw [Nat.mul_one] at htimes
  obtain ⟨hle, hge⟩ := htimes.bind_pure.of_run_liftM h
  exact Nat.le_antisymm hge hle

end Modifier

/-! ### Rolls -/

structure Breakdown where
  initial : Nat
  reroll : Nat
  explode : Nat
  growth : Nat
  unique : Nat
deriving DecidableEq, Repr

def Breakdown.total (b : Breakdown) : Nat :=
  b.initial + b.reroll + b.explode + b.growth + b.unique

namespace Pool

variable {spec : PoolSpec} {p : Pool} {float : StateM σ Float} {s : σ} {kinds : List Kind}
  {t : Tally} {n : Nat}

def Reaches (p : Pool) (float : StateM σ Float) (s : σ) (kinds : List Kind) (t : Tally) (n : Nat) :
    Prop :=
  ∃ s', (p.rollThrough (Draw.counted float) kinds).run (s, 0) = (.ok t, (s', n))

/--
After those of `kinds` have led to a tally, the modifiers of `kinds'` take `n` values.
-/
def StageTakes (p : Pool) (float : StateM σ Float) (s : σ) (kinds kinds' : List Kind) (t : Tally)
    (n : Nat) : Prop :=
  ∃ before t', p.Reaches float s kinds t before ∧
    p.Reaches float s (kinds ++ kinds') t' (before + n)

structure Spends (p : Pool) (float : StateM σ Float) (s : σ) (b : Breakdown) : Prop where
  initial : ∃ t, p.Reaches float s [] t b.initial ∧ t.rolls.length = p.quantity.toNat ∧
    b.initial = p.quantity.toNat * Draw.perDie p.sides
  reroll : ∃ t, p.StageTakes float s (Kind.before .reroll) [.reroll] t b.reroll ∧
    t.rolls.length ≤ p.quantity.toNat ∧ b.reroll ≤ 99 * t.rolls.length
  explode : ∃ t, p.StageTakes float s (Kind.before .explode) [.explode] t b.explode ∧
    t.rolls.length ≤ p.quantity.toNat ∧
      b.explode = if p.modifiers.explode then t.rolls.count (Burst.top p.sides) else 0
  growth : ∃ t, p.StageTakes float s (Kind.before .compound) [.compound, .penetrate] t b.growth ∧
    t.rolls.length ≤ 2 * p.quantity.toNat ∧ b.growth ≤ 99 * t.rolls.length
  unique : ∃ t, p.StageTakes float s (Kind.before .unique) [.unique] t b.unique ∧
    t.rolls.length ≤ 2 * p.quantity.toNat ∧ b.unique ≤ 1000 * t.rolls.length

theorem exists_reaches_nil (p : Pool) (float : StateM σ Float) (s : σ) :
    ∃ t, p.Reaches float s [] t (p.quantity.toNat * Draw.perDie p.sides) ∧
      t.rolls.length = p.quantity.toNat := by
  have htakes := (Draw.takes_die float p.sides).times p.quantity.toNat (s, 0)
  have hlength := Draw.length_times (Draw.die (Draw.counted float) p.sides) p.quantity.toNat (s, 0)
  obtain ⟨⟨rolls, s₁, n⟩, hrolls⟩ : ∃ result, (Draw.times (Draw.die (Draw.counted float) p.sides)
    p.quantity.toNat).run (s, 0) = result := ⟨_, rfl⟩
  rw [hrolls] at htakes hlength
  obtain rfl : n = p.quantity.toNat * Draw.perDie p.sides := by
    dsimp only at htakes
    omega
  refine ⟨{ rolls }, ⟨s₁, ?_⟩, hlength⟩
  exact run_bind_eq_ok_iff.2 ⟨rolls, _, run_liftM_eq_ok_iff.2 hrolls, rfl⟩

namespace Reaches

theorem length_le (ht : p.Reaches float s kinds t n) :
    t.rolls.length ≤ 2 ^ kinds.count .explode * p.quantity.toNat := by
  obtain ⟨s', hrun⟩ := ht
  exact length_rollThrough_le hrun

section Accepted

variable (h : ofSpec spec = .ok p) (ht : p.Reaches float s kinds t n)

include h ht

theorem exists_snoc (k : Kind) :
    ∃ t' n', p.Reaches float s (kinds ++ [k]) t' (n + n') ∧ n' ≤ k.allowance p.sides t.rolls ∧
      ((p.modifiers.get? k = none ∧ t' = t ∧ n' = 0) ∨
        ∃ m s₁ s₂, p.modifiers.get? k = some m ∧ s₂.2 = s₁.2 + n' ∧
          (m.rolls p.sides p.quantity (Draw.die (Draw.counted float) p.sides) t.rolls).run s₁ =
            (.ok t'.rolls, s₂)) := by
  obtain ⟨s₁, hrun⟩ := ht
  obtain ⟨t', s₂, hrun', ⟨hk, rfl, rfl⟩ | ⟨m, hm, hrolls⟩⟩ := exists_run_rollThrough_snoc h hrun k
  · exact ⟨t', 0, ⟨s₁, hrun'⟩, Nat.zero_le _, .inl ⟨hk, rfl, rfl⟩⟩
  · have hdie := (Draw.takes_die float p.sides).mono (Nat.zero_le _) (Draw.perDie_le _)
    obtain ⟨hle, htaken⟩ := Modifier.taken_le hdie hrolls
    have hadd : s₂.2 = n + (s₂.2 - n) := (Nat.add_sub_of_le hle).symm
    rw [ModifierSet.kind_of_get? hm] at htaken
    refine ⟨t', s₂.2 - n, ⟨s₂.1, ?_⟩, ?_, .inr ⟨m, _, s₂, hm, hadd, hrolls⟩⟩
    · rwa [← hadd]
    · omega

theorem exists_append_free (kinds' : List Kind)
    (hfree : ∀ k ∈ kinds', ∀ rolls, k.allowance p.sides rolls = 0) :
    ∃ t', p.Reaches float s (kinds ++ kinds') t' n := by
  induction kinds' generalizing kinds t with
  | nil =>
    rw [List.append_nil]
    exact ⟨t, ht⟩
  | cons k kinds' ih =>
    rw [List.forall_mem_cons] at hfree
    obtain ⟨t₁, n', ht₁, hle, _⟩ := exists_snoc h ht k
    rw [hfree.1, Nat.le_zero] at hle
    rw [hle, Nat.add_zero] at ht₁
    rw [List.append_cons]
    exact ih ht₁ hfree.2

theorem exists_explode :
    ∃ t' n', p.Reaches float s (kinds ++ [.explode]) t' (n + n') ∧
      n' = if p.modifiers.explode then t.rolls.count (Burst.top p.sides) else 0 := by
  obtain ⟨t', n', ht', -, hstep⟩ := exists_snoc h ht .explode
  refine ⟨t', n', ht', ?_⟩
  obtain ⟨hnone, _, hn⟩ | ⟨m, s₁, s₂, hm, hn, hrolls⟩ := hstep
  · have hexplode : ¬ p.modifiers.explode := by
      intro hexplode
      simp [ModifierSet.get?, hexplode] at hnone
    rw [hn, if_neg hexplode]
  · obtain ⟨hexplode, ⟨⟩⟩ := Option.ite_none_right_eq_some.1 hm
    have hdie := Draw.takes_die float p.sides
    rw [Draw.perDie, if_neg (sides_ne_zero_of_get? h hm)] at hdie
    have htaken := Modifier.taken_explode hdie hrolls
    rw [if_pos hexplode]
    omega

theorem exists_growth :
    ∃ t' n', p.Reaches float s (kinds ++ [.compound, .penetrate]) t' (n + n') ∧
      n' ≤ maxDrawsPerDie * t.rolls.length := by
  have hcount := List.count_le_length (a := Burst.top p.sides) (l := t.rolls)
  obtain ⟨t₁, n₁, ht₁, hle₁, hstep⟩ := exists_snoc h ht .compound
  obtain ⟨t₂, n₂, ht₂, hle₂, -⟩ := exists_snoc h ht₁ .penetrate
  rw [← List.append_cons, Nat.add_assoc] at ht₂
  refine ⟨t₂, n₁ + n₂, ht₂, ?_⟩
  obtain ⟨_, rfl, rfl⟩ | ⟨m, s₁, s₂, hm, _, hrolls⟩ := hstep
  · rw [Nat.zero_add]
    exact hle₂.trans (Nat.mul_le_mul_left _ hcount)
  · -- No die shows the highest face after compounding, so that none is left to penetrate.
    obtain ⟨depth, _, rfl⟩ := Option.map_eq_some_iff.1 hm
    have hgrown := Modifier.grown_of_compound (sides_ne_zero_of_get? h hm) hrolls
    rw [Kind.allowance, Burst.Grown.count_top hgrown, Nat.mul_zero, Nat.le_zero] at hle₂
    rw [hle₂, Nat.add_zero]
    exact hle₁.trans (Nat.mul_le_mul_left _ hcount)

end Accepted

end Reaches

namespace Spends

variable {b : Breakdown}

theorem total_le (h : p.Spends float s b) : b.total ≤ 2299 * p.quantity.toNat := by
  obtain ⟨⟨_, _, _, hinitial⟩, ⟨_, _, hlength₁, hreroll⟩, ⟨t, _, hlength₂, hexplode⟩,
    ⟨_, _, hlength₃, hgrowth⟩, ⟨_, _, hlength₄, hunique⟩⟩ := h
  have hdie : p.quantity.toNat * Draw.perDie p.sides ≤ p.quantity.toNat * 1 :=
    Nat.mul_le_mul_left _ (Draw.perDie_le _)
  have hcount : b.explode ≤ t.rolls.length := by
    rw [hexplode]
    split
    · exact List.count_le_length
    · exact Nat.zero_le _
  rw [Breakdown.total]
  omega

theorem initial_eq (h : p.Spends float s b) (hsides : p.sides ≠ 0) :
    b.initial = p.quantity.toNat := by
  obtain ⟨_, _, _, hinitial⟩ := h.initial
  rwa [Draw.perDie, if_neg hsides, Nat.mul_one] at hinitial

end Spends

theorem exists_run_roll_counted (h : ofSpec spec = .ok p) (float : StateM σ Float) (s : σ) :
    ∃ r s' b, (p.roll (Draw.counted float)).run (s, 0) = (.ok r, (s', b.total)) ∧
      p.Spends float s b ∧ b.total ≤ 2299 * p.quantity.toNat ∧
        ((∀ labels ∈ p.faces, ¬ UInt32.size ∣ labels.length) →
          b.initial = p.quantity.toNat ∧ p.quantity.toNat ≤ b.total) := by
  obtain ⟨t₀, h₀, hlength₀⟩ := exists_reaches_nil p float s
  obtain ⟨t₁, h₁⟩ := h₀.exists_append_free h [.cap, .drop, .replace] (by simp [Kind.allowance])
  obtain ⟨t₂, reroll, h₂, hreroll, -⟩ := h₁.exists_snoc h .reroll
  obtain ⟨t₃, explode, h₃, hexplode⟩ := h₂.exists_explode h
  obtain ⟨t₄, growth, h₄, hgrowth⟩ := h₃.exists_growth h
  obtain ⟨t₅, unique, h₅, hunique, -⟩ := h₄.exists_snoc h .unique
  obtain ⟨t₆, s', h₆⟩ := h₅.exists_append_free h [.plus, .minus] (by simp [Kind.allowance])
  obtain ⟨initialRolls, hroll⟩ := run_roll_of_rollThrough h₆
  have hone {n : Nat} (hn : n ≤ 2 ^ 0 * p.quantity.toNat) : n ≤ p.quantity.toNat := by
    rwa [Nat.pow_zero, Nat.one_mul] at hn
  let b : Breakdown := ⟨p.quantity.toNat * Draw.perDie p.sides, reroll, explode, growth, unique⟩
  have hspends : p.Spends float s b :=
    { initial := ⟨t₀, h₀, hlength₀, rfl⟩
      reroll := ⟨t₁, ⟨_, t₂, h₁, h₂⟩, hone h₁.length_le, hreroll⟩
      explode := ⟨t₂, ⟨_, t₃, h₂, h₃⟩, hone h₂.length_le, hexplode⟩
      growth := ⟨t₃, ⟨_, t₄, h₃, h₄⟩, h₃.length_le, hgrowth⟩
      unique := ⟨t₄, ⟨_, t₅, h₄, h₅⟩, h₄.length_le, hunique⟩ }
  refine ⟨_, s', b, hroll, hspends, hspends.total_le, ?_⟩
  intro hfaces
  have hsides : p.sides ≠ 0 := by
    intro hsides
    obtain ⟨_, labels, hlabels, hwraps⟩ := exists_faces_of_sides h hsides
    exact hfaces labels hlabels hwraps
  have hinitial := hspends.initial_eq hsides
  refine ⟨hinitial, ?_⟩
  rw [Breakdown.total]
  omega

theorem exists_run_roll_counted_compound :
    ∃ (spec : PoolSpec) (p : Pool) (float : StateM Nat Float) (r : Record) (b : Breakdown),
      ofSpec spec = .ok p ∧ p.quantity.toNat = 2 ∧ r.rolls = [3, 3] ∧ b.total = 6 ∧
        (p.roll (Draw.counted float)).run (0, 0) = (.ok r, (6, b.total)) ∧
          p.Spends float 0 b ∧ b.total ≤ 2299 * p.quantity.toNat ∧
            b.initial = p.quantity.toNat ∧ p.quantity.toNat ≤ b.total := by
  let spec : PoolSpec :=
    { sides := .numbered 1, quantity := 2, modifiers := { compound := some ⟨2⟩ } }
  let float : StateM Nat Float := Draw.stream fun _ => 0.5
  let t : Tally := { rolls := [3, 3], logs := [.ofRolls (.compound ⟨2⟩) [1, 1] [3, 3]] }
  have hinitial : (Draw.times (Draw.die (Draw.counted float) 1) 2).run (0, 0) =
      ([1, 1], (2, 2)) := by
    rw [die_one]
    rfl
  have hcompound : (Burst.compound ⟨2⟩ 1 (Draw.die (Draw.counted float) 1) [1, 1]).run (2, 2) =
      ([3, 3], (6, 6)) := by
    rw [die_one]
    rfl
  have hroll : ((ofValid spec).roll (Draw.counted float)).run (0, 0) =
      (.ok (.ofTally (ofValid spec) [1, 1] t), (6, 6)) := by
    refine run_bind_eq_ok_iff.2 ⟨[1, 1], (2, 2), run_liftM_eq_ok_iff.2 hinitial, ?_⟩
    refine run_bind_eq_ok_iff.2 ⟨t, (6, 6), ?_, rfl⟩
    exact run_bind_eq_ok_iff.2 ⟨t, (6, 6), run_bind_eq_ok_iff.2
      ⟨[3, 3], (6, 6), run_liftM_eq_ok_iff.2 hcompound, rfl⟩, rfl⟩
  have h : ofSpec spec = .ok (ofValid spec) := rfl
  obtain ⟨r, s', b, hrun, hspends, hle, hdrawn⟩ := exists_run_roll_counted h float 0
  have hfaces : ∀ labels ∈ (ofValid spec).faces, ¬ UInt32.size ∣ labels.length := by
    rintro labels ⟨⟩
  rw [hroll] at hrun
  obtain ⟨hr, hs⟩ := Prod.mk.inj hrun
  obtain ⟨rfl, hb⟩ := Prod.mk.inj hs
  cases hr
  exact ⟨spec, _, float, _, b, h, rfl, rfl, hb.symm, by rw [hroll, ← hb], hspends, hle,
    hdrawn hfaces⟩

theorem run_roll_of_sides (h : ofSpec spec = .ok p) (hsides : p.sides = 0) (float : StateM σ Float)
    (s : σ) : ∃ r, (p.roll float).run s = (.ok r, s) := by
  -- Only a die with faces can be without sides, and such dice have no modifiers.
  obtain ⟨hm, _⟩ := exists_faces_of_sides h hsides
  have hinitial := Draw.run_times_die_zero float p.quantity.toNat s
  rw [← hsides] at hinitial
  let rolls : List Int64 := List.replicate p.quantity.toNat 1
  refine ⟨.ofTally p rolls { rolls }, run_bind_eq_ok_iff.2 ?_⟩
  refine ⟨rolls, s, run_liftM_eq_ok_iff.2 hinitial, ?_⟩
  rw [hm]
  rfl

theorem not_le_drawn_of_wrapped :
    ∃ (spec : PoolSpec) (p : Pool) (float : StateM Nat Float) (r : Record) (drawn : Nat),
      ofSpec spec = .ok p ∧ p.faces = some (List.replicate UInt32.size "a") ∧ p.sides = 0 ∧
        p.quantity = 1 ∧ (p.roll (Draw.counted float)).run (0, 0) = (.ok r, (0, drawn)) ∧
          ¬ p.quantity.toNat ≤ drawn := by
  obtain ⟨labels, hlabels⟩ : ∃ labels, labels = List.replicate UInt32.size "a" := ⟨_, rfl⟩
  have hlength : labels.length = UInt32.size := by
    rw [hlabels, List.length_replicate]
  obtain ⟨label, others, rfl⟩ := List.exists_cons_of_length_eq_add_one hlength
  let spec : PoolSpec := { sides := .faces (label :: others) }
  let float : StateM Nat Float := Draw.stream fun _ => 0.5
  have h : ofSpec spec = .ok (ofValid spec) := rfl
  have hsides : (ofValid spec).sides = 0 := by
    rw [sides_of_faces h rfl, hlength]
    rfl
  obtain ⟨r, hroll⟩ := run_roll_of_sides h hsides (Draw.counted float) (0, 0)
  have hquantity : (ofValid spec).quantity = 1 := rfl
  refine ⟨spec, _, float, r, 0, h, congrArg some hlabels, hsides, hquantity, hroll, ?_⟩
  rw [hquantity]
  decide

end Pool

end DicePool
