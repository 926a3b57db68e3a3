import DicePool.Proofs.Roll.Stages

/-!
This module contains the bounds that a cap puts on the dice of a pool. The main statement is
`Pool.exists_run_roll_capped`: after the cap no die lies outside of the bounds, and the description
of the pool is right about it. This needs room between the bounds, which a pool is not checked for.
-/

namespace DicePool

variable {σ : Type}

namespace Condition

variable {bounds : Condition} {v w : Int64}

structure Encloses (bounds : Condition) (v : Int64) : Prop where
  upper : ∀ upper ∈ bounds.greaterThan, v ≤ upper
  lower : ∀ lower ∈ bounds.lessThan, lower ≤ v

def IsCrossed (bounds : Condition) : Prop :=
  ∃ upper ∈ bounds.greaterThan, ∃ lower ∈ bounds.lessThan, upper < lower

instance (bounds : Condition) : Decidable bounds.IsCrossed :=
  decidable_of_iff (bounds.greaterThan.any fun upper => bounds.lessThan.any (upper < ·)) <| by
    simp [IsCrossed, Option.any_eq_true]

/-! ### Single values -/

inductive Caps (bounds : Condition) (v : Int64) : Int64 → Prop where
  | lowered {upper : Int64} (hupper : bounds.greaterThan = some upper) (hv : upper < v) :
      Caps bounds v upper
  | raised {lower : Int64} (hupper : ∀ upper ∈ bounds.greaterThan, v ≤ upper)
      (hlower : bounds.lessThan = some lower) (hv : v < lower) : Caps bounds v lower
  | kept (hv : bounds.Encloses v) : Caps bounds v v

theorem caps_capRoll (bounds : Condition) (v : Int64) : bounds.Caps v (capRoll bounds v) := by
  have hle : ∀ {o : Option Int64}, o.filter (· < v) = none → ∀ upper ∈ o, v ≤ upper := by
    intro o h upper hupper
    simpa using Option.filter_eq_none_iff.1 h upper hupper
  have hge : ∀ {o : Option Int64}, o.filter (v < ·) = none → ∀ lower ∈ o, lower ≤ v := by
    intro o h lower hlower
    simpa using Option.filter_eq_none_iff.1 h lower hlower
  unfold capRoll
  split
  · next h =>
    obtain ⟨hupper, hv⟩ := Option.filter_eq_some_iff.1 h
    exact .lowered hupper (of_decide_eq_true hv)
  · next h₁ h₂ =>
    obtain ⟨hlower, hv⟩ := Option.filter_eq_some_iff.1 h₂
    exact .raised (hle h₁) hlower (of_decide_eq_true hv)
  · next h₁ h₂ => exact .kept ⟨hle h₁, hge h₂⟩

theorem Caps.encloses (h : bounds.Caps v w) (hroom : ¬ bounds.IsCrossed) : bounds.Encloses w := by
  have hle : ∀ upper ∈ bounds.greaterThan, ∀ lower ∈ bounds.lessThan, lower ≤ upper := by
    intro upper hupper lower hlower
    rw [← Int64.not_lt]
    exact fun hlt => hroom ⟨upper, hupper, lower, hlower, hlt⟩
  cases h with
  | lowered hupper hv =>
    constructor
    · intro upper h
      rw [Option.mem_unique h hupper]
      exact Int64.le_refl _
    · exact hle w hupper
  | raised _ hlower hv =>
    constructor
    · intro upper hupper
      exact hle upper hupper w hlower
    · intro lower h
      rw [Option.mem_unique h hlower]
      exact Int64.le_refl _
  | kept hv => exact hv

theorem Caps.eq_of_encloses (h : bounds.Caps v w) (hv : bounds.Encloses v) : w = v := by
  cases h with
  | lowered hupper hlt => exact absurd (hv.upper w hupper) (Int64.not_le.2 hlt)
  | raised _ hlower hlt => exact absurd (hv.lower w hlower) (Int64.not_le.2 hlt)
  | kept _ => rfl

theorem Caps.eq_of_crossed (h : bounds.Caps v w) {upper lower : Int64}
    (hupper : bounds.greaterThan = some upper) (hlower : bounds.lessThan = some lower)
    (hcrossed : upper < lower) : w = if upper < v then upper else lower := by
  cases h with
  | lowered h hv =>
    obtain rfl := Option.mem_unique h hupper
    rw [if_pos hv]
  | raised h₁ h₂ hv =>
    rw [if_neg (Int64.not_lt.2 (h₁ upper hupper))]
    exact Option.mem_unique h₂ hlower
  | kept hv =>
    have hle := Int64.le_trans (hv.lower lower hlower) (hv.upper upper hupper)
    exact absurd hcrossed (Int64.not_lt.2 hle)

end Condition

/-! ### Descriptions -/

namespace Description

inductive TrueOf (rolls : List Int64) : String → Prop where
  | noneAbove {upper : Int64} (h : ∀ v ∈ rolls, v ≤ upper) :
      TrueOf rolls ("No Rolls greater than " ++ bracketed upper)
  | noneBelow {lower : Int64} (h : ∀ v ∈ rolls, lower ≤ v) :
      TrueOf rolls ("No Rolls less than " ++ bracketed lower)

theorem trueOf_of_encloses {bounds : Condition} {rolls : List Int64}
    (h : ∀ v ∈ rolls, bounds.Encloses v) :
    ∀ line ∈ (Modifier.cap bounds).describe, TrueOf rolls line := by
  intro line hline
  rw [Modifier.describe, List.mem_append, List.mem_map, List.mem_map] at hline
  obtain ⟨upper, hupper, rfl⟩ | ⟨lower, hlower, rfl⟩ := hline
  · exact .noneAbove fun v hv => (h v hv).upper upper (Option.mem_toList.1 hupper)
  · exact .noneBelow fun v hv => (h v hv).lower lower (Option.mem_toList.1 hlower)

end Description

namespace Pool

variable {spec : PoolSpec} {p : Pool}

theorem mem_description (h : ofSpec spec = .ok p) {m : Modifier} (hm : m ∈ p.modifiers.toList)
    {line : String} (hline : line ∈ m.describe) : line ∈ p.description := by
  rw [description_eq h, PoolSpec.describe]
  exact List.mem_append_left _ (List.mem_cons_of_mem _ (List.mem_flatMap.2 ⟨m, hm, hline⟩))

theorem exists_run_roll_capped (h : ofSpec spec = .ok p) {bounds : Condition}
    (hcap : p.modifiers.cap = some bounds) (float : StateM σ Float) (s : σ) :
    ∃ r s' capped s₁, (p.roll float).run s = (.ok r, s') ∧
      (p.rollThrough float [.cap]).run s = (.ok capped, s₁) ∧
      capped.logs <+: r.history.logs ∧ capped.rolls.length = p.quantity.toNat ∧
      (¬ bounds.IsCrossed →
        (∀ v ∈ capped.rolls, bounds.Encloses v) ∧
        (∀ line ∈ (Modifier.cap bounds).describe,
          line ∈ p.description ∧ Description.TrueOf capped.rolls line) ∧
        ∀ s₂, ((Modifier.cap bounds).rolls p.sides p.quantity (Draw.die float p.sides)
          capped.rolls).run s₂ = (.ok capped.rolls, s₂)) ∧
      ∀ upper lower, bounds.greaterThan = some upper → bounds.lessThan = some lower →
        upper < lower → capped.rolls =
          r.history.initialRolls.map fun v => if upper < v then upper else lower := by
  obtain ⟨r, s', hroll, _⟩ := exists_run_roll h float s
  obtain ⟨initialRolls, s₁, t, hinitial, _, rfl⟩ := exists_of_roll hroll
  obtain ⟨capped, hcapped, hmap⟩ := exists_capped h hinitial
  rw [hcap, Option.elim_some] at hmap
  have hlength : capped.rolls.length = p.quantity.toNat := by
    have hcount := Draw.length_times (Draw.die float p.sides) p.quantity.toNat s
    rwa [hinitial, ← List.length_map (capRoll bounds), ← hmap] at hcount
  refine ⟨_, s', capped, s₁, hroll, hcapped, prefix_logs_of_roll rfl hroll hcapped, hlength, ?_, ?_⟩
  · intro hroom
    have hencloses : ∀ v ∈ capped.rolls, bounds.Encloses v := by
      rw [hmap, List.forall_mem_map]
      exact fun v _ => (bounds.caps_capRoll v).encloses hroom
    refine ⟨hencloses, ?_, ?_⟩
    · intro line hline
      have hmem : .cap bounds ∈ p.modifiers.toList :=
        ModifierSet.mem_toList_iff.2 (by simp [Modifier.kind, ModifierSet.get?, hcap])
      exact ⟨mem_description h hmem hline, Description.trueOf_of_encloses hencloses line hline⟩
    · intro s₂
      have hfixed : capped.rolls.map (capRoll bounds) = capped.rolls := by
        rw [List.map_congr_left fun v hv => (bounds.caps_capRoll v).eq_of_encloses (hencloses v hv),
          List.map_id']
      exact run_pure_eq_ok_iff.2 ⟨hfixed, rfl⟩
  · intro upper lower hupper hlower hcrossed
    rw [hmap]
    apply List.map_congr_left
    intro v _
    exact (bounds.caps_capRoll v).eq_of_crossed hupper hlower hcrossed

theorem exists_run_roll_capped_both :
    ∃ (spec : PoolSpec) (p : Pool) (bounds : Condition) (float : StateM Nat Float) (r : Record)
      (s' : Nat) (capped : Tally) (s₁ : Nat), ofSpec spec = .ok p ∧
      p.modifiers.cap = some bounds ∧ ¬ bounds.IsCrossed ∧ (p.roll float).run 0 = (.ok r, s') ∧
      (p.rollThrough float [.cap]).run 0 = (.ok capped, s₁) ∧ capped.rolls = [5, 2, 4] ∧
      (∀ v ∈ capped.rolls, bounds.Encloses v) ∧
      (∀ line ∈ ["No Rolls greater than [5]", "No Rolls less than [2]"],
        line ∈ p.description ∧ Description.TrueOf capped.rolls line) ∧
      ((Modifier.cap bounds).rolls p.sides p.quantity (Draw.die float p.sides)
        capped.rolls).run s₁ =
        (.ok capped.rolls, s₁) := by
  let bounds : Condition := { greaterThan := some 5, lessThan := some 2 }
  let spec : PoolSpec :=
    { sides := .numbered 6, quantity := 3, modifiers := { cap := some bounds } }
  let float : StateM Nat Float := Draw.cycle #[0.9, 0.0, 0.5] 0
  have h : ofSpec spec = .ok (ofValid spec) := rfl
  have hcap : (ofValid spec).modifiers.cap = some bounds := rfl
  have hroom : ¬ bounds.IsCrossed := by decide
  obtain ⟨r, s', capped, s₁, hroll, hcapped, -, -, hwithin, -⟩ :=
    exists_run_roll_capped h hcap float 0
  obtain ⟨hencloses, hlines, hagain⟩ := hwithin hroom
  have hinitial : (Draw.times (Draw.die float 6) 3).run 0 = ([6, 1, 4], 3) :=
    Prod.ext (by decide +kernel) rfl
  obtain ⟨t, ht, hmap⟩ := exists_capped h hinitial
  rw [hcapped] at ht
  cases ht
  have hdescribe : (Modifier.cap bounds).describe =
      ["No Rolls greater than [5]", "No Rolls less than [2]"] := by decide +kernel
  rw [hdescribe] at hlines
  have hrolls : capped.rolls = [5, 2, 4] := by
    rw [hmap]
    decide
  exact ⟨spec, _, bounds, float, r, s', capped, 3, h, hcap, hroom, hroll, hcapped, hrolls,
    hencloses, hlines, hagain 3⟩

theorem not_encloses_of_crossed :
    ∃ (spec : PoolSpec) (p : Pool) (bounds : Condition) (float : StateM Nat Float) (capped : Tally)
      (s₁ : Nat), ofSpec spec = .ok p ∧ p.text = "2d6C\x7b>2,<4\x7d" ∧
      p.description =
        ["Roll 2 6-sided dice", "No Rolls greater than [2]", "No Rolls less than [4]"] ∧
      p.modifiers.cap = some bounds ∧
      (p.rollThrough float [.cap]).run 0 = (.ok capped, s₁) ∧ capped.rolls = [4, 2] ∧
      ¬ (∀ upper ∈ bounds.greaterThan, ∀ v ∈ capped.rolls, v ≤ upper) ∧
      ¬ (∀ lower ∈ bounds.lessThan, ∀ v ∈ capped.rolls, lower ≤ v) ∧
      ((Modifier.cap bounds).rolls p.sides p.quantity (Draw.die float p.sides)
        capped.rolls).run s₁ =
        (.ok [2, 4], s₁) := by
  let bounds : Condition := { greaterThan := some 2, lessThan := some 4 }
  let spec : PoolSpec :=
    { sides := .numbered 6, quantity := 2, modifiers := { cap := some bounds } }
  let float : StateM Nat Float := Draw.cycle #[0.0, 0.9] 0
  have h : ofSpec spec = .ok (ofValid spec) := rfl
  have hinitial : (Draw.times (Draw.die float 6) 2).run 0 = ([1, 6], 2) :=
    Prod.ext (by decide +kernel) rfl
  obtain ⟨capped, hcapped, hmap⟩ := exists_capped h hinitial
  have hrolls : capped.rolls = [4, 2] := by
    rw [hmap]
    decide
  refine ⟨spec, _, bounds, float, capped, 2, h, by decide +kernel, by decide +kernel, rfl, hcapped,
    hrolls, ?_, ?_, ?_⟩
  · intro h
    rw [hrolls] at h
    exact absurd (h 2 rfl 4 List.mem_cons_self) (by decide)
  · intro h
    rw [hrolls] at h
    exact absurd (h 4 rfl 2 (List.mem_cons_of_mem _ List.mem_cons_self)) (by decide)
  · rw [hrolls]
    exact run_pure_eq_ok_iff.2 ⟨by decide, rfl⟩

end Pool

end DicePool
