import DicePool.Proofs.Roll.Completion
import DicePool.Proofs.Roll.Size

/-!
This module contains the stages of a roll, named by the kinds of the modifiers that have been
applied so far.
-/

namespace DicePool

variable {σ : Type}

namespace ModifierSet

variable {m : ModifierSet}

theorem kinds_of_mem {kinds : List Kind} {x : Modifier} (h : x ∈ kinds.filterMap m.get?) :
    m.get? x.kind = some x ∧ x.kind ∈ kinds := by
  obtain ⟨k, hk, hget⟩ := List.mem_filterMap.1 h
  rw [kind_of_get? hget]
  exact ⟨hget, hk⟩

theorem count_explode_le (kinds : List Kind) :
    (kinds.filterMap m.get?).count .explode ≤ kinds.count .explode := by
  induction kinds with
  | nil => exact Nat.le_refl _
  | cons k kinds ih =>
    cases hk : m.get? k with
    | none =>
      rw [List.filterMap_cons_none hk]
      exact ih.trans List.count_le_count_cons
    | some x =>
      rw [List.filterMap_cons_some hk, List.count_cons, List.count_cons, ← kind_of_get? hk]
      cases x <;> simp [Modifier.kind, ih]

end ModifierSet

def Kind.before (k : Kind) : List Kind :=
  inOrder.takeWhile (· ≠ k)

namespace Pool

variable {spec : PoolSpec} {p : Pool} {float : StateM σ Float} {s s' : σ} {t : Tally} {r : Record}
  {kinds : List Kind}

def rollThrough (p : Pool) (float : StateM σ Float) (kinds : List Kind) :
    ExceptT RollError (StateM σ) Tally := do
  let die := Draw.die float p.sides
  let initialRolls ← Draw.times die p.quantity.toNat
  Modifier.applyAll (kinds.filterMap p.modifiers.get?) p.sides p.quantity die
    { rolls := initialRolls }

theorem run_rollThrough_append {kinds' : List Kind} {t' : Tally} {s'' : σ}
    (h : (p.rollThrough float kinds).run s = (.ok t, s'))
    (h' : (Modifier.applyAll (kinds'.filterMap p.modifiers.get?) p.sides p.quantity
      (Draw.die float p.sides) t).run s' = (.ok t', s'')) :
    (p.rollThrough float (kinds ++ kinds')).run s = (.ok t', s'') := by
  obtain ⟨initialRolls, s₁, hinitial, happly⟩ := run_bind_eq_ok_iff.1 h
  refine run_bind_eq_ok_iff.2 ⟨initialRolls, s₁, hinitial, ?_⟩
  rw [List.filterMap_append, Modifier.applyAll, List.foldlM_append]
  exact run_bind_eq_ok_iff.2 ⟨t, s', happly, h'⟩

theorem isApplicable_of_get? (h : ofSpec spec = .ok p) (kinds : List Kind) :
    ∀ m ∈ kinds.filterMap p.modifiers.get?, m.IsApplicable p.sides p.quantity := by
  intro m hm
  exact isApplicable_of_mem h m (ModifierSet.mem_toList_iff.2 (ModifierSet.kinds_of_mem hm).1)

theorem sides_ne_zero_of_get? (h : ofSpec spec = .ok p) {k : Kind} {m : Modifier}
    (hm : p.modifiers.get? k = some m) : p.sides ≠ 0 := by
  intro hsides
  rw [(exists_faces_of_sides h hsides).1] at hm
  cases k <;> contradiction

theorem exists_run_rollThrough (h : ofSpec spec = .ok p) (float : StateM σ Float)
    (kinds : List Kind) (s : σ) : ∃ t s', (p.rollThrough float kinds).run s = (.ok t, s') := by
  let die := Draw.die float p.sides
  let initial := (Draw.times die p.quantity.toNat).run s
  obtain ⟨t, s', ht⟩ :=
    Modifier.exists_of_applyAll (isApplicable_of_get? h kinds) die { rolls := initial.1 } initial.2
  exact ⟨t, s', run_bind_eq_ok_iff.2 ⟨initial.1, initial.2, rfl, ht⟩⟩

theorem exists_run_rollThrough_snoc (h : ofSpec spec = .ok p)
    (ht : (p.rollThrough float kinds).run s = (.ok t, s')) (k : Kind) :
    ∃ t' s'', (p.rollThrough float (kinds ++ [k])).run s = (.ok t', s'') ∧
      ((p.modifiers.get? k = none ∧ t' = t ∧ s'' = s') ∨
        ∃ m, p.modifiers.get? k = some m ∧
          (m.rolls p.sides p.quantity (Draw.die float p.sides) t.rolls).run s' =
            (.ok t'.rolls, s'')) := by
  cases hk : p.modifiers.get? k with
  | none =>
    refine ⟨t, s', run_rollThrough_append ht ?_, .inl ⟨rfl, rfl, rfl⟩⟩
    rw [List.filterMap_cons_none hk]
    rfl
  | some m =>
    have hm : m.IsApplicable p.sides p.quantity :=
      isApplicable_of_get? h [k] m (by rw [List.filterMap_cons_some hk]; exact List.mem_cons_self)
    obtain ⟨t', s'', ht'⟩ : ∃ t' s'',
        (m.apply p.sides p.quantity (Draw.die float p.sides) t).run s' = (.ok t', s'') :=
      Modifier.exists_of_apply hm t s'
    refine ⟨t', s'', run_rollThrough_append ht ?_,
      .inr ⟨m, rfl, Modifier.run_rolls_of_run_apply ht'⟩⟩
    rw [List.filterMap_cons_some hk]
    exact run_bind_eq_ok_iff.2 ⟨t', s'', ht', rfl⟩

theorem length_rollThrough_le (h : (p.rollThrough float kinds).run s = (.ok t, s')) :
    t.rolls.length ≤ 2 ^ kinds.count .explode * p.quantity.toNat := by
  obtain ⟨initialRolls, s₁, hinitial, happly⟩ := run_bind_eq_ok_iff.1 h
  have hlength := Modifier.length_applyAll_le_pow happly
  rw [eq_of_run_liftM hinitial, Draw.length_times] at hlength
  refine hlength.trans (Nat.mul_le_mul_right _ (Nat.pow_le_pow_right (by decide) ?_))
  exact ModifierSet.count_explode_le kinds

theorem run_roll_of_rollThrough (h : (p.rollThrough float Kind.inOrder).run s = (.ok t, s')) :
    ∃ initialRolls, (p.roll float).run s = (.ok (.ofTally p initialRolls t), s') := by
  obtain ⟨initialRolls, s₁, hinitial, happly⟩ := run_bind_eq_ok_iff.1 h
  refine ⟨initialRolls, run_bind_eq_ok_iff.2 ⟨initialRolls, s₁, hinitial, ?_⟩⟩
  exact run_bind_eq_ok_iff.2 ⟨t, s', happly, rfl⟩

theorem prefix_logs_of_roll {later : List Kind} (hkinds : kinds ++ later = Kind.inOrder)
    (hroll : (p.roll float).run s = (.ok r, s')) {s₁ : σ}
    (ht : (p.rollThrough float kinds).run s = (.ok t, s₁)) : t.logs <+: r.history.logs := by
  obtain ⟨initialRolls, s₂, final, hinitial, happly, rfl⟩ := exists_of_roll hroll
  rw [ModifierSet.toList, ← hkinds, List.filterMap_append] at happly
  obtain ⟨u, s₃, hfront, hback⟩ := Modifier.exists_of_applyAll_append happly
  have hu : (p.rollThrough float kinds).run s = (.ok u, s₃) :=
    run_bind_eq_ok_iff.2 ⟨initialRolls, s₂, run_liftM_eq_ok_iff.2 hinitial, hfront⟩
  rw [ht] at hu
  cases hu
  obtain ⟨logs, hlogs⟩ := Modifier.explains_of_applyAll hback
  exact ⟨logs, hlogs.appended.symm⟩

theorem exists_capped (h : ofSpec spec = .ok p) {initialRolls : List Int64}
    (hinitial : (Draw.times (Draw.die float p.sides) p.quantity.toNat).run s = (initialRolls, s')) :
    ∃ t, (p.rollThrough float [.cap]).run s = (.ok t, s') ∧
      t.rolls = initialRolls.map (p.modifiers.cap.elim id capRoll) := by
  have hnil : (p.rollThrough float []).run s = (.ok { rolls := initialRolls }, s') :=
    run_bind_eq_ok_iff.2 ⟨initialRolls, s', run_liftM_eq_ok_iff.2 hinitial, rfl⟩
  obtain ⟨t, s₁, ht, hcap⟩ := exists_run_rollThrough_snoc h hnil .cap
  refine ⟨t, ?_⟩
  rw [ModifierSet.get?] at hcap
  obtain ⟨hnone, rfl, rfl⟩ | ⟨m, hm, hrolls⟩ := hcap
  · rw [Option.map_eq_none_iff.1 hnone, Option.elim_none, List.map_id]
    exact ⟨ht, rfl⟩
  · obtain ⟨bounds, hbounds, rfl⟩ := Option.map_eq_some_iff.1 hm
    obtain ⟨hcapped, rfl⟩ := run_pure_eq_ok_iff.1 hrolls
    rw [hbounds, Option.elim_some]
    exact ⟨ht, hcapped.symm⟩

end Pool

end DicePool
