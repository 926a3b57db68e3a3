import DicePool.Proofs.Roll.Agreement
import DicePool.Proofs.Roll.Cost

/-!
This module contains stages of a roll that have nothing to do. A die that has been compounded does
not show the highest face any more, so that dice which compound never penetrate as well. The main
statement is `Pool.exists_run_roll_without_penetrate`: such a pool is rolled like the one that does
not penetrate at all.
-/

namespace DicePool

variable {σ : Type}

theorem Burst.growAll_eq_pure {sides : UInt32} {rolls : List Int64} (h : top sides ∉ rolls)
    (gain : Int64 → Int64) (depth : Depth) (draw : StateM σ Int64) :
    growAll gain depth sides draw rolls = pure rolls := by
  induction rolls with
  | nil => rfl
  | cons value rolls ih =>
    rw [List.mem_cons, not_or] at h
    rw [growAll_cons, growDie, if_neg (Ne.symm h.1), ih h.2]
    rfl

def Tally.idle (t : Tally) (m : Modifier) : Tally :=
  { t with logs := t.logs ++ [{ kind := m.kind, modifier := m, added := [], removed := [] }] }

namespace Modifier

variable {sides quantity : UInt32} {draw : StateM σ Int64} {s s' : σ} {t t' : Tally}

theorem run_apply_penetrate (h : Burst.top sides ∉ t.rolls) (depth : Depth) (s : σ) :
    (apply (.penetrate depth) sides quantity draw t).run s =
      (.ok (t.idle (.penetrate depth)), s) := by
  have hrolls : Burst.penetrate depth sides draw t.rolls = pure t.rolls :=
    Burst.growAll_eq_pure h _ depth draw
  have hlog : StageLog.ofRolls (.penetrate depth) t.rolls t.rolls =
      ⟨.penetrate, .penetrate depth, [], []⟩ := by
    rw [StageLog.ofRolls, difference_self]
    rfl
  refine run_bind_eq_ok_iff.2 ⟨t.rolls, s, ?_, ?_⟩
  · exact run_liftM_eq_ok_iff.2 (congrArg (·.run s) hrolls)
  · rw [hlog]
    rfl

theorem exists_log_of_apply {m : Modifier}
    (h : (m.apply sides quantity draw t).run s = (.ok t', s')) :
    ∃ log, t'.logs = t.logs ++ [log] ∧ ∀ logs, (m.apply sides quantity draw { t with logs }).run s =
      (.ok { t' with logs := logs ++ [log] }, s') := by
  obtain ⟨rolls, s₁, hrolls, hpure⟩ := run_bind_eq_ok_iff.1 h
  obtain ⟨rfl, rfl⟩ := run_pure_eq_ok_iff.1 hpure
  exact ⟨_, rfl, fun logs => run_bind_eq_ok_iff.2 ⟨rolls, s₁, hrolls, rfl⟩⟩

theorem exists_logs_of_applyAll {ms : List Modifier}
    (h : (applyAll ms sides quantity draw t).run s = (.ok t', s')) :
    ∃ new, t'.logs = t.logs ++ new ∧
      ∀ logs, (applyAll ms sides quantity draw { t with logs }).run s =
        (.ok { t' with logs := logs ++ new }, s') := by
  induction ms generalizing t s with
  | nil =>
    obtain ⟨rfl, rfl⟩ := run_pure_eq_ok_iff.1 h
    refine ⟨[], (List.append_nil _).symm, fun logs => ?_⟩
    rw [List.append_nil]
    rfl
  | cons m ms ih =>
    obtain ⟨t₁, s₁, hm, hms⟩ := run_bind_eq_ok_iff.1 h
    obtain ⟨log, hlog, happly⟩ := exists_log_of_apply hm
    obtain ⟨new, hnew, happlyAll⟩ := ih hms
    refine ⟨log :: new, ?_, fun logs => ?_⟩
    · rw [hnew, hlog, ← List.append_cons]
    · rw [List.append_cons]
      exact run_bind_eq_ok_iff.2 ⟨_, s₁, happly logs, happlyAll _⟩

end Modifier

/-! ### Pools that do not penetrate -/

def ModifierSet.withoutPenetrate (m : ModifierSet) : ModifierSet :=
  { m with penetrate := none }

theorem ModifierSet.get?_withoutPenetrate (m : ModifierSet) (k : Kind) :
    m.withoutPenetrate.get? k = if k ≠ .penetrate then m.get? k else none := by
  cases k <;> rfl

def PoolSpec.withoutPenetrate (spec : PoolSpec) : PoolSpec :=
  { spec with modifiers := spec.modifiers.withoutPenetrate }

theorem PoolSpec.isValid_withoutPenetrate {spec : PoolSpec} (h : spec.IsValid) :
    spec.withoutPenetrate.IsValid where
  numbered := h.numbered
  faces := by
    intro labels hlabels
    obtain ⟨hne, hm⟩ := h.faces labels hlabels
    refine ⟨hne, ?_⟩
    rw [withoutPenetrate, hm]
    rfl
  quantity := h.quantity
  filled := ⟨h.filled.cap, h.filled.drop, h.filled.keep, h.filled.replace, h.filled.reroll⟩
  cap := h.cap
  unique := h.unique

namespace Pool

variable {spec : PoolSpec} {p : Pool} {float : StateM σ Float} {s s' : σ} {depth depth' : Depth}

theorem ofValid_withoutPenetrate (spec : PoolSpec) :
    ofValid spec.withoutPenetrate =
      { ofValid spec with
        modifiers := (ofValid spec).modifiers.withoutPenetrate
        text := (ofValid spec.withoutPenetrate).text
        description := (ofValid spec.withoutPenetrate).description } := by
  have hmodifiers : normalize spec.modifiers.withoutPenetrate spec.quantity =
      (normalize spec.modifiers spec.quantity).withoutPenetrate := by
    rw [normalize_eq, normalize_eq]
    rfl
  obtain ⟨sides, quantity, modifiers, sign⟩ := spec
  cases sides with
  | numbered n => simp only [ofValid, PoolSpec.withoutPenetrate, hmodifiers]
  | faces labels => simp only [ofValid, PoolSpec.withoutPenetrate, hmodifiers]

theorem rollThrough_withoutPenetrate (p : Pool) (text : String) (description : List String)
    (float : StateM σ Float) (kinds : List Kind) :
    rollThrough { p with modifiers := p.modifiers.withoutPenetrate, text, description } float
        kinds = p.rollThrough float (kinds.filter (· ≠ .penetrate)) := by
  have hget : kinds.filterMap p.modifiers.withoutPenetrate.get? =
      (kinds.filter (· ≠ .penetrate)).filterMap p.modifiers.get? := by
    rw [List.filterMap_filter]
    apply List.filterMap_congr
    intro k _
    rw [ModifierSet.get?_withoutPenetrate]
    simp
  rw [rollThrough, rollThrough, hget]

theorem exists_run_rollThrough_idle (h : ofSpec spec = .ok p)
    (hcompound : p.modifiers.compound = some depth)
    (hpenetrate : p.modifiers.penetrate = some depth') (float : StateM σ Float) (s : σ) :
    ∃ t s', (p.rollThrough float (Kind.before .compound ++ [.compound])).run s = (.ok t, s') ∧
      Burst.top p.sides ∉ t.rolls ∧
      (p.rollThrough float (Kind.before .compound ++ [.compound, .penetrate])).run s =
        (.ok (t.idle (.penetrate depth')), s') := by
  have hget : p.modifiers.get? .compound = some (.compound depth) :=
    congrArg (Option.map Modifier.compound) hcompound
  have hget' : p.modifiers.get? .penetrate = some (.penetrate depth') :=
    congrArg (Option.map Modifier.penetrate) hpenetrate
  obtain ⟨t₀, s₀, h₀⟩ := exists_run_rollThrough h float (Kind.before .compound) s
  obtain ⟨t, s', ht, ⟨hnone, _⟩ | ⟨m, hm, hrolls⟩⟩ := exists_run_rollThrough_snoc h h₀ .compound
  · rw [hget] at hnone
    contradiction
  · rw [hget] at hm
    cases hm
    have hgrown := Modifier.grown_of_compound (sides_ne_zero_of_get? h hget) hrolls
    have htop : Burst.top p.sides ∉ t.rolls :=
      List.count_eq_zero.1 (Burst.Grown.count_top hgrown)
    refine ⟨t, s', ht, htop, ?_⟩
    rw [List.append_cons]
    apply run_rollThrough_append ht
    rw [List.filterMap_cons_some hget']
    exact run_bind_eq_ok_iff.2 ⟨_, s', Modifier.run_apply_penetrate htop depth' s', rfl⟩

theorem initialRolls_of_roll {r : Record} (h : (p.roll float).run s = (.ok r, s')) :
    r.history.initialRolls =
      ((Draw.times (Draw.die float p.sides) p.quantity.toNat).run s).1 := by
  obtain ⟨initialRolls, s₁, t, hinitial, _, rfl⟩ := exists_of_roll h
  rw [hinitial]
  rfl

end Pool

def Record.Omits (r r' : Record) (log : StageLog) : Prop :=
  ∃ front back, r.history.logs = front ++ log :: back ∧
    r' = { r with pool := r'.pool, history := { r.history with logs := front ++ back } }

namespace Pool

variable {spec : PoolSpec} {p : Pool} {depth depth' : Depth}

theorem exists_run_roll_omits (h : ofSpec spec = .ok p)
    (hcompound : p.modifiers.compound = some depth)
    (hpenetrate : p.modifiers.penetrate = some depth') (text : String) (description : List String)
    (float : StateM σ Float) (s : σ) :
    ∃ r r' s', (p.roll float).run s = (.ok r, s') ∧
      (roll { p with modifiers := p.modifiers.withoutPenetrate, text, description } float).run s =
        (.ok r', s') ∧
      r.Omits r' ⟨.penetrate, .penetrate depth', [], []⟩ := by
  obtain ⟨t, s₁, ht, _, hidle⟩ := exists_run_rollThrough_idle h hcompound hpenetrate float s
  obtain ⟨u, s', hu⟩ := Modifier.exists_of_applyAll
    (isApplicable_of_get? h [.unique, .plus, .minus]) (Draw.die float p.sides) t s₁
  obtain ⟨new, hnew, happly⟩ := Modifier.exists_logs_of_applyAll hu
  -- What follows on penetrating is the same with and without its log.
  obtain ⟨initialRolls, hroll⟩ := run_roll_of_rollThrough (run_rollThrough_append hidle (happly _))
  have hskip := run_rollThrough_append ht hu
  rw [show Kind.before .compound ++ [.compound] ++ [.unique, .plus, .minus] =
    Kind.inOrder.filter (· ≠ .penetrate) by decide, ← rollThrough_withoutPenetrate p text
    description] at hskip
  obtain ⟨initialRolls', hroll'⟩ := run_roll_of_rollThrough hskip
  obtain rfl : initialRolls' = initialRolls :=
    (initialRolls_of_roll hroll').trans (initialRolls_of_roll hroll).symm
  refine ⟨_, _, s', hroll, hroll', t.logs, new, ?_, ?_⟩
  · exact (List.append_cons _ _ _).symm
  · rw [← hnew]
    rfl

theorem exists_run_roll_without_penetrate (h : ofSpec spec = .ok p)
    (hcompound : p.modifiers.compound = some depth)
    (hpenetrate : p.modifiers.penetrate = some depth') :
    ∃ q, ofSpec spec.withoutPenetrate = .ok q ∧
      q = { p with
        modifiers := p.modifiers.withoutPenetrate
        text := q.text
        description := q.description } ∧
      ∀ {σ : Type} (float : StateM σ Float) (s : σ),
        (∃ t n, p.Reaches float s (Kind.before .compound ++ [.compound]) t n ∧
          Burst.top p.sides ∉ t.rolls ∧
          p.Reaches float s (Kind.before .compound ++ [.compound, .penetrate])
            (t.idle (.penetrate depth')) n) ∧
        p.drawn float s = q.drawn float s ∧
        ∃ r r' s', (p.roll float).run s = (.ok r, s') ∧ (q.roll float).run s = (.ok r', s') ∧
          r.Omits r' ⟨.penetrate, .penetrate depth', [], []⟩ := by
  obtain ⟨hvalid, rfl⟩ := ofSpec_eq_ok_iff.1 h
  have hq := ofValid_withoutPenetrate spec
  refine ⟨ofValid spec.withoutPenetrate, ?_, hq, fun float s => ⟨?_, ?_, ?_⟩⟩
  · exact ofSpec_eq_ok_iff.2 ⟨PoolSpec.isValid_withoutPenetrate hvalid, rfl⟩
  · obtain ⟨t, s', ht, htop, hidle⟩ :=
      exists_run_rollThrough_idle h hcompound hpenetrate (Draw.counted float) (s, 0)
    exact ⟨t, s'.2, ⟨s'.1, ht⟩, htop, ⟨s'.1, hidle⟩⟩
  · rw [hq]
    obtain ⟨_, _, _, hr, hr', _⟩ :=
      exists_run_roll_omits h hcompound hpenetrate _ _ (Draw.counted float) (s, 0)
    rw [drawn, drawn, hr, hr']
  · rw [hq]
    exact exists_run_roll_omits h hcompound hpenetrate _ _ float s

theorem exists_run_roll_without_penetrate_single :
    ∃ (spec : PoolSpec) (p q : Pool) (float : StateM Nat Float) (t : Tally) (n : Nat)
        (r r' : Record) (s' : Nat),
      ofSpec spec = .ok p ∧ p.text = "2d1!!2!p3" ∧ p.modifiers.compound = some ⟨2⟩ ∧
        p.modifiers.penetrate = some ⟨3⟩ ∧ ofSpec spec.withoutPenetrate = .ok q ∧
        q.text = "2d1!!2" ∧
        p.Reaches float 0 (Kind.before .compound ++ [.compound]) t n ∧ Burst.top 1 ∉ t.rolls ∧
        p.Reaches float 0 (Kind.before .compound ++ [.compound, .penetrate])
          (t.idle (.penetrate ⟨3⟩)) n ∧
        p.drawn float 0 = q.drawn float 0 ∧
        (p.roll float).run 0 = (.ok r, s') ∧ (q.roll float).run 0 = (.ok r', s') ∧
        r.Omits r' ⟨.penetrate, .penetrate ⟨3⟩, [], []⟩ := by
  let spec : PoolSpec :=
    { sides := .numbered 1
      quantity := 2
      modifiers := { compound := some ⟨2⟩, penetrate := some ⟨3⟩ } }
  let float : StateM Nat Float := Draw.stream fun _ => 0.5
  have h : ofSpec spec = .ok (ofValid spec) := rfl
  have htext : (ofValid spec).text = "2d1!!2!p3" := by decide +kernel
  obtain ⟨q, hq, _, hroll⟩ := exists_run_roll_without_penetrate h rfl rfl
  obtain ⟨⟨t, n, ht, htop, hidle⟩, hdrawn, r, r', s', hr, hr', homits⟩ := hroll float 0
  have hqtext : q.text = "2d1!!2" := by
    obtain ⟨_, rfl⟩ := ofSpec_eq_ok_iff.1 hq
    decide +kernel
  exact ⟨spec, _, q, float, t, n, r, r', s', h, htext, rfl, rfl, hq, hqtext, ht, htop, hidle,
    hdrawn, hr, hr', homits⟩

end Pool

end DicePool
