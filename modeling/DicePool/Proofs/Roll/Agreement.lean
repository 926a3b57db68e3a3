import DicePool.Proofs.Notation.RoundTrip
import DicePool.Proofs.Roll.Completion

/-!
This module contains pools that are rolled alike. The lists of a modifier count only by what they
hold for, so that a pool is rolled like the one its notation stands for, even where the notation has
lost repetitions in a list. The main statement is `ofNotation_text_agrees`.
-/

namespace DicePool

variable {σ : Type}

/-! ### Conditions and exemptions that hold for the same values -/

namespace Reroll

variable {c c' : Condition} (h : ∀ v, c'.holds v = c.holds v) (draw : StateM σ Int64)

include h

theorem redraw_congr (retries : Nat) : redraw c' draw retries = redraw c draw retries := by
  induction retries with
  | zero => rfl
  | succ retries ih => simp only [redraw, h, ih]

theorem applyWithin_congr (quota : Option Nat) (rolls : List Int64) :
    applyWithin c' draw quota rolls = applyWithin c draw quota rolls := by
  induction rolls generalizing quota with
  | nil => rfl
  | cons value rolls ih => simp only [applyWithin, h, redraw_congr h, ih]

end Reroll

namespace Unique

variable {u u' : Unique} (h : ∀ v, u'.isExempt v = u.isExempt v) (draw : StateM σ Int64)

include h

theorem admits_congr (seen : Std.HashSet Int64) (value : Int64) :
    u'.admits seen value = u.admits seen value := by
  rw [admits, admits, h]

theorem redraw_congr (seen : Std.HashSet Int64) (retries : Nat) :
    u'.redraw seen draw retries = u.redraw seen draw retries := by
  induction retries with
  | zero => rfl
  | succ retries ih => simp only [redraw, admits_congr h, ih]

theorem applyAfter_congr (seen : Std.HashSet Int64) (rolls : List Int64) :
    u'.applyAfter draw seen rolls = u.applyAfter draw seen rolls := by
  induction rolls generalizing seen with
  | nil => rfl
  | cons value rolls ih => simp only [applyAfter, admits_congr h, redraw_congr h, ih]

end Unique

/-! ### Modifiers that are applied alike -/

namespace Modifier

/--
Modifiers of the same kind that make the same of all rolls, with the same draws.
-/
structure Alike (m m' : Modifier) : Prop where
  kind : m'.kind = m.kind
  rolls : ∀ {σ : Type} (sides quantity : UInt32) (draw : StateM σ Int64) (before : List Int64),
    m'.rolls sides quantity draw before = m.rolls sides quantity draw before
  bonus : ∀ b, m'.bonus b = m.bonus b

theorem Alike.refl (m : Modifier) : m.Alike m :=
  ⟨rfl, fun _ _ _ _ => rfl, fun _ => rfl⟩

def distinct : Modifier → Modifier
  | .drop d => .drop d.distinct
  | .reroll r => .reroll r.distinct
  | .unique u => .unique u.distinct
  | m => m

theorem alike_distinct (m : Modifier) : m.Alike m.distinct := by
  cases m with
  | drop d =>
    refine ⟨rfl, ?_, fun _ => rfl⟩
    intro σ sides quantity draw before
    simp only [distinct, rolls, Drop.apply, Drop.distinct, Condition.holds_distinct]
  | reroll r =>
    refine ⟨rfl, ?_, fun _ => rfl⟩
    intro σ sides quantity draw before
    simp only [distinct, rolls, Reroll.apply, Reroll.distinct,
      Reroll.applyWithin_congr r.trigger.holds_distinct]
  | unique u =>
    refine ⟨rfl, ?_, fun _ => rfl⟩
    intro σ sides quantity draw before
    simp only [distinct, rolls, Unique.check, Unique.isSatisfiable_distinct, Unique.apply,
      Unique.applyAfter_congr u.isExempt_distinct]
  | _ => exact .refl _

end Modifier

namespace ModifierSet

theorem get?_distinct (m : ModifierSet) (k : Kind) :
    m.distinct.get? k = (m.get? k).map Modifier.distinct := by
  cases k with
  | explode =>
    rw [get?, get?, distinct]
    split <;> rfl
  | _ => simp [get?, distinct, Modifier.distinct, Function.comp_def]

theorem toList_distinct (m : ModifierSet) : m.distinct.toList = m.toList.map Modifier.distinct := by
  rw [toList, toList, List.map_filterMap]
  exact congrArg (Kind.inOrder.filterMap ·) (funext m.get?_distinct)

end ModifierSet

/-! ### Tallies and records that agree -/

structure StageLog.Agrees (log log' : StageLog) : Prop where
  kind : log'.kind = log.kind
  added : log'.added = log.added
  removed : log'.removed = log.removed

structure Tally.Agrees (t t' : Tally) : Prop where
  rolls : t'.rolls = t.rolls
  bonus : t'.bonus = t.bonus
  logs : List.Forall₂ StageLog.Agrees t.logs t'.logs

structure Record.Agrees (r r' : Record) : Prop where
  initialRolls : r'.history.initialRolls = r.history.initialRolls
  modifiedRolls : r'.history.modifiedRolls = r.history.modifiedRolls
  rolls : r'.rolls = r.rolls
  bonus : r'.history.bonus = r.history.bonus
  historyTotal : r'.history.total = r.history.total
  total : r'.total = r.total
  appliedTotal : r'.appliedTotal = r.appliedTotal
  faces : r'.faces = r.faces
  logs : List.Forall₂ StageLog.Agrees r.history.logs r'.history.logs

namespace Modifier

variable {sides quantity : UInt32} {draw : StateM σ Int64} {s s' : σ} {t t' u : Tally}

theorem Alike.agrees_ofRolls {m m' : Modifier} (h : m.Alike m') (before after : List Int64) :
    (StageLog.ofRolls m before after).Agrees (StageLog.ofRolls m' before after) :=
  ⟨h.kind, rfl, rfl⟩

theorem Alike.exists_of_apply {m m' : Modifier} (h : m.Alike m') (hu : t.Agrees u)
    (hrun : (m.apply sides quantity draw t).run s = (.ok t', s')) :
    ∃ u', (m'.apply sides quantity draw u).run s = (.ok u', s') ∧ t'.Agrees u' := by
  obtain ⟨rolls, s₁, hrolls, hpure⟩ := run_bind_eq_ok_iff.1 hrun
  obtain ⟨rfl, rfl⟩ := run_pure_eq_ok_iff.1 hpure
  rw [← h.rolls, ← hu.rolls] at hrolls
  refine ⟨_, run_bind_eq_ok_iff.2 ⟨rolls, _, hrolls, rfl⟩, rfl, ?_, ?_⟩
  · dsimp only
    rw [h.bonus, hu.bonus]
  · dsimp only
    rw [hu.rolls]
    exact List.rel_append hu.logs (.cons (h.agrees_ofRolls t.rolls rolls) .nil)

theorem exists_of_applyAll_alike {ms ms' : List Modifier} (h : List.Forall₂ Alike ms ms')
    (hu : t.Agrees u) (hrun : (applyAll ms sides quantity draw t).run s = (.ok t', s')) :
    ∃ u', (applyAll ms' sides quantity draw u).run s = (.ok u', s') ∧ t'.Agrees u' := by
  induction h generalizing t u s with
  | nil =>
    obtain ⟨rfl, rfl⟩ := run_pure_eq_ok_iff.1 hrun
    exact ⟨u, rfl, hu⟩
  | cons hm _ ih =>
    obtain ⟨t₁, s₁, happly, hrest⟩ := run_bind_eq_ok_iff.1 hrun
    obtain ⟨u₁, happly', hu₁⟩ := hm.exists_of_apply hu happly
    obtain ⟨u', hrest', hu'⟩ := ih hu₁ hrest
    exact ⟨u', run_bind_eq_ok_iff.2 ⟨u₁, s₁, happly', hrest'⟩, hu'⟩

end Modifier

/-! ### Pools that are rolled alike -/

namespace Pool

structure Alike (p q : Pool) : Prop where
  sides : q.sides = p.sides
  quantity : q.quantity = p.quantity
  faces : q.faces = p.faces
  sign : q.sign = p.sign
  modifiers : List.Forall₂ Modifier.Alike p.modifiers.toList q.modifiers.toList

variable {p q : Pool} {float : StateM σ Float} {s s' : σ} {r : Record}

theorem agrees_ofTally (h : p.Alike q) {t t' : Tally} (ht : t.Agrees t')
    (initialRolls : List Int64) :
    (Record.ofTally p initialRolls t).Agrees (.ofTally q initialRolls t') := by
  have htotal : t'.total = t.total := by
    rw [Tally.total, Tally.total, ht.rolls, ht.bonus]
  constructor <;> simp only [Record.ofTally, ht.rolls, ht.bonus, htotal, h.sign, h.faces, ht.logs]

theorem Alike.exists_of_roll (h : p.Alike q) (hr : (p.roll float).run s = (.ok r, s')) :
    ∃ r', (q.roll float).run s = (.ok r', s') ∧ r.Agrees r' := by
  obtain ⟨initialRolls, s₁, t, hinitial, happly, rfl⟩ := Pool.exists_of_roll hr
  obtain ⟨t', happly', ht'⟩ :=
    Modifier.exists_of_applyAll_alike h.modifiers ⟨rfl, rfl, .nil⟩ happly
  rw [← h.sides, ← h.quantity] at hinitial happly'
  refine ⟨.ofTally q initialRolls t', ?_, agrees_ofTally h ht' initialRolls⟩
  exact run_bind_eq_ok_iff.2 ⟨initialRolls, s₁, run_liftM_eq_ok_iff.2 hinitial,
    run_bind_eq_ok_iff.2 ⟨t', s', happly', rfl⟩⟩

theorem alike_distinct {spec : PoolSpec} (h : ofSpec spec = .ok p) :
    p.Alike (ofValid p.toSpec.distinct) := by
  have hmodifiers : (ofValid p.toSpec.distinct).modifiers = p.modifiers.distinct := by
    rw [modifiers_ofValid]
    exact normalize_of_isNormal (ModifierSet.isNormal_distinct (isNormal_modifiers h)) _
  have hlist : List.Forall₂ Modifier.Alike p.modifiers.toList
      (ofValid p.toSpec.distinct).modifiers.toList := by
    rw [hmodifiers, ModifierSet.toList_distinct, List.forall₂_map_right_iff, List.forall₂_same]
    intro m _
    exact m.alike_distinct
  obtain ⟨_, rfl⟩ := ofSpec_eq_ok_iff.1 h
  rw [toSpec_ofValid] at hlist ⊢
  obtain ⟨sides, quantity, modifiers, sign⟩ := spec
  cases sides <;> exact ⟨rfl, rfl, rfl, rfl, hlist⟩

theorem ofNotation_text_eq_distinct {spec : PoolSpec} {n : UInt32} (hn : spec.sides = .numbered n)
    (h : ofSpec spec = .ok p) (hplus : ∀ k ∈ spec.modifiers.plus, 0 ≤ k.toInt)
    (hminus : ∀ k ∈ spec.modifiers.minus, 0 ≤ k.toInt) :
    ofNotation p.text = .ok (ofValid p.toSpec.distinct) := by
  have hsums :
      p.modifiers.plus = spec.modifiers.plus ∧ p.modifiers.minus = spec.modifiers.minus := by
    obtain ⟨_, rfl⟩ := ofSpec_eq_ok_iff.1 h
    rw [modifiers_ofValid, normalize_eq]
    exact ⟨rfl, rfl⟩
  rw [← hsums.1] at hplus
  rw [← hsums.2] at hminus
  unfold ofNotation
  rw [bind_eq_ok_iff]
  refine ⟨p.toSpec.distinct, ofNotation_text_eq hn h hplus hminus, ?_⟩
  exact ofSpec_eq_ok_iff.2 ⟨PoolSpec.isValid_distinct (isValid_toSpec h), rfl⟩

def drawn (p : Pool) (float : StateM σ Float) (s : σ) : Nat :=
  ((p.roll (Draw.counted float)).run (s, 0)).2.2

theorem ofNotation_text_agrees {spec : PoolSpec} {n : UInt32} (hn : spec.sides = .numbered n)
    (h : ofSpec spec = .ok p) (hplus : ∀ k ∈ spec.modifiers.plus, 0 ≤ k.toInt)
    (hminus : ∀ k ∈ spec.modifiers.minus, 0 ≤ k.toInt) :
    ∃ q, ofNotation p.text = .ok q ∧
      ∀ {σ : Type} (float : StateM σ Float) (s : σ),
        p.drawn float s = q.drawn float s ∧
          ∃ r r' s', (p.roll float).run s = (.ok r, s') ∧ (q.roll float).run s = (.ok r', s') ∧
            r.Agrees r' := by
  refine ⟨_, ofNotation_text_eq_distinct hn h hplus hminus, ?_⟩
  have hroll : ∀ {σ : Type} (float : StateM σ Float) (s : σ), ∃ r r' s',
      (p.roll float).run s = (.ok r, s') ∧
        ((ofValid p.toSpec.distinct).roll float).run s = (.ok r', s') ∧ r.Agrees r' := by
    intro σ float s
    obtain ⟨r, s', hr, _⟩ := exists_run_roll h float s
    obtain ⟨r', hr', hagrees⟩ := (alike_distinct h).exists_of_roll hr
    exact ⟨r, r', s', hr, hr', hagrees⟩
  intro σ float s
  -- A source that counts its draws is left with the same count by both.
  obtain ⟨_, _, _, hr, hr', _⟩ := hroll (Draw.counted float) (s, 0)
  refine ⟨?_, hroll float s⟩
  rw [drawn, drawn, hr, hr']

theorem ofNotation_text_agrees_repeated :
    ∃ p q, p.text = "3d6D\x7b1,1\x7dR\x7b2,2\x7dU\x7b3,3\x7d+2" ∧ ofNotation p.text = .ok q ∧
      q ≠ p ∧ ∀ {σ : Type} (float : StateM σ Float) (s : σ),
        p.drawn float s = q.drawn float s ∧
          ∃ r r' s', (p.roll float).run s = (.ok r, s') ∧ (q.roll float).run s = (.ok r', s') ∧
            r.Agrees r' := by
  let spec : PoolSpec :=
    { sides := .numbered 6
      quantity := 3
      modifiers :=
        { drop := some { filter := .oneOf [1, 1] }
          reroll := some { trigger := .oneOf [2, 2] }
          unique := some { notUnique := [3, 3] }
          plus := some 2 } }
  have h : ofSpec spec = .ok (ofValid spec) := rfl
  obtain ⟨q, hq, hagrees⟩ := ofNotation_text_agrees rfl h (by simp [spec]) (by simp [spec])
  refine ⟨_, q, by decide +kernel, hq, ?_, hagrees⟩
  rintro rfl
  have hw := isWritable_of_ofNotation hq
  exact absurd (hw.unique _ rfl) (by decide)

end Pool

end DicePool
