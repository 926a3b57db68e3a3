import DicePool.Proofs.Roll.Stages
import DicePool.Proofs.Roll.Turns
import DicePool.Proofs.Roll.Unique

/-!
This module contains the values that dice come to show. A draw shows one of the faces, and only
compounding and penetrating take a die beyond the highest of them.
-/

namespace DicePool

variable {σ α β : Type}

structure IsFace (n : Nat) (value : Int64) : Prop where
  one_le : 1 ≤ value.toInt
  le : value.toInt ≤ n

theorem IsFace.mono {n n' : Nat} {value : Int64} (h : IsFace n value) (hle : n ≤ n') :
    IsFace n' value where
  one_le := h.one_le
  le := h.le.trans (Int.ofNat_le.2 hle)

/-! ### Draws -/

namespace Draw

def Yields (x : StateM σ α) (P : α → Prop) : Prop :=
  ∀ s, P (x.run s).1

theorem Yields.pure {P : α → Prop} {a : α} (h : P a) : Yields (Pure.pure a : StateM σ α) P :=
  fun _ => h

theorem Yields.bind {P : α → Prop} {Q : β → Prop} {x : StateM σ α} {f : α → StateM σ β}
    (hx : Yields x P) (hf : ∀ a, P a → Yields (f a) Q) : Yields (x >>= f) Q :=
  fun s => hf _ (hx s) _

theorem Yields.imp {P Q : α → Prop} {x : StateM σ α} (hx : Yields x P) (h : ∀ a, P a → Q a) :
    Yields x Q :=
  fun s => h _ (hx s)

theorem Yields.bind_congr {P : α → Prop} {x : StateM σ α} {f g : α → StateM σ β}
    (hx : Yields x P) (h : ∀ a, P a → f a = g a) : x >>= f = x >>= g :=
  funext fun s => congrFun (h _ (hx s)) _

theorem Yields.times {P : α → Prop} {draw : StateM σ α} (h : Yields draw P) (n : Nat) :
    Yields (times draw n) fun xs => ∀ x ∈ xs, P x := by
  induction n with
  | zero => exact .pure (List.forall_mem_nil _)
  | succ n ih =>
    exact h.bind fun x hx => ih.bind fun xs hxs => .pure (List.forall_mem_cons.2 ⟨hx, hxs⟩)

theorem Yields.of_supplies {P : α → Prop} {draw : StateM σ α} (h : Yields draw P) {s s' : σ}
    {draws : List α} (hdraws : Supplies draw s draws s') : ∀ x ∈ draws, P x := by
  have hall := h.times draws.length s
  rwa [hdraws] at hall

theorem Yields.foldUntil_last {P : α → Prop} {draw : StateM σ α} (h : Yields draw P)
    (stop : α → Prop) [DecidablePred stop] (limit : Nat) (x : α) :
    Yields (foldUntil stop (fun _ y => y) draw (limit + 1) x) P := by
  intro s
  obtain ⟨draws, last, s', hsupplies, hends, hrun⟩ := exists_draws_of_last stop draw limit s
  rw [hrun]
  exact h.of_supplies hsupplies last (List.mem_of_getLast? hends.getLast)

theorem yields_below (float : StateM σ Float) {bound : UInt32} (h : bound ≠ 0) :
    Yields (below float bound) fun n => n.toNat < bound.toNat := by
  have hpos : 0 < bound.toNat := Nat.pos_of_ne_zero fun heq => h (UInt32.toNat_inj.1 heq)
  have hbound := bound.toNat_lt_size
  rw [below, if_neg h]
  intro s
  change (UInt32.ofNat (min _ (bound.toNat - 1))).toNat < bound.toNat
  rw [UInt32.toNat_ofNat_of_lt']
  · omega
  · omega

theorem yields_die (float : StateM σ Float) {sides : UInt32} (h : sides ≠ 0) :
    Yields (die float sides) (IsFace sides.toNat) := by
  refine (yields_below float h).bind fun face hface => .pure ?_
  have hsides := sides.toNat_lt
  have hface' : (Int64.ofNat (face.toNat + 1)).toInt = (face.toNat + 1 : Nat) :=
    Int64.toInt_ofNat_of_lt (by omega)
  constructor
  · rw [hface']
    omega
  · rw [hface']
    omega

end Draw

/-! ### Dice that are dropped or rolled again -/

theorem Drop.mem_of_mem_apply {d : Drop} {rolls : List Int64} {v : Int64}
    (h : v ∈ d.apply rolls) : v ∈ rolls := by
  obtain ⟨x, hx, rfl⟩ := List.mem_map.1 h
  rw [List.mem_mergeSort] at hx
  have hranked := List.mem_of_mem_take (List.mem_of_mem_drop hx)
  rw [ranked, List.mem_mergeSort] at hranked
  exact List.mem_of_mem_filter (List.fst_mem_of_mem_zipIdx hranked)

theorem Reroll.yields_redraw {P : Int64 → Prop} {draw : StateM σ Int64} (h : Draw.Yields draw P)
    (trigger : Condition) (retries : Nat) : Draw.Yields (redraw trigger draw retries) P := by
  rw [redraw_eq trigger draw retries 0]
  exact h.foldUntil_last _ retries 0

theorem Reroll.yields_applyWithin {P : Int64 → Prop} {draw : StateM σ Int64}
    (h : Draw.Yields draw P) (trigger : Condition) (quota : Option Nat) {rolls : List Int64}
    (hrolls : ∀ v ∈ rolls, P v) :
    Draw.Yields (applyWithin trigger draw quota rolls) fun rolls => ∀ v ∈ rolls, P v := by
  induction rolls generalizing quota with
  | nil => exact .pure hrolls
  | cons value rolls ih =>
    rw [List.forall_mem_cons] at hrolls
    rw [applyWithin]
    split
    · refine (yields_redraw h trigger _).bind fun value hvalue => ?_
      exact (ih _ hrolls.2).bind fun rolls hall => .pure (List.forall_mem_cons.2 ⟨hvalue, hall⟩)
    · exact (ih _ hrolls.2).bind fun rolls hall =>
        .pure (List.forall_mem_cons.2 ⟨hrolls.1, hall⟩)

theorem Unique.yields_redraw {P : Int64 → Prop} {draw : StateM σ Int64} (h : Draw.Yields draw P)
    (u : Unique) (seen : Std.HashSet Int64) (retries : Nat) :
    Draw.Yields (u.redraw seen draw retries) P := by
  rw [redraw_eq u seen draw retries 0]
  exact h.foldUntil_last _ retries 0

theorem Unique.yields_applyAfter {P : Int64 → Prop} {draw : StateM σ Int64}
    (h : Draw.Yields draw P) (u : Unique) (seen : Std.HashSet Int64) {rolls : List Int64}
    (hrolls : ∀ v ∈ rolls, P v) :
    Draw.Yields (u.applyAfter draw seen rolls) fun rolls => ∀ v ∈ rolls, P v := by
  induction rolls generalizing seen with
  | nil => exact .pure hrolls
  | cons value rolls ih =>
    rw [List.forall_mem_cons] at hrolls
    have hsettle : Draw.Yields (u.settle draw seen value) P := by
      rw [settle]
      split
      · exact .pure hrolls.1
      · exact yields_redraw h u seen _
    rw [applyAfter_cons]
    refine hsettle.bind fun value hvalue => ?_
    exact (ih _ hrolls.2).bind fun rolls hall => .pure (List.forall_mem_cons.2 ⟨hvalue, hall⟩)

/-! ### Dice that explode or grow -/

theorem Burst.yields_explode {P : Int64 → Prop} {draw : StateM σ Int64} (h : Draw.Yields draw P)
    {sides : UInt32} {rolls : List Int64} (hrolls : ∀ v ∈ rolls, P v) :
    Draw.Yields (explode sides draw rolls) fun rolls => ∀ v ∈ rolls, P v :=
  (h.times _).bind fun _ hfresh => .pure (List.forall_mem_append.2 ⟨hrolls, hfresh⟩)

theorem Depth.limit_pos (d : Depth) : 0 < d.limit := by
  unfold limit
  split
  · decide
  · next h =>
    have hne : d.draws ≠ 0 := by simpa [isUnlimited] using h
    have hpos : d.draws.toNat ≠ 0 := fun heq => hne (UInt32.toNat_inj.1 heq)
    have : maxDrawsPerDie = 99 := rfl
    omega

namespace Burst

variable {top : Int64} {gain : Int64 → Int64} {draw : StateM σ Int64} {sides : UInt32}
  {depth : Depth}

theorem toInt_top (sides : UInt32) : (Burst.top sides).toInt = sides.toNat := by
  have hsides := sides.toNat_lt
  exact Int64.toInt_ofNat_of_lt (by omega)

def Grown (depth : Depth) (sides : UInt32) (value grown : Int64) : Prop :=
  if value = Burst.top sides then
    sides.toNat < grown.toInt ∧ grown.toInt ≤ ((depth.limit + 1) * sides.toNat : Nat)
  else
    grown = value

def growDie (gain : Int64 → Int64) (depth : Depth) (sides : UInt32) (draw : StateM σ Int64)
    (value : Int64) : StateM σ Int64 :=
  if value = Burst.top sides then grow (Burst.top sides) gain draw depth.limit value else pure value

theorem growAll_cons (gain : Int64 → Int64) (depth : Depth) (sides : UInt32)
    (draw : StateM σ Int64) (value : Int64) (rolls : List Int64) :
    growAll gain depth sides draw (value :: rolls) =
      growDie gain depth sides draw value >>= fun v =>
        growAll gain depth sides draw rolls >>= fun vs => pure (v :: vs) := by
  rw [growAll, growDie]
  split <;> rfl

def grow? (top : Int64) (gain : Int64 → Int64) (draw : StateM σ Int64) :
    (draws : Nat) → (value : Int64) → OptionT (StateM σ) Int64
  | 0, value => return value
  | draws + 1, value => do
    let x ← draw
    let value ← OptionT.mk (pure (Bounded.int64? (value.toInt + (gain x).toInt)))
    if x = top then grow? top gain draw draws value else return value

def growDie? (gain : Int64 → Int64) (depth : Depth) (sides : UInt32) (draw : StateM σ Int64)
    (value : Int64) : OptionT (StateM σ) Int64 :=
  if value = Burst.top sides then grow? (Burst.top sides) gain draw depth.limit value
  else pure value

def growAll? (gain : Int64 → Int64) (depth : Depth) (sides : UInt32) (draw : StateM σ Int64)
    (rolls : List Int64) : OptionT (StateM σ) (List Int64) :=
  rolls.mapM (growDie? gain depth sides draw)

def compound? (depth : Depth) (sides : UInt32) (draw : StateM σ Int64) (rolls : List Int64) :
    OptionT (StateM σ) (List Int64) :=
  growAll? id depth sides draw rolls

def penetrate? (depth : Depth) (sides : UInt32) (draw : StateM σ Int64) (rolls : List Int64) :
    OptionT (StateM σ) (List Int64) :=
  growAll? (fun x => max (x - 1) 1) depth sides draw rolls

theorem int64?_add_face {value x : Int64} (hx : IsFace sides.toNat x) (hvalue : 0 ≤ value.toInt)
    (hfits : value.toInt + sides.toNat ≤ Int64.maxValue.toInt) :
    Bounded.int64? (value.toInt + x.toInt) = some (value + x) := by
  obtain ⟨hlo, hhi⟩ := hx
  have hmin : Int64.minValue.toInt = -2 ^ 63 := rfl
  apply Bounded.int64?_add
  · omega
  · omega

theorem fits_limit (depth : Depth) (sides : UInt32) :
    (Burst.top sides).toInt + depth.limit * sides.toNat ≤ Int64.maxValue.toInt := by
  have hsides := sides.toNat_lt
  have hmax : Int64.maxValue.toInt = 2 ^ 63 - 1 := rfl
  have hdraws : maxDrawsPerDie = 99 := rfl
  have hmul : depth.limit * sides.toNat ≤ 99 * sides.toNat :=
    Nat.mul_le_mul_right _ depth.limit_le
  rw [toInt_top]
  omega

section Gains

variable (hdraw : Draw.Yields draw (IsFace sides.toNat))
  (hgain : ∀ x, IsFace sides.toNat x → IsFace sides.toNat (gain x))

include hdraw hgain

theorem yields_grow {draws : Nat} {value : Int64} (hvalue : 0 ≤ value.toInt)
    (hfits : value.toInt + draws * sides.toNat ≤ Int64.maxValue.toInt) :
    Draw.Yields (grow top gain draw draws value) fun grown =>
      value.toInt + min draws 1 ≤ grown.toInt ∧
        grown.toInt ≤ value.toInt + draws * sides.toNat := by
  induction draws generalizing value with
  | zero => exact .pure (by omega)
  | succ draws ih =>
    refine hdraw.bind fun x hx => ?_
    have hface := hgain x hx
    have hrest := Int.natCast_nonneg (draws * sides.toNat)
    rw [Int.natCast_add, Int.add_mul] at hfits ⊢
    have hadd : (value + gain x).toInt = value.toInt + (gain x).toInt :=
      Bounded.toInt_eq_of_int64?_eq_some (int64?_add_face hface hvalue (by omega))
    obtain ⟨hlo, hhi⟩ := hface
    split
    · refine (ih (by omega) (by omega)).imp fun grown hgrown => ?_
      omega
    · refine .pure ?_
      omega

theorem run_grow? {draws : Nat} {value : Int64} (hvalue : 0 ≤ value.toInt)
    (hfits : value.toInt + draws * sides.toNat ≤ Int64.maxValue.toInt) :
    (grow? top gain draw draws value).run = some <$> grow top gain draw draws value := by
  induction draws generalizing value with
  | zero => rfl
  | succ draws ih =>
    simp only [grow?, grow, map_bind, OptionT.run_bind, OptionT.run_monadLift, monadLift_self,
      OptionT.run_mk, Option.elimM, bind_map_left, Option.elim_some, pure_bind]
    refine hdraw.bind_congr fun x hx => ?_
    have hface := hgain x hx
    have hrest := Int.natCast_nonneg (draws * sides.toNat)
    rw [Int.natCast_add, Int.add_mul] at hfits
    have hsome := int64?_add_face hface hvalue (by omega)
    have hadd := Bounded.toInt_eq_of_int64?_eq_some hsome
    obtain ⟨hlo, hhi⟩ := hface
    rw [hsome, Option.elim_some]
    split
    · exact ih (by omega) (by omega)
    · rfl

theorem yields_growDie (depth : Depth) (value : Int64) :
    Draw.Yields (growDie gain depth sides draw value) (Grown depth sides value) := by
  unfold growDie
  split
  · next heq =>
    have htop := toInt_top sides
    have hlimit := depth.limit_pos
    rw [heq]
    refine (yields_grow hdraw hgain (by omega) (fits_limit depth sides)).imp ?_
    rintro grown ⟨hlo, hhi⟩
    rw [Grown, if_pos rfl, Nat.add_one_mul]
    omega
  · next hne =>
    refine .pure ?_
    rw [Grown, if_neg hne]

theorem yields_growAll (depth : Depth) (rolls : List Int64) :
    Draw.Yields (growAll gain depth sides draw rolls) (List.Forall₂ (Grown depth sides) rolls) := by
  induction rolls with
  | nil => exact .pure .nil
  | cons value rolls ih =>
    rw [growAll_cons]
    refine (yields_growDie hdraw hgain depth value).bind fun v hv => ?_
    exact ih.bind fun vs hvs => .pure (.cons hv hvs)

theorem run_growDie? (depth : Depth) (value : Int64) :
    (growDie? gain depth sides draw value).run = some <$> growDie gain depth sides draw value := by
  unfold growDie? growDie
  split
  · next heq =>
    have htop := toInt_top sides
    rw [heq]
    exact run_grow? hdraw hgain (by omega) (fits_limit depth sides)
  · rfl

theorem run_growAll? (depth : Depth) (rolls : List Int64) :
    (growAll? gain depth sides draw rolls).run = some <$> growAll gain depth sides draw rolls := by
  induction rolls with
  | nil => rfl
  | cons value rolls ih =>
    rw [growAll?] at ih
    rw [growAll_cons, growAll?, List.mapM_cons]
    simp only [OptionT.run_bind, run_growDie? hdraw hgain, ih, map_bind, Option.elimM,
      bind_map_left, Option.elim_some, OptionT.run_pure, map_pure]

end Gains

theorem toInt_penetrating {x : Int64} (h : 1 ≤ x.toInt) :
    (max (x - 1) 1).toInt = max (x.toInt - 1) 1 := by
  have hmax : max (x - 1) 1 = if x - 1 ≤ 1 then 1 else x - 1 := rfl
  have hone : (1 : Int64).toInt = 1 := rfl
  have hsub : (x - 1).toInt = x.toInt - 1 := by
    have hx := x.toInt_lt
    rw [Int64.toInt_sub, hone]
    apply Int.bmod_eq_of_le <;> omega
  rw [hmax]
  split
  · next hle =>
    rw [Int64.le_iff_toInt_le, hsub, hone] at hle
    omega
  · next hlt =>
    rw [Int64.le_iff_toInt_le, hsub, hone] at hlt
    omega

theorem isFace_penetrating {n : Nat} {x : Int64} (h : IsFace n x) : IsFace n (max (x - 1) 1) := by
  have hx := toInt_penetrating h.one_le
  obtain ⟨hlo, hhi⟩ := h
  constructor
  · omega
  · omega

theorem run_compound? (hdraw : Draw.Yields draw (IsFace sides.toNat)) (depth : Depth)
    (rolls : List Int64) :
    (compound? depth sides draw rolls).run = some <$> compound depth sides draw rolls :=
  run_growAll? hdraw (fun _ => id) depth rolls

theorem run_penetrate? (hdraw : Draw.Yields draw (IsFace sides.toNat)) (depth : Depth)
    (rolls : List Int64) :
    (penetrate? depth sides draw rolls).run = some <$> penetrate depth sides draw rolls :=
  run_growAll? hdraw (fun _ => isFace_penetrating) depth rolls

namespace Grown

variable {value grown : Int64} {before after : List Int64}

theorem ne_top (h : Grown depth sides value grown) : grown ≠ Burst.top sides := by
  rintro rfl
  have htop := toInt_top sides
  rw [Grown] at h
  split at h
  · omega
  · next hne => exact hne h.symm

theorem isFace (h : Grown depth sides value grown) (hvalue : IsFace (100 * sides.toNat) value) :
    IsFace (100 * sides.toNat) grown := by
  rw [Grown] at h
  split at h
  · have hdraws : maxDrawsPerDie = 99 := rfl
    have hlimit := depth.limit_le
    have hmul : (depth.limit + 1) * sides.toNat ≤ 100 * sides.toNat :=
      Nat.mul_le_mul_right _ (by omega)
    constructor
    · omega
    · omega
  · rwa [h]

theorem count_top (h : List.Forall₂ (Grown depth sides) before after) :
    after.count (Burst.top sides) = 0 := by
  rw [List.count_eq_zero]
  induction h with
  | nil => exact List.not_mem_nil
  | cons hgrown _ ih => exact List.not_mem_cons_of_ne_of_not_mem hgrown.ne_top.symm ih

theorem forall_isFace (h : List.Forall₂ (Grown depth sides) before after)
    (hbefore : ∀ v ∈ before, IsFace (100 * sides.toNat) v) :
    ∀ v ∈ after, IsFace (100 * sides.toNat) v := by
  induction h with
  | nil => exact hbefore
  | cons hgrown _ ih =>
    rw [List.forall_mem_cons] at hbefore ⊢
    exact ⟨hgrown.isFace hbefore.1, ih hbefore.2⟩

end Grown

end Burst

/-! ### Modifiers -/

namespace Modifier

variable {sides quantity : UInt32} {float : StateM σ Float} {s s' : σ} {before after : List Int64}

theorem grown_of_compound {depth : Depth} (hsides : sides ≠ 0)
    (h : (rolls (.compound depth) sides quantity (Draw.die float sides) before).run s =
      (.ok after, s')) : List.Forall₂ (Burst.Grown depth sides) before after := by
  rw [eq_of_run_liftM h]
  exact Burst.yields_growAll (Draw.yields_die float hsides) (fun _ => id) depth before s

theorem grown_of_penetrate {depth : Depth} (hsides : sides ≠ 0)
    (h : (rolls (.penetrate depth) sides quantity (Draw.die float sides) before).run s =
      (.ok after, s')) : List.Forall₂ (Burst.Grown depth sides) before after := by
  rw [eq_of_run_liftM h]
  exact Burst.yields_growAll (Draw.yields_die float hsides) (fun _ => Burst.isFace_penetrating)
    depth before s

theorem forall_isFace_of_rolls {m : Modifier} {bound : Nat} (hsides : sides ≠ 0)
    (hbound : sides.toNat ≤ bound) (hm : m.kind ≠ .cap ∧ m.kind ≠ .replace)
    (hgrow : m.kind = .compound ∨ m.kind = .penetrate → bound = 100 * sides.toNat)
    (hbefore : ∀ v ∈ before, IsFace bound v)
    (h : (m.rolls sides quantity (Draw.die float sides) before).run s = (.ok after, s')) :
    ∀ v ∈ after, IsFace bound v := by
  have hdie : Draw.Yields (Draw.die float sides) (IsFace bound) :=
    (Draw.yields_die float hsides).imp fun v hv => hv.mono hbound
  cases m with
  | cap bounds => exact absurd rfl hm.1
  | replace rules => exact absurd rfl hm.2
  | drop d =>
    obtain ⟨rfl, _⟩ := run_pure_eq_ok_iff.1 h
    exact fun v hv => hbefore v (d.mem_of_mem_apply hv)
  | reroll r =>
    rw [eq_of_run_liftM h]
    exact Reroll.yields_applyWithin hdie _ _ hbefore s
  | explode =>
    rw [eq_of_run_liftM h]
    exact Burst.yields_explode hdie hbefore s
  | compound depth =>
    have hgrown := grown_of_compound hsides h
    rw [hgrow (.inl rfl)] at hbefore ⊢
    exact Burst.Grown.forall_isFace hgrown hbefore
  | penetrate depth =>
    have hgrown := grown_of_penetrate hsides h
    rw [hgrow (.inr rfl)] at hbefore ⊢
    exact Burst.Grown.forall_isFace hgrown hbefore
  | unique u =>
    have hafter := Unique.yields_applyAfter hdie u ∅ hbefore s
    rwa [← Unique.apply, run_rolls_unique h] at hafter
  | plus n | minus n =>
    obtain ⟨rfl, _⟩ := run_pure_eq_ok_iff.1 h
    exact hbefore

end Modifier

namespace Pool

variable {p : Pool} {float : StateM σ Float} {s s' : σ} {kinds : List Kind} {t : Tally}

theorem forall_isFace_of_rollThrough {bound : Nat} (hsides : p.sides ≠ 0)
    (hbound : p.sides.toNat ≤ bound) (hcap : p.modifiers.cap = none)
    (hreplace : p.modifiers.replace = none)
    (hgrow : bound = 100 * p.sides.toNat ∨
      p.modifiers.compound = none ∧ p.modifiers.penetrate = none)
    (h : (p.rollThrough float kinds).run s = (.ok t, s')) : ∀ v ∈ t.rolls, IsFace bound v := by
  obtain ⟨initialRolls, s₁, hinitial, happly⟩ := run_bind_eq_ok_iff.1 h
  refine Modifier.rolls_of_applyAll (P := fun rolls => ∀ v ∈ rolls, IsFace bound v) ?_ ?_ happly
  · intro m hm before after s s' hbefore hrolls
    obtain ⟨hget, _⟩ := ModifierSet.kinds_of_mem hm
    refine Modifier.forall_isFace_of_rolls hsides hbound ⟨?_, ?_⟩ ?_ hbefore hrolls
    · intro hkind
      simp [hkind, ModifierSet.get?, hcap] at hget
    · intro hkind
      simp [hkind, ModifierSet.get?, hreplace] at hget
    · intro hkind
      obtain hbound | ⟨hcompound, hpenetrate⟩ := hgrow
      · exact hbound
      · obtain hkind | hkind := hkind
        · simp [hkind, ModifierSet.get?, hcompound] at hget
        · simp [hkind, ModifierSet.get?, hpenetrate] at hget
  · rw [eq_of_run_liftM hinitial]
    exact ((Draw.yields_die float hsides).imp fun v hv => hv.mono hbound).times _ s

end Pool

end DicePool
