import DicePool.Modifier.Burst
import DicePool.Modifier.Unique
import DicePool.Proofs.Run

/-!
This module contains the draws of a walk over dice. A die that is drawn again or grows takes draws
until one of them puts an end to it, up to a limit, and the next die goes on with the draws that
follow. The three ways to do so are one, `Draw.foldUntil`, and the main statement about it is
`Draw.exists_draws_of_foldUntil`: what is made of the draws has no part in which of them are taken.
-/

namespace DicePool

variable {σ α β : Type}

namespace Draw

variable {draw : StateM σ α} {s s₁ s₂ : σ}

def Supplies (draw : StateM σ α) (s : σ) (draws : List α) (s' : σ) : Prop :=
  (times draw draws.length).run s = (draws, s')

theorem Supplies.nil (draw : StateM σ α) (s : σ) : Supplies draw s [] s := rfl

theorem Supplies.cons {xs : List α} (h : Supplies draw (draw.run s).2 xs s₂) :
    Supplies draw s ((draw.run s).1 :: xs) s₂ := by
  rw [Supplies, List.length_cons, times, run_state_bind, run_state_bind, h]
  rfl

theorem Supplies.singleton (draw : StateM σ α) (s : σ) :
    Supplies draw s [(draw.run s).1] (draw.run s).2 :=
  .cons (.nil _ _)

theorem Supplies.append {xs ys : List α} (hxs : Supplies draw s xs s₁)
    (hys : Supplies draw s₁ ys s₂) : Supplies draw s (xs ++ ys) s₂ := by
  induction xs generalizing s with
  | nil =>
    cases hxs
    exact hys
  | cons x xs ih =>
    obtain ⟨hdraws, hstate⟩ := Prod.mk.inj hxs
    obtain ⟨rfl, hrest⟩ := List.cons.inj hdraws
    exact .cons (ih (Prod.ext hrest hstate))

/--
The draws that end with `last`, the first of them for which `stop` holds. If there is none among
`limit` draws, they end with the last of these.
-/
structure EndsAt (stop : α → Prop) (limit : Nat) (draws : List α) (last : α) : Prop where
  getLast : draws.getLast? = some last
  earlier : ∀ x ∈ draws.dropLast, ¬ stop x
  length_le : draws.length ≤ limit
  stopped : stop last ∨ draws.length = limit

namespace EndsAt

variable {stop : α → Prop} {limit : Nat} {draws : List α} {x last : α}

theorem eq_append (h : EndsAt stop limit draws last) : draws = draws.dropLast ++ [last] :=
  (List.dropLast_append_getLast? last h.getLast).symm

theorem ne_nil (h : EndsAt stop limit draws last) : draws ≠ [] := by
  rw [h.eq_append]
  exact List.concat_ne_nil _ _

theorem of_stop (hx : stop x) : EndsAt stop (limit + 1) [x] x :=
  ⟨rfl, by simp, by simp, .inl hx⟩

theorem one (x : α) : EndsAt stop 1 [x] x :=
  ⟨rfl, by simp, Nat.le_refl _, .inr rfl⟩

theorem cons (hx : ¬ stop x) (h : EndsAt stop limit draws last) :
    EndsAt stop (limit + 1) (x :: draws) last where
  getLast := by rw [List.getLast?_cons, h.getLast, Option.getD_some]
  earlier := by
    rw [List.dropLast_cons_of_ne_nil h.ne_nil, List.forall_mem_cons]
    exact ⟨hx, h.earlier⟩
  length_le := Nat.succ_le_succ h.length_le
  stopped := h.stopped.imp_right (congrArg (· + 1))

theorem exhausted (h : EndsAt stop limit draws last) (hlast : ¬ stop last) :
    draws.length = limit ∧ ∀ x ∈ draws, ¬ stop x := by
  refine ⟨h.stopped.resolve_left hlast, ?_⟩
  rw [h.eq_append, List.forall_mem_append, List.forall_mem_singleton]
  exact ⟨h.earlier, hlast⟩

end EndsAt

def foldUntil (stop : α → Prop) [DecidablePred stop] (f : β → α → β) (draw : StateM σ α) :
    (limit : Nat) → (acc : β) → StateM σ β
  | 0, acc => return acc
  | limit + 1, acc => do
    let x ← draw
    if stop x then return f acc x else foldUntil stop f draw limit (f acc x)

theorem exists_draws_of_foldUntil (stop : α → Prop) [DecidablePred stop] (draw : StateM σ α)
    (limit : Nat) (s : σ) :
    ∃ draws last s', Supplies draw s draws s' ∧ EndsAt stop (limit + 1) draws last ∧
      ∀ {β : Type} (f : β → α → β) (acc : β),
        (foldUntil stop f draw (limit + 1) acc).run s = (draws.foldl f acc, s') := by
  induction limit generalizing s with
  | zero =>
    refine ⟨_, _, _, .singleton draw s, .one _, fun f acc => ?_⟩
    rw [foldUntil, run_state_bind]
    split <;> rfl
  | succ limit ih =>
    by_cases hstop : stop (draw.run s).1
    · refine ⟨_, _, _, .singleton draw s, .of_stop hstop, fun f acc => ?_⟩
      rw [foldUntil, run_state_bind, if_pos hstop]
      rfl
    · obtain ⟨draws, last, s', hsupplies, hends, hrun⟩ := ih (draw.run s).2
      refine ⟨_, last, s', hsupplies.cons, hends.cons hstop, fun f acc => ?_⟩
      rw [foldUntil, run_state_bind, if_neg hstop, hrun, List.foldl_cons]

theorem exists_draws_of_last (stop : α → Prop) [DecidablePred stop] (draw : StateM σ α)
    (limit : Nat) (s : σ) :
    ∃ draws last s', Supplies draw s draws s' ∧ EndsAt stop (limit + 1) draws last ∧
      ∀ x, (foldUntil stop (fun _ y => y) draw (limit + 1) x).run s = (last, s') := by
  obtain ⟨draws, last, s', hsupplies, hends, hrun⟩ := exists_draws_of_foldUntil stop draw limit s
  refine ⟨draws, last, s', hsupplies, hends, fun x => ?_⟩
  rw [hrun, hends.eq_append, List.foldl_append]
  rfl

end Draw

/-! ### Dice that are drawn again or grow -/

theorem Reroll.redraw_eq (trigger : Condition) (draw : StateM σ Int64) (retries : Nat)
    (value : Int64) :
    redraw trigger draw retries =
      Draw.foldUntil (fun x => ¬ trigger.holds x) (fun _ x => x) draw (retries + 1) value := by
  induction retries generalizing value with
  | zero => simp only [redraw, Draw.foldUntil, ite_self, bind_pure]
  | succ retries ih =>
    rw [redraw, Draw.foldUntil]
    refine bind_congr fun x => ?_
    rw [ih x, ite_not]

theorem Unique.redraw_eq (u : Unique) (seen : Std.HashSet Int64) (draw : StateM σ Int64)
    (retries : Nat) (value : Int64) :
    u.redraw seen draw retries =
      Draw.foldUntil (fun x => u.admits seen x) (fun _ x => x) draw (retries + 1) value := by
  induction retries generalizing value with
  | zero => simp only [redraw, Draw.foldUntil, ite_self, bind_pure]
  | succ retries ih =>
    rw [redraw, Draw.foldUntil]
    refine bind_congr fun x => ?_
    rw [ih x]

theorem Burst.grow_eq (top : Int64) (gain : Int64 → Int64) (draw : StateM σ Int64) (limit : Nat)
    (value : Int64) :
    grow top gain draw limit value =
      Draw.foldUntil (· ≠ top) (fun v x => v + gain x) draw limit value := by
  induction limit generalizing value with
  | zero => rfl
  | succ limit ih =>
    rw [grow, Draw.foldUntil]
    refine bind_congr fun x => ?_
    rw [ih, ite_not]

/-! ### Walks -/

structure Turn where
  before : Int64
  draws : List Int64
  after : Int64
deriving DecidableEq, Repr

namespace Turn

def isDrawn (t : Turn) : Bool :=
  !t.draws.isEmpty

theorem isDrawn_iff (t : Turn) : t.isDrawn ↔ t.draws ≠ [] := by
  simp [isDrawn]

end Turn

structure Walk (draw : StateM σ Int64) (rolls : List Int64) (s : σ) (turns : List Turn)
    (result : List Int64) (s' : σ) : Prop where
  before : turns.map Turn.before = rolls
  after : turns.map Turn.after = result
  draws : Draw.Supplies draw s (turns.flatMap Turn.draws) s'

namespace Walk

variable {draw : StateM σ Int64} {rolls result : List Int64} {s s' s'' : σ} {turns : List Turn}

theorem nil (draw : StateM σ Int64) (s : σ) : Walk draw [] s [] [] s :=
  ⟨rfl, rfl, .nil draw s⟩

theorem cons {t : Turn} (ht : Draw.Supplies draw s t.draws s')
    (h : Walk draw rolls s' turns result s'') :
    Walk draw (t.before :: rolls) s (t :: turns) (t.after :: result) s'' where
  before := congrArg (t.before :: ·) h.before
  after := congrArg (t.after :: ·) h.after
  draws := ht.append h.draws

theorem length_eq (h : Walk draw rolls s turns result s') : result.length = rolls.length := by
  rw [← h.after, ← h.before, List.length_map, List.length_map]

end Walk

theorem forall_turns_cons {P : List Turn → Turn → Prop} {t : Turn} {turns : List Turn}
    (hhead : P [] t) (htail : ∀ i u, turns[i]? = some u → P (t :: turns.take i) u) (i : Nat)
    (u : Turn) (hu : (t :: turns)[i]? = some u) : P ((t :: turns).take i) u := by
  cases i with
  | zero =>
    cases hu
    exact hhead
  | succ i => exact htail i u hu

end DicePool
