import DicePool.Condition

/-!
This module contains the modifier that writes other values on dice.
-/

namespace DicePool

inductive Replacement.Target where
  | exact (value : Int64)
  | condition (c : Condition)
deriving DecidableEq, Repr, Inhabited

structure Replacement where
  target : Replacement.Target
  value : Int64
deriving DecidableEq, Repr, Inhabited

namespace Replacement

def Target.holds : Target → Int64 → Bool
  | .exact value, v => v == value
  | .condition c, v => c.holds v

def replace (r : Replacement) (value : Int64) : Int64 :=
  if r.target.holds value then r.value else value

def split (r : Replacement) : List Replacement :=
  match r.target with
  | .exact _ => [r]
  | .condition c =>
    c.exact.map (fun v => ⟨.exact v, r.value⟩) ++
      (c.greaterThan.toList.map fun bound => ⟨.condition (.above bound), r.value⟩) ++
      (c.lessThan.toList.map fun bound => ⟨.condition (.below bound), r.value⟩)

def isEmpty (r : Replacement) : Bool :=
  match r.target with
  | .exact _ => false
  | .condition c => c.isEmpty

def applyAll (rules : List Replacement) (rolls : List Int64) : List Int64 :=
  rules.foldl (fun rolls r => rolls.map r.replace) rolls

@[simp]
theorem applyAll_nil (rolls : List Int64) : applyAll [] rolls = rolls := rfl

@[simp]
theorem applyAll_append (rs ss : List Replacement) (rolls : List Int64) :
    applyAll (rs ++ ss) rolls = applyAll ss (applyAll rs rolls) := by
  simp [applyAll]

end Replacement

end DicePool
