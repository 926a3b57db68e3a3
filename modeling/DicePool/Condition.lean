/-!
This module contains conditions on rolled values, which modifiers use to say which dice they act
on.
-/

namespace DicePool

/--
A condition holds for the values above `greaterThan`, for those below `lessThan` and for those
listed in `exact`. One that sets none of them holds for no value.
-/
structure Condition where
  greaterThan : Option Int64 := none
  lessThan : Option Int64 := none
  exact : List Int64 := []
deriving DecidableEq, Repr, Inhabited

namespace Condition

def empty : Condition := {}

def above (bound : Int64) : Condition := { greaterThan := some bound }

def below (bound : Int64) : Condition := { lessThan := some bound }

def oneOf (values : List Int64) : Condition := { exact := values }

def isEmpty (c : Condition) : Bool :=
  c.greaterThan.isNone && c.lessThan.isNone && c.exact.isEmpty

def holds (c : Condition) (value : Int64) : Bool :=
  c.exact.contains value || c.greaterThan.any (· < value) || c.lessThan.any (value < ·)

def addNew (known values : List Int64) : List Int64 :=
  values.foldl (fun known v => if known.contains v then known else known ++ [v]) known

def merge (c other : Condition) : Condition where
  greaterThan := other.greaterThan <|> c.greaterThan
  lessThan := other.lessThan <|> c.lessThan
  exact := addNew c.exact other.exact

@[simp]
theorem addNew_nil (known : List Int64) : addNew known [] = known := rfl

@[simp]
theorem addNew_append (known xs ys : List Int64) :
    addNew known (xs ++ ys) = addNew (addNew known xs) ys := by
  simp [addNew]

theorem not_holds_of_isEmpty {c : Condition} (h : c.isEmpty) (value : Int64) :
    c.holds value = false := by
  simp_all [isEmpty, holds]

end Condition

end DicePool
