import DicePool.Modifier.Basic

/-!
This module contains pools as callers ask for them, and the check that they can be rolled.
-/

namespace DicePool

inductive Sides where
  | numbered (count : UInt32)
  | faces (faces : List String)
deriving DecidableEq, Repr, Inhabited

inductive Sign where
  | add
  | subtract
deriving DecidableEq, Repr, Inhabited

namespace Sign

def apply : Sign → Int64 → Int64
  | .add, total => total
  | .subtract, total => Bounded.neg total

end Sign

structure PoolSpec where
  sides : Sides
  quantity : UInt32 := 1
  modifiers : ModifierSet := {}
  sign : Sign := .add
deriving DecidableEq, Repr, Inhabited

namespace PoolSpec

def isCustom (spec : PoolSpec) : Bool :=
  match spec.sides with
  | .numbered _ => false
  | .faces _ => true

def validateSides (spec : PoolSpec) : Except RollError Unit :=
  match spec.sides with
  | .numbered count => if count = 0 then throw (.invalidOptions .noSides) else return ()
  | .faces faces =>
    if faces.isEmpty then throw (.invalidOptions .noFaces)
    else if ¬spec.modifiers.isEmpty then throw .modifiersOnFaces
    else return ()

def validateEntries (spec : PoolSpec) : Except RollError Unit :=
  match spec.modifiers.emptyEntry? with
  | some entry => throw (.invalidOptions (.emptyEntry entry))
  | none =>
    if spec.modifiers.cap.any fun bounds => !bounds.exact.isEmpty then
      throw (.invalidOptions .cappedValues)
    else
      return ()

def validateUnique (spec : PoolSpec) : Except RollError Unit :=
  match spec.sides, spec.modifiers.unique with
  | .numbered count, some u => u.check spec.quantity count
  | _, _ => return ()

def validate (spec : PoolSpec) : Except RollError Unit := do
  spec.validateSides
  if maxQuantity < spec.quantity then
    throw (.invalidOptions .tooManyDice)
  spec.validateEntries
  spec.validateUnique

end PoolSpec

end DicePool
