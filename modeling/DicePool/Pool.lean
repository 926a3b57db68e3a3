import DicePool.Description
import DicePool.Notation.Spelling

/-!
This module contains pools that are ready to be rolled.
-/

namespace DicePool

/--
A pool that can be rolled, together with its notation and its description. Dice with faces of their
own are rolled by the places of the faces, so that `sides` is the number of faces.
-/
structure Pool where
  sides : UInt32
  quantity : UInt32
  faces : Option (List String) := none
  modifiers : ModifierSet
  sign : Sign
  text : String
  description : List String
deriving DecidableEq, Repr, Inhabited

namespace Pool

def isCustom (p : Pool) : Bool :=
  p.faces.isSome

def toSpec (p : Pool) : PoolSpec where
  sides := p.faces.elim (.numbered p.sides) .faces
  quantity := p.quantity
  modifiers := p.modifiers
  sign := p.sign

def normalize (m : ModifierSet) (quantity : UInt32) : ModifierSet :=
  (m.resolveKeep quantity).splitReplacements

def ofValid (spec : PoolSpec) : Pool :=
  let spec := { spec with modifiers := normalize spec.modifiers spec.quantity }
  let (sides, faces) := match spec.sides with
    | .numbered n => (n, none)
    | .faces faces => (.ofNat faces.length, some faces)
  { sides
    quantity := spec.quantity
    faces
    modifiers := spec.modifiers
    sign := spec.sign
    text := .ofList spec.spelling
    description := spec.describe }

def ofSpec (spec : PoolSpec) : Except RollError Pool := do
  spec.validate
  return ofValid spec

def ofNotation (text : String) : Except RollError Pool := do
  ofSpec (← PoolSpec.ofNotation text)

end Pool

def isNotation (text : String) : Bool :=
  match PoolSpec.ofNotation text with
  | .ok _ => true
  | .error _ => false

inductive Validation where
  | valid (text : String) (description : List String)
  | invalid (message : String)
deriving DecidableEq, Repr

def Validation.ofText (text : String) : Validation :=
  match Pool.ofNotation text with
  | .ok p => .valid p.text p.description
  | .error e => .invalid e.message

end DicePool
