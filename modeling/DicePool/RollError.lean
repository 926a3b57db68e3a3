import DicePool.Text.Decimal
import DicePool.Modifier.Kind

/-!
This module contains the reasons for which a roll is refused and their wording.
-/

namespace DicePool

def maxQuantity : UInt32 := 10000

inductive OptionsFault where
  | noSides
  | noFaces
  | tooManyDice
  | emptyEntry (entry : Entry)
  | cappedValues
  | outOfRange (entry : Entry)
  | noPools
  | noSuchFace (roll : Int64)
deriving DecidableEq, Repr

namespace OptionsFault

def message : OptionsFault → String
  | .noSides => "sides must be a positive integer"
  | .noFaces => "custom dice need at least one face"
  | .tooManyDice => "quantity must be at most " ++ .ofList (Text.Decimal.ofNat maxQuantity.toNat)
  | .emptyEntry entry => entry.name ++ " needs at least one condition"
  | .cappedValues => "cap only accepts greaterThan and lessThan"
  | .outOfRange entry => entry.name ++ " is out of range"
  | .noPools => "at least one pool is required"
  | .noSuchFace roll =>
    "roll " ++ .ofList (Text.Decimal.ofInt roll.toInt) ++ " has no matching face"

end OptionsFault

inductive NotationFault where
  | stopped (rest : String)
  | modifiersOnFaces
  | options (fault : OptionsFault)
deriving DecidableEq, Repr

namespace NotationFault

def message (text : String) : NotationFault → String
  | .stopped rest =>
    if rest = "" ∨ rest = text then text else text ++ " (unexpected \"" ++ rest ++ "\")"
  | .modifiersOnFaces => text ++ " (dice with custom faces take no modifiers)"
  | .options fault => text ++ " (" ++ fault.message ++ ")"

end NotationFault

inductive RollError where
  | invalidNotation (text : String) (fault : NotationFault)
  | invalidOptions (fault : OptionsFault)
  | unknownModifier (key : String)
  | uniqueUnsatisfiable (quantity sides : UInt32)
  | modifiersOnFaces
  | malformed
deriving DecidableEq, Repr

namespace RollError

def message : RollError → String
  | .invalidNotation text fault => "Invalid notation: " ++ fault.message text
  | .invalidOptions fault => "Invalid roll options: " ++ fault.message
  | .unknownModifier key => "Unknown modifier: " ++ key
  | .uniqueUnsatisfiable quantity sides =>
    "Cannot roll " ++ .ofList (Text.Decimal.ofNat quantity.toNat) ++ " unique values on a " ++
      .ofList (Text.Decimal.ofNat sides.toNat) ++ "-sided die"
  | .modifiersOnFaces => "Modifiers are not supported on dice with custom faces"
  | .malformed => "Invalid roll options JSON"

end RollError

end DicePool
