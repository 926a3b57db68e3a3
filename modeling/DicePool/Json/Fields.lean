import DicePool.Bounded
import DicePool.Json.Basic
import DicePool.Json.Double

/-!
This module contains the reading of typed data out of JSON values: numbers of fixed width, lists,
names out of a fixed choice, and records by their fields.
-/

namespace DicePool

namespace Json

def toInt64? : Json → Option Int64
  | .int n => Bounded.int64? n
  | _ => none

def toUInt32? : Json → Option UInt32
  | .int (.ofNat n) => Bounded.uint32? n
  | _ => none

def toUInt64? : Json → Option UInt64
  | .int (.ofNat n) => Bounded.uint64? n
  | _ => none

def toFloat? : Json → Option Float
  | .int n => some (.ofInt n)
  | .decimal negative digits exponent => do
    let f ← Double.ofDecimal? digits exponent
    return if negative then -f else f
  | _ => none

def toBool? : Json → Option Bool
  | .bool b => some b
  | _ => none

def toString? : Json → Option String
  | .str s => some s
  | _ => none

def toList? (read : Json → Option α) : Json → Option (List α)
  | .arr items => items.mapM read
  | _ => none

def toName? : Json → Option String
  | .str s => some s
  | .obj [(name, .null)] => some name
  | _ => none

/--
The named fields of a record. In an array they stand in the order of `names`, and there must not be
more of them; fields at the end may be missing there.
-/
def toFields? (names : List String) : Json → Option (List (String × Json))
  | .obj members => some members
  | .arr items => if items.length ≤ names.length then some (names.zip items) else none
  | _ => none

end Json

namespace Fields

variable {α : Type} (fields : List (String × Json)) (name : String) (read : Json → Option α)

def required : Option α := do
  read (← fields.lookup name)

def withDefault (default : α) : Option α :=
  match fields.lookup name with
  | none => some default
  | some v => read v

def optional : Option (Option α) :=
  match fields.lookup name with
  | none => some none
  | some .null => some none
  | some v => (read v).map some

end Fields

end DicePool
