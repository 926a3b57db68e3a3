import DicePool.Form.Modifier
import DicePool.Json.Reader
import DicePool.Roll

/-!
This module contains the JSON form of pools as callers ask for them.
-/

namespace DicePool

open Form (ifSome ifAny)

namespace Sides

def toJson : Sides → Json
  | .numbered n => Form.count n
  | .faces labels => Form.strs labels

def ofJson? (v : Json) : Option Sides :=
  v.toUInt32?.map .numbered <|> (v.toList? Json.toString?).map .faces

end Sides

namespace Sign

def toJson : Sign → Json
  | .add => .str "add"
  | .subtract => .str "subtract"

def ofJson? (v : Json) : Option Sign := do
  match ← v.toName? with
  | "add" => some .add
  | "subtract" => some .subtract
  | _ => none

end Sign

namespace PoolSpec

def toJson (spec : PoolSpec) : Json :=
  .obj (
    [("sides", spec.sides.toJson), ("quantity", Form.count spec.quantity)] ++
    (if spec.modifiers.isEmpty then [] else [("modifiers", spec.modifiers.toJson)]) ++
    [("arithmetic", spec.sign.toJson)])

def ofJson? (v : Json) : Option PoolSpec := do
  let fields ← v.toFields? ["sides", "quantity", "modifiers", "arithmetic"]
  return {
    sides := ← Fields.required fields "sides" Sides.ofJson?
    quantity := ← Fields.withDefault fields "quantity" Json.toUInt32? 1
    modifiers := ← Fields.withDefault fields "modifiers" ModifierSet.ofJson? {}
    sign := ← Fields.withDefault fields "arithmetic" Sign.ofJson? .add
  }

def knownKeys : List String :=
  ["cap", "drop", "keep", "replace", "reroll", "explode", "compound", "penetrate", "unique", "plus",
    "minus"]

def unknownKeys (v : Json) : List String :=
  match v.get? "modifiers" with
  | some (.obj members) => (members.map (·.1)).filter fun name => !knownKeys.contains name
  | _ => []

/--
The pool that a value stands for. A value with unknown modifiers is refused for the first of them in
the order of code points, whatever else is wrong with it.
-/
def ofJson (v : Json) : Except RollError PoolSpec :=
  match (unknownKeys v).mergeSort.head? with
  | some key => throw (.unknownModifier key)
  | none =>
    match ofJson? v with
    | some spec => return spec
    | none => throw .malformed

def ofJsonText (text : String) : Except RollError PoolSpec :=
  match Json.ofString? text with
  | some v => ofJson v
  | none => throw .malformed

end PoolSpec

namespace PoolRequest

def ofJson? (v : Json) : Option PoolRequest :=
  v.toUInt32?.map .sides <|> v.toString?.map .text <|> (PoolSpec.ofJson? v).map .spec

end PoolRequest

end DicePool
