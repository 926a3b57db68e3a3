import DicePool.Json.Fields
import DicePool.Modifier.Basic

/-!
This module contains the JSON form of modifiers and of sets of them.
-/

namespace DicePool

namespace Form

def ifSome (name : String) (write : α → Json) : Option α → List (String × Json)
  | none => []
  | some x => [(name, write x)]

def ifAny (name : String) (write : α → Json) : List α → List (String × Json)
  | [] => []
  | xs => [(name, .arr (xs.map write))]

def int (n : Int64) : Json :=
  .int n.toInt

def count (n : UInt32) : Json :=
  .int n.toNat

def ints (ns : List Int64) : Json :=
  .arr (ns.map int)

def strs (ss : List String) : Json :=
  .arr (ss.map .str)

end Form

open Form (ifSome ifAny)

namespace Condition

def members (c : Condition) : List (String × Json) :=
  ifSome "greaterThan" Form.int c.greaterThan ++ ifSome "lessThan" Form.int c.lessThan ++
    ifAny "exact" Form.int c.exact

def toJson (c : Condition) : Json :=
  .obj c.members

def ofFields? (fields : List (String × Json)) : Option Condition := do
  return {
    greaterThan := ← Fields.optional fields "greaterThan" Json.toInt64?
    lessThan := ← Fields.optional fields "lessThan" Json.toInt64?
    exact := ← Fields.withDefault fields "exact" (Json.toList? Json.toInt64?) []
  }

def ofJson? (v : Json) : Option Condition := do
  ofFields? (← v.toFields? ["greaterThan", "lessThan", "exact"])

end Condition

namespace Drop

def toJson (d : Drop) : Json :=
  .obj (ifSome "highest" Form.count d.highest ++ ifSome "lowest" Form.count d.lowest ++
    d.filter.members)

def ofJson? : Json → Option Drop
  | .obj fields => do
    return {
      highest := ← Fields.optional fields "highest" Json.toUInt32?
      lowest := ← Fields.optional fields "lowest" Json.toUInt32?
      filter := ← Condition.ofFields? fields
    }
  -- The members of the filter stand beside the counts, so there is no form as an array.
  | _ => none

end Drop

namespace Keep

def toJson (k : Keep) : Json :=
  .obj (ifSome "highest" Form.count k.highest ++ ifSome "lowest" Form.count k.lowest)

def ofJson? (v : Json) : Option Keep := do
  let fields ← v.toFields? ["highest", "lowest"]
  return {
    highest := ← Fields.optional fields "highest" Json.toUInt32?
    lowest := ← Fields.optional fields "lowest" Json.toUInt32?
  }

end Keep

namespace Replacement

def Target.toJson : Target → Json
  | .exact value => Form.int value
  | .condition c => c.toJson

def Target.ofJson? (v : Json) : Option Target :=
  v.toInt64?.map .exact <|> (Condition.ofJson? v).map .condition

def toJson (r : Replacement) : Json :=
  .obj [("from", r.target.toJson), ("to", Form.int r.value)]

def ofJson? (v : Json) : Option Replacement := do
  let fields ← v.toFields? ["from", "to"]
  return {
    target := ← Fields.required fields "from" Target.ofJson?
    value := ← Fields.required fields "to" Json.toInt64?
  }

def listToJson (rules : List Replacement) : Json :=
  .arr (rules.map toJson)

def listOfJson? : Json → Option (List Replacement) :=
  Json.toList? ofJson?

/--
A single rule may stand for a list of one. It is tried first, so that an array of two values is one
rule if it can be.
-/
def oneOrMore? (v : Json) : Option (List Replacement) :=
  (ofJson? v).map ([·]) <|> listOfJson? v

end Replacement

namespace Reroll

def toJson (r : Reroll) : Json :=
  .obj (r.trigger.members ++ ifSome "max" Form.count r.max)

def ofJson? : Json → Option Reroll
  | .obj fields => do
    return {
      trigger := ← Condition.ofFields? fields
      max := ← Fields.optional fields "max" Json.toUInt32?
    }
  | _ => none

end Reroll

namespace Depth

def toJson (d : Depth) : Json :=
  Form.count d.draws

def ofJson? (v : Json) : Option Depth :=
  v.toUInt32?.map Depth.mk

def ofFlag? : Json → Option (Option Depth)
  | .bool b => some (if b then some .unlimited else none)
  | .null => some none
  | v => (ofJson? v).map some

end Depth

namespace Unique

def toJson (u : Unique) : Json :=
  .obj (ifAny "notUnique" Form.int u.notUnique)

def ofJson? (v : Json) : Option Unique := do
  let fields ← v.toFields? ["notUnique"]
  return {
    notUnique := ← Fields.withDefault fields "notUnique" (Json.toList? Json.toInt64?) []
  }

def ofFlag? : Json → Option (Option Unique)
  | .bool b => some (if b then some {} else none)
  | .null => some none
  | v => (ofJson? v).map some

end Unique

namespace Kind

def toJson (k : Kind) : Json :=
  .str k.name

def ofJson? (v : Json) : Option Kind := do
  let name ← v.toName?
  inOrder.find? (·.name == name)

end Kind

namespace Modifier

def toJson (m : Modifier) : Json :=
  match m with
  | .cap bounds => tagged bounds.toJson
  | .drop d => tagged d.toJson
  | .replace rules => tagged (Replacement.listToJson rules)
  | .reroll r => tagged r.toJson
  | .explode => .str m.kind.name
  | .compound depth => tagged depth.toJson
  | .penetrate depth => tagged depth.toJson
  | .unique u => tagged u.toJson
  | .plus value => tagged (Form.int value)
  | .minus value => tagged (Form.int value)
where
  tagged (settings : Json) : Json := .obj [(m.kind.name, settings)]

def ofSettings? (name : String) (settings : Json) : Option Modifier :=
  match name with
  | "cap" => (Condition.ofJson? settings).map .cap
  | "drop" => (Drop.ofJson? settings).map .drop
  | "replace" => (Replacement.listOfJson? settings).map .replace
  | "reroll" => (Reroll.ofJson? settings).map .reroll
  | "explode" =>
    match settings with
    | .null => some .explode
    | _ => none
  | "compound" => (Depth.ofJson? settings).map .compound
  | "penetrate" => (Depth.ofJson? settings).map .penetrate
  | "unique" => (Unique.ofJson? settings).map .unique
  | "plus" => settings.toInt64?.map .plus
  | "minus" => settings.toInt64?.map .minus
  | _ => none

def ofJson? : Json → Option Modifier
  | .str "explode" => some .explode
  | .obj [(name, settings)] => ofSettings? name settings
  | _ => none

end Modifier

namespace ModifierSet

def toJson (m : ModifierSet) : Json :=
  .obj (
    ifSome "cap" Condition.toJson m.cap ++
    ifSome "drop" Drop.toJson m.drop ++
    ifSome "keep" Keep.toJson m.keep ++
    ifSome "replace" Replacement.listToJson m.replace ++
    ifSome "reroll" Reroll.toJson m.reroll ++
    (if m.explode then [("explode", .bool true)] else []) ++
    ifSome "compound" Depth.toJson m.compound ++
    ifSome "penetrate" Depth.toJson m.penetrate ++
    ifSome "unique" Unique.toJson m.unique ++
    ifSome "plus" Form.int m.plus ++
    ifSome "minus" Form.int m.minus)

def keys : List String :=
  Entry.all.map Entry.name

def ofJson? (v : Json) : Option ModifierSet := do
  let fields ← v.toFields? keys
  guard (fields.all fun (name, _) => keys.contains name)
  return {
    cap := ← Fields.optional fields "cap" Condition.ofJson?
    drop := ← Fields.optional fields "drop" Drop.ofJson?
    keep := ← Fields.optional fields "keep" Keep.ofJson?
    replace := ← Fields.optional fields "replace" Replacement.oneOrMore?
    reroll := ← Fields.optional fields "reroll" Reroll.ofJson?
    explode := ← Fields.withDefault fields "explode" Json.toBool? false
    compound := ← Fields.withDefault fields "compound" Depth.ofFlag? none
    penetrate := ← Fields.withDefault fields "penetrate" Depth.ofFlag? none
    unique := ← Fields.withDefault fields "unique" Unique.ofFlag? none
    plus := ← Fields.optional fields "plus" Json.toInt64?
    minus := ← Fields.optional fields "minus" Json.toInt64?
  }

end ModifierSet

end DicePool
