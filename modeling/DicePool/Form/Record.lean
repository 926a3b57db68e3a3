import DicePool.Form.PoolSpec

/-!
This module contains the JSON form of pools that are ready to be rolled, of the records of their
rolls and of outcomes.
-/

namespace DicePool

open Form (ifSome ifAny)

namespace Pool

def toJson (p : Pool) : Json :=
  .obj (
    [("sides", Form.count p.sides), ("quantity", Form.count p.quantity)] ++
    ifSome "faces" Form.strs p.faces ++
    [("modifiers", p.modifiers.toJson), ("arithmetic", p.sign.toJson), ("notation", .str p.text),
      ("description", Form.strs p.description)])

def ofJson? (v : Json) : Option Pool := do
  let fields ← v.toFields?
    ["sides", "quantity", "faces", "modifiers", "arithmetic", "notation", "description"]
  return {
    sides := ← Fields.required fields "sides" Json.toUInt32?
    quantity := ← Fields.required fields "quantity" Json.toUInt32?
    faces := ← Fields.optional fields "faces" (Json.toList? Json.toString?)
    modifiers := ← Fields.required fields "modifiers" ModifierSet.ofJson?
    sign := ← Fields.required fields "arithmetic" Sign.ofJson?
    text := ← Fields.required fields "notation" Json.toString?
    description := ← Fields.required fields "description" (Json.toList? Json.toString?)
  }

end Pool

namespace StageLog

def toJson (log : StageLog) : Json :=
  .obj [("modifier", log.kind.toJson), ("options", log.modifier.toJson),
    ("added", Form.ints log.added), ("removed", Form.ints log.removed)]

def ofJson? (v : Json) : Option StageLog := do
  let fields ← v.toFields? ["modifier", "options", "added", "removed"]
  return {
    kind := ← Fields.required fields "modifier" Kind.ofJson?
    modifier := ← Fields.required fields "options" Modifier.ofJson?
    added := ← Fields.required fields "added" (Json.toList? Json.toInt64?)
    removed := ← Fields.required fields "removed" (Json.toList? Json.toInt64?)
  }

end StageLog

namespace History

def toJson (h : History) : Json :=
  .obj [("logs", .arr (h.logs.map StageLog.toJson)), ("modifiedRolls", Form.ints h.modifiedRolls),
    ("total", Form.int h.total), ("initialRolls", Form.ints h.initialRolls),
    ("simpleMathModifier", Form.int h.bonus)]

def ofJson? (v : Json) : Option History := do
  let fields ← v.toFields?
    ["logs", "modifiedRolls", "total", "initialRolls", "simpleMathModifier"]
  return {
    logs := ← Fields.required fields "logs" (Json.toList? StageLog.ofJson?)
    modifiedRolls := ← Fields.required fields "modifiedRolls" (Json.toList? Json.toInt64?)
    total := ← Fields.required fields "total" Json.toInt64?
    initialRolls := ← Fields.required fields "initialRolls" (Json.toList? Json.toInt64?)
    bonus := ← Fields.required fields "simpleMathModifier" Json.toInt64?
  }

end History

namespace Record

def toJson (r : Record) : Json :=
  .obj (
    [("parameters", r.pool.toJson), ("rolls", Form.ints r.rolls),
      ("modifierHistory", r.history.toJson), ("appliedTotal", Form.int r.appliedTotal),
      ("total", Form.int r.total)] ++
    ifSome "customResults" Form.strs r.faces)

def ofJson? (v : Json) : Option Record := do
  let fields ← v.toFields?
    ["parameters", "rolls", "modifierHistory", "appliedTotal", "total", "customResults"]
  return {
    pool := ← Fields.required fields "parameters" Pool.ofJson?
    rolls := ← Fields.required fields "rolls" (Json.toList? Json.toInt64?)
    history := ← Fields.required fields "modifierHistory" History.ofJson?
    appliedTotal := ← Fields.required fields "appliedTotal" Json.toInt64?
    total := ← Fields.required fields "total" Json.toInt64?
    faces := ← Fields.optional fields "customResults" (Json.toList? Json.toString?)
  }

end Record

namespace Outcome

def toJson (o : Outcome) : Json :=
  .obj (
    [("total", Form.int o.total), ("rolls", .arr (o.records.map Record.toJson))] ++
    ifAny "result" Json.str o.faces)

end Outcome

namespace Validation

def toJson : Validation → Json
  | .valid text description =>
    .obj ([("valid", .bool true), ("notation", .str text)] ++
      ifAny "description" Json.str description)
  | .invalid message => .obj [("valid", .bool false), ("error", .str message)]

end Validation

end DicePool
