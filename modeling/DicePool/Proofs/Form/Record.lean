import DicePool.Form.Record
import DicePool.Proofs.Form.PoolSpec

/-!
This module contains the statement that records are read back from their JSON form as they were
written, with the pools they are records of and the logs of their modifiers.
-/

namespace DicePool

open Form (Reads)

/-! ### Modifiers in logs -/

theorem Kind.reads : Reads ofJson? toJson where
  read_write k := by cases k <;> rfl
  ne_null _ := nofun

namespace Modifier

theorem ofJson?_tagged {m : Modifier} {settings : Json}
    (h : ofSettings? m.kind.name settings = some m) :
    ofJson? (toJson.tagged m settings) = some m := h

theorem reads : Reads ofJson? toJson where
  read_write
    | .cap bounds => ofJson?_tagged (congrArg (Option.map cap) (Condition.reads.read_write bounds))
    | .drop d => ofJson?_tagged (congrArg (Option.map drop) (Drop.reads.read_write d))
    | .replace rules =>
      ofJson?_tagged (congrArg (Option.map replace)
        ((Form.reads_list Replacement.reads).read_write rules))
    | .reroll r => ofJson?_tagged (congrArg (Option.map reroll) (Reroll.reads.read_write r))
    | .explode => rfl
    | .compound depth =>
      ofJson?_tagged (congrArg (Option.map compound) (Depth.reads.read_write depth))
    | .penetrate depth =>
      ofJson?_tagged (congrArg (Option.map penetrate) (Depth.reads.read_write depth))
    | .unique u => ofJson?_tagged (congrArg (Option.map unique) (Unique.reads.read_write u))
    | .plus value => ofJson?_tagged (congrArg (Option.map plus) (Form.reads_int.read_write value))
    | .minus value => ofJson?_tagged (congrArg (Option.map minus) (Form.reads_int.read_write value))
  ne_null m := by cases m <;> nofun

end Modifier

theorem StageLog.reads : Reads ofJson? toJson where
  read_write log := by
    rw [toJson, ofJson?, Json.toFields?, Option.bind_eq_bind, Option.bind_some,
      Fields.required_of_lookup (x := log.kind) rfl Kind.reads,
      Fields.required_of_lookup (x := log.modifier) rfl Modifier.reads,
      Fields.required_of_lookup (x := log.added) rfl (Form.reads_list Form.reads_int),
      Fields.required_of_lookup (x := log.removed) rfl (Form.reads_list Form.reads_int)]
    rfl
  ne_null _ := nofun

theorem History.reads : Reads ofJson? toJson where
  read_write h := by
    rw [toJson, ofJson?, Json.toFields?, Option.bind_eq_bind, Option.bind_some,
      Fields.required_of_lookup (x := h.logs) rfl (Form.reads_list StageLog.reads),
      Fields.required_of_lookup (x := h.modifiedRolls) rfl (Form.reads_list Form.reads_int),
      Fields.required_of_lookup (x := h.total) rfl Form.reads_int,
      Fields.required_of_lookup (x := h.initialRolls) rfl (Form.reads_list Form.reads_int),
      Fields.required_of_lookup (x := h.bonus) rfl Form.reads_int]
    rfl
  ne_null _ := nofun

/-! ### Pools and records -/

theorem Pool.reads : Reads ofJson? toJson where
  read_write p := by
    rw [toJson, ofJson?, Json.toFields?, Option.bind_eq_bind, Option.bind_some,
      Fields.required_of_lookup (x := p.sides) ?_ Form.reads_count,
      Fields.required_of_lookup (x := p.quantity) ?_ Form.reads_count,
      Fields.optional_of_lookup (o := p.faces) ?_ (Form.reads_list Form.reads_str),
      Fields.required_of_lookup (x := p.modifiers) ?_ ModifierSet.reads,
      Fields.required_of_lookup (x := p.sign) ?_ Sign.reads,
      Fields.required_of_lookup (x := p.text) ?_ Form.reads_str,
      Fields.required_of_lookup (x := p.description) ?_ (Form.reads_list Form.reads_str)]
    · rfl
    all_goals cases p.faces <;> rfl
  ne_null _ := nofun

theorem Record.ofJson?_toJson (r : Record) : ofJson? r.toJson = some r := by
  rw [toJson, ofJson?, Json.toFields?, Option.bind_eq_bind, Option.bind_some,
    Fields.required_of_lookup (x := r.pool) ?_ Pool.reads,
    Fields.required_of_lookup (x := r.rolls) ?_ (Form.reads_list Form.reads_int),
    Fields.required_of_lookup (x := r.history) ?_ History.reads,
    Fields.required_of_lookup (x := r.appliedTotal) ?_ Form.reads_int,
    Fields.required_of_lookup (x := r.total) ?_ Form.reads_int,
    Fields.optional_of_lookup (o := r.faces) ?_ (Form.reads_list Form.reads_str)]
  · rfl
  all_goals cases r.faces <;> rfl

end DicePool
