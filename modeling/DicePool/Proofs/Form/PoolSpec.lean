import DicePool.Form.PoolSpec
import DicePool.Proofs.Form.Modifier

/-!
This module contains the statement that pools are read back from their JSON form as callers asked
for them, whether or not they could be rolled.
-/

namespace DicePool

theorem Sides.reads : Form.Reads ofJson? toJson where
  read_write
    | .numbered n => by
      rw [toJson, ofJson?, Form.reads_count.read_write]
      rfl
    | .faces labels => by
      have hcount : (Form.strs labels).toUInt32? = none := rfl
      have hlabels := (Form.reads_list Form.reads_str).read_write labels
      rw [toJson, ofJson?, hcount, Form.strs, hlabels]
      rfl
  ne_null
    | .numbered _ => nofun
    | .faces _ => nofun

theorem Sign.reads : Form.Reads ofJson? toJson where
  read_write
    | .add => rfl
    | .subtract => rfl
  ne_null
    | .add => nofun
    | .subtract => nofun

theorem ModifierSet.withDefault_of_lookup {m : ModifierSet} {fields : List (String × Json)}
    {name : String} (hlookup : fields.lookup name = if m.isEmpty then none else some m.toJson) :
    Fields.withDefault fields name ofJson? {} = some m := by
  split at hlookup
  · next h =>
    obtain rfl : m = {} := of_decide_eq_true h
    exact Fields.withDefault_of_none hlookup _
  · exact Fields.withDefault_of_some hlookup reads _

namespace PoolSpec

theorem reads : Form.Reads ofJson? toJson where
  read_write spec := by
    rw [toJson, ofJson?, Json.toFields?, Option.bind_eq_bind, Option.bind_some,
      Fields.required_of_lookup (x := spec.sides) ?_ Sides.reads,
      Fields.withDefault_of_some (x := spec.quantity) ?_ Form.reads_count,
      ModifierSet.withDefault_of_lookup (m := spec.modifiers) ?_,
      Fields.withDefault_of_some (x := spec.sign) ?_ Sign.reads]
    · rfl
    all_goals cases spec.modifiers.isEmpty <;> rfl
  ne_null _ := nofun

theorem knownKeys_eq_keys : knownKeys = ModifierSet.keys := rfl

theorem unknownKeys_toJson (spec : PoolSpec) : unknownKeys spec.toJson = [] := by
  have hget : spec.toJson.get? "modifiers" =
      if spec.modifiers.isEmpty then none else some spec.modifiers.toJson := by
    rw [toJson, Json.get?_obj]
    cases spec.modifiers.isEmpty <;> rfl
  rw [unknownKeys, hget]
  split
  · next fields h =>
    obtain ⟨_, hfields⟩ := (Option.ite_none_left_eq_some ..).1 h
    rw [List.filter_eq_nil_iff, List.forall_mem_map]
    intro member hmember
    rw [knownKeys_eq_keys]
    simpa using ModifierSet.fst_mem_keys (Option.some.inj hfields) member hmember
  · rfl

theorem ofJson_toJson (spec : PoolSpec) : ofJson spec.toJson = .ok spec := by
  rw [ofJson, unknownKeys_toJson, List.mergeSort_nil, reads.read_write]
  rfl

end PoolSpec

end DicePool
