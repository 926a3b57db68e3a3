import DicePool.Form.Modifier

/-!
This module contains the statement that modifiers are read back from their JSON form as they were
written: fields by their names first, then each modifier, then the sets of them.
-/

namespace DicePool

variable {α : Type}

/-! ### Values and fields -/

namespace Form

variable {read : Json → Option α} {write : α → Json} {name key : String}

/--
What is written can be read back. It is never written as `null`, which stands for a missing field.
-/
structure Reads (read : Json → Option α) (write : α → Json) : Prop where
  read_write : ∀ x, read (write x) = some x
  ne_null : ∀ x, write x ≠ .null

theorem reads_int : Reads Json.toInt64? int where
  read_write := Bounded.int64?_toInt
  ne_null _ := nofun

theorem reads_count : Reads Json.toUInt32? count where
  read_write _ := Bounded.uint32?_eq_some_iff.2 rfl
  ne_null _ := nofun

theorem reads_str : Reads Json.toString? .str where
  read_write _ := rfl
  ne_null _ := nofun

theorem reads_list (h : Reads read write) :
    Reads (Json.toList? read) fun xs => .arr (xs.map write) where
  read_write xs := by
    rw [Json.toList?]
    induction xs with
    | nil => rfl
    | cons x xs ih => simp [h.read_write, ih]
  ne_null _ := nofun

theorem lookup_singleton (v : Json) :
    [(name, v)].lookup key = if key = name then some v else none := by
  rw [List.lookup_cons]
  split
  · next h => rw [if_pos (beq_iff_eq.1 h)]
  · next h => rw [if_neg (beq_eq_false_iff_ne.1 h), List.lookup_nil]

@[simp]
theorem lookup_ifSome (o : Option α) :
    (ifSome name write o).lookup key = if key = name then o.map write else none := by
  cases o with
  | none => simp [ifSome]
  | some x => simp [ifSome, lookup_singleton]

@[simp]
theorem lookup_ifAny (xs : List α) :
    (ifAny name write xs).lookup key =
      if key = name ∧ xs ≠ [] then some (.arr (xs.map write)) else none := by
  cases xs with
  | nil => simp [ifAny]
  | cons x xs => simp [ifAny, lookup_singleton]

theorem fst_of_mem_ifSome {o : Option α} {member : String × Json}
    (h : member ∈ ifSome name write o) : member.1 = name := by
  cases o with
  | none => contradiction
  | some x => rw [List.mem_singleton.1 h]

end Form

namespace Fields

open Form (Reads)

variable {fields : List (String × Json)} {name : String} {read : Json → Option α} {write : α → Json}

theorem required_of_lookup {x : α} (hlookup : fields.lookup name = some (write x))
    (h : Reads read write) : required fields name read = some x := by
  rw [required, hlookup]
  exact h.read_write x

theorem optional_of_lookup {o : Option α} (hlookup : fields.lookup name = o.map write)
    (h : Reads read write) : optional fields name read = some o := by
  rw [optional, hlookup]
  cases o with
  | none => rfl
  | some x =>
    rw [Option.map_some]
    split
    · contradiction
    · next heq => exact absurd (Option.some.inj heq) (h.ne_null x)
    · next heq => rw [← Option.some.inj heq, h.read_write, Option.map_some]

theorem withDefault_of_none (hlookup : fields.lookup name = none) (default : α) :
    withDefault fields name read default = some default := by
  rw [withDefault, hlookup]

theorem withDefault_of_some {x : α} (hlookup : fields.lookup name = some (write x))
    (h : Reads read write) (default : α) : withDefault fields name read default = some x := by
  rw [withDefault, hlookup]
  exact h.read_write x

theorem list_of_lookup {l : List α}
    (hlookup : fields.lookup name = if l ≠ [] then some (.arr (l.map write)) else none)
    (h : Reads read write) : withDefault fields name (Json.toList? read) [] = some l := by
  cases l with
  | nil => exact withDefault_of_none hlookup _
  | cons x l =>
    rw [withDefault, hlookup]
    exact (Form.reads_list h).read_write (x :: l)

theorem flag_of_lookup {o : Option α} {read : Json → Option (Option α)}
    (hlookup : fields.lookup name = o.map write) (h : ∀ x, read (write x) = some (some x)) :
    withDefault fields name read none = some o := by
  cases o with
  | none => exact withDefault_of_none hlookup _
  | some x =>
    rw [withDefault, hlookup]
    exact h x

theorem bool_of_lookup {b : Bool}
    (hlookup : fields.lookup name = if b then some (.bool true) else none) :
    withDefault fields name Json.toBool? false = some b := by
  cases b with
  | false => exact withDefault_of_none hlookup _
  | true =>
    rw [withDefault, hlookup]
    rfl

end Fields

/-! ### Modifiers -/

namespace Condition

theorem ofFields?_of_lookup {c : Condition} {fields : List (String × Json)}
    (h : ∀ name ∈ ["greaterThan", "lessThan", "exact"],
      fields.lookup name = c.members.lookup name) : ofFields? fields = some c := by
  simp only [List.forall_mem_cons, members, List.lookup_append] at h
  obtain ⟨hgt, hlt, hexact, _⟩ := h
  have hgt : fields.lookup "greaterThan" = c.greaterThan.map Form.int := by simp [hgt]
  have hlt : fields.lookup "lessThan" = c.lessThan.map Form.int := by simp [hlt]
  have hexact : fields.lookup "exact" =
      if c.exact ≠ [] then some (.arr (c.exact.map Form.int)) else none := by
    simp [hexact]
  rw [ofFields?, Fields.optional_of_lookup hgt Form.reads_int,
    Fields.optional_of_lookup hlt Form.reads_int, Fields.list_of_lookup hexact Form.reads_int]
  rfl

theorem reads : Form.Reads ofJson? toJson where
  read_write _ := ofFields?_of_lookup fun _ _ => rfl
  ne_null _ := nofun

theorem lookup_members_eq_none {c : Condition} {name : String}
    (h : name ∉ ["greaterThan", "lessThan", "exact"]) : c.members.lookup name = none := by
  simp only [List.mem_cons, not_or] at h
  simp [members, List.lookup_append, h]

end Condition

theorem Drop.reads : Form.Reads ofJson? toJson where
  read_write d := by
    rw [toJson, ofJson?, Fields.optional_of_lookup (o := d.highest) ?_ Form.reads_count,
      Fields.optional_of_lookup (o := d.lowest) ?_ Form.reads_count,
      Condition.ofFields?_of_lookup (c := d.filter) ?_]
    · rfl
    all_goals simp [List.lookup_append, Condition.lookup_members_eq_none]
  ne_null _ := nofun

theorem Keep.reads : Form.Reads ofJson? toJson where
  read_write k := by
    rw [toJson, ofJson?, Json.toFields?, Option.bind_eq_bind, Option.bind_some,
      Fields.optional_of_lookup (o := k.highest) ?_ Form.reads_count,
      Fields.optional_of_lookup (o := k.lowest) ?_ Form.reads_count]
    · rfl
    all_goals simp [List.lookup_append]
  ne_null _ := nofun

theorem Reroll.reads : Form.Reads ofJson? toJson where
  read_write r := by
    rw [toJson, ofJson?, Condition.ofFields?_of_lookup (c := r.trigger) ?_,
      Fields.optional_of_lookup (o := r.max) ?_ Form.reads_count]
    · rfl
    all_goals simp [List.lookup_append, Condition.lookup_members_eq_none]
  ne_null _ := nofun

namespace Replacement

theorem Target.reads : Form.Reads Target.ofJson? Target.toJson where
  read_write
    | .exact value => by
      rw [toJson, ofJson?, Form.reads_int.read_write]
      rfl
    | .condition c => by
      rw [toJson, ofJson?, Condition.reads.read_write]
      rfl
  ne_null
    | .exact _ => nofun
    | .condition _ => nofun

theorem reads : Form.Reads ofJson? toJson where
  read_write r := by
    rw [toJson, ofJson?, Json.toFields?, Option.bind_eq_bind, Option.bind_some,
      Fields.required_of_lookup (x := r.target) rfl Target.reads,
      Fields.required_of_lookup (x := r.value) rfl Form.reads_int]
    rfl
  ne_null _ := nofun

theorem ofJson?_listToJson (rules : List Replacement) : ofJson? (listToJson rules) = none := by
  -- Where a single rule has the value that it writes, an array of two has its second rule.
  have hvalue : ∀ fields, (listToJson rules).toFields? ["from", "to"] = some fields →
      Fields.required fields "to" Json.toInt64? = none := by
    intro fields h
    match rules with
    | [] | [_] | [_, _] =>
      obtain rfl := Option.some.inj h
      rfl
    | _ :: _ :: _ :: _ => simp [listToJson, Json.toFields?] at h
  simp only [ofJson?, Option.bind_eq_bind, Option.bind_eq_none_iff]
  intro fields hfields target _ value hv
  rw [hvalue fields hfields] at hv
  contradiction

theorem reads_oneOrMore : Form.Reads oneOrMore? listToJson where
  read_write rules := by
    rw [oneOrMore?, ofJson?_listToJson]
    exact (Form.reads_list reads).read_write rules
  ne_null _ := nofun

end Replacement

theorem Depth.reads : Form.Reads ofJson? toJson where
  read_write d := by
    rw [ofJson?, toJson, Form.reads_count.read_write]
    rfl
  ne_null _ := nofun

theorem Depth.ofFlag?_toJson (d : Depth) : ofFlag? d.toJson = some (some d) :=
  congrArg (Option.map some) (reads.read_write d)

theorem Unique.reads : Form.Reads ofJson? toJson where
  read_write u := by
    rw [toJson, ofJson?, Json.toFields?, Option.bind_eq_bind, Option.bind_some,
      Fields.list_of_lookup (l := u.notUnique) ?_ Form.reads_int]
    · rfl
    · simp
  ne_null _ := nofun

theorem Unique.ofFlag?_toJson (u : Unique) : ofFlag? u.toJson = some (some u) :=
  congrArg (Option.map some) (reads.read_write u)

/-! ### Sets of modifiers -/

namespace ModifierSet

theorem explode_eq_ifSome (m : ModifierSet) :
    (if m.explode then [("explode", Json.bool true)] else []) =
      Form.ifSome "explode" Json.bool (if m.explode then some true else none) := by
  split <;> rfl

theorem fst_mem_keys {m : ModifierSet} {fields : List (String × Json)}
    (h : m.toJson = .obj fields) : ∀ member ∈ fields, keys.contains member.1 := by
  obtain rfl := Json.obj.inj h
  simp only [explode_eq_ifSome, List.forall_mem_append]
  and_intros
  all_goals
    intro member hmem
    rw [Form.fst_of_mem_ifSome hmem]
    decide

theorem reads : Form.Reads ofJson? toJson where
  read_write m := by
    have hkeys := fst_mem_keys (m := m) rfl
    rw [toJson, ofJson?, Json.toFields?, Option.bind_eq_bind, Option.bind_some,
      Fields.optional_of_lookup (o := m.cap) ?_ Condition.reads,
      Fields.optional_of_lookup (o := m.drop) ?_ Drop.reads,
      Fields.optional_of_lookup (o := m.keep) ?_ Keep.reads,
      Fields.optional_of_lookup (o := m.replace) ?_ Replacement.reads_oneOrMore,
      Fields.optional_of_lookup (o := m.reroll) ?_ Reroll.reads,
      Fields.bool_of_lookup (b := m.explode) ?_,
      Fields.flag_of_lookup (o := m.compound) ?_ Depth.ofFlag?_toJson,
      Fields.flag_of_lookup (o := m.penetrate) ?_ Depth.ofFlag?_toJson,
      Fields.flag_of_lookup (o := m.unique) ?_ Unique.ofFlag?_toJson,
      Fields.optional_of_lookup (o := m.plus) ?_ Form.reads_int,
      Fields.optional_of_lookup (o := m.minus) ?_ Form.reads_int,
      List.all_eq_true.2 hkeys]
    · rfl
    all_goals simp [List.lookup_append, explode_eq_ifSome]
  ne_null _ := nofun

end ModifierSet

end DicePool
