import DicePool.Proofs.Form.PoolSpec
import DicePool.Proofs.Run
import DicePool.Proofs.Text.Order
import Mathlib.Data.Option.Basic

/-!
This module contains the statement that no modifier is overlooked in the JSON form of a pool: what
has an unknown name is refused, and what has a known one is taken over. A pool with several unknown
names is refused for the first of them, before anything else is looked at.
-/

namespace DicePool

/-! ### Fields -/

namespace Fields

variable {α : Type} {fields : List (String × Json)} {name : String} {x : Json}

/--
A field that asks for something. What is `null` or `false` is as good as missing.
-/
def Asks (fields : List (String × Json)) (name : String) : Prop :=
  ∃ x, fields.lookup name = some x ∧ x ≠ .null ∧ x ≠ .bool false

theorem asks_of_lookup (h : fields.lookup name = some x) :
    Asks fields name ↔ x ≠ .null ∧ x ≠ .bool false := by
  simp only [Asks, h, Option.some_inj, exists_eq_left']

theorem not_asks_of_lookup (h : fields.lookup name = none) : ¬Asks fields name := by
  rintro ⟨x, hx, _⟩
  rw [h] at hx
  contradiction

theorem isSome_of_optional {read : Json → Option α} {o : Option α}
    (h : optional fields name read = some o) (hfalse : read (.bool false) = none) :
    o.isSome ↔ Asks fields name := by
  unfold optional at h
  split at h
  · next hlookup =>
    obtain rfl := Option.some.inj h
    simpa using not_asks_of_lookup hlookup
  · next hlookup =>
    obtain rfl := Option.some.inj h
    simp [asks_of_lookup hlookup]
  · next x hnull hlookup =>
    obtain ⟨y, hread, rfl⟩ := Option.map_eq_some_iff.1 h
    have hx : x ≠ .bool false := by
      rintro rfl
      rw [hfalse] at hread
      contradiction
    simpa [asks_of_lookup hlookup] using ⟨hnull, hx⟩

theorem isSome_of_flag {read : Json → Option (Option α)} {o : Option α}
    (h : withDefault fields name read none = some o)
    (hread : ∀ x, read x = some none ↔ x = .null ∨ x = .bool false) :
    o.isSome ↔ Asks fields name := by
  unfold withDefault at h
  split at h
  · next hlookup =>
    obtain rfl := Option.some.inj h
    simpa using not_asks_of_lookup hlookup
  · next x hlookup =>
    have hnone := hread x
    rw [h, Option.some_inj] at hnone
    rw [asks_of_lookup hlookup, Option.isSome_iff_ne_none, Ne, hnone, not_or]

theorem eq_true_of_bool {b : Bool} (h : withDefault fields name Json.toBool? false = some b) :
    b = true ↔ Asks fields name := by
  unfold withDefault at h
  split at h
  · next hlookup =>
    obtain rfl := Option.some.inj h
    simpa using not_asks_of_lookup hlookup
  · next x hlookup =>
    rw [asks_of_lookup hlookup]
    cases x with
    | bool c =>
      obtain rfl := Option.some.inj h
      simp
    | _ => contradiction

end Fields

theorem Depth.ofFlag?_eq_some_none_iff (x : Json) :
    ofFlag? x = some none ↔ x = .null ∨ x = .bool false := by
  cases x with
  | bool b => cases b <;> simp [ofFlag?]
  | _ => simp [ofFlag?]

theorem Unique.ofFlag?_eq_some_none_iff (x : Json) :
    ofFlag? x = some none ↔ x = .null ∨ x = .bool false := by
  cases x with
  | bool b => cases b <;> simp [ofFlag?]
  | _ => simp [ofFlag?]

/-! ### Sets of modifiers -/

namespace ModifierSet

def has (m : ModifierSet) : Entry → Bool
  | .cap => m.cap.isSome
  | .drop => m.drop.isSome
  | .keep => m.keep.isSome
  | .replace => m.replace.isSome
  | .reroll => m.reroll.isSome
  | .explode => m.explode
  | .compound => m.compound.isSome
  | .penetrate => m.penetrate.isSome
  | .unique => m.unique.isSome
  | .plus => m.plus.isSome
  | .minus => m.minus.isSome

theorem contains_keys_iff {name : String} : keys.contains name ↔ ∃ e : Entry, e.name = name := by
  rw [keys, List.contains_iff_mem, List.mem_map]
  exact exists_congr fun e => and_iff_right e.mem_all

theorem has_of_ofJson? {v : Json} {m : ModifierSet} (h : ofJson? v = some m) :
    ∃ fields, v.toFields? keys = some fields ∧ (∀ member ∈ fields, ∃ e : Entry, e.name = member.1) ∧
      ∀ e : Entry, m.has e ↔ Fields.Asks fields e.name := by
  obtain ⟨fields, hfields, h⟩ := Option.bind_eq_some_iff.1 h
  obtain ⟨_, hguard, h⟩ := Option.bind_eq_some_iff.1 h
  obtain ⟨cap, hcap, h⟩ := Option.bind_eq_some_iff.1 h
  obtain ⟨drop, hdrop, h⟩ := Option.bind_eq_some_iff.1 h
  obtain ⟨keep, hkeep, h⟩ := Option.bind_eq_some_iff.1 h
  obtain ⟨replace, hreplace, h⟩ := Option.bind_eq_some_iff.1 h
  obtain ⟨reroll, hreroll, h⟩ := Option.bind_eq_some_iff.1 h
  obtain ⟨explode, hexplode, h⟩ := Option.bind_eq_some_iff.1 h
  obtain ⟨compound, hcompound, h⟩ := Option.bind_eq_some_iff.1 h
  obtain ⟨penetrate, hpenetrate, h⟩ := Option.bind_eq_some_iff.1 h
  obtain ⟨unique, hunique, h⟩ := Option.bind_eq_some_iff.1 h
  obtain ⟨plus, hplus, h⟩ := Option.bind_eq_some_iff.1 h
  obtain ⟨minus, hminus, h⟩ := Option.bind_eq_some_iff.1 h
  obtain rfl := Option.some.inj h
  refine ⟨fields, hfields, ?_, fun e => ?_⟩
  · unfold guard at hguard
    have hall := (Option.ite_none_right_eq_some.1 hguard).1
    exact fun member hmember => contains_keys_iff.1 (List.all_eq_true.1 hall member hmember)
  · cases e with
    | cap => exact Fields.isSome_of_optional hcap rfl
    | drop => exact Fields.isSome_of_optional hdrop rfl
    | keep => exact Fields.isSome_of_optional hkeep rfl
    | replace => exact Fields.isSome_of_optional hreplace rfl
    | reroll => exact Fields.isSome_of_optional hreroll rfl
    | explode => exact Fields.eq_true_of_bool hexplode
    | compound => exact Fields.isSome_of_flag hcompound Depth.ofFlag?_eq_some_none_iff
    | penetrate => exact Fields.isSome_of_flag hpenetrate Depth.ofFlag?_eq_some_none_iff
    | unique => exact Fields.isSome_of_flag hunique Unique.ofFlag?_eq_some_none_iff
    | plus => exact Fields.isSome_of_optional hplus rfl
    | minus => exact Fields.isSome_of_optional hminus rfl

end ModifierSet

/-! ### Pools -/

theorem PoolRequest.ofJson?_eq_spec_iff {v : Json} {spec : PoolSpec} :
    ofJson? v = some (.spec spec) ↔ PoolSpec.ofJson? v = some spec := by
  cases v with
  | int n =>
    have hnone : PoolSpec.ofJson? (.int n) = none := rfl
    cases h : (Json.int n).toUInt32? <;> simp [ofJson?, h, hnone, Json.toString?]
  | str s =>
    have hnone : PoolSpec.ofJson? (.str s) = none := rfl
    simp [ofJson?, hnone, Json.toUInt32?, Json.toString?]
  | _ => simp [ofJson?, Json.toUInt32?, Json.toString?]

namespace PoolSpec

open Text (bytes)

def modifiers? : Json → Option Json
  | .obj fields => fields.lookup "modifiers"
  | .arr items => items[2]?
  | _ => none

def IsUnknown (members : List (String × Json)) (key : String) : Prop :=
  key ∈ members.map Prod.fst ∧ ∀ e : Entry, e.name ≠ key

theorem lookup_modifiers {v : Json} {fields : List (String × Json)}
    (h : v.toFields? ["sides", "quantity", "modifiers", "arithmetic"] = some fields) :
    fields.lookup "modifiers" = modifiers? v := by
  cases v with
  | obj members =>
    obtain rfl := Option.some.inj h
    rfl
  | arr items =>
    obtain ⟨_, hfields⟩ := Option.ite_none_right_eq_some.1 h
    rw [← Option.some.inj hfields]
    match items with
    | [] | [_] | [_, _] | _ :: _ :: _ :: _ => rfl
  | _ => contradiction

theorem has_of_ofJson? {v : Json} {spec : PoolSpec} {members : List (String × Json)}
    (h : ofJson? v = some spec) (hmodifiers : modifiers? v = some (.obj members)) :
    (∀ key, ¬IsUnknown members key) ∧
      ∀ e : Entry, spec.modifiers.has e ↔ Fields.Asks members e.name := by
  simp only [ofJson?, Option.bind_eq_bind, Option.bind_eq_some_iff] at h
  obtain ⟨fields, hfields, sides, _, quantity, _, m, hm, sign, _, hspec⟩ := h
  obtain rfl := Option.some.inj hspec
  rw [Fields.withDefault, lookup_modifiers hfields, hmodifiers] at hm
  obtain ⟨fields, hmembers, hknown, hhas⟩ := ModifierSet.has_of_ofJson? hm
  obtain rfl := Option.some.inj hmembers
  refine ⟨?_, hhas⟩
  rintro key ⟨hmem, hunknown⟩
  obtain ⟨member, hmember, rfl⟩ := List.mem_map.1 hmem
  obtain ⟨e, he⟩ := hknown member hmember
  exact hunknown e he

theorem mem_unknownKeys {v : Json} {key : String} :
    key ∈ unknownKeys v ↔
      ∃ members, v.get? "modifiers" = some (.obj members) ∧ IsUnknown members key := by
  have hknown : ∀ name, (!knownKeys.contains name) = true ↔ ∀ e : Entry, e.name ≠ name := by
    intro name
    rw [knownKeys_eq_keys, Bool.not_eq_true', ← Bool.not_eq_true, ModifierSet.contains_keys_iff,
      not_exists]
  unfold unknownKeys
  split
  · next members hget =>
    simp only [List.mem_filter, hknown, hget, Option.some.injEq, Json.obj.injEq, exists_eq_left',
      IsUnknown]
  · next hget =>
    simpa using fun members h => absurd h (hget members)

theorem unknownKeys_of_ofJson? {v : Json} {spec : PoolSpec} (h : ofJson? v = some spec) :
    unknownKeys v = [] := by
  refine List.eq_nil_iff_forall_not_mem.2 fun key hkey => ?_
  obtain ⟨members, hget, hunknown⟩ := mem_unknownKeys.1 hkey
  have hmodifiers : modifiers? v = some (.obj members) := by
    cases v with
    | obj fields => exact hget
    | _ => contradiction
  exact (has_of_ofJson? h hmodifiers).1 key hunknown

theorem head?_mergeSort_eq_some_iff {names : List String} {key : String} :
    names.mergeSort.head? = some key ↔ key ∈ names ∧ ∀ other ∈ names, bytes key ≤ bytes other := by
  have hsorted : names.mergeSort.Pairwise (decide <| · ≤ ·) :=
    List.pairwise_mergeSort (fun _ _ _ => by simpa using String.le_trans)
      (fun a b => by simpa using String.le_total a b) names
  have hmem : ∀ name, name ∈ names ↔ name ∈ names.mergeSort := fun _ => List.mem_mergeSort.symm
  simp only [← Text.le_iff_bytes_le, hmem]
  cases hnames : names.mergeSort with
  | nil => simp
  | cons first rest =>
    rw [hnames, List.pairwise_cons] at hsorted
    have hfirst : ∀ name ∈ first :: rest, first ≤ name :=
      List.forall_mem_cons.2
        ⟨String.le_refl first, fun name h => of_decide_eq_true (hsorted.1 name h)⟩
    rw [List.head?_cons, Option.some_inj]
    constructor
    · rintro rfl
      exact ⟨List.mem_cons_self, hfirst⟩
    · rintro ⟨hkey, hleast⟩
      exact String.le_antisymm (hfirst key hkey) (hleast first List.mem_cons_self)

theorem ofJson_eq_unknownModifier_iff_head {v : Json} {key : String} :
    ofJson v = .error (.unknownModifier key) ↔ (unknownKeys v).mergeSort.head? = some key := by
  unfold ofJson
  split
  · next first hfirst => simp [hfirst, throw, throwThe, MonadExceptOf.throw]
  · next hfirst =>
    rw [hfirst]
    split <;> simp [throw, throwThe, MonadExceptOf.throw, pure, Except.pure]

theorem ofJson_eq_unknownModifier_iff {v : Json} {key : String} :
    ofJson v = .error (.unknownModifier key) ↔
      ∃ members, v.get? "modifiers" = some (.obj members) ∧ IsUnknown members key ∧
        ∀ other, IsUnknown members other → bytes key ≤ bytes other := by
  rw [ofJson_eq_unknownModifier_iff_head, head?_mergeSort_eq_some_iff]
  constructor
  · rintro ⟨hkey, hleast⟩
    obtain ⟨members, hget, hunknown⟩ := mem_unknownKeys.1 hkey
    exact ⟨members, hget, hunknown, fun other hother =>
      hleast other (mem_unknownKeys.2 ⟨members, hget, hother⟩)⟩
  · rintro ⟨members, hget, hunknown, hleast⟩
    refine ⟨mem_unknownKeys.2 ⟨members, hget, hunknown⟩, fun other hother => ?_⟩
    obtain ⟨others, hothers, hunknowns⟩ := mem_unknownKeys.1 hother
    rw [hget] at hothers
    obtain rfl := Json.obj.inj (Option.some.inj hothers)
    exact hleast other hunknowns

theorem exists_unknownModifier_iff {v : Json} :
    (∃ key, ofJson v = .error (.unknownModifier key)) ↔
      ∃ members key, v.get? "modifiers" = some (.obj members) ∧ IsUnknown members key := by
  constructor
  · rintro ⟨key, h⟩
    obtain ⟨members, hget, hunknown, _⟩ := ofJson_eq_unknownModifier_iff.1 h
    exact ⟨members, key, hget, hunknown⟩
  · rintro ⟨members, key, h⟩
    have hmem : key ∈ (unknownKeys v).mergeSort :=
      List.mem_mergeSort.2 (mem_unknownKeys.2 ⟨members, h⟩)
    obtain ⟨first, rest, hfirst⟩ := List.exists_cons_of_ne_nil (List.ne_nil_of_mem hmem)
    exact ⟨first, ofJson_eq_unknownModifier_iff_head.2 (by rw [hfirst, List.head?_cons])⟩

theorem ofJson_eq_ok_iff {v : Json} {spec : PoolSpec} :
    ofJson v = .ok spec ↔ ofJson? v = some spec := by
  constructor
  · intro h
    unfold ofJson at h
    split at h
    · exact absurd h (throw_ne_ok _ _)
    split at h
    · next heq => rw [heq, pure_eq_ok_iff.1 h]
    · exact absurd h (throw_ne_ok _ _)
  · intro h
    rw [ofJson, unknownKeys_of_ofJson? h, List.mergeSort_nil, h]
    rfl

theorem ofJson_overlooks_no_key (v : Json) :
    ((∃ key, ofJson v = .error (.unknownModifier key)) ↔
      ∃ members key, v.get? "modifiers" = some (.obj members) ∧ IsUnknown members key) ∧
    (∀ key, ofJson v = .error (.unknownModifier key) ↔
      ∃ members, v.get? "modifiers" = some (.obj members) ∧ IsUnknown members key ∧
        ∀ other, IsUnknown members other → bytes key ≤ bytes other) ∧
    (∀ spec, ofJson v = .ok spec ↔ ofJson? v = some spec) ∧
    (∀ spec, PoolRequest.ofJson? v = some (.spec spec) ↔ ofJson? v = some spec) ∧
    ∀ spec members, ofJson? v = some spec → modifiers? v = some (.obj members) →
      (∀ key, ¬IsUnknown members key) ∧
        ∀ e : Entry, spec.modifiers.has e ↔ Fields.Asks members e.name :=
  ⟨exists_unknownModifier_iff, fun _ => ofJson_eq_unknownModifier_iff,
    fun _ => ofJson_eq_ok_iff, fun _ => PoolRequest.ofJson?_eq_spec_iff, fun _ _ => has_of_ofJson?⟩

theorem ofJson_overlooks_no_key_drop :
    ofJson (.obj [("modifiers", .obj [("zap", .null), ("cap", .null), ("crop", .null)])]) =
        .error (.unknownModifier "crop") ∧
      ∃ spec, ofJson? (.arr [.int 6, .int 4, .obj [("drop", .obj [("lowest", .int 1)])]]) =
        some spec ∧ spec.modifiers.has .drop := by
  constructor
  · refine ((ofJson_overlooks_no_key _).2.1 "crop").2
      ⟨_, rfl, ⟨by decide, fun e => by cases e <;> decide⟩, ?_⟩
    rintro other ⟨hmem, hunknown⟩
    have hother : other = "zap" ∨ other = "cap" ∨ other = "crop" := by simpa using hmem
    obtain rfl | rfl | rfl := hother
    · decide +kernel
    · exact absurd rfl (hunknown .cap)
    · exact List.le_refl _
  · let spec : PoolSpec :=
      { sides := .numbered 6, quantity := 4, modifiers := { drop := some { lowest := some 1 } } }
    have hread : ofJson? (.arr [.int 6, .int 4, .obj [("drop", .obj [("lowest", .int 1)])]]) =
        some spec := by decide +kernel
    have hkept := (ofJson_overlooks_no_key _).2.2.2.2 spec _ hread rfl
    exact ⟨spec, hread, (hkept.2 .drop).2 ⟨_, rfl, nofun, nofun⟩⟩

end PoolSpec

end DicePool
