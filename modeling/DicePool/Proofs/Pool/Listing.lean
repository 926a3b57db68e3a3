import DicePool.Proofs.Notation.Independence
import DicePool.Proofs.Notation.Spelling
import DicePool.Proofs.Roll.Replay

/-!
This module contains the way from a set of modifiers to their list and back. The main statement is
`ModifierSet.foldlM_merge_toList`: merging what a set lists makes up the set again, but for the dice
to keep, which are not listed, and for repetitions, which merging takes out.
-/

namespace DicePool

theorem Kind.entry_ne_keep (k : Kind) : k.entry ≠ .keep := by
  cases k <;> decide

theorem Kind.entry_inj {k k' : Kind} : k.entry = k'.entry ↔ k = k' := by
  cases k <;> cases k' <;> decide

theorem Entry.eq_keep_or (e : Entry) : e = .keep ∨ ∃ k : Kind, e = k.entry := by
  cases e with
  | keep => exact .inl rfl
  | cap => exact .inr ⟨.cap, rfl⟩
  | drop => exact .inr ⟨.drop, rfl⟩
  | replace => exact .inr ⟨.replace, rfl⟩
  | reroll => exact .inr ⟨.reroll, rfl⟩
  | explode => exact .inr ⟨.explode, rfl⟩
  | compound => exact .inr ⟨.compound, rfl⟩
  | penetrate => exact .inr ⟨.penetrate, rfl⟩
  | unique => exact .inr ⟨.unique, rfl⟩
  | plus => exact .inr ⟨.plus, rfl⟩
  | minus => exact .inr ⟨.minus, rfl⟩

namespace ModifierSet

open Notation

variable {m : ModifierSet}

/-! ### Lists -/

theorem filter_kind_filterMap (m : ModifierSet) (k : Kind) (kinds : List Kind) :
    (kinds.filterMap m.get?).filter (·.kind = k) = (kinds.filter (· = k)).filterMap m.get? := by
  induction kinds with
  | nil => rfl
  | cons k' kinds ih =>
    by_cases hk : k' = k
    · subst hk
      cases h : m.get? k' with
      | none => simp [h, ih]
      | some x => simp [h, kind_of_get? h, ih]
    · cases h : m.get? k' with
      | none => simp [h, hk, ih]
      | some x => simp [h, kind_of_get? h, hk, ih]

theorem filter_kind_toList (m : ModifierSet) (k : Kind) :
    m.toList.filter (·.kind = k) = (m.get? k).toList := by
  have honce : Kind.inOrder.filter (· = k) = [k] := by
    cases k <;> decide
  rw [toList, filter_kind_filterMap, honce]
  cases h : m.get? k <;> simp [h]

theorem filter_entry_toList (m : ModifierSet) (k : Kind) :
    (m.toList.map Token.modifier).filter (·.entry = k.entry) =
      (m.get? k).toList.map .modifier := by
  rw [List.filter_map, ← filter_kind_toList]
  congr 1
  apply List.filter_congr
  intro x _
  exact decide_eq_decide.2 Kind.entry_inj

theorem filter_keep_toList (m : ModifierSet) :
    (m.toList.map Token.modifier).filter (·.entry = .keep) = [] := by
  rw [List.filter_map, List.map_eq_nil_iff, List.filter_eq_nil_iff]
  intro x _ h
  exact x.kind.entry_ne_keep (of_decide_eq_true h)

/-! ### Entries -/

def relisted (m : ModifierSet) : ModifierSet :=
  { m.distinct with cap := m.cap.map Condition.distinct, keep := none }

theorem only_empty (e : Entry) : ({} : ModifierSet).only e = {} := by
  simp [only]

theorem only_relisted_of_none {k : Kind} (h : m.get? k = none) :
    m.relisted.only k.entry = {} := by
  cases k <;> simp_all [get?, only, relisted, distinct, Kind.entry]

theorem merge_of_get? {k : Kind} {x : Modifier} (h : m.get? k = some x) :
    ({} : ModifierSet).merge x = .ok (m.relisted.only k.entry) := by
  cases k <;> simp only [get?, Option.map_eq_some_iff, Option.ite_none_right_eq_some,
    Option.some.injEq] at h
  case cap =>
    obtain ⟨c, hc, rfl⟩ := h
    simp [merge, only, relisted, distinct, Kind.entry, hc, Condition.empty_merge]
  case drop =>
    obtain ⟨d, hd, rfl⟩ := h
    simp [merge, only, relisted, distinct, Kind.entry, hd, Drop.empty_merge]
  case reroll =>
    obtain ⟨r, hr, rfl⟩ := h
    simp [merge, only, relisted, distinct, Kind.entry, hr, Reroll.empty_merge]
  case explode =>
    obtain ⟨he, rfl⟩ := h
    simp [merge, only, relisted, distinct, Kind.entry, he]
  case unique =>
    obtain ⟨u, hu, rfl⟩ := h
    simp [merge, only, relisted, distinct, Kind.entry, hu, Unique.empty_merge]
  case plus | minus =>
    obtain ⟨n, hn, rfl⟩ := h
    simp [merge, only, relisted, distinct, Kind.entry, hn, addTerm_none]
  case replace | compound | penetrate =>
    obtain ⟨a, ha, rfl⟩ := h
    simp [merge, only, relisted, distinct, Kind.entry, ha]

theorem foldlM_merge_toList (m : ModifierSet) :
    m.toList.foldlM merge {} =
      .ok { m with
        cap := m.cap.map Condition.distinct
        drop := m.drop.map Drop.distinct
        keep := none
        reroll := m.reroll.map Reroll.distinct
        unique := m.unique.map Unique.distinct } := by
  have hfold : m.toList.foldlM merge {} = mergeAll {} (m.toList.map .modifier) := by
    rw [mergeAll, List.foldlM_map]
  rw [hfold]
  change _ = Except.ok m.relisted
  rw [mergeAll_eq_ok_iff]
  intro e
  rw [only_empty]
  obtain rfl | ⟨k, rfl⟩ := e.eq_keep_or
  · rw [filter_keep_toList]
    rfl
  · rw [filter_entry_toList]
    cases h : m.get? k with
    | none =>
      rw [only_relisted_of_none h]
      rfl
    | some x =>
      rw [← merge_of_get? h]
      exact mergeAll_modifier {} x

end ModifierSet

end DicePool
