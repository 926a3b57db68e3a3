import DicePool.Proofs.Notation.Numeral

/-!
This module contains the reading of lists in braces and of their parts. Parts are read as a whole,
so for them the reader and the grammar agree text by text.
-/

namespace DicePool.Notation

open Grammar

variable {α β : Type}

namespace Term

theorem bound?_eq_some_iff {s : List Char} {t : Term} : bound? s = some t ↔ Bound s t := by
  constructor
  · intro h
    unfold bound? at h
    split at h
    · obtain ⟨n, hn, rfl⟩ := Option.map_eq_some_iff.1 h
      exact .above (signed?_eq_some_iff.1 hn)
    · obtain ⟨n, hn, rfl⟩ := Option.map_eq_some_iff.1 h
      exact .below (signed?_eq_some_iff.1 hn)
    · simp at h
  · intro h
    cases h with
    | above hs => rw [bound?, signed?_eq_some_iff.2 hs, Option.map_some]
    | below hs => rw [bound?, signed?_eq_some_iff.2 hs, Option.map_some]

theorem bound?_eq_none_of_integer {s : List Char} {n : Int64} (h : Integer s n) :
    bound? s = none := by
  unfold bound?
  split
  · have := h.isDigit_or '>' (by simp)
    simp [Char.isDigit] at this
  · have := h.isDigit_or '<' (by simp)
    simp [Char.isDigit] at this
  · rfl

theorem read?_eq_some_iff {s : List Char} {t : Term} : read? s = some t ↔ Comparison s t := by
  rw [read?, Option.orElse_eq_orElse, Option.orElse_eq_or, Option.or_eq_some_iff,
    Option.map_eq_some_iff, bound?_eq_some_iff]
  constructor
  · rintro (hb | ⟨_, n, hn, rfl⟩)
    · exact .bound hb
    · exact .exact (signed?_eq_some_iff.1 hn)
  · intro h
    cases h with
    | exact hs => exact .inr ⟨bound?_eq_none_of_integer hs, _, signed?_eq_some_iff.2 hs, rfl⟩
    | bound hs => exact .inl hs

end Term

def isPartChar (c : Char) : Bool :=
  c.isDigit || ['-', '>', '<', '='].contains c

theorem Grammar.Integer.isPartChar {s : List Char} {n : Int64} (h : Integer s n) :
    ∀ c ∈ s, isPartChar c := by
  intro c hc
  cases h.isDigit_or c hc with
  | inl hd => simp [Notation.isPartChar, hd]
  | inr hd => simp [Notation.isPartChar, hd]

theorem Grammar.Bound.isPartChar {s : List Char} {t : Term} (h : Bound s t) :
    ∀ c ∈ s, isPartChar c := by
  cases h with
  | above hs => exact List.forall_mem_cons.2 ⟨rfl, hs.isPartChar⟩
  | below hs => exact List.forall_mem_cons.2 ⟨rfl, hs.isPartChar⟩

theorem Grammar.Comparison.isPartChar {s : List Char} {t : Term} (h : Comparison s t) :
    ∀ c ∈ s, isPartChar c := by
  cases h with
  | exact hs => exact hs.isPartChar
  | bound hs => exact hs.isPartChar

theorem Grammar.Rule.isPartChar {s : List Char} {r : Replacement} (h : Rule s r) :
    ∀ c ∈ s, isPartChar c := by
  obtain ⟨hs, hv⟩ := h
  intro c hc
  rw [List.mem_append, List.mem_cons] at hc
  obtain hc | rfl | hc := hc
  · exact hs.isPartChar c hc
  · rfl
  · exact hv.isPartChar c hc

theorem Grammar.Comparison.not_mem_equals {s : List Char} {t : Term} (h : Comparison s t) :
    ∀ c ∈ s, c ≠ '=' := by
  have integer {s : List Char} {n : Int64} (h : Integer s n) : ∀ c ∈ s, c ≠ '=' := by
    rintro c hc rfl
    have := h.isDigit_or '=' hc
    simp [Char.isDigit] at this
  cases h with
  | exact hs => exact integer hs
  | bound hs =>
    cases hs with
    | above hs => exact List.forall_mem_cons.2 ⟨by decide, integer hs⟩
    | below hs => exact List.forall_mem_cons.2 ⟨by decide, integer hs⟩

theorem dropWhile_eq_cons {p : α → Bool} {s rest : List α} {c : α}
    (h : s.dropWhile p = c :: rest) : p c = false ∧ s = s.takeWhile p ++ c :: rest := by
  constructor
  · have := List.head?_dropWhile_not p s
    simpa only [h, List.head?_cons] using this
  · rw [← h, List.takeWhile_append_dropWhile]

theorem replacement?_eq_some_iff {s : List Char} {r : Replacement} :
    replacement? s = some r ↔ Rule s r := by
  constructor
  · intro h
    unfold replacement? at h
    split at h
    · next c value heq =>
      simp only [Option.bind_eq_bind, Option.bind_eq_some_iff, Option.pure_def,
        Option.some.injEq, Term.read?_eq_some_iff, signed?_eq_some_iff] at h
      obtain ⟨t, ht, n, hn, rfl⟩ := h
      obtain ⟨hc, hs⟩ := dropWhile_eq_cons heq
      have hc : c = '=' := by simpa using hc
      rw [hs, hc]
      exact .mk ht hn
    · simp at h
  · rintro ⟨hs, hv⟩
    rename_i u v t n
    have hall : ∀ c ∈ u, (c ≠ '=' : Bool) := by simpa using hs.not_mem_equals
    have hr : StartsOutside (· ≠ '=') ('=' :: v) := startsOutside_cons.2 (by simp)
    rw [replacement?, dropWhile_append hall hr, takeWhile_append hall hr]
    simp [Term.read?_eq_some_iff.2 hs, signed?_eq_some_iff.2 hv]

theorem mapM_eq_some_iff {f : α → Option β} {as : List α} {bs : List β} :
    as.mapM f = some bs ↔ List.Forall₂ (fun a b => f a = some b) as bs := by
  induction as generalizing bs with
  | nil => simp [eq_comm]
  | cons a as ih =>
    simp only [List.mapM_cons, Option.bind_eq_bind, Option.bind_eq_some_iff, Option.pure_def,
      Option.some.injEq, ih]
    constructor
    · rintro ⟨b, hb, bs, hbs, rfl⟩
      exact .cons hb hbs
    · intro h
      cases h with
      | cons hb hbs => exact ⟨_, hb, _, hbs, rfl⟩

theorem forall₂_mapM_iff {item? : List Char → Option α} {item : List Char → α → Prop}
    (hitem : ∀ {s a}, item? s = some a ↔ item s a) {parts : List (List Char)} {as : List α} :
    parts.mapM item? = some as ↔ List.Forall₂ item parts as := by
  rw [mapM_eq_some_iff]
  simp only [hitem]

theorem isPartChar_of_forall₂ {item : List Char → α → Prop}
    (hchars : ∀ {s a}, item s a → ∀ c ∈ s, isPartChar c) {parts : List (List Char)} {as : List α}
    (h : List.Forall₂ item parts as) : ∀ s ∈ parts, ∀ c ∈ s, isPartChar c := by
  induction h with
  | nil => simp
  | cons ha _ ih => exact List.forall_mem_cons.2 ⟨hchars ha, ih⟩

theorem mem_intercalate {parts : List (List Char)} {c : Char}
    (h : c ∈ [','].intercalate parts) : c = ',' ∨ ∃ s ∈ parts, c ∈ s := by
  induction parts with
  | nil => simp at h
  | cons s parts ih =>
    cases parts with
    | nil =>
      rw [List.intercalate_singleton] at h
      exact .inr ⟨s, by simp, h⟩
    | cons t parts =>
      rw [List.intercalate_cons_cons, List.mem_append, List.mem_append, List.mem_singleton] at h
      obtain (h | h) | h := h
      · exact .inr ⟨s, by simp, h⟩
      · exact .inl h
      · obtain h | ⟨u, hu, h⟩ := ih h
        · exact .inl h
        · exact .inr ⟨u, List.mem_cons_of_mem _ hu, h⟩

theorem braced?_eq_some_iff {item? : List Char → Option α} {item : List Char → α → Prop}
    (hitem : ∀ {s a}, item? s = some a ↔ item s a)
    (hchars : ∀ {s a}, item s a → ∀ c ∈ s, isPartChar c) {s rest : List Char} {as : List α} :
    braced? item? s = some (as, rest) ↔ ∃ u, s = u ++ rest ∧ Listed item u as := by
  constructor
  · intro h
    unfold braced? at h
    split at h
    · next s =>
      split at h
      · next c t heq =>
        simp only [Option.bind_eq_bind, Option.bind_eq_some_iff, Option.pure_def,
          Option.some.injEq, Prod.mk.injEq] at h
        obtain ⟨_, hm, rfl, rfl⟩ := h
        obtain ⟨hc, hs⟩ := dropWhile_eq_cons heq
        obtain rfl : c = '\x7d' := by simpa using hc
        refine ⟨_, ?_, _, List.splitOn_ne_nil _ _, rfl, (forall₂_mapM_iff hitem).1 hm⟩
        rw [braces, List.intercalate_splitOn, List.cons_append, List.cons_append,
          List.append_assoc, List.singleton_append, ← hs]
      · simp at h
    · simp at h
  · rintro ⟨u, rfl, parts, hne, rfl, has⟩
    -- The first brace and the commas are those of the list, since parts have none of their own.
    have hparts := isPartChar_of_forall₂ hchars has
    have hcomma : ∀ s ∈ parts, ',' ∉ s := by
      intro s hs hc
      have := hparts s hs _ hc
      simp [isPartChar, Char.isDigit] at this
    have hall : ∀ c ∈ [','].intercalate parts, (c ≠ '\x7d' : Bool) := by
      intro c hc
      obtain rfl | ⟨s, hs, hc⟩ := mem_intercalate hc
      · rfl
      · have := hparts s hs c hc
        rw [decide_eq_true_iff]
        rintro rfl
        simp [isPartChar, Char.isDigit] at this
    have hr : StartsOutside (· ≠ '\x7d') ('\x7d' :: rest) := startsOutside_cons.2 (by simp)
    rw [braces, List.cons_append, List.cons_append, List.append_assoc, List.singleton_append,
      braced?, dropWhile_append hall hr, takeWhile_append hall hr,
      List.splitOn_intercalate _ hcomma hne, (forall₂_mapM_iff hitem).2 has]
    rfl

end DicePool.Notation
