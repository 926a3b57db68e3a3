import Mathlib.Data.List.Induction
import DicePool.Proofs.Notation.Grammar

/-!
This module contains the reading of numbers. A number at the front of a text ends where its digits
end, so what is read is a numeral of the grammar that no digit follows.
-/

namespace DicePool.Notation

open Grammar
open Text (Decimal.value? Decimal.signedValue?)

def StartsOutside (p : Char → Bool) (s : List Char) : Prop :=
  ∀ c ∈ s.head?, p c = false

theorem startsOutside_cons {p : Char → Bool} {c : Char} {s : List Char} :
    StartsOutside p (c :: s) ↔ p c = false := by
  simp [StartsOutside]

theorem startsOutside_dropWhile (p : Char → Bool) (s : List Char) :
    StartsOutside p (s.dropWhile p) := by
  intro c hc
  have h := List.head?_dropWhile_not p s
  rw [Option.mem_def.1 hc] at h
  exact h

theorem takeWhile_append {p : Char → Bool} {u rest : List Char} (hu : ∀ c ∈ u, p c)
    (hr : StartsOutside p rest) : (u ++ rest).takeWhile p = u := by
  rw [List.takeWhile_append_of_pos hu]
  cases rest with
  | nil => simp
  | cons c rest =>
    rw [startsOutside_cons] at hr
    simp [hr]

theorem dropWhile_append {p : Char → Bool} {u rest : List Char} (hu : ∀ c ∈ u, p c)
    (hr : StartsOutside p rest) : (u ++ rest).dropWhile p = rest := by
  rw [List.dropWhile_append_of_pos hu]
  cases rest with
  | nil => simp
  | cons c rest =>
    rw [startsOutside_cons] at hr
    simp [hr]

theorem value?_eq_some_iff {s : List Char} {n : Nat} :
    Decimal.value? s = some n ↔ s ≠ [] ∧ (∀ c ∈ s, c.isDigit) ∧ Nat.ofDigitChars 10 s 0 = n := by
  unfold Decimal.value?
  split
  · next h => simp_all
  · next h =>
    simp only [List.all_eq_true] at h
    grind

theorem value?_snoc {s : List Char} {c : Char} {n : Nat} (hs : Decimal.value? s = some n)
    (hc : c.isDigit) : Decimal.value? (s ++ [c]) = some (10 * n + (c.toNat - '0'.toNat)) := by
  rw [value?_eq_some_iff] at hs ⊢
  obtain ⟨_, hall, hn⟩ := hs
  refine ⟨by simp, ?_, ?_⟩
  · intro d hd
    rw [List.mem_append, List.mem_singleton] at hd
    cases hd with
    | inl hd => exact hall d hd
    | inr hd => rw [hd, hc]
  · rw [Nat.ofDigitChars_append, hn, Nat.ofDigitChars_cons, Nat.ofDigitChars_nil]

theorem numeral_of_digits {s : List Char} (hne : s ≠ []) (hall : ∀ c ∈ s, c.isDigit) :
    Numeral s (Nat.ofDigitChars 10 s 0) := by
  induction s using List.reverseRecOn with
  | nil => contradiction
  | append_singleton s c ih =>
    have hc : c.isDigit := hall c (by simp)
    rw [Nat.ofDigitChars_append, Nat.ofDigitChars_cons, Nat.ofDigitChars_nil]
    cases s with
    | nil => simpa using Numeral.digit hc
    | cons d s =>
      apply Numeral.snoc
      · apply ih
        · simp
        · intro e he
          apply hall
          exact List.mem_append_left _ he
      · exact hc

theorem numeral_iff {s : List Char} {n : Nat} : Numeral s n ↔ Decimal.value? s = some n := by
  constructor
  · intro h
    induction h with
    | digit hc =>
      rw [value?_eq_some_iff]
      simp [hc, Nat.ofDigitChars_cons]
    | snoc _ hc ih => exact value?_snoc ih hc
  · intro h
    rw [value?_eq_some_iff] at h
    obtain ⟨hne, hall, rfl⟩ := h
    exact numeral_of_digits hne hall

theorem Grammar.Numeral.isDigit {s : List Char} {n : Nat} (h : Numeral s n) :
    ∀ c ∈ s, c.isDigit := by
  rw [numeral_iff, value?_eq_some_iff] at h
  exact h.2.1

theorem Grammar.Numeral.ne_nil {s : List Char} {n : Nat} (h : Numeral s n) : s ≠ [] := by
  rw [numeral_iff, value?_eq_some_iff] at h
  exact h.1

theorem value?_takeWhile_eq_some_iff {s rest : List Char} {n : Nat} :
    Decimal.value? (s.takeWhile Char.isDigit) = some n ∧ s.dropWhile Char.isDigit = rest ↔
      ∃ u, s = u ++ rest ∧ Numeral u n ∧ StartsOutside Char.isDigit rest := by
  constructor
  · rintro ⟨hn, rfl⟩
    refine ⟨s.takeWhile Char.isDigit, ?_, numeral_iff.2 hn, startsOutside_dropWhile _ s⟩
    rw [List.takeWhile_append_dropWhile]
  · rintro ⟨u, rfl, hu, hr⟩
    rw [takeWhile_append hu.isDigit hr, dropWhile_append hu.isDigit hr]
    exact ⟨numeral_iff.1 hu, rfl⟩

theorem count?_eq_some_iff {s rest : List Char} {n : UInt32} :
    count? s = some (n, rest) ↔
      ∃ u, s = u ++ rest ∧ Count u n ∧ StartsOutside Char.isDigit rest := by
  simp only [count?, Option.bind_eq_bind, Option.bind_eq_some_iff, Option.pure_def,
    Option.some.injEq, Prod.mk.injEq, Bounded.uint32?_eq_some_iff]
  unfold Count
  rw [← value?_takeWhile_eq_some_iff]
  constructor
  · rintro ⟨_, hv, _, rfl, rfl, hrest⟩
    exact ⟨hv, hrest⟩
  · rintro ⟨hv, hrest⟩
    exact ⟨_, hv, _, rfl, rfl, hrest⟩

theorem natural?_eq_some_iff {s rest : List Char} {n : Int64} :
    natural? s = some (n, rest) ↔
      ∃ u, s = u ++ rest ∧ Natural u n ∧ StartsOutside Char.isDigit rest := by
  simp only [natural?, Option.bind_eq_bind, Option.bind_eq_some_iff, Option.pure_def,
    Option.some.injEq, Prod.mk.injEq, Bounded.int64?_eq_some_iff]
  constructor
  · rintro ⟨k, hv, _, hk, rfl, hrest⟩
    obtain ⟨u, hs, hu, hr⟩ := value?_takeWhile_eq_some_iff.1 ⟨hv, hrest⟩
    exact ⟨u, hs, .mk hu hk.symm, hr⟩
  · rintro ⟨u, hs, ⟨hu, hk⟩, hr⟩
    obtain ⟨hv, hrest⟩ := value?_takeWhile_eq_some_iff.2 ⟨u, hs, hu, hr⟩
    exact ⟨_, hv, _, hk.symm, rfl, hrest⟩

theorem exists_of_optionalCount (s : List Char) :
    ∃ u, s = u ++ (optionalCount s).2 ∧ Optional Count u (optionalCount s).1 := by
  unfold optionalCount
  split
  · next n rest h =>
    obtain ⟨u, hs, hu, _⟩ := count?_eq_some_iff.1 h
    exact ⟨u, hs, .present hu⟩
  · exact ⟨[], rfl, .absent⟩

theorem count?_eq_none_of_startsOutside {s : List Char} (h : StartsOutside Char.isDigit s) :
    count? s = none := by
  cases s with
  | nil => simp [count?]
  | cons c s =>
    rw [startsOutside_cons] at h
    simp [count?, h]

theorem optionalCount_append {u rest : List Char} {n : Option UInt32} (hu : Optional Count u n)
    (hr : StartsOutside Char.isDigit rest) : optionalCount (u ++ rest) = (n, rest) := by
  unfold optionalCount
  cases hu with
  | absent => rw [List.nil_append, count?_eq_none_of_startsOutside hr]
  | present hu => rw [count?_eq_some_iff.2 ⟨u, rfl, hu, hr⟩]

theorem signed?_neg_eq_some_iff {s : List Char} {n : Int64} :
    signed? ('-' :: s) = some n ↔ ∃ k : Nat, Numeral s k ∧ n.toInt = -k := by
  simp only [signed?, Decimal.signedValue?, Option.bind_eq_bind, Option.pure_def,
    Option.bind_eq_some_iff, Option.map_eq_some_iff, Option.some.injEq,
    Bounded.int64?_eq_some_iff, numeral_iff]
  constructor
  · rintro ⟨_, ⟨_, ⟨k, hk, rfl⟩, rfl⟩, hn⟩
    exact ⟨k, hk, hn.symm⟩
  · rintro ⟨k, hk, hn⟩
    exact ⟨_, ⟨_, ⟨k, hk, rfl⟩, rfl⟩, hn.symm⟩

theorem signed?_eq_some_iff_natural {s : List Char} {n : Int64} (hs : s.head? ≠ some '-') :
    signed? s = some n ↔ Natural s n := by
  simp only [signed?, Text.Decimal.signedValue?_eq_of_head_ne hs, Option.bind_eq_some_iff,
    Option.map_eq_some_iff, Bounded.int64?_eq_some_iff, ← numeral_iff]
  constructor
  · rintro ⟨_, ⟨k, hk, rfl⟩, hn⟩
    exact .mk hk hn.symm
  · rintro ⟨hk, hn⟩
    exact ⟨_, ⟨_, hk, rfl⟩, hn.symm⟩

theorem Grammar.Natural.isDigit {s : List Char} {n : Int64} (h : Natural s n) :
    ∀ c ∈ s, c.isDigit := by
  obtain ⟨hs, _⟩ := h
  exact hs.isDigit

theorem Grammar.Natural.head?_ne {s : List Char} {n : Int64} (h : Natural s n) :
    s.head? ≠ some '-' := by
  intro hs
  have := h.isDigit '-' (List.mem_of_head? hs)
  simp [Char.isDigit] at this

theorem signed?_eq_some_iff {s : List Char} {n : Int64} : signed? s = some n ↔ Integer s n := by
  constructor
  · intro h
    by_cases hs : s.head? = some '-'
    · obtain ⟨t, rfl⟩ := List.head?_eq_some_iff.1 hs
      obtain ⟨k, hk, hn⟩ := signed?_neg_eq_some_iff.1 h
      exact .neg hk hn
    · exact .nonneg ((signed?_eq_some_iff_natural hs).1 h)
  · intro h
    cases h with
    | nonneg hs => exact (signed?_eq_some_iff_natural hs.head?_ne).2 hs
    | neg hs hn => exact signed?_neg_eq_some_iff.2 ⟨_, hs, hn⟩

theorem Grammar.Integer.isDigit_or {s : List Char} {n : Int64} (h : Integer s n) :
    ∀ c ∈ s, c.isDigit ∨ c = '-' := by
  intro c hc
  cases h with
  | nonneg hs => exact .inl (hs.isDigit c hc)
  | neg hs _ =>
    rw [List.mem_cons] at hc
    cases hc with
    | inl hc => exact .inr hc
    | inr hc => exact .inl (hs.isDigit c hc)

end DicePool.Notation
