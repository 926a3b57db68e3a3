import DicePool.Proofs.Notation.Reader

/-!
This module contains the places where texts of the grammar have blanks. There are none at the ends
of a text, so that a text of the grammar is the same when it is trimmed.
-/

namespace DicePool

open Notation Notation.Grammar

namespace Notation

theorem trim_of_ends {s : List Char} (hhead : ∀ c ∈ s.head?, Text.isBlank c = false)
    (hlast : ∀ c ∈ s.getLast?, Text.isBlank c = false) : Text.trim s = s := by
  have hstart : ∀ {t : List Char}, (∀ c ∈ t.head?, Text.isBlank c = false) →
      Text.trim.trimStart t = t := by
    intro t ht
    cases t with
    | nil => rfl
    | cons c t =>
      have hc := ht c rfl
      rw [Text.trim.trimStart, List.dropWhile_cons, if_neg (by simp [hc])]
  rw [Text.trim, hstart hhead, hstart, List.reverse_reverse]
  rw [List.head?_reverse]
  exact hlast

theorem not_isBlank_of_isDigit {c : Char} (h : c.isDigit) : Text.isBlank c = false := by
  have h : '0'.toNat ≤ c.toNat ∧ c.toNat ≤ '9'.toNat := by
    simpa [Char.isDigit, UInt32.le_iff_toNat_le] using h
  simp [Text.isBlank, Text.blankRanges] at h ⊢
  omega

theorem not_isBlank_of_isPartChar {c : Char} (h : isPartChar c) : Text.isBlank c = false := by
  rw [isPartChar, Bool.or_eq_true, List.contains_iff_mem] at h
  cases h with
  | inl h => exact not_isBlank_of_isDigit h
  | inr h =>
    have : ∀ c ∈ ['-', '>', '<', '='], Text.isBlank c = false := by
      simp [Text.isBlank, Text.blankRanges]
    exact this c h

namespace Grammar

theorem Listed.isPartChar_or {α : Type} {item : List Char → α → Prop}
    (hchars : ∀ {s a}, item s a → ∀ c ∈ s, isPartChar c) {s : List Char} {as : List α}
    (h : Listed item s as) : ∀ c ∈ s, isPartChar c ∨ c ∈ ['\x7b', ',', '\x7d'] := by
  obtain ⟨parts, _, rfl, has⟩ := h
  intro c hc
  rw [braces, List.mem_append, List.mem_cons, List.mem_singleton] at hc
  obtain (rfl | hc) | rfl := hc
  · simp
  · obtain rfl | ⟨s, hs, hc⟩ := mem_intercalate hc
    · simp
    · exact .inl (isPartChar_of_forall₂ hchars has s hs c hc)
  · simp

theorem Listed.not_isBlank {α : Type} {item : List Char → α → Prop}
    (hchars : ∀ {s a}, item s a → ∀ c ∈ s, isPartChar c) {s : List Char} {as : List α}
    (h : Listed item s as) : ∀ c ∈ s, Text.isBlank c = false := by
  intro c hc
  cases h.isPartChar_or hchars c hc with
  | inl h => exact not_isBlank_of_isPartChar h
  | inr h =>
    have : ∀ c ∈ ['\x7b', ',', '\x7d'], Text.isBlank c = false := by
      simp [Text.isBlank, Text.blankRanges]
    exact this c h

theorem Numeral.not_isBlank {s : List Char} {n : Nat} (h : Numeral s n) :
    ∀ c ∈ s, Text.isBlank c = false := by
  intro c hc
  exact not_isBlank_of_isDigit (h.isDigit c hc)

theorem Optional.not_isBlank {s : List Char} {n : Option UInt32} (h : Optional Count s n) :
    ∀ c ∈ s, Text.isBlank c = false := by
  cases h with
  | absent => simp
  | present hs => exact Numeral.not_isBlank hs

theorem Letter.not_isBlank {u c : Char} (h : Letter u c)
    (hu : Text.isBlank u = false ∧ Text.isBlank u.toLower = false) : Text.isBlank c = false := by
  obtain rfl | rfl := h
  · exact hu.1
  · exact hu.2

theorem Run.not_isBlank {marks : Nat} {letter : List Char} {m : Option UInt32} {b : Burst}
    (h : Run marks letter m b) : ∀ c ∈ letter, Text.isBlank c = false := by
  obtain rfl | ⟨c, rfl, hc⟩ := h.eq_nil_or
  · simp
  · rw [List.forall_mem_singleton]
    exact hc.not_isBlank (by decide)

theorem Spells.not_isBlank {u : List Char} {w : Word} (h : Spells u w) :
    ∀ c ∈ u, Text.isBlank c = false := by
  cases h with
  | cap hc hs =>
    exact List.forall_mem_cons.2 ⟨hc.not_isBlank (by decide), hs.not_isBlank Bound.isPartChar⟩
  | drop hc hs =>
    exact List.forall_mem_cons.2 ⟨hc.not_isBlank (by decide), hs.not_isBlank Comparison.isPartChar⟩
  | reroll hc hs ht =>
    rw [List.forall_mem_append, List.forall_mem_cons]
    exact ⟨⟨hc.not_isBlank (by decide), hs.not_isBlank Comparison.isPartChar⟩, ht.not_isBlank⟩
  | replace hc hs =>
    exact List.forall_mem_cons.2 ⟨hc.not_isBlank (by decide), hs.not_isBlank Rule.isPartChar⟩
  | unique hc =>
    exact List.forall_mem_singleton.2 (hc.not_isBlank (by decide))
  | uniqueExcept hc hs =>
    exact List.forall_mem_cons.2 ⟨hc.not_isBlank (by decide), hs.not_isBlank Integer.isPartChar⟩
  | highest hc hs | lowest hc hs | keepHighest hc hs =>
    exact List.forall_mem_cons.2 ⟨hc.not_isBlank (by decide), hs.not_isBlank⟩
  | keepLowest hc hd hs =>
    rw [List.forall_mem_cons, List.forall_mem_cons]
    exact ⟨hc.not_isBlank (by decide), hd.not_isBlank (by decide), hs.not_isBlank⟩
  | plus hs | minus hs =>
    obtain ⟨hs, _⟩ := hs
    exact List.forall_mem_cons.2 ⟨by decide, hs.not_isBlank⟩
  | burst hb ht =>
    rw [List.forall_mem_append, List.forall_mem_append]
    refine ⟨⟨?_, hb.not_isBlank⟩, ht.not_isBlank⟩
    intro c hc
    rw [List.eq_of_mem_replicate hc]
    rfl

theorem Words.not_isBlank {s : List Char} {ws : List Word} (h : Words s ws) :
    ∀ c ∈ s, Text.isBlank c = false := by
  induction ws generalizing s with
  | nil =>
    rw [h.eq_nil]
    simp
  | cons w ws ih =>
    obtain ⟨u, t, rfl, hu, ht, _⟩ := h.exists_of_cons
    rw [List.forall_mem_append]
    exact ⟨hu.not_isBlank, ih ht⟩

theorem sign_not_isBlank (sign : Sign) : ∀ c ∈ sign.spelling, Text.isBlank c = false := by
  cases sign <;> simp [Sign.spelling, DicePool.Text.isBlank, DicePool.Text.blankRanges]

theorem trim_braces {q : List Char} {quantity : UInt32} (hq : Count q quantity) (sign : Sign)
    (d : Char) (labels : List Char) :
    DicePool.Text.trim (sign.spelling ++ q ++ d :: '\x7b' :: labels ++ ['\x7d']) =
      sign.spelling ++ q ++ d :: '\x7b' :: labels ++ ['\x7d'] := by
  have hfront : ∀ c ∈ sign.spelling ++ q, DicePool.Text.isBlank c = false :=
    List.forall_mem_append.2 ⟨sign_not_isBlank sign, Numeral.not_isBlank hq⟩
  have hq : sign.spelling ++ q ≠ [] := List.append_ne_nil_of_right_ne_nil _ (Numeral.ne_nil hq)
  apply trim_of_ends
  · intro c hc
    rw [List.append_assoc, List.head?_append_of_ne_nil _ hq] at hc
    exact hfront c (List.mem_of_head? hc)
  · intro c hc
    rw [List.getLast?_concat] at hc
    obtain rfl := Option.some.inj hc
    rfl

theorem Text.trim_eq {s : List Char} {dice : Dice} {ws : List Word} (h : Grammar.Text s dice ws) :
    DicePool.Text.trim s = s := by
  cases h with
  | @numbered q n t d sign quantity sides ws hq hd hn ht =>
    have hall : ∀ c ∈ sign.spelling ++ q ++ d :: n ++ t, DicePool.Text.isBlank c = false := by
      rw [List.forall_mem_append, List.forall_mem_append, List.forall_mem_append,
        List.forall_mem_cons]
      exact ⟨⟨⟨sign_not_isBlank sign, Numeral.not_isBlank hq⟩, hd.not_isBlank (by decide),
        Numeral.not_isBlank hn⟩, ht.not_isBlank⟩
    apply trim_of_ends
    · intro c hc
      exact hall c (List.mem_of_head? hc)
    · intro c hc
      exact hall c (List.mem_of_getLast? hc)
  | faces hq => exact trim_braces hq _ _ _

end Grammar

end Notation

end DicePool
