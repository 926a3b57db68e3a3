import DicePool.Proofs.Notation.Acceptance
import DicePool.Proofs.Notation.Blank

/-!
This module contains the case of letters. Each production of the grammar holds in either case, so
that two texts that are alike are read as the same pool unless they differ in the faces of dice. The
main statement is `ofNotation_eq_ok_iff_of_alike`, and `facesOf_eq_of_alike` says that the faces are
what stands between the first braces.
-/

namespace DicePool

open Notation Notation.Grammar

namespace Notation

def Alike (s t : List Char) : Prop :=
  s.map Char.toUpper = t.map Char.toUpper

instance (s t : List Char) : Decidable (Alike s t) :=
  inferInstanceAs (Decidable (_ = _))

/-! ### Characters -/

theorem isAlpha_eq_false_iff {c : Char} :
    c.isAlpha = false ↔ ¬ (65 ≤ c.toNat ∧ c.toNat ≤ 90) ∧ ¬ (97 ≤ c.toNat ∧ c.toNat ≤ 122) := by
  have halpha : c.isAlpha = (c.isUpper || c.isLower) := rfl
  have hlower : c.isLower ↔ 97 ≤ c.toNat ∧ c.toNat ≤ 122 := by
    change (decide ('a'.val ≤ c.val) && decide (c.val ≤ 'z'.val)) = true ↔ _
    rw [Bool.and_eq_true, decide_eq_true_eq, decide_eq_true_eq]
    exact Iff.rfl
  rw [halpha, Bool.or_eq_false_iff, ← Bool.not_eq_true, ← Bool.not_eq_true, isUpper_iff, hlower]

theorem eq_of_toUpper_eq_toUpper {c d : Char} (h : c.toUpper = d.toUpper)
    (hc : c.isAlpha = false) : d = c := by
  rw [isAlpha_eq_false_iff] at hc
  rw [← Char.toNat_inj, toNat_toUpper, toNat_toUpper] at h
  rw [← Char.toNat_inj]
  split at h <;> split at h <;> omega

theorem isAlpha_of_isDigit {c : Char} (h : c.isDigit) : c.isAlpha = false := by
  rw [isDigit_iff] at h
  rw [isAlpha_eq_false_iff]
  omega

theorem isAlpha_of_isPartChar {c : Char} (h : isPartChar c) : c.isAlpha = false := by
  rw [isPartChar, Bool.or_eq_true, List.contains_iff_mem] at h
  cases h with
  | inl h => exact isAlpha_of_isDigit h
  | inr h =>
    have : ∀ c ∈ ['-', '>', '<', '='], c.isAlpha = false := by
      simp [isAlpha_eq_false_iff]
    exact this c h

theorem isBlank_toUpper (c : Char) : Text.isBlank c.toUpper = Text.isBlank c := by
  simp only [Text.isBlank, toNat_toUpper]
  split
  · rw [Bool.eq_iff_iff]
    simp [Text.blankRanges]
    omega
  · rfl

theorem Grammar.Letter.of_toUpper_eq {u c d : Char} (hc : Letter u c) (hu : u.isUpper)
    (h : c.toUpper = d.toUpper) : Letter u d := by
  rw [letter_iff_toUpper hu] at hc ⊢
  rw [← h, hc]

/-! ### Parts of texts -/

namespace Alike

variable {s t u : List Char} {c : Char}

theorem symm (h : Alike s t) : Alike t s :=
  Eq.symm h

theorem exists_of_cons (h : Alike (c :: s) t) :
    ∃ d t', t = d :: t' ∧ c.toUpper = d.toUpper ∧ Alike s t' := by
  obtain ⟨d, t', rfl, hd, ht⟩ := List.map_eq_cons_iff.1 (Eq.symm h)
  exact ⟨d, t', rfl, hd.symm, Eq.symm ht⟩

theorem exists_of_append (h : Alike (s ++ t) u) :
    ∃ s' t', u = s' ++ t' ∧ Alike s s' ∧ Alike t t' := by
  unfold Alike at h
  rw [List.map_append] at h
  obtain ⟨s', t', rfl, hs, ht⟩ := List.map_eq_append_iff.1 h.symm
  exact ⟨s', t', rfl, hs.symm, ht.symm⟩

theorem eq_nil (h : Alike [] t) : t = [] :=
  List.map_eq_nil_iff.1 (Eq.symm h)

theorem eq_of_isAlpha (h : Alike s t) (hs : ∀ c ∈ s, c.isAlpha = false) : t = s := by
  induction s generalizing t with
  | nil => exact h.eq_nil
  | cons c s ih =>
    obtain ⟨d, t', rfl, hd, ht⟩ := h.exists_of_cons
    rw [List.forall_mem_cons] at hs
    rw [eq_of_toUpper_eq_toUpper hd hs.1, ih ht hs.2]

theorem exists_of_letter {v : Char} (h : Alike (c :: s) t) (hc : Letter v c) (hv : v.isUpper)
    (hs : ∀ c ∈ s, c.isAlpha = false) : ∃ d, t = d :: s ∧ Letter v d := by
  obtain ⟨d, t', rfl, hd, ht⟩ := h.exists_of_cons
  rw [ht.eq_of_isAlpha hs]
  exact ⟨d, rfl, hc.of_toUpper_eq hv hd⟩

theorem exists_of_head? (h : Alike s t) (hc : s.head? = some c) :
    ∃ d, t.head? = some d ∧ c.toUpper = d.toUpper := by
  obtain ⟨s, rfl⟩ := List.head?_eq_some_iff.1 hc
  obtain ⟨d, t', rfl, hd, _⟩ := h.exists_of_cons
  exact ⟨d, rfl, hd⟩

theorem not_mem (h : Alike s t) (hc : c.isAlpha = false) (hs : c ∉ s) : c ∉ t := by
  intro ht
  have hmap := List.mem_map_of_mem (f := Char.toUpper) ht
  rw [← h, List.mem_map] at hmap
  obtain ⟨d, hd, heq⟩ := hmap
  rw [eq_of_toUpper_eq_toUpper heq.symm hc] at hd
  exact hs hd

theorem trim (h : Alike s t) : Alike (Text.trim s) (Text.trim t) := by
  have hblank : Text.isBlank ∘ Char.toUpper = Text.isBlank := funext isBlank_toUpper
  have map_trim (s : List Char) :
      Text.trim (s.map Char.toUpper) = (Text.trim s).map Char.toUpper := by
    simp only [Text.trim, Text.trim.trimStart, List.dropWhile_map, ← List.map_reverse, hblank]
  unfold Alike
  rw [← map_trim, ← map_trim, h]

end Alike

/-! ### Productions of the grammar -/

namespace Grammar

theorem Numeral.isAlpha {s : List Char} {n : Nat} (h : Numeral s n) :
    ∀ c ∈ s, c.isAlpha = false := by
  intro c hc
  exact isAlpha_of_isDigit (h.isDigit c hc)

theorem Natural.isAlpha {s : List Char} {n : Int64} (h : Natural s n) :
    ∀ c ∈ s, c.isAlpha = false := by
  intro c hc
  exact isAlpha_of_isDigit (h.isDigit c hc)

theorem Optional.isAlpha {s : List Char} {n : Option UInt32} (h : Optional Count s n) :
    ∀ c ∈ s, c.isAlpha = false := by
  cases h with
  | absent => simp
  | present hs => exact Numeral.isAlpha hs

theorem Listed.isAlpha {α : Type} {item : List Char → α → Prop}
    (hchars : ∀ {s a}, item s a → ∀ c ∈ s, isPartChar c) {s : List Char} {as : List α}
    (h : Listed item s as) : ∀ c ∈ s, c.isAlpha = false := by
  intro c hc
  cases h.isPartChar_or hchars c hc with
  | inl h => exact isAlpha_of_isPartChar h
  | inr h =>
    have : ∀ c ∈ ['\x7b', ',', '\x7d'], c.isAlpha = false := by
      simp [isAlpha_eq_false_iff]
    exact this c h

theorem isAlpha_front {q : List Char} {quantity : UInt32} (hq : Count q quantity) (sign : Sign) :
    ∀ c ∈ sign.spelling ++ q, c.isAlpha = false := by
  rw [List.forall_mem_append]
  refine ⟨?_, Numeral.isAlpha hq⟩
  cases sign <;> simp [Sign.spelling, isAlpha_eq_false_iff]

variable {s t u v : List Char}

theorem Run.of_alike {marks : Nat} {m : Option UInt32} {b : Burst} (h : Run marks s m b)
    (hst : Alike s t) : Run marks t m b := by
  cases h with
  | explode | compound | explodeCompound =>
    rw [hst.eq_nil]
    constructor
  | penetrate hc | explodePenetrate hc | compoundPenetrate hc | explodeCompoundPenetrate hc =>
    obtain ⟨d, rfl, hd⟩ := hst.exists_of_letter hc rfl (by simp)
    constructor
    exact hd

theorem Spells.of_alike {w : Word} (h : Spells u w) (huv : Alike u v) : Spells v w := by
  cases h with
  | cap hc hs =>
    obtain ⟨d, rfl, hd⟩ := huv.exists_of_letter hc rfl (hs.isAlpha Bound.isPartChar)
    exact .cap hd hs
  | drop hc hs =>
    obtain ⟨d, rfl, hd⟩ := huv.exists_of_letter hc rfl (hs.isAlpha Comparison.isPartChar)
    exact .drop hd hs
  | reroll hc hs ht =>
    have hall := List.forall_mem_append.2 ⟨hs.isAlpha Comparison.isPartChar, ht.isAlpha⟩
    obtain ⟨d, rfl, hd⟩ := huv.exists_of_letter hc rfl hall
    exact .reroll hd hs ht
  | replace hc hs =>
    obtain ⟨d, rfl, hd⟩ := huv.exists_of_letter hc rfl (hs.isAlpha Rule.isPartChar)
    exact .replace hd hs
  | unique hc =>
    obtain ⟨d, rfl, hd⟩ := huv.exists_of_letter hc rfl (by simp)
    exact .unique hd
  | uniqueExcept hc hs =>
    obtain ⟨d, rfl, hd⟩ := huv.exists_of_letter hc rfl (hs.isAlpha Integer.isPartChar)
    exact .uniqueExcept hd hs
  | highest hc hs =>
    obtain ⟨d, rfl, hd⟩ := huv.exists_of_letter hc rfl hs.isAlpha
    exact .highest hd hs
  | lowest hc hs =>
    obtain ⟨d, rfl, hd⟩ := huv.exists_of_letter hc rfl hs.isAlpha
    exact .lowest hd hs
  | keepHighest hc hs =>
    obtain ⟨d, rfl, hd⟩ := huv.exists_of_letter hc rfl hs.isAlpha
    exact .keepHighest hd hs
  | keepLowest hc hd hs =>
    obtain ⟨c, t, rfl, heq, ht⟩ := huv.exists_of_cons
    obtain ⟨d, rfl, hd⟩ := ht.exists_of_letter hd rfl hs.isAlpha
    exact .keepLowest (hc.of_toUpper_eq rfl heq) hd hs
  | plus hs =>
    rw [huv.eq_of_isAlpha (List.forall_mem_cons.2 ⟨rfl, hs.isAlpha⟩)]
    exact .plus hs
  | minus hs =>
    rw [huv.eq_of_isAlpha (List.forall_mem_cons.2 ⟨rfl, hs.isAlpha⟩)]
    exact .minus hs
  | burst hb ht =>
    obtain ⟨v, t, rfl, hv, heq⟩ := huv.exists_of_append
    obtain ⟨marks, s, rfl, hmarks, hs⟩ := hv.exists_of_append
    rw [heq.eq_of_isAlpha ht.isAlpha, hmarks.eq_of_isAlpha (by simp)]
    exact .burst (hb.of_alike hs) ht

theorem Apart.of_alike (h : Apart s t) (hsu : Alike s u) (htv : Alike t v) : Apart u v := by
  obtain ⟨hmarks, hkeep⟩ := h
  constructor
  · intro hall hv
    obtain ⟨c, hc, heq⟩ := htv.symm.exists_of_head? hv
    have hu : ∀ c ∈ u, c.isAlpha = false := by
      intro c hc
      rw [hall c hc]
      rfl
    rw [hsu.symm.eq_of_isAlpha hu] at hmarks
    rw [eq_of_toUpper_eq_toUpper heq rfl] at hc
    exact hmarks hall hc
  · intro k l hk hl hu hv
    rw [hu] at hsu
    obtain ⟨k', rfl, hk'⟩ := hsu.symm.exists_of_letter hk rfl (by simp)
    obtain ⟨l', hl', heq⟩ := htv.symm.exists_of_head? hv
    exact hkeep k' l' hk' (hl.of_toUpper_eq rfl heq) rfl hl'

theorem Words.of_alike {ws : List Word} (h : Words s ws) (hst : Alike s t) : Words t ws := by
  induction ws generalizing s t with
  | nil =>
    rw [h.eq_nil] at hst
    rw [hst.eq_nil]
    exact Words.nil
  | cons w ws ih =>
    obtain ⟨u, s, rfl, hu, hs, ha⟩ := h.exists_of_cons
    obtain ⟨v, t, rfl, huv, hst⟩ := hst.exists_of_append
    exact Words.cons (hu.of_alike huv) (ih hs hst) (ha.of_alike huv hst)

end Grammar

/-! ### Faces -/

def facesOf (s : List Char) : List String :=
  match readDice s with
  | .ok ({ sides := .faces labels, .. }, _) => labels
  | _ => []

/--
The text from the first opening brace on, up to the next closing one.
-/
def inBraces (s : List Char) : List Char :=
  (s.dropWhile (· ≠ '\x7b')).tail.takeWhile (· ≠ '\x7d')

inductive Grammar.Labelled : List Char → List Char → Prop where
  | mk {q labels rest : List Char} {d : Char} {sign : Sign} {quantity : UInt32}
      (hq : Count q quantity) (hd : Letter 'D' d) (hne : labels ≠ [])
      (hl : ∀ c ∈ labels, c ≠ '\x7d' ∧ c ≠ ',') :
      Labelled (sign.spelling ++ q ++ d :: '\x7b' :: labels ++ '\x7d' :: rest) labels

namespace Grammar.Labelled

variable {s t labels : List Char}

theorem facesOf_eq (h : Labelled s labels) : facesOf s = labels.map Char.toString := by
  cases h with
  | mk hq hd hne hl => rw [facesOf, readDice_braces hq hd hne hl]

theorem inBraces_eq (h : Labelled s labels) : inBraces s = labels := by
  cases h with
  | @mk q labels rest d sign quantity hq hd hne hl =>
    have hopening : ∀ c ∈ sign.spelling ++ q ++ [d], decide (c ≠ '\x7b') = true := by
      intro c hc
      apply decide_eq_true
      rintro rfl
      rw [List.mem_append, List.mem_append, List.mem_singleton] at hc
      obtain (hsign | hdigit) | rfl := hc
      · cases sign <;> simp [Sign.spelling] at hsign
      · exact absurd (Numeral.isDigit hq _ hdigit) (by decide)
      · exact absurd hd (by simp [Letter])
    have hclosing : ∀ c ∈ labels, decide (c ≠ '\x7d') = true :=
      fun c hc => decide_eq_true (hl c hc).1
    have hs : sign.spelling ++ q ++ d :: '\x7b' :: labels ++ '\x7d' :: rest =
        sign.spelling ++ q ++ [d] ++ '\x7b' :: (labels ++ '\x7d' :: rest) := by
      simp
    rw [inBraces, hs, dropWhile_append hopening (startsOutside_cons.2 rfl), List.tail_cons,
      takeWhile_append hclosing (startsOutside_cons.2 rfl)]

theorem exists_of_alike {q rest : List Char} {d : Char} {sign : Sign} {quantity : UInt32}
    (hq : Count q quantity) (hd : Letter 'D' d) (hne : labels ≠ [])
    (hl : ∀ c ∈ labels, c ≠ '\x7d' ∧ c ≠ ',')
    (hst : Alike (sign.spelling ++ q ++ d :: '\x7b' :: labels ++ '\x7d' :: rest) t) :
    ∃ d' labels' rest', t = sign.spelling ++ q ++ d' :: '\x7b' :: labels' ++ '\x7d' :: rest' ∧
      Letter 'D' d' ∧ labels' ≠ [] ∧ (∀ c ∈ labels', c ≠ '\x7d' ∧ c ≠ ',') ∧
        Alike rest rest' := by
  obtain ⟨dice, brace, rfl, hdice, hbrace⟩ := hst.exists_of_append
  obtain ⟨front, sides, rfl, heq, hsides⟩ := hdice.exists_of_append
  obtain ⟨d', listing, rfl, hd', hlisting⟩ := hsides.exists_of_cons
  obtain ⟨b, labels', rfl, hb, hlabels⟩ := hlisting.exists_of_cons
  obtain ⟨e, rest', rfl, he, hrest⟩ := hbrace.exists_of_cons
  rw [heq.eq_of_isAlpha (isAlpha_front hq sign), eq_of_toUpper_eq_toUpper hb rfl,
    eq_of_toUpper_eq_toUpper he rfl]
  refine ⟨d', labels', rest', rfl, hd.of_toUpper_eq rfl hd', ?_, ?_, hrest⟩
  · rintro rfl
    exact hne hlabels.symm.eq_nil
  · have hclosing := hlabels.not_mem (c := '\x7d') rfl fun h => (hl _ h).1 rfl
    have hcomma := hlabels.not_mem (c := ',') rfl fun h => (hl _ h).2 rfl
    intro c hc
    exact ⟨ne_of_mem_of_not_mem hc hclosing, ne_of_mem_of_not_mem hc hcomma⟩

theorem of_alike (h : Labelled s labels) (hst : Alike s t) : ∃ labels', Labelled t labels' := by
  cases h with
  | mk hq hd hne hl =>
    obtain ⟨d', labels', rest', rfl, hd', hne', hl', _⟩ := exists_of_alike hq hd hne hl hst
    exact ⟨labels', .mk hq hd' hne' hl'⟩

end Grammar.Labelled

theorem exists_labelled_of_facesOf {s : List Char} (h : facesOf s ≠ []) :
    ∃ labels, Labelled s labels := by
  unfold facesOf at h
  split at h
  · next sign quantity faces rest hdice =>
    obtain ⟨q, d, t, rfl, hq, hd, hsides⟩ := exists_of_readDice hdice
    obtain ⟨_, _, _, _, ⟨⟩⟩ | ⟨labels, hne, hl, rfl, _⟩ := exists_of_readSides hsides
    have hs : Labelled (sign.spelling ++ q ++ d :: '\x7b' :: labels ++ '\x7d' :: rest) labels :=
      .mk hq hd hne hl
    rw [List.append_assoc, List.cons_append] at hs
    exact ⟨labels, hs⟩
  · contradiction

theorem facesOf_eq_of_alike {s t : List Char} (hst : Alike s t) (h : inBraces s = inBraces t) :
    facesOf s = facesOf t := by
  have heq {labels labels' : List Char} (hs : Labelled s labels) (ht : Labelled t labels') :
      facesOf s = facesOf t := by
    rw [hs.facesOf_eq, ht.facesOf_eq, ← hs.inBraces_eq, ← ht.inBraces_eq, h]
  by_cases hs : facesOf s = []
  · by_cases ht : facesOf t = []
    · rw [hs, ht]
    · obtain ⟨_, ht⟩ := exists_labelled_of_facesOf ht
      obtain ⟨_, hs⟩ := ht.of_alike hst.symm
      exact heq hs ht
  · obtain ⟨_, hs⟩ := exists_labelled_of_facesOf hs
    obtain ⟨_, ht⟩ := hs.of_alike hst
    exact heq hs ht

theorem Grammar.Text.of_alike {s t : List Char} {dice : Dice} {ws : List Word}
    (h : Grammar.Text s dice ws) (hst : Alike s t) (hfaces : facesOf s = facesOf t) :
    Grammar.Text t dice ws := by
  cases h with
  | @numbered q n _ d sign quantity sides ws hq hd hn hws =>
    obtain ⟨dice, t, rfl, hdice, ht⟩ := hst.exists_of_append
    obtain ⟨front, sides, rfl, heq, hsides⟩ := hdice.exists_of_append
    obtain ⟨d', rfl, hd'⟩ := hsides.exists_of_letter hd rfl (Numeral.isAlpha hn)
    rw [heq.eq_of_isAlpha (isAlpha_front hq sign)]
    exact .numbered hq hd' hn (hws.of_alike ht)
  | faces hq hd hne hl =>
    obtain ⟨d', labels', rest', rfl, hd', hne', hl', hrest⟩ :=
      Labelled.exists_of_alike hq hd hne hl hst
    rw [hrest.eq_nil] at hfaces ⊢
    rw [(Labelled.mk hq hd hne hl).facesOf_eq, (Labelled.mk hq hd' hne' hl').facesOf_eq] at hfaces
    rw [hfaces]
    exact .faces hq hd' hne' hl'

end Notation

namespace PoolSpec

theorem ofNotation_eq_ok_iff_of_alike {s t : String} (hst : Alike s.toList t.toList)
    (hfaces : facesOf (Text.trim s.toList) = facesOf (Text.trim t.toList)) (spec : PoolSpec) :
    ofNotation s = .ok spec ↔ ofNotation t = .ok spec := by
  have himp {s t : List Char} (hst : Alike s t) (hfaces : facesOf s = facesOf t)
      (h : ofChars s = .ok spec) : ofChars t = .ok spec := by
    obtain ⟨dice, ws, hs, h⟩ := ofChars_eq_ok_iff.1 h
    exact ofChars_eq_ok_iff.2 ⟨dice, ws, hs.of_alike hst hfaces, h⟩
  rw [ofNotation_eq_ofChars, ofNotation_eq_ofChars]
  exact ⟨himp hst.trim hfaces, himp hst.trim.symm hfaces.symm⟩

theorem ofNotation_eq_ok_iff_of_alike_capitals :
    ofNotation " 4D6Kl2R\x7b1\x7d2!P " =
        .ok { sides := .numbered 6
              quantity := 4
              modifiers :=
                { keep := some { lowest := some 2 }
                  reroll := some { trigger := { exact := [1] }, max := some 2 }
                  penetrate := some .unlimited } } ∧
      ofNotation "2D\x7bHh\x7d" = .ok { sides := .faces ["H", "h"], quantity := 2 } := by
  have hsmall : ofNotation " 4d6kl2r\x7b1\x7d2!p " =
      .ok { sides := .numbered 6
            quantity := 4
            modifiers :=
              { keep := some { lowest := some 2 }
                reroll := some { trigger := { exact := [1] }, max := some 2 }
                penetrate := some .unlimited } } := by
    decide +kernel
  have hcoin : ofNotation "2d\x7bHh\x7d" = .ok { sides := .faces ["H", "h"], quantity := 2 } := by
    decide +kernel
  constructor
  · have halike : Alike " 4d6kl2r\x7b1\x7d2!p ".toList " 4D6Kl2R\x7b1\x7d2!P ".toList := by
      decide +kernel
    have hfaces := facesOf_eq_of_alike halike.trim (by decide +kernel)
    exact (ofNotation_eq_ok_iff_of_alike halike hfaces _).1 hsmall
  · have halike : Alike "2d\x7bHh\x7d".toList "2D\x7bHh\x7d".toList := by
      decide +kernel
    have hfaces := facesOf_eq_of_alike halike.trim (by decide +kernel)
    exact (ofNotation_eq_ok_iff_of_alike halike hfaces _).1 hcoin

end PoolSpec

end DicePool
