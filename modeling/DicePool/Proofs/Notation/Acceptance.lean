import DicePool.Proofs.Notation.Denotation
import DicePool.Proofs.Notation.Reader

/-!
This module contains the statement that the reader of notation accepts the texts of the grammar and
no others, and returns the pools that the grammar gives them.
-/

namespace DicePool.Notation

open Grammar

namespace Grammar

def pool (dice : Dice) (ws : List Word) : PoolSpec where
  sides := dice.sides
  quantity := dice.quantity
  modifiers := denote ws
  sign := dice.sign

theorem Text.isNonneg {s : List Char} {dice : Dice} {ws : List Word} (h : Text s dice ws) :
    ∀ w ∈ ws, w.IsNonneg := by
  cases h with
  | numbered _ _ _ ht =>
    obtain ⟨texts, rfl, hws, _⟩ := ht
    exact isNonneg_of_forall₂ hws
  | faces => simp

theorem Text.eq_nil_of_faces {s : List Char} {dice : Dice} {ws : List Word} (h : Text s dice ws)
    {labels : List String} (hf : dice.sides = .faces labels) : ws = [] := by
  cases h with
  | numbered => contradiction
  | faces => rfl

end Grammar

theorem toSpec_eq_ok_iff {dice : Dice} {tokens : List Token} {spec : PoolSpec} :
    toSpec dice tokens = .ok spec ↔
      (∀ labels, dice.sides = .faces labels → tokens = []) ∧
        ∃ m, mergeAll {} tokens = .ok m ∧
          spec = { sides := dice.sides, quantity := dice.quantity, modifiers := m,
                   sign := dice.sign } := by
  unfold toSpec
  split
  · next hsides =>
    constructor
    · intro h
      contradiction
    · rintro ⟨h, _⟩
      exact absurd (h _ hsides) (by simp)
  · next tokens _ _ hfaces =>
    have hnil : ∀ labels, dice.sides = .faces labels → tokens = [] := by
      intro labels hsides
      cases tokens with
      | nil => rfl
      | cons t ts => exact (hfaces labels t ts hsides rfl).elim
    cases mergeAll {} tokens with
    | error e => simp [throw, throwThe, MonadExceptOf.throw]
    | ok m =>
      simp only [pure, Except.pure, Except.ok.injEq, exists_eq_left']
      rw [eq_comm]
      exact (and_iff_right hnil).symm

theorem ofChars_eq_ok_iff {s : List Char} {spec : PoolSpec} :
    PoolSpec.ofChars s = .ok spec ↔
      ∃ dice ws, Text s dice ws ∧ SumsFit ws ∧ spec = pool dice ws := by
  unfold PoolSpec.ofChars
  constructor
  · intro h
    split at h
    · next dice tokens hread =>
      obtain ⟨hnil, m, hm, rfl⟩ := toSpec_eq_ok_iff.1 h
      obtain ⟨ws, htext, rfl⟩ := exists_text_of_read hread hnil
      obtain ⟨hfit, rfl⟩ := (mergeAll_words htext.isNonneg).1 hm
      exact ⟨dice, ws, htext, hfit, rfl⟩
    · contradiction
  · rintro ⟨dice, ws, htext, hfit, rfl⟩
    rw [read_of_text htext]
    apply toSpec_eq_ok_iff.2
    refine ⟨?_, denote ws, (mergeAll_words htext.isNonneg).2 ⟨hfit, rfl⟩, rfl⟩
    intro labels hsides
    rw [htext.eq_nil_of_faces hsides]
    rfl

end DicePool.Notation

namespace DicePool.PoolSpec

open Notation.Grammar (SumsFit pool)

theorem ofNotation_eq_ofChars {text : String} {spec : PoolSpec} :
    ofNotation text = .ok spec ↔ ofChars (Text.trim text.toList) = .ok spec := by
  unfold ofNotation
  dsimp only
  cases ofChars (Text.trim text.toList) with
  | error fault => simp [throw, throwThe, MonadExceptOf.throw]
  | ok spec => simp [pure, Except.pure]

theorem ofNotation_eq_ok_iff (text : String) (spec : PoolSpec) :
    ofNotation text = .ok spec ↔
      ∃ dice ws, Notation.Grammar.Text (Text.trim text.toList) dice ws ∧ SumsFit ws ∧
        spec = pool dice ws := by
  rw [ofNotation_eq_ofChars, Notation.ofChars_eq_ok_iff]

end DicePool.PoolSpec
