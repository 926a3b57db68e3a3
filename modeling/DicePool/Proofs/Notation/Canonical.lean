import DicePool.Proofs.Notation.Faces

/-!
This module contains the statement that notation which the program writes itself is canonical: what
is written for the pool that a text stands for stands for the same pool.
-/

namespace DicePool

open Notation Notation.Grammar

namespace Notation

theorem exists_faces_of_text {s : List Char} {dice : Dice} {ws : List Word}
    (h : Grammar.Text s dice ws) {faces : List String} (hf : dice.sides = .faces faces) :
    ∃ labels : List Char, (∀ c ∈ labels, c ≠ '\x7d' ∧ c ≠ ',') ∧
      faces = labels.map Char.toString := by
  cases h with
  | numbered => contradiction
  | faces _ _ _ hl =>
    cases hf
    exact ⟨_, hl, rfl⟩

end Notation

namespace Pool

theorem ofNotation_text_of_faces {text : String} {p : Pool} {spec : PoolSpec}
    {faces : List String} (hspec : PoolSpec.ofNotation text = .ok spec) (hp : ofSpec spec = .ok p)
    (hsides : spec.sides = .faces faces) : ofNotation p.text = .ok p := by
  rw [PoolSpec.ofNotation_eq_ofChars, ofChars_eq_ok_iff] at hspec
  obtain ⟨dice, ws, htext, _, rfl⟩ := hspec
  obtain ⟨labels, hl, rfl⟩ := exists_faces_of_text htext hsides
  exact ofNotation_text_of_labels hsides hl hp

theorem ofNotation_text_of_ofNotation {text : String} {p : Pool} (h : ofNotation text = .ok p) :
    ofNotation p.text = .ok p := by
  obtain ⟨spec, hspec, hp⟩ := bind_eq_ok_iff.1 h
  cases hsides : spec.sides with
  | numbered n => exact ofNotation_text_of_isWritable hsides hp (isWritable_of_ofNotation h)
  | faces faces => exact ofNotation_text_of_faces hspec hp hsides

end Pool

theorem Validation.ofText_eq_valid_iff {text t : String} {description : List String} :
    ofText text = .valid t description ↔
      ∃ p, Pool.ofNotation text = .ok p ∧ p.text = t ∧ p.description = description := by
  unfold ofText
  cases Pool.ofNotation text with
  | error e => simp
  | ok p => simp

theorem Pool.ofNotation_canonical (text : String) :
    (∀ p, ofNotation text = .ok p → ofNotation p.text = .ok p) ∧
      ∀ t description, Validation.ofText text = .valid t description →
        Validation.ofText t = .valid t description := by
  refine ⟨fun p => ofNotation_text_of_ofNotation, ?_⟩
  intro t description h
  obtain ⟨p, hp, rfl, rfl⟩ := Validation.ofText_eq_valid_iff.1 h
  exact Validation.ofText_eq_valid_iff.2 ⟨p, ofNotation_text_of_ofNotation hp, rfl, rfl⟩

theorem Pool.ofNotation_canonical_keep :
    ∃ p, ofNotation " 4D6kl!!+1+1 " = .ok p ∧ p.text = "4d6H3!!+2" ∧
      ofNotation p.text = .ok p := by
  let spec : PoolSpec :=
    { sides := .numbered 6
      quantity := 4
      modifiers :=
        { drop := some { highest := some 3 }, compound := some .unlimited, plus := some 2 } }
  have h : ofNotation " 4D6kl!!+1+1 " = .ok (ofValid spec) := by decide +kernel
  exact ⟨_, h, by decide +kernel, (ofNotation_canonical _).1 _ h⟩

end DicePool
