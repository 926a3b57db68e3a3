import DicePool.Proofs.Notation.Acceptance
import DicePool.Proofs.Notation.Blank
import DicePool.Proofs.Notation.Spelling

/-!
This module contains the way from pools to their notation and back. The main statement is
`ofNotation_text_iff`, which says for which pools it leads back to the same pool.
-/

namespace DicePool

open Notation Notation.Grammar

/-! ### From pools to texts -/

theorem text_spelling {spec : PoolSpec} {n : UInt32} (hn : spec.sides = .numbered n)
    (hvalid : spec.IsValid) (hnormal : spec.modifiers.IsNormal)
    (hplus : ∀ k ∈ spec.modifiers.plus, 0 ≤ k.toInt)
    (hminus : ∀ k ∈ spec.modifiers.minus, 0 ≤ k.toInt) :
    Grammar.Text spec.spelling { sign := spec.sign, quantity := spec.quantity, sides := spec.sides }
      spec.modifiers.words := by
  rw [PoolSpec.spelling, hn, Sides.spelling]
  exact .numbered (count_count _) (.inr rfl) (count_count _)
    (ModifierSet.words_spelling hplus hminus hvalid.filled hnormal hvalid.cap)

theorem ofNotation_of_text {s : List Char} {spec : PoolSpec} {ws : List Word}
    (hs : Grammar.Text s { sign := spec.sign, quantity := spec.quantity, sides := spec.sides } ws)
    (h : mergeAll {} (ws.flatMap Word.tokens) = .ok spec.modifiers) :
    PoolSpec.ofNotation (.ofList s) = .ok spec := by
  rw [PoolSpec.ofNotation_eq_ofChars, String.toList_ofList, hs.trim_eq, PoolSpec.ofChars,
    read_of_text hs]
  apply toSpec_eq_ok_iff.2
  refine ⟨?_, spec.modifiers, h, rfl⟩
  intro labels hsides
  rw [hs.eq_nil_of_faces hsides]
  rfl

theorem ofNotation_spelling {spec : PoolSpec} {n : UInt32} (hn : spec.sides = .numbered n)
    (hvalid : spec.IsValid) (hnormal : spec.modifiers.IsNormal)
    (hplus : ∀ k ∈ spec.modifiers.plus, 0 ≤ k.toInt)
    (hminus : ∀ k ∈ spec.modifiers.minus, 0 ≤ k.toInt) :
    PoolSpec.ofNotation (.ofList spec.spelling) = .ok spec.distinct :=
  ofNotation_of_text (text_spelling hn hvalid hnormal hplus hminus)
    (ModifierSet.mergeAll_flatMap_words hvalid.filled hnormal hvalid.cap)

namespace Pool

theorem ofNotation_eq_ok_of_toSpec {text : String} {spec : PoolSpec} {p : Pool}
    (h : ofSpec spec = .ok p) (htext : PoolSpec.ofNotation text = .ok p.toSpec) :
    ofNotation text = .ok p := by
  unfold ofNotation
  rw [bind_eq_ok_iff]
  exact ⟨p.toSpec, htext, ofSpec_toSpec h⟩

theorem ofNotation_text_eq {spec : PoolSpec} {n : UInt32} {p : Pool}
    (hn : spec.sides = .numbered n) (h : ofSpec spec = .ok p)
    (hplus : ∀ k ∈ p.modifiers.plus, 0 ≤ k.toInt) (hminus : ∀ k ∈ p.modifiers.minus, 0 ≤ k.toInt) :
    PoolSpec.ofNotation p.text = .ok p.toSpec.distinct := by
  rw [text_eq h]
  exact ofNotation_spelling ((sides_toSpec h).trans hn) (isValid_toSpec h) (isNormal_modifiers h)
    hplus hminus

theorem ofNotation_text_of_isWritable {spec : PoolSpec} {n : UInt32} {p : Pool}
    (hn : spec.sides = .numbered n) (h : ofSpec spec = .ok p) (hw : p.modifiers.IsWritable) :
    ofNotation p.text = .ok p := by
  have hdistinct : p.toSpec.distinct = p.toSpec :=
    congrArg (fun m => { p.toSpec with modifiers := m }) (ModifierSet.distinct_of_isWritable hw)
  apply ofNotation_eq_ok_of_toSpec h
  rw [ofNotation_text_eq hn h hw.plus hw.minus, hdistinct]

end Pool

/-! ### From texts to pools -/

theorem mem_given {α : Type} {ws : List Word} {e : Entry} {a b : α} (h : b ∈ given ws e a) :
    b = a := by
  unfold given at h
  split at h
  · exact (Option.some.inj h).symm
  · contradiction

theorem isWritable_denote {ws : List Word} (hnonneg : ∀ w ∈ ws, w.IsNonneg) (h : SumsFit ws) :
    (denote ws).IsWritable := by
  constructor
  · intro n hn
    rw [mem_given hn, fits_iff.1 h.plus]
    exact total_nonneg fun w hw => (hnonneg w hw).plus?
  · intro n hn
    rw [mem_given hn, fits_iff.1 h.minus]
    exact total_nonneg fun w hw => (hnonneg w hw).minus?
  · intro d hd
    rw [mem_given hd]
    exact nodup_eraseDups _
  · intro r hr
    rw [mem_given hr]
    exact nodup_eraseDups _
  · intro u hu
    rw [mem_given hu]
    exact nodup_eraseDups _

theorem isWritable_normalize {m : ModifierSet} (h : m.IsWritable) (quantity : UInt32) :
    (Pool.normalize m quantity).IsWritable := by
  rw [Pool.normalize_eq]
  refine ⟨h.plus, h.minus, ?_, h.reroll, h.unique⟩
  intro d hd
  dsimp only at hd
  cases hkeep : m.keep with
  | none =>
    rw [hkeep] at hd
    exact h.drop d hd
  | some k =>
    rw [hkeep] at hd
    obtain rfl := Option.some.inj hd
    cases hdrop : m.drop with
    | none => exact List.nodup_nil
    | some d => exact h.drop d hdrop

theorem isWritable_of_ofNotation {text : String} {p : Pool} (h : Pool.ofNotation text = .ok p) :
    p.modifiers.IsWritable := by
  obtain ⟨spec, hspec, hp⟩ := bind_eq_ok_iff.1 h
  obtain ⟨_, rfl⟩ := Pool.ofSpec_eq_ok_iff.1 hp
  rw [PoolSpec.ofNotation_eq_ofChars, ofChars_eq_ok_iff] at hspec
  obtain ⟨dice, ws, htext, hfit, rfl⟩ := hspec
  rw [Pool.modifiers_ofValid]
  exact isWritable_normalize (isWritable_denote htext.isNonneg hfit) _

namespace Pool

theorem ofNotation_text_iff {spec : PoolSpec} {n : UInt32} {p : Pool}
    (hn : spec.sides = .numbered n) (h : ofSpec spec = .ok p) :
    ofNotation p.text = .ok p ↔ p.modifiers.IsWritable := by
  constructor
  · exact isWritable_of_ofNotation
  · exact ofNotation_text_of_isWritable hn h

theorem ofNotation_text_growing :
    ∃ spec p, spec.sides = .numbered 6 ∧ ofSpec spec = .ok p ∧ p.text = "4d6L!!3!p+2" ∧
      ofNotation p.text = .ok p := by
  let spec : PoolSpec :=
    { sides := .numbered 6
      quantity := 4
      modifiers :=
        { drop := some { lowest := some 1 }, compound := some ⟨3⟩, penetrate := some ⟨0⟩,
          plus := some 2 } }
  have h : ofSpec spec = .ok (ofValid spec) := rfl
  refine ⟨spec, _, rfl, h, by decide +kernel, (ofNotation_text_iff rfl h).2 ?_⟩
  rw [modifiers_ofValid, normalize_eq]
  constructor <;> simp [spec]

end Pool

end DicePool
