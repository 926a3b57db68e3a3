import DicePool.Proofs.Notation.RoundTrip

/-!
This module contains the notation of dice with faces of their own. Faces of one character each are
read back, and a list of other faces is no notation. The main statement is `ofNotation_text_faces`,
which also names the exception: a single face that is a word is read as one face for each of its
characters.
-/

namespace DicePool

open Notation Notation.Grammar

namespace Notation

theorem text_braces_iff {q t : List Char} {d : Char} {sign : Sign} {quantity : UInt32}
    (hq : Count q quantity) (hd : Letter 'D' d) {dice : Dice} {ws : List Word} :
    Grammar.Text (sign.spelling ++ q ++ d :: '\x7b' :: t) dice ws ↔
      ∃ labels, t = labels ++ ['\x7d'] ∧ labels ≠ [] ∧ (∀ c ∈ labels, c ≠ '\x7d' ∧ c ≠ ',') ∧
        dice = { sign, quantity, sides := .faces (labels.map Char.toString) } ∧ ws = [] := by
  constructor
  · intro h
    generalize hs : sign.spelling ++ q ++ d :: '\x7b' :: t = s at h
    cases h with
    | @numbered q' n t' d' sign' quantity' sides ws hq' hd' hn ht =>
      rw [List.append_assoc _ _ t', List.cons_append] at hs
      obtain ⟨_, _, hs⟩ := append_cons_inj hq hq' hd hd' hs
      -- A number of sides begins with a digit and not with a brace.
      cases n with
      | nil => exact absurd rfl (Numeral.ne_nil hn)
      | cons c n =>
        rw [List.cons_append, List.cons.injEq] at hs
        have hc := Numeral.isDigit hn c (by simp)
        rw [← hs.1] at hc
        contradiction
    | @faces q' labels d' sign' quantity' hq' hd' hne hl =>
      rw [List.append_assoc _ _ ['\x7d'], List.cons_append, List.cons_append] at hs
      obtain ⟨rfl, rfl, hs⟩ := append_cons_inj hq hq' hd hd' hs
      rw [List.cons.injEq] at hs
      exact ⟨labels, hs.2, hne, hl, rfl, rfl⟩
  · rintro ⟨labels, rfl, hne, hl, rfl, rfl⟩
    rw [← List.cons_append, ← List.cons_append, ← List.append_assoc]
    exact .faces hq hd hne hl

theorem faceChar?_eq_some_iff {face : String} {c : Char} :
    Sides.faceChar? face = some c ↔ face = c.toString ∧ c ≠ '\x7d' ∧ c ≠ ',' := by
  rw [← isFace_iff, ← String.toList_inj, Char.toString, String.toList_singleton]
  unfold Sides.faceChar?
  split
  · next d hd =>
    rw [hd]
    split
    · next hface => grind
    · next hface => grind
  · next hne =>
    constructor
    · intro h
      contradiction
    · rintro ⟨hface, _⟩
      exact absurd hface (hne c)

theorem mapM_faceChar?_eq_some_iff {faces : List String} {labels : List Char} :
    faces.mapM Sides.faceChar? = some labels ↔
      faces = labels.map Char.toString ∧ ∀ c ∈ labels, c ≠ '\x7d' ∧ c ≠ ',' := by
  rw [mapM_eq_some_iff]
  constructor
  · intro h
    induction h with
    | nil => simp
    | cons hface _ ih =>
      obtain ⟨rfl, hc⟩ := faceChar?_eq_some_iff.1 hface
      rw [ih.1, List.forall_mem_cons]
      exact ⟨rfl, hc, ih.2⟩
  · rintro ⟨rfl, h⟩
    rw [List.forall₂_map_left_iff, List.forall₂_same]
    intro c hc
    exact faceChar?_eq_some_iff.2 ⟨rfl, h c hc⟩

end Notation

namespace Sides

def listing (faces : List String) : List Char :=
  match faces.mapM faceChar? with
  | some labels => labels
  | none => [','].intercalate (faces.map String.toList)

theorem spelling_faces (faces : List String) :
    Sides.spelling (.faces faces) = '\x7b' :: (listing faces ++ ['\x7d']) := by
  rw [spelling, listing]
  cases faces.mapM faceChar? <;> rfl

/--
The faces that can be written as they are: those of one character, unless this character ends a face
or the list.
-/
def IsWritable (face : String) : Prop :=
  ∃ c, face = c.toString ∧ c ≠ '\x7d' ∧ c ≠ ','

def IsWord (face : String) : Prop :=
  2 ≤ face.toList.length ∧ ∀ c ∈ face.toList, c ≠ '\x7d' ∧ c ≠ ','

instance (face : String) : Decidable (IsWord face) :=
  @instDecidableAnd _ _ (Nat.decLe _ _) (List.decidableBAll _ _)

theorem exists_labels_iff {faces : List String} :
    (∃ labels : List Char, faces = labels.map Char.toString ∧
      ∀ c ∈ labels, c ≠ '\x7d' ∧ c ≠ ',') ↔ ∀ face ∈ faces, IsWritable face := by
  constructor
  · rintro ⟨labels, rfl, hl⟩ face hface
    obtain ⟨c, hc, rfl⟩ := List.mem_map.1 hface
    exact ⟨c, rfl, hl c hc⟩
  · intro h
    induction faces with
    | nil => exact ⟨[], rfl, by simp⟩
    | cons face faces ih =>
      obtain ⟨⟨c, rfl, hc⟩, hfaces⟩ := List.forall_mem_cons.1 h
      obtain ⟨labels, rfl, hl⟩ := ih hfaces
      exact ⟨c :: labels, rfl, List.forall_mem_cons.2 ⟨hc, hl⟩⟩

theorem listing_of_labels {labels : List Char} (hl : ∀ c ∈ labels, c ≠ '\x7d' ∧ c ≠ ',') :
    listing (labels.map Char.toString) = labels := by
  rw [listing, mapM_faceChar?_eq_some_iff.2 ⟨rfl, hl⟩]

theorem listing_of_not_writable {faces : List String} (h : ¬ ∀ face ∈ faces, IsWritable face) :
    listing faces = [','].intercalate (faces.map String.toList) := by
  rw [listing]
  split
  · next labels hlabels =>
    exact absurd (exists_labels_iff.1 ⟨labels, mapM_faceChar?_eq_some_iff.1 hlabels⟩) h
  · rfl

theorem listing_word {word : String} (h : ¬ IsWritable word) : listing [word] = word.toList := by
  rw [listing_of_not_writable (by simpa using h)]
  exact List.append_nil _

theorem comma_mem_listing {a b : String} {faces : List String}
    (h : ¬ ∀ face ∈ a :: b :: faces, IsWritable face) : ',' ∈ listing (a :: b :: faces) := by
  rw [listing_of_not_writable h]
  simp [List.intercalate]

theorem IsWord.not_isWritable {word : String} (h : IsWord word) : ¬ IsWritable word := by
  rintro ⟨c, rfl, _⟩
  have hlength := h.1
  simp [Char.toString] at hlength

theorem exists_isWord_of_listing {faces : List String} (hw : ¬ ∀ face ∈ faces, IsWritable face)
    (hne : listing faces ≠ []) (hl : ∀ c ∈ listing faces, c ≠ '\x7d' ∧ c ≠ ',') :
    ∃ word, faces = [word] ∧ IsWord word := by
  match faces with
  | [] => exact absurd (by simp) hw
  | [word] =>
    rw [List.forall_mem_singleton] at hw
    rw [listing_word hw] at hne hl
    refine ⟨word, rfl, ?_, hl⟩
    match hword : word.toList with
    | [] => contradiction
    | [c] =>
      have hc : word = c.toString := String.toList_inj.1 (by simp [hword, Char.toString])
      exact absurd ⟨c, hc, hl c (by simp [hword])⟩ hw
    | _ :: _ :: _ => simp
  | a :: b :: faces =>
    -- Several faces are listed with commas, which end a face where the listing is read.
    exact absurd rfl (hl ',' (comma_mem_listing hw)).2

end Sides

open Sides (listing IsWritable IsWord)

namespace PoolSpec

theorem ofNotation_spelling_faces_iff {spec spec' : PoolSpec} {faces : List String}
    (hsides : spec.sides = .faces faces) (hm : spec.modifiers = {}) :
    ofNotation (.ofList spec.spelling) = .ok spec' ↔
      listing faces ≠ [] ∧ (∀ c ∈ listing faces, c ≠ '\x7d' ∧ c ≠ ',') ∧
        spec' = { spec with sides := .faces ((listing faces).map Char.toString) } := by
  have hspelling : spec.spelling = spec.sign.spelling ++ count spec.quantity ++
      'd' :: '\x7b' :: (listing faces ++ ['\x7d']) := by
    rw [PoolSpec.spelling, hsides, Sides.spelling_faces, hm]
    exact List.append_nil _
  have htrim : Text.trim spec.spelling = spec.spelling := by
    have h := trim_braces (count_count spec.quantity) spec.sign 'd' (listing faces)
    rwa [List.append_assoc _ _ ['\x7d'], List.cons_append, List.cons_append, ← hspelling] at h
  have hd : Letter 'D' 'd' := .inr rfl
  rw [ofNotation_eq_ofChars, ofChars_eq_ok_iff, String.toList_ofList, htrim, hspelling]
  simp only [text_braces_iff (count_count spec.quantity) hd, List.append_cancel_right_eq]
  constructor
  · rintro ⟨dice, ws, ⟨labels, rfl, hne, hl, rfl, rfl⟩, _, rfl⟩
    refine ⟨hne, hl, ?_⟩
    rw [pool, hm]
    rfl
  · rintro ⟨hne, hl, rfl⟩
    refine ⟨_, [], ⟨_, rfl, hne, hl, rfl, rfl⟩, sumsFit_nil, ?_⟩
    rw [pool, hm]
    rfl

end PoolSpec

namespace Pool

theorem ofNotation_text_of_labels {spec : PoolSpec} {labels : List Char} {p : Pool}
    (hsides : spec.sides = .faces (labels.map Char.toString))
    (hl : ∀ c ∈ labels, c ≠ '\x7d' ∧ c ≠ ',') (h : ofSpec spec = .ok p) :
    ofNotation p.text = .ok p := by
  have hfaces := (sides_toSpec h).trans hsides
  obtain ⟨hne, hm⟩ := (isValid_toSpec h).faces _ hfaces
  apply ofNotation_eq_ok_of_toSpec h
  rw [text_eq h, PoolSpec.ofNotation_spelling_faces_iff hfaces hm, Sides.listing_of_labels hl,
    ← hfaces]
  refine ⟨?_, hl, rfl⟩
  rintro rfl
  exact hne rfl

theorem ofNotation_text_faces {spec : PoolSpec} {faces : List String} {p : Pool}
    (hsides : spec.sides = .faces faces) (h : ofSpec spec = .ok p) :
    ((∀ face ∈ faces, IsWritable face) → ofNotation p.text = .ok p) ∧
      ((¬ ∀ face ∈ faces, IsWritable face) → (∀ word, faces = [word] → ¬ IsWord word) →
        ∃ e, PoolSpec.ofNotation p.text = .error e) ∧
      ∀ word, faces = [word] → IsWord word →
        PoolSpec.ofNotation p.text =
          .ok { p.toSpec with sides := .faces (word.toList.map Char.toString) } := by
  have hfaces := (sides_toSpec h).trans hsides
  obtain ⟨_, hm⟩ := (isValid_toSpec h).faces faces hfaces
  rw [text_eq h]
  refine ⟨?_, ?_, ?_⟩
  · intro hw
    obtain ⟨labels, rfl, hl⟩ := Sides.exists_labels_iff.2 hw
    rw [← text_eq h]
    exact ofNotation_text_of_labels hsides hl h
  · intro hw hword
    cases hspec : PoolSpec.ofNotation (.ofList p.toSpec.spelling) with
    | error e => exact ⟨e, rfl⟩
    | ok spec' =>
      obtain ⟨hne, hl, _⟩ := (PoolSpec.ofNotation_spelling_faces_iff hfaces hm).1 hspec
      obtain ⟨word, rfl, h⟩ := Sides.exists_isWord_of_listing hw hne hl
      exact absurd h (hword word rfl)
  · rintro word rfl hword
    rw [PoolSpec.ofNotation_spelling_faces_iff hfaces hm, Sides.listing_word hword.not_isWritable]
    exact ⟨List.ne_nil_of_length_pos (Nat.zero_lt_of_lt hword.1), hword.2, rfl⟩

theorem ofNotation_text_faces_fruits :
    ∃ spec p, spec.sides = .faces ["apple", "banana"] ∧ ofSpec spec = .ok p ∧
      p.text = "1d\x7bapple,banana\x7d" ∧ ∃ e, PoolSpec.ofNotation p.text = .error e := by
  let spec : PoolSpec := { sides := .faces ["apple", "banana"] }
  have h : ofSpec spec = .ok (ofValid spec) := rfl
  refine ⟨spec, _, rfl, h, by decide +kernel, (ofNotation_text_faces rfl h).2.1 ?_ (by simp)⟩
  intro hw
  exact Sides.IsWord.not_isWritable (by decide) (hw "apple" (by simp))

theorem ofNotation_text_single_word :
    ∃ spec p, spec.sides = .faces ["HT"] ∧ ofSpec spec = .ok p ∧ p.text = "1d\x7bHT\x7d" ∧
      (¬ ∀ face ∈ ["HT"], IsWritable face) ∧
        PoolSpec.ofNotation p.text = .ok { spec with sides := .faces ["H", "T"] } := by
  let spec : PoolSpec := { sides := .faces ["HT"] }
  refine ⟨spec, ofValid spec, rfl, rfl, by decide +kernel, ?_, by decide +kernel⟩
  intro hw
  exact Sides.IsWord.not_isWritable (by decide) (hw "HT" (by simp))

end Pool

end DicePool
