import DicePool.Proofs.Notation.Acceptance
import DicePool.Proofs.Notation.Blank

/-!
This module contains the place where reading a text stops. What stands before it is read in the same
way when the rest of the text is cut off: dice are the same before any words, and the words before
the place are the same before its rest and at the end of a text. The main statement is
`ofNotation_stopped`, which says what the error names and what the text before it comes to.
-/

namespace DicePool

open Notation Notation.Grammar

namespace Notation

/-! ### Dice at the front of a text -/

theorem exists_front_of_readDice {s rest : List Char} {dice : Dice}
    (h : readDice s = .ok (dice, rest)) :
    ∃ front, s = front ++ rest ∧
      ∀ t, StartsOutside Char.isDigit t → readDice (front ++ t) = .ok (dice, t) := by
  obtain ⟨q, d, t, rfl, hq, hd, hsides⟩ := exists_of_readDice h
  obtain ⟨sign, quantity, sides⟩ := dice
  obtain ⟨n, m, rfl, hn, rfl⟩ | ⟨labels, hne, hl, rfl, rfl⟩ := exists_of_readSides hsides
  · refine ⟨sign.spelling ++ q ++ d :: n, by simp, ?_⟩
    intro t ht
    exact readDice_append hq hd (readSides_numbered hn ht)
  · refine ⟨sign.spelling ++ q ++ d :: ('\x7b' :: labels ++ ['\x7d']), by simp, ?_⟩
    intro t _
    apply readDice_append hq hd
    simpa using readSides_faces hne hl t

theorem startsOutside_nil (p : Char → Bool) : StartsOutside p [] := by
  simp [StartsOutside]

section Front

variable {front u : List Char} {dice : Dice} {ws : List Word}

theorem readDice_front (h : readDice front = .ok (dice, [])) (hu : Words u ws) :
    readDice (front ++ u) = .ok (dice, u) := by
  obtain ⟨front', heq, hread⟩ := exists_front_of_readDice h
  rw [List.append_nil] at heq
  subst heq
  exact hread u (isDigit_of_wordStarts hu.start)

theorem read_front (h : readDice front = .ok (dice, [])) (hu : Words u ws) :
    read (front ++ u) = .ok (dice, ws.flatMap Word.tokens) := by
  unfold read
  rw [readDice_front h hu]
  simp only [bind, Except.bind, Token.readAll_of_words hu]
  rfl

theorem ne_nil_of_readDice (h : readDice front = .ok (dice, [])) : front ≠ [] := by
  rintro rfl
  contradiction

theorem ends_of_trim {s : List Char} (h : Text.trim s = s) :
    (∀ c ∈ s.head?, Text.isBlank c = false) ∧ ∀ c ∈ s.getLast?, Text.isBlank c = false := by
  have hfirst := List.dropWhile_sublist Text.isBlank (l := s)
  have hlast := List.dropWhile_sublist Text.isBlank (l := (s.dropWhile Text.isBlank).reverse)
  have hlength : ((s.dropWhile Text.isBlank).reverse.dropWhile Text.isBlank).length = s.length := by
    rw [← List.length_reverse]
    exact congrArg List.length h
  -- Nothing is as long as the whole text that lacks a blank at either of its ends.
  have hs : s.dropWhile Text.isBlank = s := by
    apply hfirst.eq_of_length_le
    have hle := hlast.length_le
    rwa [hlength, List.length_reverse] at hle
  rw [hs] at hlast hlength
  have hr : s.reverse.dropWhile Text.isBlank = s.reverse := by
    apply hlast.eq_of_length_le
    rw [hlength, List.length_reverse]
  constructor
  · rw [← hs]
    exact startsOutside_dropWhile _ s
  · rw [← List.head?_reverse, ← hr]
    exact startsOutside_dropWhile _ s.reverse

theorem trim_front (h : readDice front = .ok (dice, [])) (hu : Words u ws) :
    Text.trim (front ++ u) = front ++ u := by
  have hread : read front = .ok (dice, []) := by
    simpa using read_front h Words.nil
  obtain ⟨_, htext, _⟩ := exists_text_of_read hread fun _ _ => rfl
  obtain ⟨hhead, hlast⟩ := ends_of_trim htext.trim_eq
  apply trim_of_ends
  · intro c hc
    rw [List.head?_append_of_ne_nil _ (ne_nil_of_readDice h)] at hc
    exact hhead c hc
  · intro c hc
    cases hu' : u with
    | nil =>
      rw [hu', List.append_nil] at hc
      exact hlast c hc
    | cons d v =>
      rw [List.getLast?_append_of_ne_nil _ (by simp [hu'])] at hc
      exact hu.not_isBlank c (List.mem_of_getLast? hc)

end Front

/-! ### Tokens -/

theorem Token.read?_readAll (s : List Char) : Token.read? (Token.readAll s).2 = none := by
  fun_induction Token.readAll s with
  | case1 s h => exact h
  | case2 s ts rest h _ more rest' hmore ih =>
    rw [hmore] at ih
    exact ih

theorem read_eq_error {s rest back : List Char} {dice : Dice} {ts : List Token}
    (hdice : readDice s = .ok (dice, rest)) (hts : Token.readAll rest = (ts, back))
    (hback : back ≠ []) : Notation.read s = .error back := by
  unfold Notation.read
  rw [hdice]
  simp only [bind, Except.bind, hts]
  cases back with
  | nil => contradiction
  | cons c back => rfl

theorem eq_of_addTerm_eq_error {e : Entry} {sum : Option Int64} {value : Int64}
    {fault : OptionsFault} (h : ModifierSet.addTerm e sum value = .error fault) :
    fault = .outOfRange e := by
  unfold ModifierSet.addTerm at h
  split at h
  · contradiction
  · cases h
    rfl

theorem eq_of_merge_eq_error {m : ModifierSet} {x : Modifier} {fault : OptionsFault}
    (h : m.merge x = .error fault) : fault = .outOfRange .plus ∨ fault = .outOfRange .minus := by
  cases x with
  | plus value =>
    rw [ModifierSet.merge, bind_eq_error_iff] at h
    obtain h | ⟨_, _, h⟩ := h
    · exact .inl (eq_of_addTerm_eq_error h)
    · contradiction
  | minus value =>
    rw [ModifierSet.merge, bind_eq_error_iff] at h
    obtain h | ⟨_, _, h⟩ := h
    · exact .inr (eq_of_addTerm_eq_error h)
    · contradiction
  | _ => contradiction

theorem eq_of_mergeAll_eq_error {m : ModifierSet} {ts : List Token} {fault : OptionsFault}
    (h : mergeAll m ts = .error fault) :
    fault = .outOfRange .plus ∨ fault = .outOfRange .minus := by
  induction ts generalizing m with
  | nil => contradiction
  | cons t ts ih =>
    rw [mergeAll_cons, bind_eq_error_iff] at h
    obtain h | ⟨m', _, h⟩ := h
    · cases t with
      | modifier x =>
        rw [mergeAll_modifier] at h
        exact eq_of_merge_eq_error h
      | keep k => contradiction
    · exact ih h

theorem toSpec_eq_error {dice : Dice} {ts : List Token} {fault : NotationFault}
    (h : toSpec dice ts = .error fault) :
    fault = .modifiersOnFaces ∨ fault = .options (.outOfRange .plus) ∨
      fault = .options (.outOfRange .minus) := by
  unfold toSpec at h
  split at h
  · cases h
    exact .inl rfl
  · split at h
    · contradiction
    · next fault' hm =>
      cases h
      obtain rfl | rfl := eq_of_mergeAll_eq_error hm
      · exact .inr (.inl rfl)
      · exact .inr (.inr rfl)

end Notation

namespace PoolSpec

theorem ofNotation_eq_mapError (text : String) :
    ofNotation text =
      (ofChars (Text.trim text.toList)).mapError
        (.invalidNotation (.ofList (Text.trim text.toList))) := by
  unfold ofNotation
  dsimp only
  cases ofChars (Text.trim text.toList) <;> rfl

theorem ofNotation_eq_error {text : String} {rest : List Char}
    (h : Notation.read (Text.trim text.toList) = .error rest) :
    ofNotation text =
      .error (.invalidNotation (.ofList (Text.trim text.toList)) (.stopped (.ofList rest))) := by
  rw [ofNotation_eq_mapError, ofChars, h]
  rfl

theorem ofNotation_front {front u : List Char} {dice : Dice} {ws : List Word}
    (h : readDice front = .ok (dice, [])) (hu : Words u ws) :
    ofNotation (.ofList (front ++ u)) =
      (toSpec dice (ws.flatMap Word.tokens)).mapError
        (.invalidNotation (.ofList (front ++ u))) := by
  rw [ofNotation_eq_mapError, ofChars, String.toList_ofList, trim_front h hu, read_front h hu]

theorem message_stopped {text rest : String} (hempty : rest ≠ "") (hwhole : rest ≠ text) :
    (RollError.invalidNotation text (.stopped rest)).message =
      "Invalid notation: " ++ text ++ " (unexpected \"" ++ rest ++ "\")" := by
  unfold RollError.message NotationFault.message
  dsimp only
  rw [if_neg (not_or.2 ⟨hempty, hwhole⟩)]
  simp only [String.append_assoc]

theorem ofNotation_stopped {text : String} {dice : Dice} {tokens : List Token}
    {rest back : List Char} (hdice : readDice (Text.trim text.toList) = .ok (dice, rest))
    (htokens : Token.readAll rest = (tokens, back)) (hback : back ≠ []) :
    ∃ front : List Char, Text.trim text.toList = front ++ back ∧ front ≠ [] ∧
      Token.read? back = none ∧
      ofNotation text =
        .error (.invalidNotation (.ofList (front ++ back)) (.stopped (.ofList back))) ∧
      (RollError.invalidNotation (.ofList (front ++ back)) (.stopped (.ofList back))).message =
        "Invalid notation: " ++ .ofList (front ++ back) ++ " (unexpected \"" ++ .ofList back ++
          "\")" ∧
      Notation.read front = .ok (dice, tokens) ∧
      ((∃ spec, ofNotation (.ofList front) = .ok spec) ∨
        ∃ fault, ofNotation (.ofList front) = .error (.invalidNotation (.ofList front) fault) ∧
          (fault = .modifiersOnFaces ∨ fault = .options (.outOfRange .plus) ∨
            fault = .options (.outOfRange .minus))) := by
  obtain ⟨core, htext, hcore⟩ := exists_front_of_readDice hdice
  have hcore : readDice core = .ok (dice, []) := by
    simpa using hcore [] (startsOutside_nil _)
  obtain ⟨u, ws, hu, hws, hts⟩ := Token.exists_words_of_readAll rest
  have hstop := Token.read?_readAll rest
  rw [htokens] at hu hts hstop
  subst hts
  have hne : core ++ u ≠ [] := List.append_ne_nil_of_left_ne_nil (ne_nil_of_readDice hcore) u
  have hsplit : Text.trim text.toList = core ++ u ++ back := by
    rw [htext, hu, List.append_assoc]
  refine ⟨core ++ u, hsplit, hne, hstop, ?_, ?_, read_front hcore hws, ?_⟩
  · rw [ofNotation_eq_error (read_eq_error hdice htokens hback), hsplit]
  · apply message_stopped
    · intro h
      exact hback (String.ofList_eq_empty_iff.1 h)
    · intro h
      exact hne (List.self_eq_append_left.1 (String.ofList_inj.1 h))
  · rw [ofNotation_front hcore hws]
    cases hspec : toSpec dice (ws.flatMap Word.tokens) with
    | ok spec => exact .inl ⟨spec, rfl⟩
    | error fault => exact .inr ⟨fault, rfl, toSpec_eq_error hspec⟩

theorem ofNotation_stopped_overflow :
    ∃ front : List Char, "4d6!!H99999999999L".toList = front ++ "99999999999L".toList ∧
      ofNotation " 4d6!!H99999999999L " =
        .error (.invalidNotation (.ofList (front ++ "99999999999L".toList))
          (.stopped (.ofList "99999999999L".toList))) ∧
      Notation.read front =
        .ok ({ sign := .add, quantity := 4, sides := .numbered 6 },
          [.modifier (.compound .unlimited), .modifier (.drop { highest := some 1 })]) := by
  have hdice : readDice (Text.trim " 4d6!!H99999999999L ".toList) =
      .ok ({ sign := .add, quantity := 4, sides := .numbered 6 }, "!!H99999999999L".toList) := by
    decide +kernel
  have htokens : Token.readAll "!!H99999999999L".toList =
      ([.modifier (.compound .unlimited), .modifier (.drop { highest := some 1 })],
        "99999999999L".toList) := by
    decide +kernel
  obtain ⟨front, htext, _, _, herror, _, hread, _⟩ :=
    ofNotation_stopped hdice htokens (by decide)
  exact ⟨front, htext, herror, hread⟩

end PoolSpec

end DicePool
