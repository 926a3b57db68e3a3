import Mathlib.Data.List.Chain
import DicePool.Proofs.Notation.Token

/-!
This module contains the reading of whole texts. The main statements are `read_of_text` and
`exists_text_of_read`: the texts that are read are those of the grammar, and what is read is what
the grammar gives them.
-/

namespace DicePool.Notation

open Grammar

theorem apart_congr {u s t : List Char} (h : s.head? = t.head?) : Apart u s ↔ Apart u t := by
  simp only [Apart, h]

theorem apart_nil (u : List Char) : Apart u [] := by
  simp [Apart]

namespace Grammar

theorem Words.nil : Words [] [] :=
  ⟨[], rfl, .nil, .nil⟩

theorem head?_flatten {texts : List (List Char)} {ws : List Word}
    (h : List.Forall₂ Spells texts ws) : ∀ u ∈ texts.head?, texts.flatten.head? = u.head? := by
  cases h with
  | nil => simp
  | cons hu _ =>
    obtain ⟨c, t, rfl, _⟩ := hu.exists_start
    simp

theorem apart_flatten_iff {texts : List (List Char)} {ws : List Word}
    (h : List.Forall₂ Spells texts ws) (u : List Char) :
    (∀ v ∈ texts.head?, Apart u v) ↔ Apart u texts.flatten := by
  have hhead := head?_flatten h
  cases texts with
  | nil => simp [apart_nil]
  | cons v texts =>
    rw [apart_congr (hhead v rfl)]
    simp

theorem Words.cons {u s : List Char} {w : Word} {ws : List Word} (hu : Spells u w)
    (hs : Words s ws) (ha : Apart u s) : Words (u ++ s) (w :: ws) := by
  obtain ⟨texts, rfl, hws, hc⟩ := hs
  refine ⟨u :: texts, rfl, .cons hu hws, ?_⟩
  rw [List.isChain_cons, apart_flatten_iff hws]
  exact ⟨ha, hc⟩

theorem Words.exists_of_cons {s : List Char} {w : Word} {ws : List Word}
    (h : Words s (w :: ws)) :
    ∃ u t, s = u ++ t ∧ Spells u w ∧ Words t ws ∧ Apart u t := by
  obtain ⟨texts, rfl, hws, hc⟩ := h
  cases hws with
  | cons hu hws =>
    rw [List.isChain_cons, apart_flatten_iff hws] at hc
    exact ⟨_, _, rfl, hu, ⟨_, rfl, hws, hc.2⟩, hc.1⟩

theorem Words.eq_nil {s : List Char} (h : Words s []) : s = [] := by
  obtain ⟨texts, rfl, hws, _⟩ := h
  cases hws
  rfl

theorem Words.start {s : List Char} {ws : List Word} (h : Words s ws) :
    ∀ c ∈ s.head?, c ∈ wordStarts := by
  intro c hc
  cases ws with
  | nil =>
    rw [h.eq_nil] at hc
    simp at hc
  | cons w ws =>
    obtain ⟨u, t, rfl, hu, _⟩ := h.exists_of_cons
    obtain ⟨d, v, rfl, hd⟩ := hu.exists_start
    rw [List.cons_append, List.head?_cons, Option.mem_some_iff] at hc
    rwa [← hc]

theorem Spells.tokens_ne_nil {u : List Char} {w : Word} (h : Spells u w) : w.tokens ≠ [] := by
  cases h with
  | burst hb _ => cases hb <;> simp [Word.tokens, Burst.modifiers]
  | _ => simp [Word.tokens]

theorem Words.eq_nil_of_tokens {s : List Char} {ws : List Word} (h : Words s ws)
    (hts : ws.flatMap Word.tokens = []) : ws = [] := by
  cases ws with
  | nil => rfl
  | cons w ws =>
    obtain ⟨u, t, _, hu, _⟩ := h.exists_of_cons
    rw [List.flatMap_cons, List.append_eq_nil_iff] at hts
    exact absurd hts.1 hu.tokens_ne_nil

end Grammar

namespace Token

theorem readAll_of_read?_eq_some {s rest : List Char} {ts : List Token}
    (h : read? s = some (ts, rest)) :
    readAll s = (ts ++ (readAll rest).1, (readAll rest).2) := by
  rw [readAll]
  split
  · next hnone =>
    rw [hnone] at h
    contradiction
  · next heq =>
    rw [heq, Option.some.injEq, Prod.mk.injEq] at h
    obtain ⟨rfl, rfl⟩ := h
    rfl

theorem apart_of_append {u v rest : List Char} (h : Apart u (v ++ rest)) : Apart u v := by
  cases v with
  | nil => exact apart_nil u
  | cons c v => exact (apart_congr (by simp)).1 h

theorem exists_words_of_readAll (s : List Char) :
    ∃ u ws, s = u ++ (readAll s).2 ∧ Words u ws ∧ (readAll s).1 = ws.flatMap Word.tokens := by
  fun_induction readAll s with
  | case1 s h => exact ⟨[], [], rfl, .nil, rfl⟩
  | case2 s ts rest h _ more rest' hmore ih =>
    rw [hmore] at ih
    obtain ⟨u, w, rfl, hu, rfl, ha⟩ := exists_spells_of_read? h
    obtain ⟨v, ws, hrest, hv, hts⟩ := ih
    refine ⟨u ++ v, w :: ws, ?_, .cons hu hv ?_, ?_⟩
    · rw [List.append_assoc, ← hrest]
    · rw [hrest] at ha
      exact apart_of_append ha
    · rw [List.flatMap_cons, ← hts]

theorem readAll_of_words {s : List Char} {ws : List Word} (h : Words s ws) :
    readAll s = (ws.flatMap Word.tokens, []) := by
  induction ws generalizing s with
  | nil =>
    rw [h.eq_nil, readAll]
    rfl
  | cons w ws ih =>
    obtain ⟨u, t, rfl, hu, ht, ha⟩ := h.exists_of_cons
    rw [readAll_of_read?_eq_some (read?_append hu ha ht.start), ih ht, List.flatMap_cons]

end Token

theorem isFace_iff {c : Char} : isFace c ↔ c ≠ '\x7d' ∧ c ≠ ',' := by
  simp [isFace]

theorem readSides_numbered {u rest : List Char} {n : UInt32} (hu : Count u n)
    (hr : StartsOutside Char.isDigit rest) :
    readSides (u ++ rest) = .ok (.numbered n, rest) := by
  unfold readSides
  rw [count?_eq_some_iff.2 ⟨u, rfl, hu, hr⟩]
  rfl

theorem readSides_faces {labels : List Char} (hne : labels ≠ [])
    (hl : ∀ c ∈ labels, c ≠ '\x7d' ∧ c ≠ ',') (rest : List Char) :
    readSides ('\x7b' :: labels ++ '\x7d' :: rest) =
      .ok (.faces (labels.map Char.toString), rest) := by
  have hall : ∀ c ∈ labels, isFace c := by
    intro c hc
    exact isFace_iff.2 (hl c hc)
  have hr : StartsOutside isFace ('\x7d' :: rest) := startsOutside_cons.2 rfl
  have hcount : count? ('\x7b' :: labels ++ '\x7d' :: rest) = none :=
    count?_eq_none_of_startsOutside (startsOutside_cons.2 rfl)
  unfold readSides
  rw [hcount]
  simp only [List.cons_append, takeWhile_append hall hr, dropWhile_append hall hr]
  rfl

theorem exists_of_readSides {s rest : List Char} {sides : Sides}
    (h : readSides s = .ok (sides, rest)) :
    (∃ u n, s = u ++ rest ∧ Count u n ∧ sides = .numbered n) ∨
      ∃ labels, labels ≠ [] ∧ (∀ c ∈ labels, c ≠ '\x7d' ∧ c ≠ ',') ∧
        s = '\x7b' :: labels ++ '\x7d' :: rest ∧ sides = .faces (labels.map Char.toString) := by
  unfold readSides at h
  split at h
  · next n r hn =>
    obtain ⟨u, rfl, hu, _⟩ := count?_eq_some_iff.1 hn
    simp only [pure, Except.pure, Except.ok.injEq, Prod.mk.injEq] at h
    obtain ⟨rfl, rfl⟩ := h
    exact .inl ⟨u, n, rfl, hu, rfl⟩
  · split at h
    · next t _ =>
      split at h
      · contradiction
      · next r hr hne =>
        simp only [pure, Except.pure, Except.ok.injEq, Prod.mk.injEq] at h
        obtain ⟨rfl, rfl⟩ := h
        refine .inr ⟨t.takeWhile isFace, hne, ?_, ?_, rfl⟩
        · intro c hc
          exact isFace_iff.1 (List.all_eq_true.1 List.all_takeWhile c hc)
        · rw [List.cons_append, ← hr, List.takeWhile_append_dropWhile]
      · contradiction
    · contradiction

theorem readSign_spelling {sign : Sign} {s : List Char} (hs : s.head? ≠ some '-') :
    readSign (sign.spelling ++ s) = (sign, s) := by
  cases sign with
  | add =>
    rw [Sign.spelling, List.nil_append]
    unfold readSign
    split
    · exact absurd rfl hs
    · rfl
  | subtract => rfl

theorem spelling_readSign (s : List Char) : (readSign s).1.spelling ++ (readSign s).2 = s := by
  unfold readSign
  split
  · rfl
  · rfl

theorem readSign_append {q : List Char} {sign : Sign} {quantity : UInt32} (hq : Count q quantity)
    (rest : List Char) : readSign (sign.spelling ++ (q ++ rest)) = (sign, q ++ rest) := by
  apply readSign_spelling
  -- The quantity begins with a digit, which is not taken for a sign.
  cases q with
  | nil => exact absurd rfl (Numeral.ne_nil hq)
  | cons c q =>
    rw [List.cons_append, List.head?_cons, ne_eq, Option.some.injEq]
    rintro rfl
    have := Numeral.isDigit hq '-' (by simp)
    simp [Char.isDigit] at this

theorem count?_append_cons {q : List Char} {d : Char} {quantity : UInt32} (hq : Count q quantity)
    (hd : Letter 'D' d) (rest : List Char) :
    count? (q ++ d :: rest) = some (quantity, d :: rest) := by
  have hdigit : StartsOutside Char.isDigit (d :: rest) := by
    rw [startsOutside_cons]
    obtain rfl | rfl := hd <;> rfl
  exact count?_eq_some_iff.2 ⟨q, rfl, hq, hdigit⟩

theorem readDice_append {q t rest : List Char} {d : Char} {sign : Sign} {quantity : UInt32}
    {sides : Sides} (hq : Count q quantity) (hd : Letter 'D' d)
    (ht : readSides (t ++ rest) = .ok (sides, rest)) :
    readDice (sign.spelling ++ q ++ d :: t ++ rest) = .ok ({ sign, quantity, sides }, rest) := by
  have hcount := count?_append_cons hq hd (t ++ rest)
  have hd : d = 'd' ∨ d = 'D' := hd.symm
  rw [List.append_assoc, List.append_assoc, List.cons_append]
  simp only [readDice, readSign_append hq, hcount, if_pos hd, ht]
  rfl

theorem readDice_braces {q labels rest : List Char} {d : Char} {sign : Sign} {quantity : UInt32}
    (hq : Count q quantity) (hd : Letter 'D' d) (hne : labels ≠ [])
    (hl : ∀ c ∈ labels, c ≠ '\x7d' ∧ c ≠ ',') :
    readDice (sign.spelling ++ q ++ d :: '\x7b' :: labels ++ '\x7d' :: rest) =
      .ok ({ sign, quantity, sides := .faces (labels.map Char.toString) }, rest) := by
  have hdice : readDice (sign.spelling ++ q ++ d :: ('\x7b' :: labels ++ ['\x7d']) ++ rest) =
      .ok ({ sign, quantity, sides := .faces (labels.map Char.toString) }, rest) := by
    apply readDice_append hq hd
    rw [List.append_assoc, List.singleton_append, readSides_faces hne hl]
  rwa [← List.cons_append, ← List.append_assoc, List.append_assoc _ ['\x7d'],
    List.singleton_append] at hdice

theorem append_cons_inj {q q' t t' : List Char} {d d' : Char} {sign sign' : Sign}
    {quantity quantity' : UInt32} (hq : Count q quantity) (hq' : Count q' quantity')
    (hd : Letter 'D' d) (hd' : Letter 'D' d')
    (h : sign.spelling ++ q ++ d :: t = sign'.spelling ++ q' ++ d' :: t') :
    sign = sign' ∧ quantity = quantity' ∧ t = t' := by
  rw [List.append_assoc, List.append_assoc] at h
  have hsign := congrArg readSign h
  rw [readSign_append hq, readSign_append hq', Prod.mk.injEq] at hsign
  obtain ⟨rfl, hrest⟩ := hsign
  have hcount := congrArg count? hrest
  rw [count?_append_cons hq hd, count?_append_cons hq' hd', Option.some.injEq, Prod.mk.injEq]
    at hcount
  exact ⟨rfl, hcount.1, (List.cons.inj hcount.2).2⟩

theorem exists_of_readDice {s rest : List Char} {dice : Dice}
    (h : readDice s = .ok (dice, rest)) :
    ∃ q d t, s = dice.sign.spelling ++ q ++ d :: t ∧ Count q dice.quantity ∧ Letter 'D' d ∧
      readSides t = .ok (dice.sides, rest) := by
  have hsign := spelling_readSign s
  unfold readDice at h
  cases hs : readSign s with
  | mk sign s' =>
    simp only [hs] at h hsign
    split at h
    · contradiction
    · next quantity t hcount =>
      obtain ⟨q, rfl, hq, _⟩ := count?_eq_some_iff.1 hcount
      split at h
      · contradiction
      · next d t _ =>
        split at h
        · next hd =>
          cases hsides : readSides t with
          | error e =>
            rw [hsides] at h
            contradiction
          | ok p =>
            rw [hsides] at h
            cases h
            exact ⟨q, d, t, by rw [← hsign, List.append_assoc], hq, hd.symm, hsides⟩
        · contradiction

/-! ### Dice and tokens together -/

theorem read_of_text {s : List Char} {dice : Dice} {ws : List Word} (h : Text s dice ws) :
    read s = .ok (dice, ws.flatMap Word.tokens) := by
  cases h with
  | numbered hq hd hn ht =>
    have hsides := readSides_numbered hn (isDigit_of_wordStarts ht.start)
    unfold read
    rw [readDice_append hq hd hsides]
    simp only [Except.bind, bind, Token.readAll_of_words ht]
    rfl
  | faces hq hd hne hl =>
    unfold read
    rw [readDice_braces hq hd hne hl]
    simp only [Except.bind, bind, Token.readAll_of_words Words.nil]
    rfl

theorem exists_text_of_read {s : List Char} {dice : Dice} {tokens : List Token}
    (h : read s = .ok (dice, tokens)) (hf : ∀ labels, dice.sides = .faces labels → tokens = []) :
    ∃ ws, Text s dice ws ∧ tokens = ws.flatMap Word.tokens := by
  unfold read at h
  cases hdice : readDice s with
  | error e =>
    rw [hdice] at h
    contradiction
  | ok p =>
    obtain ⟨dice', rest⟩ := p
    obtain ⟨u, ws, hrest, hws, htokens⟩ := Token.exists_words_of_readAll rest
    simp only [hdice, Except.bind, bind] at h
    split at h
    · next ts hts =>
      cases h
      rw [hts, List.append_nil] at hrest
      subst hrest
      rw [hts] at htokens
      refine ⟨ws, ?_, htokens⟩
      obtain ⟨q, d, t, rfl, hq, hd, hsides⟩ := exists_of_readDice hdice
      obtain ⟨sign, quantity, sides⟩ := dice
      obtain ⟨n, m, rfl, hn, rfl⟩ | ⟨labels, hne, hl, rfl, rfl⟩ := exists_of_readSides hsides
      · have htext : Text (sign.spelling ++ q ++ d :: n ++ rest) _ ws := .numbered hq hd hn hws
        rwa [List.append_assoc, List.cons_append] at htext
      · -- Every word has a token, so where there are no tokens there are no words.
        obtain rfl := hws.eq_nil_of_tokens ((hf _ rfl) ▸ htokens).symm
        obtain rfl := hws.eq_nil
        have htext : Text (sign.spelling ++ q ++ d :: '\x7b' :: labels ++ ['\x7d']) _ [] :=
          .faces hq hd hne hl
        rwa [List.append_assoc, List.cons_append] at htext
    · contradiction

end DicePool.Notation
