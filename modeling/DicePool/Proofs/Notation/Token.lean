import DicePool.Proofs.Notation.Term

/-!
This module contains the reading of a single token. What is read is a word of the grammar, and every
word is read as a whole unless what follows it would make a longer word of it.
-/

namespace DicePool.Notation

open Grammar

def Grammar.Burst.modifiers (b : Burst) : List Modifier :=
  (if b.explode then [.explode] else []) ++ b.compound.toList.map .compound ++
    b.penetrate.toList.map .penetrate

def Grammar.Word.tokens : Word → List Token
  | .cap bounds => [.modifier (.cap (Term.condition bounds))]
  | .drop terms => [.modifier (.drop { filter := Term.condition terms })]
  | .reroll terms max => [.modifier (.reroll { trigger := Term.condition terms, max })]
  | .replace rules => [.modifier (.replace rules)]
  | .unique exempt => [.modifier (.unique { notUnique := exempt })]
  | .highest n => [.modifier (.drop { highest := n.getD 1 })]
  | .lowest n => [.modifier (.drop { lowest := n.getD 1 })]
  | .keepHighest n => [.keep { highest := n.getD 1 }]
  | .keepLowest n => [.keep { lowest := n.getD 1 }]
  | .plus n => [.modifier (.plus n)]
  | .minus n => [.modifier (.minus n)]
  | .burst b => b.modifiers.map .modifier

theorem isUpper_iff {c : Char} : c.isUpper ↔ 65 ≤ c.toNat ∧ c.toNat ≤ 90 :=
  decide_eq_true_iff

theorem isDigit_iff {c : Char} : c.isDigit ↔ 48 ≤ c.toNat ∧ c.toNat ≤ 57 := by
  simp [Char.isDigit, UInt32.le_iff_toNat_le]

theorem toNat_toUpper (c : Char) :
    c.toUpper.toNat = if 97 ≤ c.toNat ∧ c.toNat ≤ 122 then c.toNat - 32 else c.toNat := by
  unfold Char.toUpper
  by_cases h : 'a'.val ≤ c.val ∧ c.val ≤ 'z'.val
  · have hc : 97 ≤ c.val.toNat ∧ c.val.toNat ≤ 122 := h
    have hsum : (c.val + ('A'.val - 'a'.val)).toNat = c.val.toNat - 32 := by
      have hshift : ('A'.val - 'a'.val).toNat = 2 ^ 32 - 32 := rfl
      rw [UInt32.toNat_add]
      omega
    rw [dif_pos h]
    exact hsum.trans (if_pos hc).symm
  · rw [dif_neg h]
    exact (if_neg h).symm

theorem toNat_toLower (c : Char) :
    c.toLower.toNat = if 65 ≤ c.toNat ∧ c.toNat ≤ 90 then c.toNat + 32 else c.toNat := by
  unfold Char.toLower
  by_cases h : c.val ≥ 'A'.val ∧ c.val ≤ 'Z'.val
  · have hc : 65 ≤ c.val.toNat ∧ c.val.toNat ≤ 90 := h
    have hsum : (c.val + ('a'.val - 'A'.val)).toNat = c.val.toNat + 32 := by
      have hshift : ('a'.val - 'A'.val).toNat = 32 := rfl
      rw [UInt32.toNat_add]
      omega
    rw [dif_pos h]
    exact hsum.trans (if_pos hc).symm
  · rw [dif_neg h]
    exact (if_neg h).symm

theorem letter_iff_toUpper {u c : Char} (hu : u.isUpper) : Letter u c ↔ c.toUpper = u := by
  rw [isUpper_iff] at hu
  unfold Letter
  rw [← Char.toNat_inj, ← Char.toNat_inj, ← Char.toNat_inj, toNat_toUpper, toNat_toLower]
  split <;> split <;> omega

theorem eq_of_toUpper_eq {u c : Char} (h : c.toUpper = u) (hu : ¬ u.isUpper) : c = u := by
  rw [isUpper_iff] at hu
  rw [← Char.toNat_inj, toNat_toUpper] at h
  rw [← Char.toNat_inj]
  split at h <;> omega

theorem not_letter_of_isDigit {u c : Char} (hc : c.isDigit) (hu : u.isUpper) :
    ¬ Letter u c := by
  rw [letter_iff_toUpper hu, ← Char.toNat_inj, toNat_toUpper]
  rw [isDigit_iff] at hc
  rw [isUpper_iff] at hu
  split <;> omega

def wordStarts : List Char :=
  ['C', 'c', 'D', 'd', 'R', 'r', 'V', 'v', 'U', 'u', 'H', 'h', 'L', 'l', 'K', 'k', '+', '-', '!']

theorem Grammar.Run.marks_pos {k : Nat} {letter : List Char} {m : Option UInt32} {b : Burst}
    (h : Run k letter m b) : 0 < k := by
  cases h <;> omega

theorem Grammar.Spells.exists_start {u : List Char} {w : Word} (h : Spells u w) :
    ∃ c t, u = c :: t ∧ c ∈ wordStarts := by
  cases h with
  | burst hb ht =>
    obtain ⟨k, hk⟩ := Nat.exists_eq_succ_of_ne_zero (Nat.ne_of_gt hb.marks_pos)
    subst hk
    exact ⟨'!', _, rfl, by decide⟩
  | plus hs => exact ⟨'+', _, rfl, by decide⟩
  | minus hs => exact ⟨'-', _, rfl, by decide⟩
  | reroll hc _ _ | cap hc _ | drop hc _ | replace hc _ | unique hc | uniqueExcept hc _
  | highest hc _ | lowest hc _ | keepHighest hc _ | keepLowest hc _ _ =>
    refine ⟨_, _, rfl, ?_⟩
    obtain rfl | rfl := hc <;> decide

theorem Grammar.Run.eq_nil_or {k : Nat} {letter : List Char} {m : Option UInt32} {b : Burst}
    (h : Run k letter m b) : letter = [] ∨ ∃ c, letter = [c] ∧ Letter 'P' c := by
  cases h with
  | explode | compound | explodeCompound => exact .inl rfl
  | penetrate hc | explodePenetrate hc | compoundPenetrate hc | explodeCompoundPenetrate hc =>
    exact .inr ⟨_, rfl, hc⟩

theorem Grammar.Optional.eq_nil_of_marks {s : List Char} {n : Option UInt32}
    (h : Optional Count s n) (hs : ∀ c ∈ s, c = '!') : s = [] := by
  cases h with
  | absent => rfl
  | present hn =>
    cases s with
    | nil => rfl
    | cons c s =>
      have hd := Numeral.isDigit hn c (by simp)
      rw [hs c (by simp)] at hd
      simp [Char.isDigit] at hd

theorem Grammar.Optional.head_append {t rest : List Char} {m : Option UInt32}
    (h : Optional Count t m) {c : Char} (hc : (t ++ rest).head? = some c) :
    c.isDigit ∨ t = [] ∧ rest.head? = some c := by
  cases h with
  | absent => exact .inr ⟨rfl, hc⟩
  | present hn =>
    cases t with
    | nil => exact .inr ⟨rfl, hc⟩
    | cons d t =>
      rw [List.cons_append, List.head?_cons, Option.some.injEq] at hc
      exact .inl (Numeral.isDigit hn c (by simp [hc]))

theorem isDigit_of_wordStarts {rest : List Char} (hr : ∀ c ∈ rest.head?, c ∈ wordStarts) :
    StartsOutside Char.isDigit rest := by
  intro c hc
  have : ∀ c ∈ wordStarts, c.isDigit = false := by simp [wordStarts, Char.isDigit]
  exact this c (hr c hc)

theorem not_letter_of_wordStarts {rest : List Char} (hr : ∀ c ∈ rest.head?, c ∈ wordStarts) :
    ∀ c ∈ rest.head?, ¬ Letter 'P' c := by
  intro c hc
  have hlower : 'P'.toLower = 'p' := rfl
  have : ∀ c ∈ wordStarts, ¬ Letter 'P' c := by simp [wordStarts, Letter, hlower]
  exact this c (hr c hc)

theorem apart_cons {c : Char} {t rest : List Char} (hc : c ≠ '!')
    (hk : t = [] → Letter 'K' c → ∀ l, Letter 'L' l → rest.head? ≠ some l) :
    Apart (c :: t) rest := by
  constructor
  · intro hall
    exact absurd (hall c (by simp)) hc
  · intro k l hK hL heq
    rw [List.cons.injEq] at heq
    rw [← heq.1] at hK
    exact hk heq.2 hK l hL

theorem Grammar.Letter.ne_mark {u c : Char} (hc : Letter u c) (hu : u.isUpper) : c ≠ '!' := by
  rintro rfl
  rw [← (letter_iff_toUpper hu).1 hc] at hu
  exact absurd hu (by decide)

theorem apart_letter {u c : Char} {t rest : List Char} (hc : Letter u c) (hu : u.isUpper)
    (hk : u ≠ 'K') : Apart (c :: t) rest := by
  apply apart_cons (hc.ne_mark hu)
  intro _ hK
  have hup := (letter_iff_toUpper hu).1 hc
  rw [(letter_iff_toUpper rfl).1 hK] at hup
  exact absurd hup.symm hk

theorem apart_burst {k : Nat} {s t rest : List Char} {m : Option UInt32} {b : Burst}
    (hb : Run k s m b) (ht : Optional Count t m)
    (h : s = [] → t = [] → rest.head? ≠ some '!') :
    Apart (List.replicate k '!' ++ s ++ t) rest := by
  constructor
  · intro hall
    apply h
    · obtain hs | ⟨c, rfl, hc⟩ := hb.eq_nil_or
      · exact hs
      · rw [hall c (by simp)] at hc
        exact absurd hc (by decide)
    · apply ht.eq_nil_of_marks
      intro c hc
      exact hall c (by simp [hc])
  · intro c l hc _ heq
    obtain ⟨j, rfl⟩ := Nat.exists_eq_succ_of_ne_zero (Nat.ne_of_gt hb.marks_pos)
    rw [List.replicate_succ, List.cons_append, List.cons_append, List.cons.injEq] at heq
    rw [← heq.1] at hc
    exact absurd hc (by decide)

namespace Token

theorem penetrating_spec (s : List Char) :
    ∃ letter, s = letter ++ (penetrating s).2 ∧
      ((penetrating s).1 = true → ∃ c, letter = [c] ∧ Letter 'P' c) ∧
      ((penetrating s).1 = false → letter = []) := by
  unfold penetrating
  split
  · exact ⟨['p'], rfl, fun _ => ⟨'p', rfl, .inr rfl⟩, by simp⟩
  · exact ⟨['P'], rfl, fun _ => ⟨'P', rfl, .inl rfl⟩, by simp⟩
  · exact ⟨[], rfl, by simp, by simp⟩

theorem penetrating_of_head {s : List Char} (h : ∀ c ∈ s.head?, ¬ Letter 'P' c) :
    penetrating s = (false, s) := by
  unfold penetrating
  split
  · exact absurd (.inr rfl) (h 'p' rfl)
  · exact absurd (.inl rfl) (h 'P' rfl)
  · rfl

theorem exists_run_of_burst? {k : Nat} {p : Bool} {m : Option UInt32} {ms : List Modifier}
    {letter : List Char} (h : burst? k p m = some ms)
    (hp : p = true → ∃ c, letter = [c] ∧ Letter 'P' c) (hn : p = false → letter = []) :
    ∃ b, Run k letter m b ∧ ms = b.modifiers := by
  unfold burst? at h
  split at h
  · split at h
    · next hm =>
      rw [Option.isNone_iff_eq_none.1 hm, hn rfl, ← Option.some.inj h]
      exact ⟨_, .explode, rfl⟩
    · simp at h
  · rw [hn rfl, ← Option.some.inj h]
    exact ⟨_, .compound, rfl⟩
  · rw [hn rfl, ← Option.some.inj h]
    exact ⟨_, .explodeCompound, rfl⟩
  · obtain ⟨c, rfl, hc⟩ := hp rfl
    rw [← Option.some.inj h]
    exact ⟨_, .penetrate hc, rfl⟩
  · obtain ⟨c, rfl, hc⟩ := hp rfl
    rw [← Option.some.inj h]
    exact ⟨_, .explodePenetrate hc, rfl⟩
  · obtain ⟨c, rfl, hc⟩ := hp rfl
    rw [← Option.some.inj h]
    exact ⟨_, .compoundPenetrate hc, rfl⟩
  · obtain ⟨c, rfl, hc⟩ := hp rfl
    rw [← Option.some.inj h]
    exact ⟨_, .explodeCompoundPenetrate hc, rfl⟩
  · simp at h

theorem burst?_of_run {k : Nat} {letter : List Char} {m : Option UInt32} {b : Burst}
    (h : Run k letter m b) : burst? k (!letter.isEmpty) m = some b.modifiers := by
  cases h <;> rfl

theorem run?_marks_append {k : Nat} {s : List Char} (hs : s.head? ≠ some '!') :
    run? (List.replicate k '!' ++ s) =
      (burst? k (penetrating s).1 (optionalCount (penetrating s).2).1).map fun ms =>
        (ms.map .modifier, (optionalCount (penetrating s).2).2) := by
  have hall : ∀ c ∈ List.replicate k '!', (c = '!' : Bool) := by
    intro c hc
    simp [List.eq_of_mem_replicate hc]
  have hs : StartsOutside (· = '!') s := by
    rintro c hc
    rw [decide_eq_false_iff_not]
    rintro rfl
    exact hs hc
  unfold run?
  simp only [takeWhile_append hall hs, dropWhile_append hall hs, List.length_replicate]
  rw [Option.map_eq_bind]
  rfl

theorem marks_append (s : List Char) :
    ∃ k t, s = List.replicate k '!' ++ t ∧ t.head? ≠ some '!' := by
  refine ⟨(s.takeWhile (· = '!')).length, s.dropWhile (· = '!'), ?_, ?_⟩
  · rw [← List.eq_replicate_of_mem, List.takeWhile_append_dropWhile]
    intro c hc
    simpa using List.all_eq_true.1 List.all_takeWhile c hc
  · intro h
    have := startsOutside_dropWhile (· = '!') s '!' h
    simp at this

theorem exists_spells_of_run? {s rest : List Char} {ts : List Token}
    (h : run? s = some (ts, rest)) :
    ∃ u w, s = u ++ rest ∧ Spells u w ∧ ts = w.tokens ∧ Apart u rest := by
  obtain ⟨k, t, rfl, ht⟩ := marks_append s
  rw [run?_marks_append ht, Option.map_eq_some_iff] at h
  obtain ⟨ms, hms, heq⟩ := h
  rw [Prod.mk.injEq] at heq
  obtain ⟨rfl, rfl⟩ := heq
  obtain ⟨letter, hletter, hp, hn⟩ := penetrating_spec t
  obtain ⟨b, hb, rfl⟩ := exists_run_of_burst? hms hp hn
  obtain ⟨digits, hdigits, hm⟩ := exists_of_optionalCount (penetrating t).2
  refine ⟨List.replicate k '!' ++ letter ++ digits, .burst b, ?_, .burst hb hm, rfl, ?_⟩
  · rw [List.append_assoc, List.append_assoc, ← hdigits, ← hletter]
  · apply apart_burst hb hm
    rintro rfl rfl
    rw [List.nil_append] at hletter hdigits
    rwa [← hdigits, ← hletter]

theorem penetrating_append {s tail : List Char} (hs : s = [] ∨ ∃ c, s = [c] ∧ Letter 'P' c)
    (ht : s = [] → ∀ c ∈ tail.head?, ¬ Letter 'P' c) :
    penetrating (s ++ tail) = (!s.isEmpty, tail) := by
  obtain rfl | ⟨c, rfl, rfl | rfl⟩ := hs
  · rw [List.nil_append, penetrating_of_head (ht rfl)]
    rfl
  · rfl
  · rfl

theorem run?_append {k : Nat} {s t rest : List Char} {m : Option UInt32} {b : Burst}
    (hb : Run k s m b) (ht : Optional Count t m)
    (ha : Apart (List.replicate k '!' ++ s ++ t) rest) (hr : ∀ c ∈ rest.head?, ¬ Letter 'P' c)
    (hd : StartsOutside Char.isDigit rest) :
    run? (List.replicate k '!' ++ s ++ t ++ rest) = some (b.modifiers.map .modifier, rest) := by
  have hhead : (s ++ (t ++ rest)).head? ≠ some '!' := by
    obtain rfl | ⟨c, rfl, hc⟩ := hb.eq_nil_or
    · intro h
      obtain hd | ⟨rfl, hd⟩ := ht.head_append h
      · simp [Char.isDigit] at hd
      · apply ha.1
        · simp
        · exact hd
    · rintro h
      rw [List.cons_append, List.head?_cons, Option.some.injEq] at h
      rw [h] at hc
      exact absurd hc (by decide)
  have hp : s = [] → ∀ c ∈ (t ++ rest).head?, ¬ Letter 'P' c := by
    intro _ c hc
    obtain hd | ⟨_, hc⟩ := ht.head_append hc
    · exact not_letter_of_isDigit hd rfl
    · exact hr c hc
  rw [List.append_assoc, List.append_assoc, run?_marks_append hhead,
    penetrating_append hb.eq_nil_or hp, optionalCount_append ht hd, burst?_of_run hb,
    Option.map_some]

/-! ### Words that begin with a letter or a sign -/

theorem read?_cons {c : Char} (hc : c ≠ '!') (s : List Char) :
    read? (c :: s) = (after? c.toUpper s).map fun (t, rest) => ([t], rest) := by
  rw [read?.eq_def]
  split
  · simp_all
  · simp_all
  · simp_all

theorem read?_letter {u c : Char} (hc : Letter u c) (hu : u.isUpper) (s : List Char) :
    read? (c :: s) = (after? u s).map fun (t, rest) => ([t], rest) := by
  rw [read?_cons (hc.ne_mark hu), (letter_iff_toUpper hu).1 hc]

theorem keepAfter_of_head {s : List Char} (h : ∀ l, Letter 'L' l → s.head? ≠ some l) :
    keepAfter s = ({ highest := (optionalCount s).1.getD 1 }, (optionalCount s).2) := by
  unfold keepAfter
  split
  · exact absurd rfl (h 'l' (.inr rfl))
  · exact absurd rfl (h 'L' (.inl rfl))
  · rfl

theorem keepAfter_lowest {l : Char} (hl : Letter 'L' l) (s : List Char) :
    keepAfter (l :: s) = ({ lowest := (optionalCount s).1.getD 1 }, (optionalCount s).2) := by
  obtain rfl | rfl := hl
  · rfl
  · rfl

theorem exists_spells_of_keepAfter {c : Char} (hc : Letter 'K' c) (s : List Char) :
    ∃ u w, c :: s = u ++ (keepAfter s).2 ∧ Spells u w ∧ [.keep (keepAfter s).1] = w.tokens ∧
      Apart u (keepAfter s).2 := by
  have hmark := hc.ne_mark rfl
  by_cases h : ∃ l t, Letter 'L' l ∧ s = l :: t
  · obtain ⟨l, t, hl, rfl⟩ := h
    rw [keepAfter_lowest hl]
    obtain ⟨v, ht, hv⟩ := exists_of_optionalCount t
    refine ⟨c :: l :: v, .keepLowest _, ?_, .keepLowest hc hl hv, rfl, ?_⟩
    · rw [List.cons_append, List.cons_append, ← ht]
    · apply apart_cons hmark
      simp
  · have hs : ∀ l, Letter 'L' l → s.head? ≠ some l := by
      intro l hl heq
      obtain ⟨t, rfl⟩ := List.head?_eq_some_iff.1 heq
      exact h ⟨l, t, hl, rfl⟩
    rw [keepAfter_of_head hs]
    obtain ⟨v, ht, hv⟩ := exists_of_optionalCount s
    refine ⟨c :: v, .keepHighest _, ?_, .keepHighest hc hv, rfl, ?_⟩
    · rw [List.cons_append, ← ht]
    · apply apart_cons hmark
      rintro rfl _ l hl
      rw [List.nil_append] at ht
      rw [← ht]
      exact hs l hl

theorem exists_of_bind_eq_some {α : Type} {x : Option (α × List Char)}
    {read : α × List Char → Option (Token × List Char)} {token : α → Token} {t : Token}
    {rest : List Char} (h : x >>= read = some (t, rest))
    (hread : ∀ a r, read (a, r) = some (token a, r)) : ∃ a, x = some (a, rest) ∧ t = token a := by
  obtain ⟨⟨a, r⟩, hx, ha⟩ := Option.bind_eq_some_iff.1 h
  rw [hread, Option.some.injEq, Prod.mk.injEq] at ha
  obtain ⟨rfl, rfl⟩ := ha
  exact ⟨a, hx, rfl⟩

theorem exists_spells_of_after? {c : Char} {s rest : List Char} {t : Token}
    (h : after? c.toUpper s = some (t, rest)) :
    ∃ u w, c :: s = u ++ rest ∧ Spells u w ∧ [t] = w.tokens ∧ Apart u rest := by
  generalize hu : c.toUpper = u at h
  unfold after? at h
  split at h
  · have hc := (letter_iff_toUpper rfl).2 hu
    obtain ⟨bounds, hb, rfl⟩ := exists_of_bind_eq_some h fun _ _ => rfl
    obtain ⟨v, rfl, hv⟩ := (braced?_eq_some_iff Term.bound?_eq_some_iff Bound.isPartChar).1 hb
    exact ⟨c :: v, _, rfl, .cap hc hv, rfl, apart_letter hc rfl (by decide)⟩
  · have hc := (letter_iff_toUpper rfl).2 hu
    simp only [Option.bind_eq_bind, Option.bind_eq_some_iff, Option.pure_def,
      Option.some.injEq, Prod.mk.injEq, Prod.exists] at h
    obtain ⟨terms, r, hb, rfl, rfl⟩ := h
    obtain ⟨v, rfl, hv⟩ :=
      (braced?_eq_some_iff Term.read?_eq_some_iff Comparison.isPartChar).1 hb
    -- The number after the list is always read as far as its digits go.
    obtain ⟨x, hr, hx⟩ := exists_of_optionalCount r
    refine ⟨c :: v ++ x, _, ?_, .reroll hc hv hx, rfl, apart_letter hc rfl (by decide)⟩
    rw [List.cons_append, List.cons_append, List.append_assoc, ← hr]
  · have hc := (letter_iff_toUpper rfl).2 hu
    obtain ⟨rules, hb, rfl⟩ := exists_of_bind_eq_some h fun _ _ => rfl
    obtain ⟨v, rfl, hv⟩ := (braced?_eq_some_iff replacement?_eq_some_iff Rule.isPartChar).1 hb
    exact ⟨c :: v, _, rfl, .replace hc hv, rfl, apart_letter hc rfl (by decide)⟩
  · have hc := (letter_iff_toUpper rfl).2 hu
    split at h
    · next notUnique r hb =>
      rw [Option.some.injEq, Prod.mk.injEq] at h
      obtain ⟨rfl, rfl⟩ := h
      obtain ⟨v, rfl, hv⟩ := (braced?_eq_some_iff signed?_eq_some_iff Integer.isPartChar).1 hb
      exact ⟨c :: v, _, rfl, .uniqueExcept hc hv, rfl, apart_letter hc rfl (by decide)⟩
    · rw [Option.some.injEq, Prod.mk.injEq] at h
      obtain ⟨rfl, rfl⟩ := h
      exact ⟨[c], _, rfl, .unique hc, rfl, apart_letter hc rfl (by decide)⟩
  · have hc := (letter_iff_toUpper rfl).2 hu
    obtain ⟨v, hs, hv⟩ := exists_of_optionalCount s
    rw [Option.some.injEq, Prod.mk.injEq] at h
    obtain ⟨rfl, rfl⟩ := h
    refine ⟨c :: v, _, ?_, .highest hc hv, rfl, apart_letter hc rfl (by decide)⟩
    rw [List.cons_append, ← hs]
  · have hc := (letter_iff_toUpper rfl).2 hu
    obtain ⟨v, hs, hv⟩ := exists_of_optionalCount s
    rw [Option.some.injEq, Prod.mk.injEq] at h
    obtain ⟨rfl, rfl⟩ := h
    refine ⟨c :: v, _, ?_, .lowest hc hv, rfl, apart_letter hc rfl (by decide)⟩
    rw [List.cons_append, ← hs]
  · have hc := (letter_iff_toUpper rfl).2 hu
    obtain ⟨terms, hb, rfl⟩ := exists_of_bind_eq_some h fun _ _ => rfl
    obtain ⟨v, rfl, hv⟩ :=
      (braced?_eq_some_iff Term.read?_eq_some_iff Comparison.isPartChar).1 hb
    exact ⟨c :: v, _, rfl, .drop hc hv, rfl, apart_letter hc rfl (by decide)⟩
  · rw [Option.some.injEq, Prod.mk.injEq] at h
    obtain ⟨rfl, rfl⟩ := h
    exact exists_spells_of_keepAfter ((letter_iff_toUpper rfl).2 hu) s
  · obtain rfl := eq_of_toUpper_eq hu (by decide)
    obtain ⟨n, hn, rfl⟩ := exists_of_bind_eq_some h fun _ _ => rfl
    obtain ⟨v, rfl, hv, _⟩ := natural?_eq_some_iff.1 hn
    exact ⟨'+' :: v, _, rfl, .plus hv, rfl, apart_cons (by decide) (by simp [Letter])⟩
  · obtain rfl := eq_of_toUpper_eq hu (by decide)
    obtain ⟨n, hn, rfl⟩ := exists_of_bind_eq_some h fun _ _ => rfl
    obtain ⟨v, rfl, hv, _⟩ := natural?_eq_some_iff.1 hn
    exact ⟨'-' :: v, _, rfl, .minus hv, rfl, apart_cons (by decide) (by simp [Letter])⟩
  · simp at h

theorem exists_spells_of_read? {s rest : List Char} {ts : List Token}
    (h : read? s = some (ts, rest)) :
    ∃ u w, s = u ++ rest ∧ Spells u w ∧ ts = w.tokens ∧ Apart u rest := by
  unfold read? at h
  split at h
  · exact exists_spells_of_run? h
  · rw [Option.map_eq_some_iff] at h
    obtain ⟨⟨t, r⟩, ht, heq⟩ := h
    rw [Prod.mk.injEq] at heq
    obtain ⟨rfl, rfl⟩ := heq
    exact exists_spells_of_after? ht
  · simp at h

theorem braced?_eq_none {α : Type} {item? : List Char → Option α} {s : List Char}
    (h : s.head? ≠ some '\x7b') : braced? item? s = none := by
  unfold braced?
  split
  · exact absurd rfl h
  · rfl

theorem keepAfter_append {s rest : List Char} {n : Option UInt32} (hs : Optional Count s n)
    (hr : ∀ c ∈ rest.head?, c ∈ wordStarts)
    (ha : s = [] → ∀ l, Letter 'L' l → rest.head? ≠ some l) :
    keepAfter (s ++ rest) = ({ highest := n.getD 1 }, rest) := by
  rw [keepAfter_of_head, optionalCount_append hs (isDigit_of_wordStarts hr)]
  intro l hl heq
  obtain hd | ⟨hs, hd⟩ := hs.head_append heq
  · exact not_letter_of_isDigit hd rfl hl
  · exact ha hs l hl hd

theorem read?_append {u rest : List Char} {w : Word} (h : Spells u w) (ha : Apart u rest)
    (hr : ∀ c ∈ rest.head?, c ∈ wordStarts) : read? (u ++ rest) = some (w.tokens, rest) := by
  have hdigit := isDigit_of_wordStarts hr
  cases h with
  | cap hc hs =>
    rw [List.cons_append, read?_letter hc rfl]
    simp only [after?,
      (braced?_eq_some_iff Term.bound?_eq_some_iff Bound.isPartChar).2 ⟨_, rfl, hs⟩]
    rfl
  | drop hc hs =>
    rw [List.cons_append, read?_letter hc rfl]
    simp only [after?,
      (braced?_eq_some_iff Term.read?_eq_some_iff Comparison.isPartChar).2 ⟨_, rfl, hs⟩]
    rfl
  | reroll hc hs ht =>
    rw [List.cons_append, List.cons_append, List.append_assoc, read?_letter hc rfl]
    simp only [after?,
      (braced?_eq_some_iff Term.read?_eq_some_iff Comparison.isPartChar).2 ⟨_, rfl, hs⟩,
      Option.bind_eq_bind, Option.bind_some, optionalCount_append ht hdigit]
    rfl
  | replace hc hs =>
    rw [List.cons_append, read?_letter hc rfl]
    simp only [after?,
      (braced?_eq_some_iff replacement?_eq_some_iff Rule.isPartChar).2 ⟨_, rfl, hs⟩]
    rfl
  | unique hc =>
    -- No word begins with a brace either: a list after a `U` belongs to it.
    have hbrace : rest.head? ≠ some '\x7b' := by
      intro h
      exact absurd (hr _ h) (by decide)
    rw [List.cons_append, List.nil_append, read?_letter hc rfl]
    simp only [after?, braced?_eq_none hbrace]
    rfl
  | uniqueExcept hc hs =>
    rw [List.cons_append, read?_letter hc rfl]
    simp only [after?,
      (braced?_eq_some_iff signed?_eq_some_iff Integer.isPartChar).2 ⟨_, rfl, hs⟩]
    rfl
  | highest hc hs | lowest hc hs =>
    rw [List.cons_append, read?_letter hc rfl]
    simp only [after?, optionalCount_append hs hdigit]
    rfl
  | keepHighest hc hs =>
    have hkeep := keepAfter_append hs hr fun h l hl => ha.2 _ l hc hl (by rw [h])
    rw [List.cons_append, read?_letter hc rfl]
    simp only [after?, hkeep]
    rfl
  | keepLowest hc hl hs =>
    rw [List.cons_append, List.cons_append, read?_letter hc rfl]
    simp only [after?, keepAfter_lowest hl, optionalCount_append hs hdigit]
    rfl
  | plus hs =>
    rw [List.cons_append, read?_cons (by decide)]
    have := natural?_eq_some_iff.2 ⟨_, rfl, hs, hdigit⟩
    simp only [Char.reduceToUpper, after?, this]
    rfl
  | minus hs =>
    rw [List.cons_append, read?_cons (by decide)]
    have := natural?_eq_some_iff.2 ⟨_, rfl, hs, hdigit⟩
    simp only [Char.reduceToUpper, after?, this]
    rfl
  | burst hb ht =>
    have hrun := run?_append hb ht ha (not_letter_of_wordStarts hr) hdigit
    obtain ⟨j, rfl⟩ := Nat.exists_eq_succ_of_ne_zero (Nat.ne_of_gt hb.marks_pos)
    exact hrun

end Token

end DicePool.Notation
