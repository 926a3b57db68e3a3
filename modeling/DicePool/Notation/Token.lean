import DicePool.Notation.Term

/-!
This module contains the tokens that follow the dice in notation, each of which stands for one
modifier or, in a run of exclamation marks, for several. Letters may be of either case, and nothing
is skipped between tokens.
-/

namespace DicePool.Notation

inductive Token where
  | modifier (m : Modifier)
  | keep (k : Keep)
deriving DecidableEq, Repr

namespace Token

/--
The modifiers that a run of exclamation marks stands for. `penetrating` tells whether the letter `p`
follows the run, and `draws` is the number after that. A run is made up of `!` for exploding, `!!`
for compounding and `!p` for penetrating dice, each at most once and in this order. The number
belongs to the last of them, and exploding dice take none.
-/
def burst? (marks : Nat) (penetrating : Bool) (draws : Option UInt32) : Option (List Modifier) :=
  let depth : Depth := ⟨draws.getD 0⟩
  match marks, penetrating with
  | 1, false => if draws.isNone then some [.explode] else none
  | 2, false => some [.compound depth]
  | 3, false => some [.explode, .compound depth]
  | 1, true => some [.penetrate depth]
  | 2, true => some [.explode, .penetrate depth]
  | 3, true => some [.compound .unlimited, .penetrate depth]
  | 4, true => some [.explode, .compound .unlimited, .penetrate depth]
  | _, _ => none

def penetrating : List Char → Bool × List Char
  | 'p' :: s => (true, s)
  | 'P' :: s => (true, s)
  | s => (false, s)

def run? (s : List Char) : Option (List Token × List Char) := do
  let marks := s.takeWhile (· = '!')
  let (p, rest) := penetrating (s.dropWhile (· = '!'))
  let (draws, rest) := optionalCount rest
  let modifiers ← burst? marks.length p draws
  return (modifiers.map .modifier, rest)

/--
Read the rest of a token for the dice to keep: `K` keeps the highest and `KL` the lowest, one of
them if no number follows.
-/
def keepAfter (s : List Char) : Keep × List Char :=
  match s with
  | 'l' :: s => lowest s
  | 'L' :: s => lowest s
  | s =>
    let (n, rest) := optionalCount s
    ({ highest := n.getD 1 }, rest)
where
  lowest (s : List Char) : Keep × List Char :=
    let (n, rest) := optionalCount s
    ({ lowest := n.getD 1 }, rest)

def after? (c : Char) (s : List Char) : Option (Token × List Char) :=
  match c with
  | 'C' => do
    let (bounds, rest) ← braced? Term.bound? s
    return (.modifier (.cap (Term.condition bounds)), rest)
  | 'R' => do
    let (terms, rest) ← braced? Term.read? s
    let (max, rest) := optionalCount rest
    return (.modifier (.reroll { trigger := Term.condition terms, max }), rest)
  | 'V' => do
    let (rules, rest) ← braced? replacement? s
    return (.modifier (.replace rules), rest)
  | 'U' =>
    match braced? signed? s with
    | some (notUnique, rest) => some (.modifier (.unique { notUnique }), rest)
    | none => some (.modifier (.unique {}), s)
  | 'H' =>
    let (n, rest) := optionalCount s
    some (.modifier (.drop { highest := n.getD 1 }), rest)
  | 'L' =>
    let (n, rest) := optionalCount s
    some (.modifier (.drop { lowest := n.getD 1 }), rest)
  | 'D' => do
    let (terms, rest) ← braced? Term.read? s
    return (.modifier (.drop { filter := Term.condition terms }), rest)
  | 'K' =>
    let (k, rest) := keepAfter s
    some (.keep k, rest)
  | '+' => do
    let (n, rest) ← natural? s
    return (.modifier (.plus n), rest)
  | '-' => do
    let (n, rest) ← natural? s
    return (.modifier (.minus n), rest)
  | _ => none

def read? : List Char → Option (List Token × List Char)
  | '!' :: s => run? ('!' :: s)
  | c :: s => (after? c.toUpper s).map fun (t, rest) => ([t], rest)
  | [] => none

theorem length_penetrating_le (s : List Char) : (penetrating s).2.length ≤ s.length := by
  unfold penetrating
  split <;> simp

theorem length_lt_of_run? {s rest : List Char} {ts : List Token}
    (h : run? ('!' :: s) = some (ts, rest)) : rest.length < ('!' :: s).length := by
  simp only [run?, Option.bind_eq_bind, Option.bind_eq_some_iff, Option.pure_def, Option.some.injEq,
    Prod.mk.injEq] at h
  obtain ⟨_, _, _, rfl⟩ := h
  have h₁ := length_optionalCount_le (penetrating (('!' :: s).dropWhile (· = '!'))).2
  have h₂ := length_penetrating_le (('!' :: s).dropWhile (· = '!'))
  have h₃ := length_dropWhile_le (· = '!') s
  simp only [List.dropWhile_cons, List.length_cons] at h₁ h₂ h₃ ⊢
  simp only [decide_true, ↓reduceIte] at h₁ h₂ ⊢
  omega

theorem length_keepAfter_le (s : List Char) : (keepAfter s).2.length ≤ s.length := by
  unfold keepAfter
  split
  · next s => exact Nat.le_succ_of_le (length_optionalCount_le s)
  · next s => exact Nat.le_succ_of_le (length_optionalCount_le s)
  · exact length_optionalCount_le _

theorem length_le_of_after? {c : Char} {s rest : List Char} {t : Token}
    (h : after? c s = some (t, rest)) : rest.length ≤ s.length := by
  unfold after? at h
  split at h <;>
    grind [→ length_lt_of_braced?, → length_le_of_natural?, length_optionalCount_le,
      length_keepAfter_le, Option.bind_eq_bind, Option.bind_eq_some_iff, Option.pure_def]

theorem length_lt_of_read? {s rest : List Char} {ts : List Token}
    (h : read? s = some (ts, rest)) : rest.length < s.length := by
  unfold read? at h
  split at h
  · exact length_lt_of_run? h
  · obtain ⟨⟨_, _⟩, ha, heq⟩ := Option.map_eq_some_iff.1 h
    simp only [Prod.mk.injEq] at heq
    have := length_le_of_after? ha
    simp [← heq.2]
    omega
  · simp at h

def readAll (s : List Char) : List Token × List Char :=
  match h : read? s with
  | none => ([], s)
  | some (ts, rest) =>
    have := length_lt_of_read? h
    let (more, rest) := readAll rest
    (ts ++ more, rest)
termination_by s.length

end Token

end DicePool.Notation
