import DicePool.Bounded
import DicePool.Modifier.Basic
import DicePool.Text.Decimal

/-!
This module contains the parts of notation that stand between braces: integers, bounds and
replacements. They hold neither commas nor closing braces, so a list in braces is first cut at its
commas, and each of its parts is read as a whole.
-/

namespace DicePool.Notation

open Text (Decimal.value? Decimal.signedValue?)

def signed? (s : List Char) : Option Int64 :=
  (Decimal.signedValue? s).bind Bounded.int64?

inductive Term where
  | exact (value : Int64)
  | greaterThan (bound : Int64)
  | lessThan (bound : Int64)
deriving DecidableEq, Repr

namespace Term

def bound? : List Char → Option Term
  | '>' :: s => (signed? s).map .greaterThan
  | '<' :: s => (signed? s).map .lessThan
  | _ => none

def read? (s : List Char) : Option Term :=
  bound? s <|> (signed? s).map .exact

def addTo (c : Condition) : Term → Condition
  | .exact value => c.merge (.oneOf [value])
  | .greaterThan bound => { c with greaterThan := bound }
  | .lessThan bound => { c with lessThan := bound }

def condition (terms : List Term) : Condition :=
  terms.foldl addTo {}

def target : Term → Replacement.Target
  | .exact value => .exact value
  | .greaterThan bound => .condition (.above bound)
  | .lessThan bound => .condition (.below bound)

@[simp]
theorem condition_append (xs ys : List Term) :
    condition (xs ++ ys) = ys.foldl addTo (condition xs) := by
  simp [condition]

end Term

def replacement? (s : List Char) : Option Replacement :=
  match s.dropWhile (· ≠ '=') with
  | _ :: value => do
    let term ← Term.read? (s.takeWhile (· ≠ '='))
    let value ← signed? value
    return { target := term.target, value }
  | [] => none

def braced? (item? : List Char → Option α) : List Char → Option (List α × List Char)
  | '\x7b' :: s =>
    match s.dropWhile (· ≠ '\x7d') with
    | _ :: rest => do
      let items ← ((s.takeWhile (· ≠ '\x7d')).splitOn ',').mapM item?
      return (items, rest)
    | [] => none
  | _ => none

def count? (s : List Char) : Option (UInt32 × List Char) := do
  let n ← Decimal.value? (s.takeWhile Char.isDigit)
  let n ← Bounded.uint32? n
  return (n, s.dropWhile Char.isDigit)

/--
Read a count that may be missing. Digits that 32 bits do not hold are not a count and are left in
the text.
-/
def optionalCount (s : List Char) : Option UInt32 × List Char :=
  match count? s with
  | some (n, rest) => (some n, rest)
  | none => (none, s)

def natural? (s : List Char) : Option (Int64 × List Char) := do
  let n ← Decimal.value? (s.takeWhile Char.isDigit)
  let n ← Bounded.int64? n
  return (n, s.dropWhile Char.isDigit)

theorem length_dropWhile_le (p : Char → Bool) (s : List Char) :
    (s.dropWhile p).length ≤ s.length :=
  (List.dropWhile_sublist p).length_le

theorem length_le_of_count? {s rest : List Char} {n : UInt32} (h : count? s = some (n, rest)) :
    rest.length ≤ s.length := by
  simp only [count?, Option.bind_eq_bind, Option.bind_eq_some_iff, Option.pure_def,
    Option.some.injEq, Prod.mk.injEq] at h
  obtain ⟨_, _, _, _, _, rfl⟩ := h
  exact length_dropWhile_le ..

theorem length_optionalCount_le (s : List Char) : (optionalCount s).2.length ≤ s.length := by
  unfold optionalCount
  split
  · next h => exact length_le_of_count? h
  · simp

theorem length_le_of_natural? {s rest : List Char} {n : Int64} (h : natural? s = some (n, rest)) :
    rest.length ≤ s.length := by
  simp only [natural?, Option.bind_eq_bind, Option.bind_eq_some_iff, Option.pure_def,
    Option.some.injEq, Prod.mk.injEq] at h
  obtain ⟨_, _, _, _, _, rfl⟩ := h
  exact length_dropWhile_le ..

theorem length_lt_of_braced? {item? : List Char → Option α} {s rest : List Char} {items : List α}
    (h : braced? item? s = some (items, rest)) : rest.length < s.length := by
  unfold braced? at h
  split at h
  · next s =>
    have hs := length_dropWhile_le (· ≠ '\x7d') s
    split at h
    · next heq =>
      rw [heq] at hs
      simp only [Option.bind_eq_bind, Option.bind_eq_some_iff, Option.pure_def, Option.some.injEq,
        Prod.mk.injEq] at h
      obtain ⟨_, _, _, rfl⟩ := h
      simp at hs ⊢
      omega
    · simp at h
  · simp at h

end DicePool.Notation
