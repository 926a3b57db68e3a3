/-!
This module contains decimal numerals as lists of characters: how numbers are written and what
numerals are worth. Only the ASCII digits count as digits. The main statements are `value?_ofNat`
and `signedValue?_ofInt`, which say that what is written is read back.
-/

namespace DicePool.Text.Decimal

def ofNat (n : Nat) : List Char :=
  Nat.toDigits 10 n

def ofInt : Int → List Char
  | .ofNat n => ofNat n
  | .negSucc n => '-' :: ofNat (n + 1)

def value? (s : List Char) : Option Nat :=
  if s ≠ [] ∧ s.all Char.isDigit then some (Nat.ofDigitChars 10 s 0) else none

def signedValue? : List Char → Option Int
  | '-' :: s => (value? s).map fun n => -(n : Int)
  | s => (value? s).map Int.ofNat

theorem all_isDigit_ofNat (n : Nat) : (ofNat n).all Char.isDigit :=
  List.all_eq_true.2 fun _ h => Nat.isDigit_of_mem_toDigits (by decide) (by decide) h

theorem ofNat_ne_nil (n : Nat) : ofNat n ≠ [] :=
  Nat.toDigits_ne_nil

@[simp]
theorem value?_nil : value? [] = none := rfl

@[simp]
theorem value?_ofNat (n : Nat) : value? (ofNat n) = some n := by
  rw [value?, if_pos ⟨ofNat_ne_nil n, all_isDigit_ofNat n⟩, ofNat,
    Nat.ofDigitChars_toDigits (by decide) (by decide)]

theorem signedValue?_eq_of_head_ne {s : List Char} (h : s.head? ≠ some '-') :
    signedValue? s = (value? s).map Int.ofNat := by
  unfold signedValue?
  split
  · simp at h
  · rfl

@[simp]
theorem signedValue?_ofInt (n : Int) : signedValue? (ofInt n) = some n := by
  cases n with
  | ofNat n =>
    rw [ofInt, signedValue?_eq_of_head_ne]
    · simp
    · intro h
      have := List.all_eq_true.1 (all_isDigit_ofNat n) '-' (List.mem_of_head? h)
      simp [Char.isDigit] at this
  | negSucc n =>
    rw [ofInt, signedValue?, value?_ofNat]
    rfl

end DicePool.Text.Decimal
