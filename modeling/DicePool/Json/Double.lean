/-!
This module contains the doubles that decimal numbers stand for: the significand is rounded to a
double first, and then scaled by a power of ten in double arithmetic. The power is taken in one
step where doubles reach it, so that numbers of few digits lose nothing but the last rounding.
-/

namespace DicePool.Json.Double

def maxExponent : Nat := 308

def pow10 (n : Nat) : Float :=
  .ofScientific 1 false n

def shrink (f : Float) (n : Nat) : Float :=
  if n ≤ maxExponent then f / pow10 n
  else if f == 0 then f
  else shrink (f / pow10 maxExponent) (n - maxExponent)
termination_by n
decreasing_by
  have : maxExponent = 308 := rfl
  omega

def ofDecimal? (digits : Nat) (exponent : Int) : Option Float :=
  let f := Float.ofNat digits
  match exponent with
  | .negSucc n => some (shrink f (n + 1))
  | .ofNat n =>
    if digits = 0 then some f
    else if n ≤ maxExponent ∧ (f * pow10 n).isFinite then some (f * pow10 n)
    else none

end DicePool.Json.Double
