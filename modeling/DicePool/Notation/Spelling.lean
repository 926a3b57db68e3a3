import DicePool.Notation.Reader
import DicePool.Text.Decimal

/-!
This module contains the spelling of modifiers and dice in notation, the counterpart of the reader.
Every value has one spelling, which leaves out what is understood without it.
-/

namespace DicePool

open Text (Decimal.ofNat Decimal.ofInt)

def Notation.int (n : Int64) : List Char :=
  Decimal.ofInt n.toInt

def Notation.count (n : UInt32) : List Char :=
  Decimal.ofNat n.toNat

def Notation.braces (items : List (List Char)) : List Char :=
  '\x7b' :: [','].intercalate items ++ ['\x7d']

open Notation (int count braces)

def Condition.terms (c : Condition) : List (List Char) :=
  c.exact.map int ++ (c.greaterThan.toList.map fun bound => '>' :: int bound) ++
    (c.lessThan.toList.map fun bound => '<' :: int bound)

def Notation.listed (letter : Char) (terms : List (List Char)) : List Char :=
  match terms with
  | [] => []
  | _ :: _ => letter :: braces terms

open Notation (listed)

def Notation.counted (letter : Char) : Option UInt32 → List Char
  | none => []
  | some n => if n = 1 then [letter] else letter :: count n

open Notation (counted)

def Drop.spelling (d : Drop) : List Char :=
  counted 'H' d.highest ++ counted 'L' d.lowest ++ listed 'D' d.filter.terms

def Replacement.terms (r : Replacement) : List (List Char) :=
  match r.target with
  | .exact value => [int value ++ '=' :: int r.value]
  | .condition c => c.terms.map fun term => term ++ '=' :: int r.value

def Reroll.spelling (r : Reroll) : List Char :=
  match listed 'R' r.trigger.terms with
  | [] => []
  | cs => cs ++ r.max.elim [] count

def Depth.spelling (d : Depth) : List Char :=
  if d.isUnlimited then [] else count d.draws

def Unique.spelling (u : Unique) : List Char :=
  match u.notUnique with
  | [] => ['U']
  | values => 'U' :: braces (values.map int)

namespace Modifier

def spelling : Modifier → List Char
  | .cap bounds => listed 'C' { bounds with exact := [] }.terms
  | .drop d => d.spelling
  | .replace rules => listed 'V' (rules.flatMap Replacement.terms)
  | .reroll r => r.spelling
  | .explode => ['!']
  | .compound depth => '!' :: '!' :: depth.spelling
  | .penetrate depth => '!' :: 'p' :: depth.spelling
  | .unique u => u.spelling
  | .plus value => '+' :: int value
  | .minus value => '-' :: int value

end Modifier

def Sign.spelling : Sign → List Char
  | .add => []
  | .subtract => ['-']

def Sides.faceChar? (face : String) : Option Char :=
  match face.toList with
  | [c] => if Notation.isFace c then some c else none
  | _ => none

/--
The sides of a die in notation. Faces are written one after the other where all of them can be
written as they are. Others are listed with commas, which names the die but cannot be read.
-/
def Sides.spelling : Sides → List Char
  | .numbered n => count n
  | .faces labels =>
    match labels.mapM faceChar? with
    | some cs => '\x7b' :: cs ++ ['\x7d']
    | none => braces (labels.map String.toList)

namespace PoolSpec

def spelling (spec : PoolSpec) : List Char :=
  spec.sign.spelling ++ count spec.quantity ++ 'd' :: spec.sides.spelling ++
    spec.modifiers.toList.flatMap Modifier.spelling

end PoolSpec

end DicePool
