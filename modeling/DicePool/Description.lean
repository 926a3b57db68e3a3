import DicePool.PoolSpec
import DicePool.Text.Decimal

/-!
This module contains the description of pools in English: one line for the dice, then the lines of
each modifier.
-/

namespace DicePool

namespace Description

def int (n : Int64) : String :=
  .ofList (Text.Decimal.ofInt n.toInt)

def count (n : UInt32) : String :=
  .ofList (Text.Decimal.ofNat n.toNat)

def bracketed (n : Int64) : String :=
  "[" ++ int n ++ "]"

def values : List Int64 → String
  | [] => ""
  | [v] => bracketed v
  | [v, w] => bracketed v ++ " and " ++ bracketed w
  | v :: w :: vs => bracketed v ++ ", " ++ values (w :: vs)

def counted (effect : String) : Option UInt32 → List String
  | none => []
  | some n => if n = 1 then [effect] else [effect ++ " " ++ count n]

end Description

open Description (int bracketed values counted)

def Condition.describe (c : Condition) : List String :=
  (if c.exact.isEmpty then [] else [values c.exact]) ++
    (c.greaterThan.toList.map fun bound => "greater than " ++ bracketed bound) ++
    (c.lessThan.toList.map fun bound => "less than " ++ bracketed bound)

def Drop.describe (d : Drop) : List String :=
  counted "Drop highest" d.highest ++ counted "Drop lowest" d.lowest ++
    d.filter.describe.map ("Drop " ++ ·)

def Replacement.describe (r : Replacement) : String :=
  let target := match r.target with
    | .exact value => bracketed value
    | .condition c => " or ".intercalate c.describe
  "Replace " ++ target ++ " with " ++ bracketed r.value

def Reroll.describe (r : Reroll) : List String :=
  r.trigger.describe.map ("Reroll " ++ ·) ++
    r.max.toList.map fun max => "Reroll at most " ++ Description.count max ++ " dice"

def Depth.describe (d : Depth) (dice : String) : String :=
  if d.isUnlimited then dice else dice ++ " (up to " ++ Description.count d.draws ++ " times)"

def Unique.describe (u : Unique) : String :=
  if u.notUnique.isEmpty then "No Duplicate Rolls"
  else "No Duplicates (except " ++ values u.notUnique ++ ")"

namespace Modifier

def describe : Modifier → List String
  | .cap bounds =>
    (bounds.greaterThan.toList.map fun bound => "No Rolls greater than " ++ bracketed bound) ++
      (bounds.lessThan.toList.map fun bound => "No Rolls less than " ++ bracketed bound)
  | .drop d => d.describe
  | .replace rules => rules.map Replacement.describe
  | .reroll r => r.describe
  | .explode => ["Exploding Dice"]
  | .compound depth => [depth.describe "Compounding Dice"]
  | .penetrate depth => [depth.describe "Penetrating Dice"]
  | .unique u => [u.describe]
  | .plus value => ["Add " ++ int value]
  | .minus value => ["Subtract " ++ int value]

end Modifier

namespace PoolSpec

def describeDice (spec : PoolSpec) : String :=
  let quantity := "Roll " ++ Description.count spec.quantity
  let dice := if spec.quantity = 1 then "die" else "dice"
  match spec.sides with
  | .numbered n => quantity ++ " " ++ Description.count n ++ "-sided " ++ dice
  | .faces faces =>
    quantity ++ " " ++ dice ++ " with the following sides: " ++ ", ".intercalate faces

def describe (spec : PoolSpec) : List String :=
  spec.describeDice :: spec.modifiers.toList.flatMap Modifier.describe ++
    match spec.sign with
    | .add => []
    | .subtract => ["Subtract the total"]

end PoolSpec

end DicePool
