import DicePool.Bounded
import DicePool.Modifier.Basic

/-!
This module contains the tally of a pool while its modifiers are applied one after the other, and
the log that each of them leaves behind: the difference of the rolls before and after it, counted
by value.
-/

namespace DicePool

def ascendingDifference : (before after : List Int64) → List Int64 × List Int64
  | [], after => (after, [])
  | before, [] => ([], before)
  | x :: before, y :: after =>
    if x = y then
      ascendingDifference before after
    else if x < y then
      let (added, removed) := ascendingDifference before (y :: after)
      (added, x :: removed)
    else
      let (added, removed) := ascendingDifference (x :: before) after
      (y :: added, removed)
termination_by before after => before.length + after.length

def difference (before after : List Int64) : List Int64 × List Int64 :=
  ascendingDifference before.mergeSort after.mergeSort

structure StageLog where
  kind : Kind
  modifier : Modifier
  added : List Int64
  removed : List Int64
deriving DecidableEq, Repr

namespace StageLog

def ofRolls (modifier : Modifier) (before after : List Int64) : StageLog :=
  let (added, removed) := difference before after
  { kind := modifier.kind, modifier, added, removed }

def isNoop (log : StageLog) : Bool :=
  log.added.isEmpty && log.removed.isEmpty

end StageLog

structure Tally where
  rolls : List Int64
  bonus : Int64 := 0
  logs : List StageLog := []
deriving DecidableEq, Repr

namespace Tally

def total (t : Tally) : Int64 :=
  Bounded.add (Bounded.sum t.rolls) t.bonus

end Tally

/--
Put a value that lies outside of the bounds on the nearest one. The upper bound is looked at first.
-/
def capRoll (bounds : Condition) (value : Int64) : Int64 :=
  match bounds.greaterThan.filter (· < value), bounds.lessThan.filter (value < ·) with
  | some upper, _ => upper
  | none, some lower => lower
  | none, none => value

namespace Modifier

variable {σ : Type}

def rolls (m : Modifier) (sides quantity : UInt32) (draw : StateM σ Int64) (rolls : List Int64) :
    ExceptT RollError (StateM σ) (List Int64) :=
  match m with
  | .cap bounds => return rolls.map (capRoll bounds)
  | .drop d => return d.apply rolls
  | .replace rules => return Replacement.applyAll rules rolls
  | .reroll r => r.apply draw rolls
  | .explode => Burst.explode sides draw rolls
  | .compound depth => Burst.compound depth sides draw rolls
  | .penetrate depth => Burst.penetrate depth sides draw rolls
  | .unique u => do
    u.check quantity sides
    u.apply draw rolls
  | .plus _ => return rolls
  | .minus _ => return rolls

def bonus (m : Modifier) (bonus : Int64) : Int64 :=
  match m with
  | .plus value => Bounded.add bonus value
  | .minus value => Bounded.sub bonus value
  | _ => bonus

def apply (m : Modifier) (sides quantity : UInt32) (draw : StateM σ Int64) (t : Tally) :
    ExceptT RollError (StateM σ) Tally := do
  let rolls ← m.rolls sides quantity draw t.rolls
  return {
    rolls
    bonus := m.bonus t.bonus
    logs := t.logs ++ [.ofRolls m t.rolls rolls]
  }

end Modifier

namespace ModifierSet

variable {σ : Type}

def apply (m : ModifierSet) (sides quantity : UInt32) (draw : StateM σ Int64)
    (rolls : List Int64) : ExceptT RollError (StateM σ) Tally :=
  m.toList.foldlM (fun t modifier => modifier.apply sides quantity draw t) { rolls }

end ModifierSet

end DicePool
