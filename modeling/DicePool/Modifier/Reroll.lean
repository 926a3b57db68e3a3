import DicePool.Condition

/-!
This module contains the modifier that rolls dice again.
-/

namespace DicePool

def maxDrawsPerDie : Nat := 99

structure Reroll where
  trigger : Condition := {}
  max : Option UInt32 := none
deriving DecidableEq, Repr, Inhabited

namespace Reroll

variable {σ : Type}

def merge (r other : Reroll) : Reroll where
  trigger := r.trigger.merge other.trigger
  max := other.max <|> r.max

def redraw (trigger : Condition) (draw : StateM σ Int64) : Nat → StateM σ Int64
  | 0 => draw
  | retries + 1 => do
    let value ← draw
    if trigger.holds value then redraw trigger draw retries else return value

def applyWithin (trigger : Condition) (draw : StateM σ Int64) (quota : Option Nat) :
    List Int64 → StateM σ (List Int64)
  | [] => return []
  | value :: rolls =>
    if trigger.holds value ∧ quota ≠ some 0 then do
      let value ← redraw trigger draw (maxDrawsPerDie - 1)
      let rolls ← applyWithin trigger draw (quota.map (· - 1)) rolls
      return value :: rolls
    else do
      let rolls ← applyWithin trigger draw quota rolls
      return value :: rolls

def apply (r : Reroll) (draw : StateM σ Int64) (rolls : List Int64) : StateM σ (List Int64) :=
  applyWithin r.trigger draw (r.max.map UInt32.toNat) rolls

end Reroll

end DicePool
