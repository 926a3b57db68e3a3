import DicePool.Draw
import DicePool.Modifier.Reroll

/-!
This module contains the three modifiers that reward a die for showing its highest face. Exploding
adds new dice to the pool, compounding and penetrating let the die itself grow.
-/

namespace DicePool

/--
How many draws a growing die may take. A depth of 0 sets no limit of its own.
-/
structure Depth where
  draws : UInt32
deriving DecidableEq, Repr, Inhabited

namespace Depth

def unlimited : Depth := ⟨0⟩

def isUnlimited (d : Depth) : Bool :=
  d.draws == 0

def limit (d : Depth) : Nat :=
  if d.isUnlimited then maxDrawsPerDie else min d.draws.toNat maxDrawsPerDie

theorem limit_le (d : Depth) : d.limit ≤ maxDrawsPerDie := by
  unfold limit
  split <;> omega

end Depth

namespace Burst

variable {σ : Type}

def top (sides : UInt32) : Int64 :=
  .ofNat sides.toNat

/--
One new die for every die that shows the highest face. The new dice do not explode themselves.
-/
def explode (sides : UInt32) (draw : StateM σ Int64) (rolls : List Int64) :
    StateM σ (List Int64) := do
  let fresh ← Draw.times draw (rolls.count (top sides))
  return rolls ++ fresh

def grow (top : Int64) (gain : Int64 → Int64) (draw : StateM σ Int64) :
    (draws : Nat) → (value : Int64) → StateM σ Int64
  | 0, value => return value
  | draws + 1, value => do
    let x ← draw
    if x = top then grow top gain draw draws (value + gain x) else return value + gain x

def growAll (gain : Int64 → Int64) (depth : Depth) (sides : UInt32) (draw : StateM σ Int64) :
    List Int64 → StateM σ (List Int64)
  | [] => return []
  | value :: rolls => do
    let value ←
      if value = top sides then grow (top sides) gain draw depth.limit value else pure value
    let rolls ← growAll gain depth sides draw rolls
    return value :: rolls

def compound (depth : Depth) (sides : UInt32) (draw : StateM σ Int64) (rolls : List Int64) :
    StateM σ (List Int64) :=
  growAll id depth sides draw rolls

def penetrate (depth : Depth) (sides : UInt32) (draw : StateM σ Int64) (rolls : List Int64) :
    StateM σ (List Int64) :=
  growAll (fun x => max (x - 1) 1) depth sides draw rolls

end Burst

end DicePool
