import Std.Data.HashSet
import DicePool.Condition
import DicePool.RollError

/-!
This module contains the modifier that asks for different values on all dice of a pool.
-/

namespace DicePool

structure Unique where
  notUnique : List Int64 := []
deriving DecidableEq, Repr, Inhabited

namespace Unique

variable {σ : Type}

def maxDraws : Nat := 1000

def merge (u other : Unique) : Unique where
  notUnique := Condition.addNew u.notUnique other.notUnique

def isExempt (u : Unique) (value : Int64) : Bool :=
  u.notUnique.contains value

/--
Whether `quantity` dice can show different values: there are no more of them than faces, or a face
may be on several dice.
-/
def isSatisfiable (u : Unique) (quantity sides : UInt32) : Bool :=
  quantity ≤ sides || u.notUnique.any fun v => 1 ≤ v && v ≤ .ofNat sides.toNat

def check (u : Unique) (quantity sides : UInt32) : Except RollError Unit :=
  if u.isSatisfiable quantity sides then return () else throw (.uniqueUnsatisfiable quantity sides)

def admits (u : Unique) (seen : Std.HashSet Int64) (value : Int64) : Bool :=
  u.isExempt value || !seen.contains value

def redraw (u : Unique) (seen : Std.HashSet Int64) (draw : StateM σ Int64) :
    Nat → StateM σ Int64
  | 0 => draw
  | retries + 1 => do
    let value ← draw
    if u.admits seen value then return value else redraw u seen draw retries

def applyAfter (u : Unique) (draw : StateM σ Int64) (seen : Std.HashSet Int64) :
    List Int64 → StateM σ (List Int64)
  | [] => return []
  | value :: rolls => do
    let value ← if u.admits seen value then pure value else redraw u seen draw (maxDraws - 1)
    let rolls ← applyAfter u draw (seen.insert value) rolls
    return value :: rolls

def apply (u : Unique) (draw : StateM σ Int64) (rolls : List Int64) : StateM σ (List Int64) :=
  applyAfter u draw ∅ rolls

end Unique

end DicePool
