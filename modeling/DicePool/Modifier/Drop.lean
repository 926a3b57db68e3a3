import DicePool.Condition

/-!
This module contains the modifier that takes dice out of a pool, and its counterpart that says how
many to keep.
-/

namespace DicePool

structure Drop where
  highest : Option UInt32 := none
  lowest : Option UInt32 := none
  filter : Condition := {}
deriving DecidableEq, Repr, Inhabited

namespace Drop

def isEmpty (d : Drop) : Bool :=
  d.highest.isNone && d.lowest.isNone && d.filter.isEmpty

def merge (d other : Drop) : Drop where
  highest := other.highest <|> d.highest
  lowest := other.lowest <|> d.lowest
  filter := d.filter.merge other.filter

def ranked (rolls : List Int64) : List (Int64 × Nat) :=
  rolls.zipIdx.mergeSort fun a b => a.1 ≤ b.1

/--
Leave out the `highest` last and the `lowest` first entries of the ranking, the highest ones first.
The others stay in the order they were rolled in.
-/
def trim (highest lowest : Nat) (rolls : List Int64) : List Int64 :=
  let kept := ((ranked rolls).take (rolls.length - highest)).drop lowest
  (kept.mergeSort fun a b => a.2 ≤ b.2).map (·.1)

def apply (d : Drop) (rolls : List Int64) : List Int64 :=
  trim (d.highest.elim 0 UInt32.toNat) (d.lowest.elim 0 UInt32.toNat)
    (rolls.filter fun v => !d.filter.holds v)

end Drop

structure Keep where
  highest : Option UInt32 := none
  lowest : Option UInt32 := none
deriving DecidableEq, Repr, Inhabited

namespace Keep

def isEmpty (k : Keep) : Bool :=
  k.highest.isNone && k.lowest.isNone

def merge (k other : Keep) : Keep where
  highest := other.highest <|> k.highest
  lowest := other.lowest <|> k.lowest

def surplus (quantity kept : UInt32) : UInt32 :=
  if kept ≤ quantity then quantity - kept else 0

/--
To keep the highest dice of a pool is to drop the lowest others, and the other way round. The
counts so found take the place of those in `drop`.
-/
def toDrop (k : Keep) (quantity : UInt32) (drop : Drop) : Drop :=
  { drop with
    highest := k.lowest.map (surplus quantity) <|> drop.highest
    lowest := k.highest.map (surplus quantity) <|> drop.lowest }

end Keep

end DicePool
