import DicePool.Pool
import DicePool.Tally

/-!
This module contains the records of pools that have been rolled, and the outcome of several pools
together.
-/

namespace DicePool

structure History where
  logs : List StageLog
  modifiedRolls : List Int64
  total : Int64
  initialRolls : List Int64
  bonus : Int64
deriving DecidableEq, Repr

structure Record where
  pool : Pool
  rolls : List Int64
  history : History
  appliedTotal : Int64
  total : Int64
  faces : Option (List String) := none
deriving DecidableEq, Repr

def faceAt? (faces : List String) (roll : Int64) : Option String :=
  if 1 ≤ roll then faces[roll.toInt.toNat - 1]? else none

namespace Record

def ofTally (p : Pool) (initialRolls : List Int64) (t : Tally) : Record where
  pool := p
  rolls := t.rolls
  history :=
    { logs := t.logs, modifiedRolls := t.rolls, total := t.total, initialRolls, bonus := t.bonus }
  appliedTotal := p.sign.apply t.total
  total := t.total
  faces := p.faces.map fun faces => t.rolls.filterMap (faceAt? faces)

def isCustom (r : Record) : Bool :=
  r.faces.isSome

def isConsistent (r : Record) : Bool :=
  r.history.initialRolls.length == r.pool.quantity.toNat &&
    r.rolls == r.history.modifiedRolls &&
    r.total == r.history.total &&
    r.total == Bounded.add (Bounded.sum r.history.modifiedRolls) r.history.bonus &&
    r.appliedTotal == r.pool.sign.apply r.total

@[simp]
theorem rolls_ofTally (p : Pool) (initialRolls : List Int64) (t : Tally) :
    (ofTally p initialRolls t).rolls = t.rolls := rfl

@[simp]
theorem total_ofTally (p : Pool) (initialRolls : List Int64) (t : Tally) :
    (ofTally p initialRolls t).total = t.total := rfl

end Record

/--
The outcome of several pools: their grand total, to which dice with faces of their own do not
count, their records, and the faces that all dice of that sort show.
-/
structure Outcome where
  total : Int64
  records : List Record
  faces : List String := []
deriving DecidableEq, Repr

namespace Outcome

def share (r : Record) : Int64 :=
  if r.isCustom then 0 else r.appliedTotal

def ofRecords (records : List Record) : Outcome where
  total := Bounded.sum (records.map share)
  records
  faces := records.flatMap fun r => r.faces.getD []

end Outcome

end DicePool
