import DicePool.Bounded
import DicePool.Condition
import DicePool.Modifier.Burst
import DicePool.Modifier.Drop
import DicePool.Modifier.Kind
import DicePool.Modifier.Replacement
import DicePool.Modifier.Reroll
import DicePool.Modifier.Unique

/-!
This module contains the modifiers with their settings, and the sets of them that a pool carries.
-/

namespace DicePool

inductive Modifier where
  | cap (bounds : Condition)
  | drop (d : Drop)
  | replace (rules : List Replacement)
  | reroll (r : Reroll)
  | explode
  | compound (depth : Depth)
  | penetrate (depth : Depth)
  | unique (u : Unique)
  | plus (value : Int64)
  | minus (value : Int64)
deriving DecidableEq, Repr, Inhabited

namespace Modifier

def kind : Modifier → Kind
  | .cap _ => .cap
  | .drop _ => .drop
  | .replace _ => .replace
  | .reroll _ => .reroll
  | .explode => .explode
  | .compound _ => .compound
  | .penetrate _ => .penetrate
  | .unique _ => .unique
  | .plus _ => .plus
  | .minus _ => .minus

end Modifier

/--
What a pool does to its dice: at most one entry for each kind of modifier, and one for the dice to
keep. An entry that is there is applied, even if it can change nothing.
-/
structure ModifierSet where
  cap : Option Condition := none
  drop : Option Drop := none
  keep : Option Keep := none
  replace : Option (List Replacement) := none
  reroll : Option Reroll := none
  explode : Bool := false
  compound : Option Depth := none
  penetrate : Option Depth := none
  unique : Option Unique := none
  plus : Option Int64 := none
  minus : Option Int64 := none
deriving DecidableEq, Repr, Inhabited

namespace ModifierSet

def empty : ModifierSet := {}

def isEmpty (m : ModifierSet) : Bool :=
  m = empty

def get? (m : ModifierSet) : Kind → Option Modifier
  | .cap => m.cap.map .cap
  | .drop => m.drop.map .drop
  | .replace => m.replace.map .replace
  | .reroll => m.reroll.map .reroll
  | .explode => if m.explode then some .explode else none
  | .compound => m.compound.map .compound
  | .penetrate => m.penetrate.map .penetrate
  | .unique => m.unique.map .unique
  | .plus => m.plus.map .plus
  | .minus => m.minus.map .minus

def toList (m : ModifierSet) : List Modifier :=
  Kind.inOrder.filterMap m.get?

def addTerm (entry : Entry) (sum : Option Int64) (value : Int64) : Except OptionsFault Int64 :=
  match Bounded.int64? ((sum.getD 0).toInt + value.toInt) with
  | some sum => return sum
  | none => throw (.outOfRange entry)

def merge (m : ModifierSet) : Modifier → Except OptionsFault ModifierSet
  | .cap bounds => return { m with cap := (m.cap.getD {}).merge bounds }
  | .drop d => return { m with drop := (m.drop.getD {}).merge d }
  | .replace rules => return { m with replace := m.replace.getD [] ++ rules }
  | .reroll r => return { m with reroll := (m.reroll.getD {}).merge r }
  | .explode => return { m with explode := true }
  | .compound depth => return { m with compound := depth }
  | .penetrate depth => return { m with penetrate := depth }
  | .unique u => return { m with unique := (m.unique.getD {}).merge u }
  | .plus value => return { m with plus := ← addTerm .plus m.plus value }
  | .minus value => return { m with minus := ← addTerm .minus m.minus value }

def mergeKeep (m : ModifierSet) (k : Keep) : ModifierSet :=
  { m with keep := (m.keep.getD {}).merge k }

def addInto (entry : Entry) (value : Int64) (sum : ModifierSet → Option Int64)
    (write : Int64 → ModifierSet → ModifierSet) :
    ExceptT OptionsFault (StateM ModifierSet) Unit := do
  -- The sum is found before anything is written, so that a failure leaves the set as it was.
  let total ← addTerm entry (sum (← get)) value
  modify (write total)

def mergeInto : Modifier → ExceptT OptionsFault (StateM ModifierSet) Unit
  | .cap bounds => modify fun m => { m with cap := (m.cap.getD {}).merge bounds }
  | .drop d => modify fun m => { m with drop := (m.drop.getD {}).merge d }
  | .replace rules => modify fun m => { m with replace := m.replace.getD [] ++ rules }
  | .reroll r => modify fun m => { m with reroll := (m.reroll.getD {}).merge r }
  | .explode => modify fun m => { m with explode := true }
  | .compound depth => modify fun m => { m with compound := depth }
  | .penetrate depth => modify fun m => { m with penetrate := depth }
  | .unique u => modify fun m => { m with unique := (m.unique.getD {}).merge u }
  | .plus value => addInto .plus value (·.plus) fun total m => { m with plus := total }
  | .minus value => addInto .minus value (·.minus) fun total m => { m with minus := total }

def emptyEntry? (m : ModifierSet) : Option Entry :=
  if m.cap.any Condition.isEmpty then some .cap
  else if m.drop.any Drop.isEmpty then some .drop
  else if m.keep.any Keep.isEmpty then some .keep
  else if m.replace.any fun rules => rules.isEmpty || rules.any Replacement.isEmpty then
    some .replace
  else if m.reroll.any fun r => r.trigger.isEmpty then some .reroll
  else none

def splitReplacements (m : ModifierSet) : ModifierSet :=
  { m with replace := m.replace.map fun rules => rules.flatMap Replacement.split }

def resolveKeep (m : ModifierSet) (quantity : UInt32) : ModifierSet :=
  match m.keep with
  | none => m
  | some k => { m with keep := none, drop := k.toDrop quantity (m.drop.getD {}) }

@[simp]
theorem keep_resolveKeep (m : ModifierSet) (quantity : UInt32) :
    (m.resolveKeep quantity).keep = none := by
  unfold resolveKeep
  split <;> simp_all

end ModifierSet

end DicePool
