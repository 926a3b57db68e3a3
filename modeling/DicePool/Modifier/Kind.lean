/-!
This module contains the names of the modifiers.
-/

namespace DicePool

inductive Entry where
  | cap
  | drop
  | keep
  | replace
  | reroll
  | explode
  | compound
  | penetrate
  | unique
  | plus
  | minus
deriving DecidableEq, Repr, Inhabited

namespace Entry

def all : List Entry :=
  [.cap, .drop, .keep, .replace, .reroll, .explode, .compound, .penetrate, .unique, .plus, .minus]

def name : Entry → String
  | .cap => "cap"
  | .drop => "drop"
  | .keep => "keep"
  | .replace => "replace"
  | .reroll => "reroll"
  | .explode => "explode"
  | .compound => "compound"
  | .penetrate => "penetrate"
  | .unique => "unique"
  | .plus => "plus"
  | .minus => "minus"

theorem mem_all (e : Entry) : e ∈ all := by
  cases e <;> decide

end Entry

inductive Kind where
  | cap
  | drop
  | replace
  | reroll
  | explode
  | compound
  | penetrate
  | unique
  | plus
  | minus
deriving DecidableEq, Repr, Inhabited

namespace Kind

def inOrder : List Kind :=
  [.cap, .drop, .replace, .reroll, .explode, .compound, .penetrate, .unique, .plus, .minus]

def entry : Kind → Entry
  | .cap => .cap
  | .drop => .drop
  | .replace => .replace
  | .reroll => .reroll
  | .explode => .explode
  | .compound => .compound
  | .penetrate => .penetrate
  | .unique => .unique
  | .plus => .plus
  | .minus => .minus

def name (k : Kind) : String :=
  k.entry.name

theorem mem_inOrder (k : Kind) : k ∈ inOrder := by
  cases k <;> decide

end Kind

end DicePool
