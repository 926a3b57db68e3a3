import Mathlib.Data.List.Forall2
import DicePool.Notation.Reader
import DicePool.Notation.Spelling

/-!
This module contains the grammar of notation: relations between texts and what the texts say. They
list the ways in which a thing can be written and leave open how it is read.
-/

namespace DicePool.Notation.Grammar

variable {α : Type}

inductive Numeral : List Char → Nat → Prop where
  | digit {c : Char} (hc : c.isDigit) : Numeral [c] (c.toNat - '0'.toNat)
  | snoc {s : List Char} {n : Nat} {c : Char} (hs : Numeral s n) (hc : c.isDigit) :
      Numeral (s ++ [c]) (10 * n + (c.toNat - '0'.toNat))

def Count (s : List Char) (n : UInt32) : Prop :=
  Numeral s n.toNat

inductive Natural : List Char → Int64 → Prop where
  | mk {s : List Char} {k : Nat} {n : Int64} (hs : Numeral s k) (hn : n.toInt = k) : Natural s n

inductive Integer : List Char → Int64 → Prop where
  | nonneg {s : List Char} {n : Int64} (hs : Natural s n) : Integer s n
  | neg {s : List Char} {k : Nat} {n : Int64} (hs : Numeral s k) (hn : n.toInt = -k) :
      Integer ('-' :: s) n

inductive Bound : List Char → Term → Prop where
  | above {s : List Char} {n : Int64} (hs : Integer s n) : Bound ('>' :: s) (.greaterThan n)
  | below {s : List Char} {n : Int64} (hs : Integer s n) : Bound ('<' :: s) (.lessThan n)

inductive Comparison : List Char → Term → Prop where
  | exact {s : List Char} {n : Int64} (hs : Integer s n) : Comparison s (.exact n)
  | bound {s : List Char} {t : Term} (hs : Bound s t) : Comparison s t

inductive Rule : List Char → Replacement → Prop where
  | mk {s v : List Char} {t : Term} {n : Int64} (hs : Comparison s t) (hv : Integer v n) :
      Rule (s ++ '=' :: v) { target := t.target, value := n }

def Listed (item : List Char → α → Prop) (s : List Char) (as : List α) : Prop :=
  ∃ parts, parts ≠ [] ∧ s = braces parts ∧ List.Forall₂ item parts as

inductive Optional (item : List Char → α → Prop) : List Char → Option α → Prop where
  | absent : Optional item [] none
  | present {s : List Char} {a : α} (hs : item s a) : Optional item s (some a)

def Letter (upper c : Char) : Prop :=
  c = upper ∨ c = upper.toLower

instance (upper c : Char) : Decidable (Letter upper c) :=
  inferInstanceAs (Decidable (_ ∨ _))

structure Burst where
  explode : Bool := false
  compound : Option Depth := none
  penetrate : Option Depth := none
deriving DecidableEq, Repr

inductive Word where
  | cap (bounds : List Term)
  | drop (terms : List Term)
  | reroll (terms : List Term) (max : Option UInt32)
  | replace (rules : List Replacement)
  | unique (exempt : List Int64)
  | highest (n : Option UInt32)
  | lowest (n : Option UInt32)
  | keepHighest (n : Option UInt32)
  | keepLowest (n : Option UInt32)
  | plus (n : Int64)
  | minus (n : Int64)
  | burst (b : Burst)
deriving DecidableEq, Repr

def depth (draws : Option UInt32) : Depth :=
  ⟨draws.getD 0⟩

inductive Run : (marks : Nat) → (letter : List Char) → (draws : Option UInt32) → Burst → Prop where
  | explode : Run 1 [] none { explode := true }
  | compound {m : Option UInt32} : Run 2 [] m { compound := depth m }
  | explodeCompound {m : Option UInt32} : Run 3 [] m { explode := true, compound := depth m }
  | penetrate {c : Char} {m : Option UInt32} (hc : Letter 'P' c) :
      Run 1 [c] m { penetrate := depth m }
  | explodePenetrate {c : Char} {m : Option UInt32} (hc : Letter 'P' c) :
      Run 2 [c] m { explode := true, penetrate := depth m }
  | compoundPenetrate {c : Char} {m : Option UInt32} (hc : Letter 'P' c) :
      Run 3 [c] m { compound := Depth.unlimited, penetrate := depth m }
  | explodeCompoundPenetrate {c : Char} {m : Option UInt32} (hc : Letter 'P' c) :
      Run 4 [c] m { explode := true, compound := Depth.unlimited, penetrate := depth m }

inductive Spells : List Char → Word → Prop where
  | cap {c : Char} {s : List Char} {bounds : List Term} (hc : Letter 'C' c)
      (hs : Listed Bound s bounds) : Spells (c :: s) (.cap bounds)
  | drop {c : Char} {s : List Char} {terms : List Term} (hc : Letter 'D' c)
      (hs : Listed Comparison s terms) : Spells (c :: s) (.drop terms)
  | reroll {c : Char} {s t : List Char} {terms : List Term} {max : Option UInt32}
      (hc : Letter 'R' c) (hs : Listed Comparison s terms) (ht : Optional Count t max) :
      Spells (c :: s ++ t) (.reroll terms max)
  | replace {c : Char} {s : List Char} {rules : List Replacement} (hc : Letter 'V' c)
      (hs : Listed Rule s rules) : Spells (c :: s) (.replace rules)
  | unique {c : Char} (hc : Letter 'U' c) : Spells [c] (.unique [])
  | uniqueExcept {c : Char} {s : List Char} {exempt : List Int64} (hc : Letter 'U' c)
      (hs : Listed Integer s exempt) : Spells (c :: s) (.unique exempt)
  | highest {c : Char} {s : List Char} {n : Option UInt32} (hc : Letter 'H' c)
      (hs : Optional Count s n) : Spells (c :: s) (.highest n)
  | lowest {c : Char} {s : List Char} {n : Option UInt32} (hc : Letter 'L' c)
      (hs : Optional Count s n) : Spells (c :: s) (.lowest n)
  | keepHighest {c : Char} {s : List Char} {n : Option UInt32} (hc : Letter 'K' c)
      (hs : Optional Count s n) : Spells (c :: s) (.keepHighest n)
  | keepLowest {c d : Char} {s : List Char} {n : Option UInt32} (hc : Letter 'K' c)
      (hd : Letter 'L' d) (hs : Optional Count s n) : Spells (c :: d :: s) (.keepLowest n)
  | plus {s : List Char} {n : Int64} (hs : Natural s n) : Spells ('+' :: s) (.plus n)
  | minus {s : List Char} {n : Int64} (hs : Natural s n) : Spells ('-' :: s) (.minus n)
  | burst {marks : Nat} {s t : List Char} {m : Option UInt32} {b : Burst} (hb : Run marks s m b)
      (ht : Optional Count t m) : Spells (List.replicate marks '!' ++ s ++ t) (.burst b)

/--
Whether a word may be followed by another one. After a word made of exclamation marks only there
may be no further mark, and after a `K` on its own no `L`: together they would be another word.
-/
def Apart (s t : List Char) : Prop :=
  ((∀ c ∈ s, c = '!') → t.head? ≠ some '!') ∧
    ∀ k l, Letter 'K' k → Letter 'L' l → s = [k] → t.head? ≠ some l

def Words (s : List Char) (ws : List Word) : Prop :=
  ∃ texts : List (List Char),
    s = texts.flatten ∧ List.Forall₂ Spells texts ws ∧ texts.IsChain Apart

inductive Text : List Char → Dice → List Word → Prop where
  | numbered {q n t : List Char} {d : Char} {sign : Sign} {quantity sides : UInt32}
      {ws : List Word} (hq : Count q quantity) (hd : Letter 'D' d) (hn : Count n sides)
      (ht : Words t ws) :
      Text (sign.spelling ++ q ++ d :: n ++ t) { sign, quantity, sides := .numbered sides } ws
  | faces {q labels : List Char} {d : Char} {sign : Sign} {quantity : UInt32}
      (hq : Count q quantity) (hd : Letter 'D' d) (hne : labels ≠ [])
      (hl : ∀ c ∈ labels, c ≠ '\x7d' ∧ c ≠ ',') :
      Text (sign.spelling ++ q ++ d :: '\x7b' :: labels ++ ['\x7d'])
        { sign, quantity, sides := .faces (labels.map Char.toString) } []

end DicePool.Notation.Grammar
