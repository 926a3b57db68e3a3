import DicePool.Notation.Token
import DicePool.PoolSpec
import DicePool.Text.Blank

/-!
This module contains the reader of notation: dice such as `4d6` or `-2d{HT}`, followed by tokens for
what is done to them. Where reading fails, the error says what was left of the text.
-/

namespace DicePool.Notation

def readSign : List Char → Sign × List Char
  | '-' :: s => (.subtract, s)
  | s => (.add, s)

def isFace (c : Char) : Bool :=
  c ≠ '\x7d' && c ≠ ','

def readSides (s : List Char) : Except (List Char) (Sides × List Char) :=
  match count? s with
  | some (n, rest) => return (.numbered n, rest)
  | none =>
    match s with
    | '\x7b' :: s =>
      match s.takeWhile isFace, s.dropWhile isFace with
      | [], _ => throw s
      | faces, '\x7d' :: rest => return (.faces (faces.map Char.toString), rest)
      | _, rest => throw rest
    | s => throw s

structure Dice where
  sign : Sign
  quantity : UInt32
  sides : Sides
deriving DecidableEq, Repr

/--
Read the dice: a sign, a count, the letter `d` and the sides. An error is the text from the place
on where something else was expected.
-/
def readDice (s : List Char) : Except (List Char) (Dice × List Char) :=
  let (sign, s) := readSign s
  match count? s with
  | none => throw s
  | some (quantity, s) =>
    match s with
    | [] => throw []
    | c :: rest =>
      if c = 'd' ∨ c = 'D' then do
        let (sides, rest) ← readSides rest
        return ({ sign, quantity, sides }, rest)
      else
        throw (c :: rest)

def read (s : List Char) : Except (List Char) (Dice × List Token) := do
  let (dice, rest) ← readDice s
  match Token.readAll rest with
  | (tokens, []) => return (dice, tokens)
  | (_, rest) => throw rest

def mergeAll (m : ModifierSet) (tokens : List Token) : Except OptionsFault ModifierSet :=
  tokens.foldlM
    (fun m t =>
      match t with
      | .modifier modifier => m.merge modifier
      | .keep k => return m.mergeKeep k)
    m

def Token.mergeInto : Token → ExceptT OptionsFault (StateM ModifierSet) Unit
  | .modifier m => ModifierSet.mergeInto m
  | .keep k => modify fun m => m.mergeKeep k

def toSpec (dice : Dice) (tokens : List Token) : Except NotationFault PoolSpec :=
  match dice.sides, tokens with
  | .faces _, _ :: _ => throw .modifiersOnFaces
  | sides, tokens =>
    match mergeAll {} tokens with
    | .ok modifiers => return { sides, quantity := dice.quantity, modifiers, sign := dice.sign }
    | .error fault => throw (.options fault)

end DicePool.Notation

namespace DicePool.PoolSpec

def ofChars (s : List Char) : Except NotationFault PoolSpec :=
  match Notation.read s with
  | .ok (dice, tokens) => Notation.toSpec dice tokens
  | .error rest => throw (.stopped (.ofList rest))

def ofNotation (text : String) : Except RollError PoolSpec :=
  let s := Text.trim text.toList
  match ofChars s with
  | .ok spec => return spec
  | .error fault => throw (.invalidNotation (.ofList s) fault)

end DicePool.PoolSpec
