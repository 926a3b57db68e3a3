/-!
This module contains a source of pseudorandom words: the ChaCha stream cipher with 12 rounds, whose
keystream is read word by word.
-/

namespace DicePool

namespace ChaCha

structure Row where
  w0 : UInt32
  w1 : UInt32
  w2 : UInt32
  w3 : UInt32
deriving DecidableEq, Repr, Inhabited

namespace Row

def zipWith (f : UInt32 → UInt32 → UInt32) (a b : Row) : Row :=
  ⟨f a.w0 b.w0, f a.w1 b.w1, f a.w2 b.w2, f a.w3 b.w3⟩

def add : Row → Row → Row :=
  zipWith (· + ·)

def xorRotate (n : UInt32) : Row → Row → Row :=
  zipWith fun a b => ((a ^^^ b) <<< n) ||| ((a ^^^ b) >>> (32 - n))

def shift (a : Row) : Row :=
  ⟨a.w1, a.w2, a.w3, a.w0⟩

def toList (a : Row) : List UInt32 :=
  [a.w0, a.w1, a.w2, a.w3]

end Row

structure Block where
  a : Row
  b : Row
  c : Row
  d : Row
deriving DecidableEq, Repr, Inhabited

namespace Block

def add (x y : Block) : Block :=
  ⟨x.a.add y.a, x.b.add y.b, x.c.add y.c, x.d.add y.d⟩

def columnRound (x : Block) : Block :=
  let a := x.a.add x.b
  let d := x.d.xorRotate 16 a
  let c := x.c.add d
  let b := x.b.xorRotate 12 c
  let a := a.add b
  let d := d.xorRotate 8 a
  let c := c.add d
  let b := b.xorRotate 7 c
  ⟨a, b, c, d⟩

/--
The quarter round, on all four diagonals at once: shifting the rows makes columns of them.
-/
def diagonalRound (x : Block) : Block :=
  let y := columnRound ⟨x.a, x.b.shift, x.c.shift.shift, x.d.shift.shift.shift⟩
  ⟨y.a, y.b.shift.shift.shift, y.c.shift.shift, y.d.shift⟩

def doubleRounds : Nat → Block → Block
  | 0, x => x
  | n + 1, x => doubleRounds n x.columnRound.diagonalRound

def keystream (x : Block) : List UInt32 :=
  let y := (doubleRounds 6 x).add x
  y.a.toList ++ y.b.toList ++ y.c.toList ++ y.d.toList

end Block

structure Key where
  b : Row
  c : Row
deriving DecidableEq, Repr, Inhabited

namespace Key

def ofList (words : List UInt32) : Key where
  b := ⟨words.getD 0 0, words.getD 1 0, words.getD 2 0, words.getD 3 0⟩
  c := ⟨words.getD 4 0, words.getD 5 0, words.getD 6 0, words.getD 7 0⟩

/--
The words of a sequence of linear congruences, each of them permuted once more before it is given
out: its bits are folded onto the lower half, and that is rotated to the right by the uppermost
five.
-/
def expand (s : UInt64) : Nat → List UInt32
  | 0 => []
  | n + 1 =>
    let s := s * 6364136223846793005 + 11634580027462260723
    let folded := (((s >>> 18) ^^^ s) >>> 27).toUInt32
    let turn := (s >>> 59).toUInt32
    ((folded >>> turn) ||| (folded <<< ((32 - turn) % 32))) :: expand s n

def ofSeed (seed : UInt64) : Key :=
  .ofList (expand seed 8)

end Key

def block (key : Key) (number : UInt64) : Block where
  a := ⟨0x61707865, 0x3320646E, 0x79622D32, 0x6B206574⟩
  b := key.b
  c := key.c
  d := ⟨number.toUInt32, (number >>> 32).toUInt32, 0, 0⟩

end ChaCha

structure ChaCha where
  key : ChaCha.Key
  next : UInt64 := 0
  pending : List UInt32 := []
deriving DecidableEq, Repr, Inhabited

namespace ChaCha

def word : StateM ChaCha UInt32 := do
  let g ← get
  match g.pending with
  | w :: pending =>
    set { g with pending }
    return w
  | [] =>
    match (block g.key g.next).keystream with
    | w :: pending =>
      set { g with next := g.next + 1, pending }
      return w
    | [] => return 0

def uint64 : StateM ChaCha UInt64 := do
  let low ← word
  let high ← word
  return low.toUInt64 ||| (high.toUInt64 <<< 32)

def float : StateM ChaCha Float := do
  let n ← uint64
  return (n >>> 11).toFloat / 9007199254740992.0

end ChaCha

end DicePool
