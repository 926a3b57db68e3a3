import DicePool.Draw
import DicePool.Source.ChaCha

/-!
This module contains the random sources that a roll can be made from: a list of numbers that is
read over and over, and a generator that a seed starts.
-/

namespace DicePool

inductive Roller where
  | cycle (values : Array Float) (taken : Nat)
  | seeded (generator : ChaCha)

namespace Roller

def ofList (values : List Float) : Roller :=
  .cycle values.toArray 0

def ofSeed (seed : UInt64) : Roller :=
  .seeded { key := .ofSeed seed }

def float : StateM Roller Float := fun r =>
  match r with
  | .cycle values taken =>
    let (f, taken) := Draw.cycle values 0 taken
    (f, .cycle values taken)
  | .seeded generator =>
    let (f, generator) := ChaCha.float generator
    (f, .seeded generator)

def wordsOfFloat (f : Float) : List UInt32 :=
  let n := (f * 18446744073709551616.0).toUInt64
  [n.toUInt32, (n >>> 32).toUInt32]

/--
The key for a new generator, taken from this source: eight words of a generator, or four numbers of
a list at 64 bits each.
-/
def key : StateM Roller ChaCha.Key := fun r =>
  match r with
  | .cycle .. =>
    let (fs, r) := Draw.times float 4 r
    (.ofList (fs.flatMap wordsOfFloat), r)
  | .seeded generator =>
    let (words, generator) := Draw.times ChaCha.word 8 generator
    (.ofList words, .seeded generator)

def fork : StateM Roller Roller := do
  return .seeded { key := ← key }

def below (bound : UInt32) : StateM Roller UInt32 :=
  Draw.below float bound

def die (sides : UInt32) : StateM Roller Int64 :=
  Draw.die float sides

def dice (quantity sides : UInt32) : StateM Roller (List Int64) :=
  Draw.times (die sides) quantity.toNat

def describe : Roller → String
  | .cycle .. => "Roller \x7b rng: \"<custom>\" \x7d"
  | .seeded _ => "Roller \x7b rng: \"<seeded>\" \x7d"

end Roller

end DicePool
