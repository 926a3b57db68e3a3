/-!
This module contains what a roll asks of its random source. A source is an action that yields the
next value and moves the source's state on. The state's type is left open, so that one definition
of a roll serves every source.
-/

namespace DicePool.Draw

variable {σ α : Type}

def times (draw : StateM σ α) : Nat → StateM σ (List α)
  | 0 => return []
  | n + 1 => do
    let x ← draw
    let xs ← times draw n
    return x :: xs

def counted (draw : StateM σ α) : StateM (σ × Nat) α := do
  let (s, n) ← get
  let (x, s) := draw s
  set (s, n + 1)
  return x

def stream (values : Nat → α) : StateM Nat α := fun taken =>
  (values taken, taken + 1)

def cycle (values : Array α) (default : α) : StateM Nat α :=
  stream fun taken => values[taken % values.size]?.getD default

/--
A whole number from 0 up to but not including `bound`: the bound scaled by a value in `[0, 1)` and
cut to a whole number. Values outside of that interval give the nearest number in the range, and
what is not a number gives 0. A bound of 0 gives 0 without taking a value.
-/
def below (float : StateM σ Float) (bound : UInt32) : StateM σ UInt32 :=
  if bound = 0 then
    return 0
  else do
    let scaled := (← float) * bound.toFloat
    return .ofNat (min scaled.toUInt64.toNat (bound.toNat - 1))

def die (float : StateM σ Float) (sides : UInt32) : StateM σ Int64 := do
  let face ← below float sides
  return .ofNat (face.toNat + 1)

theorem length_times (draw : StateM σ α) (n : Nat) (s : σ) :
    ((times draw n).run s).1.length = n := by
  induction n generalizing s with
  | zero => rfl
  | succ n ih => exact congrArg (· + 1) (ih (draw.run s).2)

end DicePool.Draw
