/-!
This module contains arithmetic on 64-bit signed integers that stays at the nearest end of the
range where the exact result leaves it, and the partial conversions into the fixed widths. The main
statement about the former is `toInt_clamp`, which says what every such operation comes to among
the unbounded integers.
-/

namespace DicePool.Bounded

def int64? (n : Int) : Option Int64 :=
  if Int64.minValue.toInt ≤ n ∧ n ≤ Int64.maxValue.toInt then some (.ofInt n) else none

def uint32? (n : Nat) : Option UInt32 :=
  if n < UInt32.size then some (.ofNat n) else none

def uint64? (n : Nat) : Option UInt64 :=
  if n < UInt64.size then some (.ofNat n) else none

def clamp (n : Int) : Int64 :=
  .ofInt (max Int64.minValue.toInt (min n Int64.maxValue.toInt))

def add (a b : Int64) : Int64 :=
  clamp (a.toInt + b.toInt)

def sub (a b : Int64) : Int64 :=
  clamp (a.toInt - b.toInt)

def neg (a : Int64) : Int64 :=
  clamp (-a.toInt)

/--
The sum of a list, added from left to right. It stops at an end of the range along the way too, so
the order of the values matters.
-/
def sum (xs : List Int64) : Int64 :=
  xs.foldl add 0

theorem toInt_clamp (n : Int) :
    (clamp n).toInt = max Int64.minValue.toInt (min n Int64.maxValue.toInt) := by
  rw [clamp, Int64.toInt_ofInt_of_le]
  · have : Int64.minValue.toInt = -2 ^ 63 := rfl
    omega
  · have : Int64.maxValue.toInt = 2 ^ 63 - 1 := rfl
    have : Int64.minValue.toInt = -2 ^ 63 := rfl
    omega

@[simp]
theorem clamp_toInt (w : Int64) : clamp w.toInt = w := by
  apply Int64.toInt_inj.1
  have := w.minValue_le_toInt
  have := w.toInt_le
  rw [toInt_clamp]
  omega

@[simp]
theorem sub_zero (a : Int64) : sub a 0 = a := by
  simp [sub]

theorem toInt_eq_of_int64?_eq_some {n : Int} {w : Int64} (h : int64? n = some w) :
    w.toInt = n := by
  unfold int64? at h
  split at h
  · next hn =>
    have : Int64.minValue.toInt = -2 ^ 63 := rfl
    have : Int64.maxValue.toInt = 2 ^ 63 - 1 := rfl
    rw [← Option.some.inj h, Int64.toInt_ofInt_of_le] <;> omega
  · simp at h

@[simp]
theorem int64?_toInt (w : Int64) : int64? w.toInt = some w := by
  rw [int64?, if_pos ⟨w.minValue_le_toInt, w.toInt_le⟩, Int64.ofInt_toInt]

theorem int64?_eq_some_iff {n : Int} {w : Int64} : int64? n = some w ↔ n = w.toInt := by
  constructor
  · intro h
    rw [toInt_eq_of_int64?_eq_some h]
  · intro h
    rw [h, int64?_toInt]

theorem int64?_add {a b : Int64} (hlo : Int64.minValue.toInt ≤ a.toInt + b.toInt)
    (hhi : a.toInt + b.toInt ≤ Int64.maxValue.toInt) :
    int64? (a.toInt + b.toInt) = some (a + b) := by
  rw [int64?, if_pos ⟨hlo, hhi⟩, Int64.ofInt_add, Int64.ofInt_toInt, Int64.ofInt_toInt]

theorem uint32?_eq_some_iff {n : Nat} {w : UInt32} : uint32? n = some w ↔ n = w.toNat := by
  unfold uint32?
  constructor
  · intro h
    split at h
    · next hn => rw [← Option.some.inj h, UInt32.toNat_ofNat_of_lt' hn]
    · simp at h
  · intro h
    rw [h, if_pos w.toNat_lt_size, UInt32.ofNat_toNat]

@[simp]
theorem sum_nil : sum [] = 0 := rfl

end DicePool.Bounded
