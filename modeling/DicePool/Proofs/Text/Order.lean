import Mathlib.Algebra.Group.Nat.Defs
import Mathlib.Tactic.SplitIfs

/-!
This module contains the order of texts. They are compared character by character, which comes to
the same as comparing the bytes of their UTF-8 form.
-/

namespace DicePool.Text

def bytes (s : String) : List UInt8 :=
  s.toUTF8.data.toList

theorem bytes_eq_flatMap (s : String) : bytes s = s.toList.flatMap String.utf8EncodeChar := by
  have hs : bytes s = bytes (.ofList s.toList) := by rw [String.ofList_toList]
  rw [hs, bytes, String.toUTF8, String.toByteArray_ofList, List.utf8Encode,
    List.toList_data_toByteArray]

/-! ### Characters -/

theorem ofNat_cons_lt {a b : Nat} (h : a < b) (hb : b < 256) (xs ys : List UInt8) :
    UInt8.ofNat a :: xs < UInt8.ofNat b :: ys := by
  apply List.Lex.rel
  rwa [UInt8.lt_iff_toNat_lt, UInt8.toNat_ofNat_of_lt' (Nat.lt_trans h hb),
    UInt8.toNat_ofNat_of_lt' hb]

def units (lead : Nat) : (count : Nat) → Nat → List UInt8
  | 0, v => [UInt8.ofNat (lead + v)]
  | count + 1, v => units lead count (v / 64) ++ [UInt8.ofNat (128 + v % 64)]

theorem exists_units_eq_cons (lead count v : Nat) :
    ∃ tail, units lead count v = UInt8.ofNat (lead + v / 64 ^ count) :: tail := by
  induction count generalizing v with
  | zero => exact ⟨[], by rw [units, Nat.pow_zero, Nat.div_one]⟩
  | succ count ih =>
    obtain ⟨tail, htail⟩ := ih (v / 64)
    rw [units, htail, Nat.div_div_eq_div_mul, ← Nat.pow_succ']
    exact ⟨_, List.cons_append⟩

theorem units_append_lt {lead count v w : Nat} (h : v < w) (hw : lead + w / 64 ^ count < 256)
    (xs ys : List UInt8) : units lead count v ++ xs < units lead count w ++ ys := by
  induction count generalizing v w xs ys with
  | zero =>
    rw [Nat.pow_zero, Nat.div_one] at hw
    exact ofNat_cons_lt (by omega) hw xs ys
  | succ count ih =>
    rw [Nat.pow_succ', ← Nat.div_div_eq_div_mul] at hw
    rw [units, units, List.append_assoc, List.append_assoc]
    -- The last digit decides only if all the others agree.
    by_cases hdigits : v / 64 < w / 64
    · exact ih hdigits hw _ _
    · have heq : v / 64 = w / 64 := by omega
      rw [heq]
      exact List.append_left_lt (ofNat_cons_lt (by omega) (by omega) xs ys)

def extra (v : Nat) : Nat :=
  if v ≤ 0x7f then 0 else if v ≤ 0x7ff then 1 else if v ≤ 0xffff then 2 else 3

def lead : Nat → Nat
  | 0 => 0
  | 1 => 0xc0
  | 2 => 0xe0
  | _ => 0xf0

theorem toNat_lt (c : Char) : c.val.toNat < 0x110000 := by
  have hvalid : c.val.toNat.isValidChar := c.valid
  unfold Nat.isValidChar at hvalid
  omega

def first (v : Nat) : Nat :=
  lead (extra v) + v / 64 ^ extra v

theorem extra_le {v w : Nat} (h : v ≤ w) : extra v ≤ extra w := by
  unfold extra
  split_ifs <;> omega

theorem first_lt {v w : Nat} (h : extra v < extra w) (hv : v < 0x110000) : first v < first w := by
  unfold first
  unfold extra at h ⊢
  split_ifs at h ⊢ <;> simp only [lead] <;> omega

theorem first_lt_size {v : Nat} (hv : v < 0x110000) : first v < 256 := by
  unfold first extra
  split_ifs <;> simp only [lead] <;> omega

theorem utf8EncodeChar_eq_units (c : Char) :
    String.utf8EncodeChar c = units (lead (extra c.val.toNat)) (extra c.val.toNat) c.val.toNat := by
  have hc := toNat_lt c
  unfold String.utf8EncodeChar extra
  dsimp only
  generalize c.val.toNat = v at hc
  split
  · simp [units, lead]
  split
  · have hlead : v / 64 % 32 = v / 64 := by omega
    simp only [units, lead, hlead, Nat.add_comm, List.cons_append, List.nil_append]
  split
  · have hlead : v / 4096 % 16 = v / 64 / 64 := by omega
    simp only [units, lead, hlead, Nat.add_comm, List.cons_append, List.nil_append]
  · have hlead : v / 262144 % 8 = v / 64 / 64 / 64 := by omega
    have hnext : v / 4096 = v / 64 / 64 := by omega
    simp only [units, lead, hlead, hnext, Nat.add_comm, List.cons_append, List.nil_append]

theorem utf8EncodeChar_append_lt {c d : Char} (h : c < d) (xs ys : List UInt8) :
    String.utf8EncodeChar c ++ xs < String.utf8EncodeChar d ++ ys := by
  have hlt : c.val.toNat < d.val.toNat := UInt32.lt_iff_toNat_lt.1 h
  have hd := toNat_lt d
  rw [utf8EncodeChar_eq_units, utf8EncodeChar_eq_units]
  generalize c.val.toNat = v at hlt
  generalize d.val.toNat = w at hlt hd
  have hsize := first_lt_size hd
  -- Characters of one size are compared digit by digit, others by their first byte alone.
  by_cases heq : extra v = extra w
  · rw [heq]
    exact units_append_lt hlt hsize xs ys
  · have hextra : extra v < extra w := Nat.lt_of_le_of_ne (extra_le (Nat.le_of_lt hlt)) heq
    obtain ⟨front, hfront⟩ := exists_units_eq_cons (lead (extra v)) (extra v) v
    obtain ⟨back, hback⟩ := exists_units_eq_cons (lead (extra w)) (extra w) w
    rw [hfront, hback]
    exact ofNat_cons_lt (first_lt hextra (by omega)) hsize _ _

/-! ### Texts -/

theorem flatMap_lt_flatMap {cs ds : List Char} (h : cs < ds) :
    cs.flatMap String.utf8EncodeChar < ds.flatMap String.utf8EncodeChar := by
  induction h with
  | @nil c cs =>
    obtain ⟨b, bs, hbs⟩ := List.exists_cons_of_ne_nil (String.utf8EncodeChar_ne_nil (c := c))
    rw [List.flatMap_nil, List.flatMap_cons, hbs]
    exact List.nil_lt_cons ..
  | rel h => exact utf8EncodeChar_append_lt h _ _
  | cons _ ih => exact List.append_left_lt ih

theorem bytes_lt_bytes {s t : String} (h : s < t) : bytes s < bytes t := by
  rw [bytes_eq_flatMap, bytes_eq_flatMap]
  exact flatMap_lt_flatMap h

theorem le_iff_bytes_le {s t : String} : s ≤ t ↔ bytes s ≤ bytes t := by
  constructor
  · intro h
    rcases Std.le_iff_lt_or_eq.1 h with hlt | rfl
    · exact List.le_of_lt (bytes_lt_bytes hlt)
    · exact List.le_refl _
  · intro h hlt
    exact h (bytes_lt_bytes hlt)

end DicePool.Text
