/-!
This module contains the class of blank characters and the trimming of texts by it.
-/

namespace DicePool.Text

/--
The characters with Unicode's property `White_Space`, as ranges of code points with both ends
included.
-/
def blankRanges : List (Nat × Nat) :=
  [(0x9, 0xD), (0x20, 0x20), (0x85, 0x85), (0xA0, 0xA0), (0x1680, 0x1680), (0x2000, 0x200A),
    (0x2028, 0x2029), (0x202F, 0x202F), (0x205F, 0x205F), (0x3000, 0x3000)]

def isBlank (c : Char) : Bool :=
  blankRanges.any fun (lo, hi) => lo ≤ c.toNat && c.toNat ≤ hi

def trim (s : List Char) : List Char :=
  trimStart (trimStart s).reverse |>.reverse
where
  trimStart (s : List Char) : List Char := s.dropWhile isBlank

@[simp]
theorem trim_nil : trim [] = [] := rfl

end DicePool.Text
