import DicePool.Text.Decimal
import DicePool.Json.Basic
import DicePool.Json.Double

/-!
This module contains the reader of JSON texts. A text is cut into tokens, and the tokens drive a
machine that keeps the containers not yet closed on a stack. The reader is strict: nothing but
space, tab, line feed and carriage return may stand between the tokens or around the value, numbers
have no leading zeros, surrogates come in pairs, and containers nest 127 deep at most.
-/

namespace DicePool.Json

inductive Token where
  | scalar (v : Json)
  | openArr
  | closeArr
  | openObj
  | closeObj
  | comma
  | colon

namespace Token

def isBlank (c : Char) : Bool :=
  c == ' ' || c == '\t' || c == '\n' || c == '\r'

def isNumeric (c : Char) : Bool :=
  c.isDigit || c == '-' || c == '+' || c == '.' || c == 'e' || c == 'E'

def absorb (n : Nat) : List Char → Nat × Nat
  | [] => (n, 0)
  | c :: cs =>
    let next := 10 * n + (c.toNat - '0'.toNat)
    if next < UInt64.size then absorb next cs else (n, cs.length + 1)

def integer (negative : Bool) (n : Nat) : Json :=
  if ¬negative then .int n
  else if 0 < n ∧ n ≤ UInt64.size / 2 then .int (-n)
  else .decimal true n 0

/--
The value of a number: an optional minus sign, digits without a leading zero, then at will a point
with digits and an exponent. Digits that the significand has no room for count as zeros. Numbers
too large for a double have no value.
-/
def number? (s : List Char) : Option Json := do
  let (negative, s) := match s with
    | '-' :: s => (true, s)
    | s => (false, s)
  let (whole, s) := s.span Char.isDigit
  guard (whole ≠ [] ∧ (whole.head? ≠ some '0' ∨ whole = ['0']))
  let (fraction, s) ← match s with
    | '.' :: s =>
      let (fraction, s) := s.span Char.isDigit
      if fraction = [] then none else some (fraction, s)
    | s => some ([], s)
  let exponent ← match s with
    | [] => some none
    | c :: s => if c = 'e' ∨ c = 'E' then (exponent? s).map some else none
  let (digits, wholeLeft) := absorb 0 whole
  if fraction = [] ∧ exponent = none ∧ wholeLeft = 0 then
    return integer negative digits
  let (digits, fractionLeft) := absorb digits fraction
  let scale : Int := exponent.getD 0 + wholeLeft + fractionLeft - fraction.length
  guard (Double.ofDecimal? digits scale).isSome
  return .decimal negative digits scale
where
  exponent? : List Char → Option Int
    | '+' :: s => (Text.Decimal.value? s).map Int.ofNat
    | s => Text.Decimal.signedValue? s

def hexDigit? (c : Char) : Option Nat :=
  if c.isDigit then some (c.toNat - '0'.toNat)
  else if 'a' ≤ c ∧ c ≤ 'f' then some (c.toNat - 'a'.toNat + 10)
  else if 'A' ≤ c ∧ c ≤ 'F' then some (c.toNat - 'A'.toNat + 10)
  else none

def codeUnit? (a b c d : Char) : Option Nat := do
  return (← hexDigit? a) * 4096 + (← hexDigit? b) * 256 + (← hexDigit? c) * 16 + (← hexDigit? d)

def escaped? : Char → Option Char
  | '"' => some '"'
  | '\\' => some '\\'
  | '/' => some '/'
  | 'b' => some '\x08'
  | 'f' => some '\x0c'
  | 'n' => some '\n'
  | 'r' => some '\r'
  | 't' => some '\t'
  | _ => none

/--
Read a string whose opening quote has been read, up to its closing quote. `high` is the high
surrogate that has just been read and waits for its low one, and `read` holds the characters before
it in reverse.
-/
def string? (read : List Char) (high : Option Nat) : List Char → Option (String × List Char)
  | '\\' :: 'u' :: a :: b :: c :: d :: s =>
    match codeUnit? a b c d, high with
    | some unit, some high =>
      if 0xDC00 ≤ unit ∧ unit < 0xE000 then
        string? (.ofNat (0x10000 + (high - 0xD800) * 0x400 + (unit - 0xDC00)) :: read) none s
      else
        none
    | some unit, none =>
      if 0xD800 ≤ unit ∧ unit < 0xDC00 then string? read (some unit) s
      else if 0xDC00 ≤ unit ∧ unit < 0xE000 then none
      else string? (.ofNat unit :: read) none s
    | none, _ => none
  | '\\' :: c :: s =>
    match escaped? c, high with
    | some c, none => string? (c :: read) none s
    | _, _ => none
  | c :: s =>
    if high.isSome ∨ c.toNat < 0x20 ∨ c = '\\' then none
    else if c = '"' then some (.ofList read.reverse, s)
    else string? (c :: read) none s
  | [] => none

theorem length_lt_of_string? {read s rest : List Char} {high : Option Nat} {text : String}
    (h : string? read high s = some (text, rest)) : rest.length < s.length := by
  fun_induction string? read high s <;> simp_all <;> omega

def read? : List Char → Option (Token × List Char)
  | '[' :: s => some (.openArr, s)
  | ']' :: s => some (.closeArr, s)
  | '\x7b' :: s => some (.openObj, s)
  | '\x7d' :: s => some (.closeObj, s)
  | ',' :: s => some (.comma, s)
  | ':' :: s => some (.colon, s)
  | '"' :: s => (string? [] none s).map fun (text, s) => (.scalar (.str text), s)
  | 'n' :: 'u' :: 'l' :: 'l' :: s => some (.scalar .null, s)
  | 't' :: 'r' :: 'u' :: 'e' :: s => some (.scalar (.bool true), s)
  | 'f' :: 'a' :: 'l' :: 's' :: 'e' :: s => some (.scalar (.bool false), s)
  | c :: s =>
    if isNumeric c then
      (number? (c :: s.takeWhile isNumeric)).map fun v => (.scalar v, s.dropWhile isNumeric)
    else
      none
  | [] => none

theorem length_lt_of_read? {s rest : List Char} {t : Token} (h : read? s = some (t, rest)) :
    rest.length < s.length := by
  unfold read? at h
  split at h
  case h_7 =>
    obtain ⟨⟨text, rest'⟩, hr, heq⟩ := Option.map_eq_some_iff.1 h
    have := length_lt_of_string? hr
    simp_all
    omega
  case h_11 s _ _ _ _ _ _ _ _ _ _ =>
    have := (List.dropWhile_sublist isNumeric (l := s)).length_le
    split at h
    · obtain ⟨v, _, heq⟩ := Option.map_eq_some_iff.1 h
      simp only [Prod.mk.injEq] at heq
      simp [← heq.2]
      omega
    · simp at h
  all_goals simp_all <;> omega

end Token

inductive Frame where
  | arr (items : List Json)
  | obj (members : List (String × Json)) (name : String)

inductive Progress where
  | value (outer : List Frame)
  | firstItem (outer : List Frame)
  | nextItem (items : List Json) (outer : List Frame)
  | firstName (outer : List Frame)
  | nextName (members : List (String × Json)) (outer : List Frame)
  | colon (members : List (String × Json)) (name : String) (outer : List Frame)
  | nextMember (members : List (String × Json)) (outer : List Frame)
  | done (v : Json)

namespace Progress

def maxDepth : Nat := 127

def put (v : Json) : List Frame → Progress
  | [] => .done v
  | .arr items :: outer => .nextItem (v :: items) outer
  | .obj members name :: outer => .nextMember ((name, v) :: members) outer

def start? (outer : List Frame) : Token → Option Progress
  | .scalar v => some (put v outer)
  | .openArr => if outer.length < maxDepth then some (.firstItem outer) else none
  | .openObj => if outer.length < maxDepth then some (.firstName outer) else none
  | _ => none

def step? : Progress → Token → Option Progress
  | .value outer, t => start? outer t
  | .firstItem outer, .closeArr => some (put (.arr []) outer)
  | .firstItem outer, t => start? (.arr [] :: outer) t
  | .nextItem items outer, .comma => some (.value (.arr items :: outer))
  | .nextItem items outer, .closeArr => some (put (.arr items.reverse) outer)
  | .firstName outer, .closeObj => some (put (.obj []) outer)
  | .firstName outer, .scalar (.str name) => some (.colon [] name outer)
  | .nextName members outer, .scalar (.str name) => some (.colon members name outer)
  | .colon members name outer, .colon => some (.value (.obj members name :: outer))
  | .nextMember members outer, .comma => some (.nextName members outer)
  | .nextMember members outer, .closeObj => some (put (.ofMembers members.reverse) outer)
  | _, _ => none

def read? (p : Progress) (s : List Char) : Option Json :=
  match s with
  | [] =>
    match p with
    | .done v => some v
    | _ => none
  | c :: cs =>
    if Token.isBlank c then
      read? p cs
    else
      match h : Token.read? (c :: cs) with
      | none => none
      | some (t, rest) =>
        have : rest.length < cs.length + 1 := Token.length_lt_of_read? h
        match p.step? t with
        | none => none
        | some p => read? p rest
termination_by s.length

end Progress

def ofString? (s : String) : Option Json :=
  Progress.read? (.value []) s.toList

end DicePool.Json
