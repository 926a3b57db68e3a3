import DicePool.Text.Decimal
import DicePool.Json.Basic

/-!
This module contains the two written forms of JSON values: `compact`, on one line and without
blanks, and `indented`, with every item and every member on a line of its own.
-/

namespace DicePool.Json

def escape (c : Char) : String :=
  match c with
  | '"' => "\\\""
  | '\\' => "\\\\"
  | '\x08' => "\\b"
  | '\x0c' => "\\f"
  | '\n' => "\\n"
  | '\r' => "\\r"
  | '\t' => "\\t"
  | c =>
    if c.toNat < 0x20 then
      "\\u00" ++ .ofList [Nat.digitChar (c.toNat / 16), Nat.digitChar (c.toNat % 16)]
    else
      c.toString

def quote (s : String) : String :=
  s.foldl (fun written c => written ++ escape c) "\"" ++ "\""

def scalar : Json → String
  | .null => "null"
  | .bool true => "true"
  | .bool false => "false"
  | .int n => .ofList (Text.Decimal.ofInt n)
  | .decimal negative digits exponent =>
    .ofList ((if negative then ['-'] else []) ++ Text.Decimal.ofNat digits ++
      ['e'] ++ Text.Decimal.ofInt exponent)
  | .str s => quote s
  | .arr _ => "[]"
  | .obj _ => "\x7b\x7d"

mutual

def compact : Json → String
  | .arr items => "[" ++ ",".intercalate (compactItems items) ++ "]"
  | .obj members => "\x7b" ++ ",".intercalate (compactMembers members) ++ "\x7d"
  | v => v.scalar

def compactItems : List Json → List String
  | [] => []
  | v :: vs => v.compact :: compactItems vs

def compactMembers : List (String × Json) → List String
  | [] => []
  | (name, v) :: ms => (quote name ++ ":" ++ v.compact) :: compactMembers ms

end

def block (margin opening closing : String) (contents : List String) : String :=
  match contents with
  | [] => opening ++ closing
  | _ :: _ =>
    opening ++ margin ++ "  " ++ ("," ++ margin ++ "  ").intercalate contents ++ margin ++ closing

mutual

def indentedAt (margin : String) : Json → String
  | .arr items => block margin "[" "]" (indentedItems (margin ++ "  ") items)
  | .obj members => block margin "\x7b" "\x7d" (indentedMembers (margin ++ "  ") members)
  | v => v.scalar

def indentedItems (margin : String) : List Json → List String
  | [] => []
  | v :: vs => v.indentedAt margin :: indentedItems margin vs

def indentedMembers (margin : String) : List (String × Json) → List String
  | [] => []
  | (name, v) :: ms =>
    (quote name ++ ": " ++ v.indentedAt margin) :: indentedMembers margin ms

end

def indented (v : Json) : String :=
  v.indentedAt "\n"

end DicePool.Json
