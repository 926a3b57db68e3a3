/-!
This module contains JSON values as data: what a text says, free of its layout.
-/

namespace DicePool

/--
A JSON value. An integer between -2^63 and 2^64 - 1 that is written without a point or an exponent
is an `int`. All other numbers, negative zero among them, are `decimal`s, whose worth is
`digits * 10 ^ exponent` with a sign before it. The members of an object have different names.
-/
inductive Json where
  | null
  | bool (b : Bool)
  | int (n : Int)
  | decimal (negative : Bool) (digits : Nat) (exponent : Int)
  | str (s : String)
  | arr (items : List Json)
  | obj (members : List (String × Json))

namespace Json

def ofMembers (members : List (String × Json)) : Json :=
  .obj (lastOfEach members)
where
  lastOfEach : List (String × Json) → List (String × Json)
    | [] => []
    | (name, v) :: ms =>
      if ms.any (·.1 == name) then lastOfEach ms else (name, v) :: lastOfEach ms

def get? (v : Json) (name : String) : Option Json :=
  match v with
  | .obj members => members.lookup name
  | _ => none

@[simp]
theorem get?_obj (members : List (String × Json)) (name : String) :
    (Json.obj members).get? name = members.lookup name := rfl

end Json

end DicePool
