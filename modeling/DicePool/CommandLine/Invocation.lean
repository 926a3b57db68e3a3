import DicePool.Bounded
import DicePool.Text.Decimal

/-!
This module contains the arguments of the command line and how they are read. Options come first.
The first argument that is no option begins the notations, and every argument after it is one, even
if it looks like an option, since notation may begin with a minus sign.
-/

namespace DicePool.CommandLine

inductive Notice where
  | help
  | version
deriving DecidableEq, Repr

structure Invocation where
  notice : Option Notice := none
  seed : Option UInt64 := none
  json : Bool := false
  verbose : Bool := false
  file : Option String := none
  notations : List String := []
deriving DecidableEq, Repr, Inhabited

inductive Setting where
  | notice (n : Notice)
  | json
  | verbose
  | seed
  | file
deriving DecidableEq, Repr

structure Written where
  setting : Setting
  value : Option String := none
deriving DecidableEq, Repr

namespace Setting

def takesValue : Setting → Bool
  | .notice _ | .json | .verbose => false
  | .seed | .file => true

def ofName? : String → Option Setting
  | "help" => some (.notice .help)
  | "version" => some (.notice .version)
  | "json" => some .json
  | "verbose" => some .verbose
  | "seed" => some .seed
  | "options" => some .file
  | _ => none

def ofLetter? : Char → Option Setting
  | 'h' => some (.notice .help)
  | 'V' => some (.notice .version)
  | 'v' => some .verbose
  | 'o' => some .file
  | _ => none

/--
The options in a group of letters. A letter whose option takes a value has the rest of the group for
it. A group with a letter that is no option is not made of options at all, wherever that letter
stands.
-/
def ofLetters? : List Char → Option (List Written)
  | [] => some []
  | c :: cs => do
    let setting ← ofLetter? c
    let rest ← ofLetters? cs
    if setting.takesValue then
      return [⟨setting, if cs.isEmpty then none else some (.ofList cs)⟩]
    else
      return ⟨setting, none⟩ :: rest

def ofArgument? (arg : String) : Option (List Written) :=
  match arg.toList with
  | '-' :: '-' :: cs => do
    let setting ← ofName? (.ofList (cs.takeWhile (· ≠ '=')))
    match cs.dropWhile (· ≠ '=') with
    | [] => return [⟨setting, none⟩]
    | _ :: value => return [⟨setting, some (.ofList value)⟩]
  | ['-'] => none
  | '-' :: cs => ofLetters? cs
  | _ => none

end Setting

def seed? (value : String) : Option UInt64 :=
  let digits := match value.toList with
    | '+' :: cs => cs
    | cs => cs
  (Text.Decimal.value? digits).bind Bounded.uint64?

namespace Invocation

def set? (inv : Invocation) (setting : Setting) (value : Option String) : Option Invocation :=
  match setting, value with
  | .notice n, none => some { inv with notice := some n }
  | .json, none => if inv.json then none else some { inv with json := true }
  | .verbose, none => if inv.verbose then none else some { inv with verbose := true }
  | .seed, some value =>
    if inv.seed.isSome then none else (seed? value).map fun n => { inv with seed := some n }
  | .file, some value =>
    if inv.file.isSome ∨ value = "" then none else some { inv with file := some value }
  | _, _ => none

def setAll? (inv : Invocation) : List Written → Option (Invocation × Option Setting)
  | [] => some (inv, none)
  | w :: ws =>
    if inv.notice.isSome then some (inv, none)
    else if w.setting.takesValue ∧ w.value.isNone ∧ ws.isEmpty then some (inv, some w.setting)
    else (inv.set? w.setting w.value).bind fun inv => setAll? inv ws

def read? (inv : Invocation) (args : List String) : Option Invocation :=
  match args with
  | [] => some inv
  | arg :: args =>
    if inv.notice.isSome then
      some inv
    else if arg = "--" then
      some { inv with notations := args }
    else
      match Setting.ofArgument? arg with
      | none => some { inv with notations := arg :: args }
      | some written =>
        match setAll? inv written, args with
        | none, _ => none
        | some (inv, none), args => read? inv args
        | some (_, some _), [] => none
        | some (inv, some setting), value :: args =>
          if value = "--" ∨ (Setting.ofArgument? value).isSome then none
          else
            match inv.set? setting (some value) with
            | none => none
            | some inv => read? inv args
termination_by args.length

def ofArguments? (args : List String) : Option Invocation :=
  read? {} args

end Invocation

end DicePool.CommandLine
