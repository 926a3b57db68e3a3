import DicePool.CommandLine.Run

/-!
This module contains the program: it hands its arguments and the file that they name to the library
and prints the answer.
-/

namespace DicePool.CommandLine

def contents? (path : String) : IO (Option String) := do
  try
    return some (← IO.FS.readFile path)
  catch _ =>
    return none

def fail (failure : Failure) : IO UInt32 := do
  IO.eprintln ("Error: " ++ failure.message)
  return failure.code.toUInt32

def rollArguments (args : List String) : IO UInt32 := do
  match Invocation.ofArguments? args with
  | none => fail .usage
  | some inv =>
    let fileText ← match inv.file with
      | none => pure none
      | some path => contents? path
    let entropy ← IO.rand 0 (UInt64.size - 1)
    match inv.run fileText (.ofNat entropy) with
    | .ok output =>
      IO.print output
      return 0
    | .error failure => fail failure

end DicePool.CommandLine

def main (args : List String) : IO UInt32 :=
  DicePool.CommandLine.rollArguments args
