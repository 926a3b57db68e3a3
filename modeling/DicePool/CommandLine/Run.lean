import DicePool.CommandLine.Invocation
import DicePool.Form.Record
import DicePool.Json.Printer
import DicePool.Report
import DicePool.Source.Roller

/-!
This module contains what the command line does with its arguments.
-/

namespace DicePool.CommandLine

def usage : String :=
  "Usage: [-h | --help] [-V | --version] [--seed N] [--json] [-v | --verbose] " ++
    "[-o FILE | --options FILE] [--] [NOTATION]..."

def Notice.text : Notice → String
  | .help => usage
  | .version => "DicePool 1.0.0"

inductive Failure where
  | usage
  | unreadableFile
  | nothingToRoll
  | roll (e : RollError)
deriving DecidableEq, Repr

namespace Failure

def code : Failure → UInt8
  | .usage => 2
  | _ => 1

def message : Failure → String
  | .usage => CommandLine.usage
  | .unreadableFile => "The options file cannot be read"
  | .nothingToRoll => "Nothing to roll: pass at least one notation or --options FILE"
  | .roll e => e.message

end Failure

def fileRequests (text : String) : Except RollError (List PoolRequest) := do
  let values ← match Json.ofString? text with
    | some (.arr values) => pure values
    | some v => pure [v]
    | none => throw .malformed
  let specs ← values.mapM PoolSpec.ofJson
  return specs.map .spec

namespace Invocation

def requests (inv : Invocation) (fileText : Option String) : Except Failure (List PoolRequest) := do
  -- The file is read before any notation is, so that its errors come first.
  let fromFile ← match inv.file, fileText with
    | none, _ => pure []
    | some _, none => throw .unreadableFile
    | some _, some text => (fileRequests text).mapError .roll
  match inv.notations.map .text ++ fromFile with
  | [] => throw .nothingToRoll
  | requests => return requests

def format (inv : Invocation) (o : Outcome) : String :=
  (if inv.json then o.toJson.indented else o.report) ++ "\n"

def run (inv : Invocation) (fileText : Option String) (entropy : UInt64) :
    Except Failure String := do
  if let some notice := inv.notice then
    return notice.text ++ "\n"
  let requests ← inv.requests fileText
  let source := Roller.ofSeed (inv.seed.getD entropy)
  let (outcome, _) := (Outcome.ofRequests requests Roller.float).run source
  return inv.format (← outcome.mapError .roll)

end Invocation

end DicePool.CommandLine
