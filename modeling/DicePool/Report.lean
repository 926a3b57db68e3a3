import DicePool.Description
import DicePool.Notation.Spelling
import DicePool.Record

/-!
This module contains the reports on rolls that people read.
-/

namespace DicePool

def Description.rolls (rolls : List Int64) : String :=
  "[" ++ ", ".intercalate (rolls.map Description.int) ++ "]"

def Description.faces (faces : List String) : String :=
  "[" ++ ", ".intercalate faces ++ "]"

namespace StageLog

def report (log : StageLog) : String :=
  log.kind.name ++ " (" ++ .ofList log.modifier.spelling ++ "): " ++ changes
where
  changes : String :=
    let removed := "removed " ++ Description.rolls log.removed
    let added := "added " ++ Description.rolls log.added
    match log.removed, log.added with
    | [], [] => "no change"
    | _ :: _, [] => removed
    | [], _ :: _ => added
    | _ :: _, _ :: _ => removed ++ ", " ++ added

end StageLog

namespace Record

def lines (r : Record) : List String :=
  [r.pool.text] ++
    r.pool.description.map ("  " ++ ·) ++
    ["  Initial rolls: " ++ Description.rolls r.history.initialRolls] ++
    r.history.logs.map (fun log => "  " ++ log.report) ++
    [match r.faces with
      | some faces => "  Faces: " ++ Description.faces faces
      | none => "  Final rolls: " ++ Description.rolls r.rolls] ++
    ["  Total: " ++ Description.int r.total ++
      if r.appliedTotal = r.total then "" else
        " (applied as " ++ Description.int r.appliedTotal ++ ")"]

def report (r : Record) : String :=
  "\n".intercalate r.lines

end Record

namespace Outcome

def report (o : Outcome) : String :=
  "\n".intercalate (o.records.map Record.report ++ ["Grand total: " ++ Description.int o.total] ++
    if o.faces.isEmpty then [] else ["Faces: " ++ Description.faces o.faces])

end Outcome

end DicePool
