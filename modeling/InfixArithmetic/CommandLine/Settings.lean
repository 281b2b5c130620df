import InfixArithmetic.Batch.Runner
import InfixArithmetic.CommandLine.Arguments
import InfixArithmetic.Path.Basic
/-!
# Settings

What the command line asks for: one expression or the expressions of a file, never both and
never neither, and the runner for a file.
-/

namespace InfixArithmetic.CommandLine

inductive Task where
  | expression (text : String)
  | file (path : Path)

structure Settings where
  task : Task
  runner : Batch.Runner

def filePath? (r : Record) : Option Path :=
  match r.get? "file_path" with
  | some (.text s) => some (Path.ofString s)
  | _ => none

/-- Reads a path that may be left out. It has to lead to a file, as `isFile` tells. -/
def optionalFile (isFile : Bool) : Option Value → Except Fault (Option Path)
  | none | some .null => .ok none
  | some (.text s) => if isFile then .ok (some (Path.ofString s)) else .error .notFile
  | some _ => .error .notPath

namespace Settings

def ofRecord (isFile : Bool) (r : Record) : Checked Settings := do
  let (file, expression, runner) ← (r.check "file_path" (optionalFile isFile)).both
    ((r.check "expression" Record.optionalText).both (Batch.Runner.ofRecord r))
  match file, expression with
  | some path, none => .ok ⟨.file path, runner⟩
  | none, some text => .ok ⟨.expression text, runner⟩
  | _, _ => .conflict "Provide either a file path or --expression, not both"

def complaintText (complaints : List Complaint) : String :=
  let count := complaints.length
  let title := String.ofList (Text.Decimal.digits count) ++
    (if count = 1 then " validation error for CliArgs" else " validation errors for CliArgs")
  let line (c : Complaint) : String :=
    c.field.elim "" ("\n" ++ ·) ++ "\n  " ++ c.fault.message
  title ++ String.join (complaints.map line)

end Settings

end InfixArithmetic.CommandLine
