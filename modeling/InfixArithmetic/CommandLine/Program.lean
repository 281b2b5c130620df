import InfixArithmetic.CommandLine.Settings
import InfixArithmetic.Path.FileTree
import InfixArithmetic.Path.Results
/-!
# The program

The program as a function of its arguments and of the files it may read. `perform` tells how
the program ends and which file it writes; `run` carries that out on a file tree.
-/

namespace InfixArithmetic.CommandLine

structure Ending where
  status : Nat := 0
  output : String := ""
  errors : String := ""
  log : List Log.Entry := []

/-- How the program ends, and the file that it writes before. -/
structure Effect where
  ending : Ending
  written : Option (Path × List UInt8) := none

/-- What stops the program in the middle of its work. -/
inductive Breakdown where
  | evaluation (error : EvalError)
  | path (error : Path.PathError)
  | file (error : FileError)

def Breakdown.message : Breakdown → String
  | evaluation e => e.message
  | path e => e.message
  | file e => e.message

def usageLine : String :=
  "usage: integer-calculator [-h] [-e EXPR] [--workers WORKERS] [file_path]\n"

def helpText : String :=
  usageLine ++
  "\n" ++
  "Evaluate integer arithmetic expressions\n" ++
  "\n" ++
  "positional arguments:\n" ++
  "  file_path             Path to a text file with one arithmetic expression per line\n" ++
  "\n" ++
  "options:\n" ++
  "  -h, --help            show this help message and exit\n" ++
  "  -e EXPR, --expression EXPR\n" ++
  "                        Evaluate a single expression; attach expressions starting with " ++
  "'-' to the option, e.g. --expression=-5+3\n" ++
  "  --workers WORKERS     Evaluate a file with this many worker processes\n"

def Stop.ending : Stop → Ending
  | help => { output := helpText }
  | usage message =>
    { status := 2, errors := usageLine ++ "integer-calculator: error: " ++ message ++ "\n" }

def evaluateOne (expression : String) : Except EvalError Ending := do
  let o ← calculate expression
  match o.answer with
  | .ok v => .ok { output := Text.Decimal.ofInt v ++ "\n" }
  | .error message => .ok { status := 1, errors := errorNotice message ++ "\n" }

def closingEntry (summary : Batch.Summary) : Log.Entry :=
  let count := fun n => String.ofList (Text.Decimal.digits n)
  ⟨.info, "🏁 Done, " ++ count summary.failed ++ " of " ++ count summary.evaluated ++
    " expressions failed"⟩

def evaluateFile (runner : Batch.Runner) (path : Path) (bytes : List UInt8) :
    Except Breakdown Effect := do
  let output ← path.results.mapError .path
  let report ← (runner.run path.toString output.toString bytes).mapError .evaluation
  .ok {
    ending := {
      status := if report.summary.ok then 0 else 1
      log := report.log ++ [closingEntry report.summary] }
    written := some (output, Text.Utf8.encode report.results) }

def contentOf (read : Path → Except FileError (Option (List UInt8))) (r : Record) :
    Except Breakdown (Option (List UInt8)) :=
  match filePath? r with
  | none => .ok none
  | some path => (read path).mapError .file

def performRecord (content : Option (List UInt8)) (r : Record) : Except Breakdown Effect :=
  match Settings.ofRecord content.isSome r with
  | .error complaints =>
    .ok { ending := (Stop.usage (Settings.complaintText complaints)).ending }
  | .ok settings =>
    match settings.task with
    | .expression text => (evaluateOne text).mapError .evaluation |>.map ({ ending := · })
    | .file path => evaluateFile settings.runner path (content.getD [])

/-- What the program does with its arguments, given what may be read from files. -/
def perform (read : Path → Except FileError (Option (List UInt8))) (args : List String) :
    Except Breakdown Effect :=
  match recordOfArguments args with
  | .error stop => .ok { ending := stop.ending }
  | .ok r => do performRecord (← contentOf read r) r

def run (args : List String) (files : FileTree) : Except Breakdown (Ending × FileTree) := do
  let effect ← perform files.read args
  match effect.written with
  | none => .ok (effect.ending, files)
  | some (path, bytes) =>
    let files ← (files.write path bytes).mapError .file
    .ok (effect.ending, files)

end InfixArithmetic.CommandLine
