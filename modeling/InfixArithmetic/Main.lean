import InfixArithmetic.CommandLine.Program
/-!
# The command line

Reads the file that the arguments name, lets the program do its work, and carries out what it
prints, logs and writes.
-/

namespace InfixArithmetic.CommandLine

def namedFile? (args : List String) : Option Path :=
  (recordOfArguments args).toOption.bind filePath?

/-- Whether an error tells of too long a name. Its number comes with either sign. -/
def isNameTooLong : IO.Error → Bool
  | .invalidArgument _ code _ => code == 36 || code == -36
  | _ => false

def readFile (path : Path) : IO (Except FileError (Option (List UInt8))) := do
  try
    let bytes ← IO.FS.readBinFile path.toString
    return .ok (some bytes.toList)
  catch e =>
    return if isNameTooLong e then .error (.nameTooLong path) else .ok none

def Ending.print (ending : Ending) : IO UInt32 := do
  for entry in ending.log do
    IO.eprintln ("[" ++ entry.level.name ++ "] integer_calculator: " ++ entry.message)
  IO.print ending.output
  IO.eprint ending.errors
  return ending.status.toUInt32

end InfixArithmetic.CommandLine

open InfixArithmetic.CommandLine in
def main (args : List String) : IO UInt32 := do
  let content ← (namedFile? args).elim (pure (.ok none)) readFile
  match perform (fun _ => content) args with
  | .error breakdown =>
    IO.eprintln breakdown.message
    return 1
  | .ok effect =>
    match effect.written with
    | some (path, bytes) => IO.FS.writeBinFile path.toString (ByteArray.mk bytes.toArray)
    | none => pure ()
    effect.ending.print
