import InfixArithmetic.CommandLine.Word
import InfixArithmetic.Record.Value
import InfixArithmetic.Text.Numeral
import InfixArithmetic.Text.Quoted
/-!
# Taking arguments

Arguments that have been told apart are taken from left to right. A flag that wants a value
takes an attached one or the plain argument behind it, and of several values the last one
counts; the first plain argument left over names the file; all that nobody takes is refused at
the end. Help ends the work as soon as it is reached, and flags without a value may share one
dash with the flag behind them.
-/

namespace InfixArithmetic.CommandLine

structure Draft where
  file : Option String := none
  expression : Value := .null
  workers : Value := .null
  refused : List String := []

namespace Draft

/-- Gives a flag its value. Two dashes as a value leave an empty list of values. -/
def set (d : Draft) (flag : Flag) (value : List Char) : Except Stop Draft :=
  match flag with
  | .help => .error .help
  | .expression =>
    .ok { d with
      expression := if value = ['-', '-'] then .compound else .text (String.ofList value) }
  | .workers =>
    if value = ['-', '-'] then
      .ok { d with workers := .compound }
    else
      match Text.Numeral.readArgument value with
      | some n => .ok { d with workers := .int n }
      | none =>
        .error (.ofFlag flag
          ("invalid int value: " ++ String.ofList (Text.Quoted.encode value)))

def refuse (d : Draft) (args : List String) : Draft :=
  { d with refused := d.refused ++ args }

def record (d : Draft) : Record :=
  [("file_path", d.file.elim .null .text), ("expression", d.expression),
    ("workers", d.workers)]

end Draft

/-- What the flags come to that share a dash with the help flag. Help is reached unless a flag
behind it is unknown or lacks its value. -/
def sharedWithHelp (plainFollows : Bool) : List Char → Stop
  | [] => .help
  | c :: rest =>
    match Flag.ofName? ['-', c] with
    | some .help => sharedWithHelp plainFollows rest
    | some flag =>
      if rest.isEmpty && !plainFollows then .ofFlag flag "expected one argument" else .help
    | none =>
      .ofFlag .help
        ("ignored explicit argument " ++ String.ofList (Text.Quoted.encode (c :: rest)))

def stopOfHelp (short plainFollows : Bool) : Option (List Char) → Stop
  | none => .help
  | some attached =>
    if short && !attached.isEmpty then
      sharedWithHelp plainFollows attached
    else
      .ofFlag .help
        ("ignored explicit argument " ++ String.ofList (Text.Quoted.encode attached))

def plainFollows : List (String × Word) → Bool
  | (_, .plain) :: _ => true
  | _ => false

def take (d : Draft) : List (String × Word) → Except Stop Draft
  | [] => .ok d
  | (arg, .plain) :: rest =>
    match d.file with
    | some _ => take (d.refuse [arg]) rest
    | none =>
      match rest with
      | (_, .separator) :: others => .ok ({ d with file := some arg }.refuse (others.map Prod.fst))
      | _ => take { d with file := some arg } rest
  | (arg, .unknown) :: rest => take (d.refuse [arg]) rest
  | (arg, .separator) :: rest =>
    match d.file, rest with
    | none, [] => .ok d
    | none, (file, _) :: others => .ok ({ d with file := some file }.refuse (others.map Prod.fst))
    | some _, rest => .ok (d.refuse (arg :: rest.map Prod.fst))
  | (_, .flag .help short attached) :: rest =>
    .error (stopOfHelp short (plainFollows rest) attached)
  | (_, .flag flag _ (some value)) :: rest => do
    let d ← d.set flag value
    take d rest
  | (_, .flag flag _ none) :: (value, .plain) :: rest => do
    let d ← d.set flag value.toList
    take d rest
  | (_, .flag flag _ none) :: _ => .error (.ofFlag flag "expected one argument")

def recordOfArguments (args : List String) : Except Stop Record := do
  let words ← classifyAll args
  let d ← take {} words
  if d.refused = [] then
    .ok d.record
  else
    .error (.usage ("unrecognized arguments: " ++ " ".intercalate d.refused))

end InfixArithmetic.CommandLine
