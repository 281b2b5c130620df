import InfixArithmetic.Text.DecimalDigit
/-!
# Telling arguments apart

Each argument of a command line is told apart on its own: plain arguments, flags with or
without a value attached, unknown options, and the pair of dashes after which all is plain. A
long name may be cut short as long as it stays unique. An argument with a dash in front is
still plain if it is a lone dash, a negative number, or no option and has a space in it.
-/

namespace InfixArithmetic.CommandLine

inductive Flag where
  | help
  | expression
  | workers
  deriving DecidableEq

namespace Flag

def names : Flag → List String
  | help => ["-h", "--help"]
  | expression => ["-e", "--expression"]
  | workers => ["--workers"]

def title (flag : Flag) : String :=
  "/".intercalate flag.names

/-- Every name with its flag, in the order of the help text. -/
def table : List (String × Flag) :=
  [help, expression, workers].flatMap fun flag => flag.names.map (·, flag)

def ofName? (name : List Char) : Option Flag :=
  (table.find? fun entry => entry.1.toList == name).map (·.2)

end Flag

inductive Stop where
  | help
  | usage (message : String)

def Stop.ofFlag (flag : Flag) (complaint : String) : Stop :=
  .usage ("argument " ++ flag.title ++ ": " ++ complaint)

inductive Word where
  | plain
  | separator
  | unknown
  | flag (flag : Flag) (short : Bool) (attached : Option (List Char))

def cutAtEquals (arg : List Char) : List Char × Option (List Char) :=
  match arg.span (· != '=') with
  | (name, _ :: value) => (name, some value)
  | (name, []) => (name, none)

/-- Reads decimal digits of any script; gives what follows them, and whether there were any. -/
def skipDigits (text : List Char) : Bool × List Char :=
  let digits := text.takeWhile fun c => (Text.decimalValue? c).isSome
  (!digits.isEmpty, text.drop digits.length)

/-- Whether an argument is a negative number: a dash, digits, and perhaps a point with digits
behind it. The digits in front of a point may be missing; one line feed may end the number. -/
def isNegativeNumber (arg : List Char) : Bool :=
  let atEnd (text : List Char) : Bool := text == [] || text == ['\n']
  match arg with
  | '-' :: number =>
    match skipDigits number with
    | (found, rest) =>
      match rest with
      | '.' :: fraction => (skipDigits fraction).1 && atEnd (skipDigits fraction).2
      | rest => found && atEnd rest
  | _ => false

def isShort (name : List Char) : Bool :=
  name.length == 2

def abbreviated (arg : List Char) : List (String × Word) :=
  let (start, attached) := cutAtEquals arg
  (Flag.table.filter fun entry => start.isPrefixOf entry.1.toList).map fun (name, flag) =>
    (name, .flag flag (isShort name.toList) attached)

def joined (arg : List Char) : List (String × Word) :=
  (Flag.table.filter fun entry => arg.take 2 == entry.1.toList).map fun (name, flag) =>
    (name, .flag flag true (some (arg.drop 2)))

def classifyOther (arg : List Char) : Except Stop Word :=
  let candidates := if ['-', '-'].isPrefixOf arg then abbreviated arg else joined arg
  match candidates with
  | [(_, word)] => .ok word
  | [] => .ok (if isNegativeNumber arg || arg.contains ' ' then .plain else .unknown)
  | _ =>
    .error (.usage ("ambiguous option: " ++ String.ofList arg ++ " could match " ++
      ", ".intercalate (candidates.map (·.1))))

/-- Tells what an argument is that stands in front of any separator. -/
def classify (arg : List Char) : Except Stop Word :=
  match arg with
  | '-' :: _ :: _ =>
    match Flag.ofName? arg, cutAtEquals arg with
    | some flag, _ => .ok (.flag flag (isShort arg) none)
    | none, (name, some value) =>
      match Flag.ofName? name with
      | some flag => .ok (.flag flag (isShort name) (some value))
      | none => classifyOther arg
    | none, (_, none) => classifyOther arg
  | _ => .ok .plain

def classifyAll : List String → Except Stop (List (String × Word))
  | [] => .ok []
  | arg :: rest =>
    if arg = "--" then
      .ok ((arg, .separator) :: rest.map (·, .plain))
    else do
      let word ← classify arg.toList
      let words ← classifyAll rest
      .ok ((arg, word) :: words)

end InfixArithmetic.CommandLine
