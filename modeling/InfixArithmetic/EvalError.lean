/-!
# Why an evaluation fails

`EvalError` names every cause; `ErrorKind` arranges the failures of an evaluation by
generality. The last two causes belong to no evaluation: they answer a request that the
state of the machine cannot meet, a character past the end of the text or an operator from
an empty stack.
-/

namespace InfixArithmetic

/-- The kinds of failure. `evaluation` is the general one and every other refines it. -/
inductive ErrorKind where
  | evaluation
  | invalidCharacter
  | mismatchedParentheses
  | divisionByZero
  | invalidExpression
  | stackUnderflow
  | unknownOperator
  | integerOverflow
  deriving DecidableEq

namespace ErrorKind

def ancestors : ErrorKind → List ErrorKind
  | evaluation => [evaluation]
  | stackUnderflow => [stackUnderflow, invalidExpression, evaluation]
  | kind => [kind, evaluation]

def standardMessage : ErrorKind → String
  | evaluation => "Evaluation failed"
  | invalidCharacter => "Invalid character"
  | mismatchedParentheses => "Mismatched parentheses"
  | divisionByZero => "Division by zero"
  | invalidExpression => "Invalid expression"
  | stackUnderflow => "Invalid expression: not enough operands"
  | unknownOperator => "Unknown operator"
  | integerOverflow => "Integer overflow"

def carriesSubject : ErrorKind → Bool
  | invalidCharacter | unknownOperator => true
  | _ => false

/-- The message of a failure with a detail. A kind that carries a subject always names it;
any other kind gives way to the detail unless that is missing or empty. -/
def message (kind : ErrorKind) (detail : Option String) : String :=
  if kind.carriesSubject then
    kind.standardMessage ++ ": " ++ detail.getD "None"
  else
    match detail with
    | none | some "" => kind.standardMessage
    | some text => text

end ErrorKind

inductive EvalError where
  | invalidCharacter (character : Char)
  | mismatchedParentheses
  | divisionByZero
  | integerOverflow
  | stackUnderflow
  | invalidExpression
  | unknownOperator (symbol : String)
  /-- A character is asked for past the end of the text. -/
  | endOfText
  /-- An operator is asked for and none is pending. -/
  | noOperator
  deriving DecidableEq

namespace EvalError

/-- The kind of a failed evaluation; the two misplaced requests have none. -/
def kind? : EvalError → Option ErrorKind
  | invalidCharacter _ => some .invalidCharacter
  | mismatchedParentheses => some .mismatchedParentheses
  | divisionByZero => some .divisionByZero
  | integerOverflow => some .integerOverflow
  | stackUnderflow => some .stackUnderflow
  | invalidExpression => some .invalidExpression
  | unknownOperator _ => some .unknownOperator
  | endOfText | noOperator => none

def isFailure (e : EvalError) : Bool :=
  e.kind?.isSome

def subject? : EvalError → Option String
  | invalidCharacter character => some (String.singleton character)
  | unknownOperator symbol => some symbol
  | _ => none

def message (e : EvalError) : String :=
  match e with
  | endOfText => "string index out of range"
  | noOperator => "pop from empty list"
  | _ => (e.kind?.getD .evaluation).message e.subject?

end EvalError

end InfixArithmetic
