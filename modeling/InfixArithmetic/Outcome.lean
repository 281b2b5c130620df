import InfixArithmetic.Evaluation.Run
import InfixArithmetic.Record.Check
/-!
# Outcomes

An outcome is an expression with either its value or the message of its failure, never
both. `calculate` evaluates an expression and turns every failed evaluation into an outcome.
-/

namespace InfixArithmetic

structure Outcome where
  expression : String
  answer : Except String Int

namespace Outcome

def ok (o : Outcome) : Bool :=
  o.answer.isOk

def value? (o : Outcome) : Option Int :=
  o.answer.toOption

def error? (o : Outcome) : Option String :=
  match o.answer with
  | .ok _ => none
  | .error message => some message

def describe (o : Outcome) : String :=
  match o.answer with
  | .ok v => o.expression ++ " = " ++ Text.Decimal.ofInt v
  | .error message => o.expression ++ " -> ERROR: " ++ message

/-- Reads an outcome off a record, which has to give a value or a message and not both. -/
def ofRecord (r : Record) : Checked Outcome := do
  let (expression, value, error) ← (r.check "expression" Record.requiredText).both
    ((r.check "result" Record.exactInteger).both (r.check "error" Record.optionalText))
  match value, error with
  | some v, none => .ok ⟨expression, .ok v⟩
  | none, some message => .ok ⟨expression, .error message⟩
  | _, _ => .conflict "Exactly one of 'result' or 'error' must be set"

def requestOfRecord (r : Record) : Checked String :=
  r.check "expression" Record.requiredText

end Outcome

/-- Evaluates an expression to an outcome. Only a misplaced request is passed on. -/
def calculate (expression : String) : Except EvalError Outcome :=
  match Evaluation.evaluate expression with
  | .ok v => .ok ⟨expression, .ok v⟩
  | .error e => if e.isFailure then .ok ⟨expression, .error e.message⟩ else .error e

def errorNotice (message : String) : String :=
  "Error: " ++ message

end InfixArithmetic
