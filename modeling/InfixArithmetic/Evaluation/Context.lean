import InfixArithmetic.Evaluation.Literal
import InfixArithmetic.Evaluation.Source
import InfixArithmetic.Evaluation.Stacks
import InfixArithmetic.Text.Blank
/-!
# The evaluating machine

A `Context` is all that an evaluation reads and changes: the text under its cursor, the two
stacks, whether an operand is expected next, and the phase. A transition gives the next
context, or a `Failure` that keeps the context it leaves behind, since what a failing
transition did before it failed stays done.

`readToken` consumes one token. An operator first reduces every pending operator of its own
precedence or a higher one back to the nearest open group, which makes operators of equal
precedence group to the left. A minus where an operand is expected is a sign: it puts a zero
under itself and reduces nothing.
-/

namespace InfixArithmetic.Evaluation

open Text (isBlank)

inductive Phase where
  | scanning
  | reducing
  | done
  | failed
  deriving DecidableEq

structure Context where
  source : Source
  stack : Stacks := {}
  expectsOperand : Bool := true
  phase : Phase := .scanning

/-- A cause of failure and the context left behind. -/
structure Failure where
  error : EvalError
  context : Context

abbrev Transition := Except Failure Context

namespace Context

def ofText (text : List Char) : Context where
  source := .ofText text

def atEnd (c : Context) : Bool :=
  c.source.atEnd

def current (c : Context) : Except Failure Char :=
  match c.source.rest with
  | character :: _ => .ok character
  | [] => .error ⟨.endOfText, c⟩

def advance (c : Context) (n : Nat) : Context :=
  { c with source := c.source.advance n }

def withStacks (c : Context) (change : Except (EvalError × Stacks) Stacks) : Transition :=
  match change with
  | .ok stack => .ok { c with stack }
  | .error (error, stack) => .error ⟨error, { c with stack }⟩

def pushOperand (c : Context) (v : Int) : Context :=
  { c with stack := { c.stack with operands := v :: c.stack.operands } }

def pushPending (c : Context) (pending : Pending) : Context :=
  { c with
    stack := { c.stack with operators := pending :: c.stack.operators }
    expectsOperand := true }

def reduceTop (c : Context) : Transition :=
  c.withStacks c.stack.reduceTop

def reduceWhile (c : Context) (p : Pending → Bool) : Transition :=
  { c with phase := .reducing }.withStacks (c.stack.reduceWhile p)

/-- Reads the literal under the cursor onto the operands. A literal out of range leaves the
cursor on the digit that takes it there. -/
def readLiteral (c : Context) : Transition :=
  let literal := Literal.read c.source.rest
  match literal.value with
  | some n => .ok { (c.advance literal.length).pushOperand n with expectsOperand := false }
  | none => .error ⟨.integerOverflow, c.advance literal.length⟩

def openGroup (c : Context) : Context :=
  c.pushPending .group

def closeGroup (c : Context) : Transition := do
  let c ← c.reduceWhile Pending.isInner
  match c.stack.operators with
  | [] => .error ⟨.mismatchedParentheses, c⟩
  | _ :: operators =>
    .ok { c with
      stack := { c.stack with operators }
      expectsOperand := false
      phase := .scanning }

/-- Enters an operator: a sign where an operand is expected, a binary operator elsewhere. -/
def enterOperator (c : Context) (pending : Pending) : Transition :=
  if pending = .operator .sub ∧ c.expectsOperand then
    .ok ((c.pushOperand 0).pushPending pending)
  else do
    let c ← c.reduceWhile (Pending.yieldsTo pending.precedence)
    .ok ({ c with phase := .scanning }.pushPending pending)

def readToken (c : Context) : Transition :=
  match c.source.rest with
  | [] => .error ⟨.endOfText, c⟩
  | character :: _ =>
    if isBlank character then
      .ok (c.advance 1)
    else if character.isDigit then
      c.readLiteral
    else if character = '(' then
      .ok (c.openGroup.advance 1)
    else if character = ')' then
      (c.closeGroup).map (·.advance 1)
    else
      match Operator.ofChar? character with
      | some op => (c.enterOperator (.operator op)).map (·.advance 1)
      | none => .error ⟨.invalidCharacter character, c⟩

def reduceAll (c : Context) : Transition := do
  let c ← c.reduceWhile Pending.isInner
  match c.stack.operators with
  | [] => .ok c
  | _ :: _ => .error ⟨.mismatchedParentheses, c⟩

def conclude (c : Context) : Except Failure (Int × Context) :=
  match c.stack.operands with
  | [v] => .ok (v, { c with phase := .done })
  | _ => .error ⟨.invalidExpression, c⟩

end Context

end InfixArithmetic.Evaluation
