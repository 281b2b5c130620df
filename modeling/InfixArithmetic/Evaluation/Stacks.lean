import InfixArithmetic.Operator
/-!
# Operands and pending operators

The two stacks of an evaluation, each with its top at the head of a list. `reduceTop` is
the only place where arithmetic is done; `reduceWhile` repeats it while the topmost
operator satisfies a condition. A failing reduction tells what it leaves behind: an
underflow leaves both stacks alone, any other failure has taken the operator away, and
arithmetic that fails has taken its two operands as well.
-/

namespace InfixArithmetic.Evaluation

/-- What may be pending: an open group, an operator, or a symbol that is neither. -/
inductive Pending where
  | group
  | operator (op : Operator)
  | unknown (symbol : String)
  deriving DecidableEq

namespace Pending

def ofSymbol : String → Pending
  | "(" => group
  | "+" => operator .add
  | "-" => operator .sub
  | "*" => operator .mul
  | "/" => operator .div
  | symbol => unknown symbol

def symbol : Pending → String
  | group => "("
  | operator op => String.singleton op.symbol
  | unknown symbol => symbol

def precedence : Pending → Nat
  | operator op => op.precedence
  | _ => 0

/-- Whether a symbol is pending inside a group rather than opening one. -/
def isInner : Pending → Bool
  | group => false
  | _ => true

def yieldsTo (precedence : Nat) (pending : Pending) : Bool :=
  pending.isInner && decide (precedence ≤ pending.precedence)

end Pending

/-- The operands and the pending operators, tops first. -/
structure Stacks where
  operands : List Int := []
  operators : List Pending := []

namespace Stacks

/-- Applies the topmost operator to the two topmost operands, the upper one on its right. -/
def reduceTop (s : Stacks) : Except (EvalError × Stacks) Stacks :=
  match s.operands, s.operators with
  | b :: a :: operands, top :: operators =>
    match top with
    | .operator op =>
      match op.apply a b with
      | .ok v => .ok ⟨v :: operands, operators⟩
      | .error e => .error (e, ⟨operands, operators⟩)
    | .group | .unknown _ => .error (.unknownOperator top.symbol, ⟨s.operands, operators⟩)
  | _ :: _ :: _, [] => .error (.noOperator, s)
  | _, _ => .error (.stackUnderflow, s)

theorem operators_reduceTop {s t : Stacks} (hok : s.reduceTop = .ok t) :
    ∃ top, s.operators = top :: t.operators := by
  unfold reduceTop at hok
  split at hok
  · rename_i top operators _ hoperators
    split at hok
    · split at hok
      · cases hok
        exact ⟨_, hoperators⟩
      · cases hok
    · cases hok
    · cases hok
  · cases hok
  · cases hok

/-- Reduces while the topmost of the given operators satisfies `p`. -/
def reduceOperators (p : Pending → Bool) :
    List Pending → List Int → Except (EvalError × Stacks) Stacks
  | [], operands => .ok ⟨operands, []⟩
  | top :: operators, operands =>
    if p top then
      match reduceTop ⟨operands, top :: operators⟩ with
      | .error failure => .error failure
      | .ok s => reduceOperators p operators s.operands
    else
      .ok ⟨operands, top :: operators⟩

def reduceWhile (p : Pending → Bool) (s : Stacks) : Except (EvalError × Stacks) Stacks :=
  reduceOperators p s.operators s.operands

theorem reduceWhile_of_operators_eq_nil {p : Pending → Bool} {s : Stacks}
    (hoperators : s.operators = []) : s.reduceWhile p = .ok s := by
  obtain ⟨operands, operators⟩ := s
  cases hoperators
  rfl

theorem reduceWhile_of_not {p : Pending → Bool} {s : Stacks} {top : Pending}
    {operators : List Pending} (hoperators : s.operators = top :: operators)
    (htop : p top = false) : s.reduceWhile p = .ok s := by
  obtain ⟨operands, _⟩ := s
  cases hoperators
  simp [reduceWhile, reduceOperators, htop]

theorem reduceWhile_of_pos {p : Pending → Bool} {s : Stacks} {top : Pending}
    {operators : List Pending} (hoperators : s.operators = top :: operators)
    (htop : p top = true) :
    s.reduceWhile p = s.reduceTop >>= (fun t => t.reduceWhile p) := by
  obtain ⟨operands, _⟩ := s
  cases hoperators
  cases hreduce : reduceTop ⟨operands, top :: operators⟩ with
  | error failure => simp [reduceWhile, reduceOperators, htop, hreduce, bind, Except.bind]
  | ok t =>
    obtain ⟨_, htail⟩ := operators_reduceTop hreduce
    cases htail
    simp [reduceWhile, reduceOperators, htop, hreduce, bind, Except.bind]

end Stacks

end InfixArithmetic.Evaluation
