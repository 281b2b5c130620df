import InfixArithmetic.Operator
/-!
# What the operators mean

The grammars and the two passes are compared with the evaluator, so they do not take the meaning of
an operator from it. Here the sums and the products are told apart by name and every result is
written out. The operators of the evaluator have the precedence and the results that this asks for:
`exact_eq_meaning`.
-/

namespace InfixArithmetic.Operator

inductive IsSum : Operator → Prop
  | add : IsSum .add
  | sub : IsSum .sub

inductive IsProduct : Operator → Prop
  | mul : IsProduct .mul
  | div : IsProduct .div

/-- The result on integers of any size; only a division by zero has none. -/
def meaning : Operator → Int → Int → Except EvalError Int
  | add, a, b => .ok (a + b)
  | sub, a, b => .ok (a - b)
  | mul, a, b => .ok (a * b)
  | div, a, b => if b = 0 then .error .divisionByZero else .ok (a.tdiv b)

theorem isSum_or_isProduct (op : Operator) : op.IsSum ∨ op.IsProduct := by
  cases op with
  | add => exact .inl .add
  | sub => exact .inl .sub
  | mul => exact .inr .mul
  | div => exact .inr .div

theorem IsSum.precedence {op : Operator} (hop : op.IsSum) : op.precedence = 1 := by
  cases hop with
  | add => rfl
  | sub => rfl

theorem IsProduct.precedence {op : Operator} (hop : op.IsProduct) : op.precedence = 2 := by
  cases hop with
  | mul => rfl
  | div => rfl

theorem exact_eq_meaning (op : Operator) (a b : Int) : op.exact a b = op.meaning a b := by
  cases op with
  | add => rfl
  | sub => rfl
  | mul => rfl
  | div => rw [exact, truncatedQuotient, signedQuotient_eq_tdiv, meaning]

theorem apply_eq_meaning (op : Operator) (a b : Int) :
    op.apply a b = op.meaning a b >>= checked := by
  rw [apply, exact_eq_meaning]

end InfixArithmetic.Operator
