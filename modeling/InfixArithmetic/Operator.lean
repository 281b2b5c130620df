import InfixArithmetic.Bounds
/-!
# The four operators

An operator has a symbol, a precedence and an exact meaning on integers; `Operator.apply`
is that meaning followed by the range check. Division truncates toward zero.
-/

namespace InfixArithmetic

inductive Operator where
  | add
  | sub
  | mul
  | div
  deriving DecidableEq

/-- The quotient of the magnitudes, with a minus where dividend and divisor differ in sign. -/
def signedQuotient (a b : Int) : Int :=
  let magnitude : Int := (a.natAbs / b.natAbs : Nat)
  if a < 0 ↔ b < 0 then magnitude else -magnitude

def truncatedQuotient (a b : Int) : Except EvalError Int :=
  if b = 0 then .error .divisionByZero else .ok (signedQuotient a b)

theorem signedQuotient_eq_tdiv (a b : Int) : signedQuotient a b = a.tdiv b := by
  have hofNat (n : Nat) : ¬ Int.ofNat n < 0 := Int.not_lt.2 (Int.natCast_nonneg n)
  cases a with
  | ofNat m =>
    cases b with
    | ofNat n =>
      rw [signedQuotient, if_pos (iff_of_false (hofNat m) (hofNat n))]
      rfl
    | negSucc n =>
      rw [signedQuotient, if_neg fun hsame => hofNat m (hsame.2 (Int.negSucc_lt_zero n))]
      rfl
  | negSucc m =>
    cases b with
    | ofNat n =>
      rw [signedQuotient, if_neg fun hsame => hofNat n (hsame.1 (Int.negSucc_lt_zero m))]
      rfl
    | negSucc n =>
      rw [signedQuotient, if_pos (iff_of_true (Int.negSucc_lt_zero m) (Int.negSucc_lt_zero n))]
      rfl

section

variable {a b q : Int} {e : EvalError}

theorem truncatedQuotient_eq_ok_iff : truncatedQuotient a b = .ok q ↔ b ≠ 0 ∧ a.tdiv b = q := by
  by_cases hzero : b = 0
  · simp [truncatedQuotient, hzero]
  · simp [truncatedQuotient, hzero, signedQuotient_eq_tdiv]

theorem truncatedQuotient_eq_error_iff :
    truncatedQuotient a b = .error e ↔ b = 0 ∧ e = .divisionByZero := by
  by_cases hzero : b = 0
  · simp [truncatedQuotient, hzero, eq_comm]
  · simp [truncatedQuotient, hzero]

end

theorem truncatedQuotient_neg_left (a b : Int) :
    truncatedQuotient (-a) b = (truncatedQuotient a b).map fun q => -q := by
  cases hquotient : truncatedQuotient a b with
  | error e =>
    obtain ⟨rfl, rfl⟩ := truncatedQuotient_eq_error_iff.1 hquotient
    rfl
  | ok q =>
    obtain ⟨hb, rfl⟩ := truncatedQuotient_eq_ok_iff.1 hquotient
    exact truncatedQuotient_eq_ok_iff.2 ⟨hb, Int.neg_tdiv a b⟩

theorem truncatedQuotient_neg_right (a b : Int) :
    truncatedQuotient a (-b) = (truncatedQuotient a b).map fun q => -q := by
  cases hquotient : truncatedQuotient a b with
  | error e =>
    obtain ⟨rfl, rfl⟩ := truncatedQuotient_eq_error_iff.1 hquotient
    rfl
  | ok q =>
    obtain ⟨hb, rfl⟩ := truncatedQuotient_eq_ok_iff.1 hquotient
    exact truncatedQuotient_eq_ok_iff.2 ⟨Int.neg_ne_zero.2 hb, Int.tdiv_neg a b⟩

namespace Operator

def symbol : Operator → Char
  | add => '+'
  | sub => '-'
  | mul => '*'
  | div => '/'

def ofChar? : Char → Option Operator
  | '+' => some add
  | '-' => some sub
  | '*' => some mul
  | '/' => some div
  | _ => none

def precedence : Operator → Nat
  | add | sub => 1
  | mul | div => 2

/-- The exact result, which may lie outside the range of values. -/
def exact : Operator → Int → Int → Except EvalError Int
  | add, a, b => .ok (a + b)
  | sub, a, b => .ok (a - b)
  | mul, a, b => .ok (a * b)
  | div, a, b => truncatedQuotient a b

def apply (op : Operator) (a b : Int) : Except EvalError Int :=
  op.exact a b >>= checked

theorem precedence_pos (op : Operator) : 0 < op.precedence := by
  cases op <;> decide

theorem precedence_le_two (op : Operator) : op.precedence ≤ 2 := by
  cases op <;> decide

theorem symbol_eq_of_ofChar?_eq_some {c : Char} {op : Operator} (hop : ofChar? c = some op) :
    op.symbol = c := by
  unfold ofChar? at hop
  split at hop <;> cases hop <;> rfl

end Operator

end InfixArithmetic
