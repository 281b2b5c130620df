import InfixArithmetic.EvalError
/-!
# The range of values

Values are the integers of a 32-bit word with sign. Arithmetic is exact and a result is
checked afterwards, so nothing ever wraps.
-/

namespace InfixArithmetic

def minValue : Int := -2147483648

def maxValue : Int := 2147483647

def InRange (n : Int) : Prop :=
  minValue ≤ n ∧ n ≤ maxValue

instance (n : Int) : Decidable (InRange n) :=
  inferInstanceAs (Decidable (_ ∧ _))

def checked (n : Int) : Except EvalError Int :=
  if InRange n then .ok n else .error .integerOverflow

theorem checked_eq_ok_iff {n v : Int} : checked n = .ok v ↔ n = v ∧ InRange v := by
  unfold checked
  split
  · rename_i hrange
    constructor
    · intro hok
      cases hok
      exact ⟨rfl, hrange⟩
    · rintro ⟨rfl, _⟩
      rfl
  · rename_i hrange
    constructor
    · intro hok
      cases hok
    · rintro ⟨rfl, hv⟩
      exact absurd hv hrange

theorem checked_eq_error_iff {n : Int} {e : EvalError} :
    checked n = .error e ↔ ¬ InRange n ∧ e = .integerOverflow := by
  unfold checked
  split
  · rename_i hrange
    constructor
    · intro herror
      cases herror
    · rintro ⟨hn, _⟩
      exact absurd hrange hn
  · rename_i hrange
    constructor
    · intro herror
      cases herror
      exact ⟨hrange, rfl⟩
    · rintro ⟨_, rfl⟩
      rfl

end InfixArithmetic
