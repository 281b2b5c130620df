import InfixArithmetic.Bounds
import InfixArithmetic.Text.Decimal
/-!
# Literals

A literal is a run of ASCII digits. It is read digit by digit, and reading stops in front of
the first digit that takes the value beyond the greatest one, so that no intermediate number
grows with the length of the run.
-/

namespace InfixArithmetic.Evaluation

open Text (Decimal.digitValue)

/-- How many digits of a run have been read, and the value of the run unless its next digit
takes that beyond the range. -/
structure Literal where
  length : Nat
  value : Option Nat

namespace Literal

def readFrom (value length : Nat) : List Char → Literal
  | [] => ⟨length, some value⟩
  | c :: rest =>
    if c.isDigit then
      let next := value * 10 + Decimal.digitValue c
      if maxValue < next then ⟨length, none⟩ else readFrom next (length + 1) rest
    else
      ⟨length, some value⟩

/-- The literal at the start of a text; without a digit there it is empty and worth zero. -/
def read (text : List Char) : Literal :=
  readFrom 0 0 text

theorem le_length_readFrom (value length : Nat) (text : List Char) :
    length ≤ (readFrom value length text).length := by
  induction text generalizing value length with
  | nil => exact Nat.le_refl _
  | cons c rest ih =>
    simp only [readFrom]
    split
    · split
      · exact Nat.le_refl _
      · exact Nat.le_of_succ_le (ih _ _)
    · exact Nat.le_refl _

theorem length_readFrom_le (value length : Nat) (text : List Char) :
    (readFrom value length text).length ≤ length + text.length := by
  induction text generalizing value length with
  | nil => exact Nat.le_refl _
  | cons c rest ih =>
    simp only [readFrom, List.length_cons]
    split
    · split
      · exact Nat.le_add_right _ _
      · have hrest := ih (value * 10 + Decimal.digitValue c) (length + 1)
        omega
    · exact Nat.le_add_right _ _

theorem length_read_le (text : List Char) : (read text).length ≤ text.length := by
  have hle := length_readFrom_le 0 0 text
  rwa [Nat.zero_add] at hle

theorem length_read_pos {c : Char} {rest : List Char} {n : Nat} (hdigit : c.isDigit = true)
    (hvalue : (read (c :: rest)).value = some n) : 0 < (read (c :: rest)).length := by
  simp only [read, readFrom, hdigit, ↓reduceIte] at hvalue ⊢
  split at hvalue
  · cases hvalue
  · rename_i hfits
    rw [if_neg hfits]
    exact le_length_readFrom _ _ _

end Literal

end InfixArithmetic.Evaluation
