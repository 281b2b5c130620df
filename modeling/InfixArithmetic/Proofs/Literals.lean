import InfixArithmetic.Evaluation.Literal
import Mathlib.Data.List.TakeWhile
/-!
# The value of a literal

Reading stops at the first digit that leaves the range, so it never looks at the whole run
when that is too large. The running value only grows, hence the early stop answers the same
question as the value of the whole run: `value_read`.
-/

namespace InfixArithmetic.Evaluation.Literal

open Text.Decimal (digitValue ofDigits ofDigitsFrom)

theorem ofDigitsFrom_cons (value : Nat) (c : Char) (run : List Char) :
    ofDigitsFrom value (c :: run) = ofDigitsFrom (value * 10 + digitValue c) run := by
  simp only [ofDigitsFrom, List.foldl_cons]

theorem le_ofDigitsFrom (value : Nat) (run : List Char) : value ≤ ofDigitsFrom value run := by
  induction run generalizing value with
  | nil => exact Nat.le_refl _
  | cons c run ih =>
    have hnext := ih (value * 10 + digitValue c)
    rw [ofDigitsFrom_cons]
    omega

theorem readFrom_of_le {value length : Nat} {text : List Char}
    (hle : (ofDigitsFrom value (text.takeWhile Char.isDigit) : Int) ≤ maxValue) :
    readFrom value length text =
      ⟨length + (text.takeWhile Char.isDigit).length,
        some (ofDigitsFrom value (text.takeWhile Char.isDigit))⟩ := by
  induction text generalizing value length with
  | nil => rfl
  | cons c rest ih =>
    by_cases hdigit : c.isDigit = true
    · rw [List.takeWhile_cons_of_pos hdigit, ofDigitsFrom_cons] at hle
      have hgrows := le_ofDigitsFrom (value * 10 + digitValue c) (rest.takeWhile Char.isDigit)
      have hfits : ¬ maxValue < ((value * 10 + digitValue c : Nat) : Int) := by omega
      rw [List.takeWhile_cons_of_pos hdigit, ofDigitsFrom_cons]
      simp only [readFrom, hdigit, ↓reduceIte, if_neg hfits, ih hle, List.length_cons]
      congr 1
      omega
    · rw [List.takeWhile_cons_of_neg hdigit]
      simp only [readFrom, hdigit]
      rfl

theorem value_readFrom_of_lt {value length : Nat} {text : List Char}
    (hvalue : (value : Int) ≤ maxValue)
    (hlt : maxValue < (ofDigitsFrom value (text.takeWhile Char.isDigit) : Int)) :
    (readFrom value length text).value = none := by
  induction text generalizing value length with
  | nil => exact absurd hvalue (by simpa [ofDigitsFrom] using hlt)
  | cons c rest ih =>
    by_cases hdigit : c.isDigit = true
    · rw [List.takeWhile_cons_of_pos hdigit, ofDigitsFrom_cons] at hlt
      simp only [readFrom, hdigit, ↓reduceIte]
      by_cases hfits : maxValue < ((value * 10 + digitValue c : Nat) : Int)
      · rw [if_pos hfits]
      · rw [if_neg hfits]
        exact ih (by omega) hlt
    · rw [List.takeWhile_cons_of_neg hdigit] at hlt
      exact absurd hvalue (by simpa [ofDigitsFrom] using hlt)

theorem value_read (text : List Char) :
    (read text).value =
      if (ofDigits (text.takeWhile Char.isDigit) : Int) ≤ maxValue then
        some (ofDigits (text.takeWhile Char.isDigit))
      else none := by
  by_cases hle : (ofDigits (text.takeWhile Char.isDigit) : Int) ≤ maxValue
  · rw [if_pos hle, read, readFrom_of_le hle]
    rfl
  · rw [if_neg hle, read]
    exact value_readFrom_of_lt (by decide) (Int.not_le.1 hle)

theorem length_read {text : List Char}
    (hle : (ofDigits (text.takeWhile Char.isDigit) : Int) ≤ maxValue) :
    (read text).length = (text.takeWhile Char.isDigit).length := by
  rw [read, readFrom_of_le hle, Nat.zero_add]

theorem readFrom_cons_of_fits {value length : Nat} {c : Char} (hdigit : c.isDigit = true)
    (hfits : ¬ maxValue < ((value * 10 + digitValue c : Nat) : Int)) (rest : List Char) :
    readFrom value length (c :: rest) =
      readFrom (value * 10 + digitValue c) (length + 1) rest := by
  simp only [readFrom, hdigit, hfits, ↓reduceIte]

theorem readFrom_cons_of_not_isDigit {value length : Nat} {c : Char} (hchar : ¬ c.isDigit = true)
    (rest : List Char) : readFrom value length (c :: rest) = ⟨length, some value⟩ := by
  simp only [readFrom, hchar]
  rfl

theorem exists_digit_of_readFrom {value length : Nat} {text : List Char}
    (hvalue : (value : Int) ≤ maxValue) (hnone : (readFrom value length text).value = none) :
    ∃ run c back, text = run ++ c :: back ∧ (∀ d ∈ run, d.isDigit = true) ∧ c.isDigit = true ∧
      (readFrom value length text).length = length + run.length ∧
      (ofDigitsFrom value run : Int) ≤ maxValue ∧
      maxValue < (ofDigitsFrom value (run ++ [c]) : Int) := by
  induction text generalizing value length with
  | nil => cases hnone
  | cons c rest ih =>
    by_cases hdigit : c.isDigit = true
    · by_cases hfits : maxValue < ((value * 10 + digitValue c : Nat) : Int)
      · refine ⟨[], c, rest, rfl, List.forall_mem_nil _, hdigit, ?_, hvalue, ?_⟩
        · simp only [readFrom, hdigit, hfits, ↓reduceIte, List.length_nil, Nat.add_zero]
        · rwa [List.nil_append, ofDigitsFrom_cons]
      · rw [readFrom_cons_of_fits hdigit hfits] at hnone ⊢
        obtain ⟨run, d, back, rfl, hrun, hd, hlength, hle, hlt⟩ := ih (Int.not_lt.1 hfits) hnone
        refine ⟨c :: run, d, back, rfl, List.forall_mem_cons.2 ⟨hdigit, hrun⟩, hd, ?_, ?_, ?_⟩
        · rw [hlength, List.length_cons]
          omega
        · rwa [ofDigitsFrom_cons]
        · rwa [List.cons_append, ofDigitsFrom_cons]
    · rw [readFrom_cons_of_not_isDigit hdigit] at hnone
      cases hnone

theorem ofDigits_le_of_prefix {shorter run : List Char} (hfront : shorter <+: run) :
    ofDigits shorter ≤ ofDigits run := by
  obtain ⟨more, rfl⟩ := hfront
  rw [ofDigits, ofDigits, ofDigitsFrom, ofDigitsFrom, List.foldl_append]
  exact le_ofDigitsFrom _ more

end InfixArithmetic.Evaluation.Literal
