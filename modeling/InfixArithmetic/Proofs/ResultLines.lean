import InfixArithmetic.Proofs.LineBreaks
import InfixArithmetic.Proofs.Margins
import InfixArithmetic.Proofs.Workers
import Mathlib.Data.List.Infix
/-!
# The lines of a results file

A results file holds one line an outcome. No expression of a file has a line break in it, and its
value or its message adds none, so that the file cut into lines gives the outcomes back as they were
described: `lines_results`. A line holds the failure mark exactly if its outcome has failed. Where
an expression has a value, the evaluator has read all of its characters, and none of them is the
arrowhead of the mark: `marked_rowOf_iff`.
-/

namespace InfixArithmetic

open Evaluation Text

def failureMark : List Char :=
  " -> ERROR: ".toList

def Marked (row : List Char) : Prop :=
  failureMark <:+: row

instance : DecidablePred Marked :=
  fun row => inferInstanceAs (Decidable (failureMark <:+: row))

namespace Text

theorem isDigit_or_minus_of_mem_ofInt {v : Int} {c : Char} (hc : c ∈ (Decimal.ofInt v).toList) :
    c = '-' ∨ c.isDigit = true := by
  unfold Decimal.ofInt at hc
  split at hc
  · rw [String.toList_ofList] at hc
    exact (List.mem_cons.1 hc).imp_right (Decimal.isDigit_of_mem_digits _ c)
  · rw [String.toList_ofList] at hc
    exact .inr (Decimal.isDigit_of_mem_digits _ c hc)

theorem isLineBreak_eq_false_of_isDigit {c : Char} (hdigit : c.isDigit = true) :
    isLineBreak c = false := by
  rw [← Bool.not_eq_true]
  intro hbreak
  have hspace := isSpace_of_isLineBreak hbreak
  rw [isSpace_eq_false_of_isDigit hdigit] at hspace
  cases hspace

theorem unbroken_ofInt (v : Int) : Unbroken (Decimal.ofInt v).toList := by
  intro c hc
  rcases isDigit_or_minus_of_mem_ofInt hc with rfl | hdigit
  · decide
  · exact isLineBreak_eq_false_of_isDigit hdigit

end Text

namespace Batch

def rowOf (expression : String) : List Char :=
  (Outcome.ofExpression expression).describe.toList

variable {expression : String} {v : Int} {e : EvalError}

theorem rowOf_of_ok (hvalue : evaluate expression = .ok v) :
    rowOf expression = expression.toList ++ " = ".toList ++ (Decimal.ofInt v).toList := by
  have hdescribe : (Outcome.ofExpression expression).describe =
      expression ++ " = " ++ Decimal.ofInt v := by
    rw [Outcome.ofExpression_of_ok hvalue]
    rfl
  rw [rowOf, hdescribe, String.toList_append, String.toList_append]

theorem rowOf_of_error (herror : evaluate expression = .error e) :
    rowOf expression = expression.toList ++ failureMark ++ e.message.toList := by
  have hdescribe : (Outcome.ofExpression expression).describe =
      expression ++ " -> ERROR: " ++ e.message := by
    rw [Outcome.ofExpression_of_error herror]
    rfl
  rw [rowOf, hdescribe, String.toList_append, String.toList_append]
  rfl

theorem not_marked_of_ok (hvalue : evaluate expression = .ok v) : ¬ Marked (rowOf expression) := by
  intro hmarked
  have harrow : '>' ∈ rowOf expression := hmarked.subset (by decide)
  simp only [rowOf_of_ok hvalue, List.mem_append] at harrow
  rcases harrow with (hexpression | hsign) | hdigits
  · have hforeign : isForeign '>' = true := by decide
    rw [isForeign_eq_false_of_evaluate hvalue _ hexpression] at hforeign
    cases hforeign
  · exact absurd hsign (by decide)
  · exact absurd (isDigit_or_minus_of_mem_ofInt hdigits) (by decide)

theorem marked_of_error (herror : evaluate expression = .error e) : Marked (rowOf expression) := by
  rw [rowOf_of_error herror]
  exact List.infix_append expression.toList failureMark e.message.toList

/-- A line holds the failure mark exactly if its outcome has failed. -/
theorem marked_rowOf_iff (expression : String) :
    Marked (rowOf expression) ↔ (Outcome.ofExpression expression).ok = false := by
  cases hresult : evaluate expression with
  | ok v =>
    refine iff_of_false (not_marked_of_ok hresult) ?_
    rw [(Outcome.ok_ofExpression_iff expression).2 ⟨v, hresult⟩]
    exact Bool.false_ne_true.symm
  | error e =>
    refine iff_of_true (marked_of_error hresult) ?_
    rw [Outcome.ofExpression_of_error hresult]
    rfl

theorem unbroken_message (herror : evaluate expression = .error e)
    (hexpression : Unbroken expression.toList) : Unbroken e.message.toList := by
  have hplain : ∀ message ∈ plainMessages, Unbroken message.toList := by decide
  rcases message_of_evaluate herror with hmem | ⟨c, hc, hmessage⟩
  · exact hplain _ hmem
  · rw [hmessage, String.toList_append, unbroken_append]
    refine ⟨by decide, fun d hd => ?_⟩
    rw [String.toList_singleton, List.mem_singleton] at hd
    exact hd ▸ hexpression c hc

theorem unbroken_rowOf (hexpression : Unbroken expression.toList) :
    Unbroken (rowOf expression) := by
  cases hresult : evaluate expression with
  | ok v =>
    simp only [rowOf_of_ok hresult, unbroken_append]
    exact ⟨⟨hexpression, by decide⟩, unbroken_ofInt v⟩
  | error e =>
    simp only [rowOf_of_error hresult, unbroken_append]
    exact ⟨⟨hexpression, by decide⟩, unbroken_message hresult hexpression⟩

theorem unbroken_of_mem_expressions {bytes : List UInt8}
    (hmem : expression ∈ expressions bytes) : Unbroken expression.toList := by
  obtain ⟨line, hline, rfl⟩ := mem_expressionsOfText_iff.1 hmem
  rw [String.toList_ofList]
  exact fun c hc => unbroken_of_mem_filledLines hline c (mem_of_mem_trimBy hc)

theorem toList_results (input output : String) (bytes : List UInt8) :
    (reportOf input output bytes).results.toList =
      ((expressions bytes).map rowOf).flatMap (· ++ ['\n']) := by
  simp only [reportOf, Report.ofOutcomes, String.toList_join, List.flatMap_map,
    String.toList_append]
  rfl

theorem lines_results (input output : String) (bytes : List UInt8) :
    lines (reportOf input output bytes).results.toList = (expressions bytes).map rowOf := by
  rw [toList_results]
  apply lines_rows
  intro row hrow
  obtain ⟨expression, hmem, rfl⟩ := List.mem_map.1 hrow
  exact unbroken_rowOf (unbroken_of_mem_expressions hmem)

end Batch

end InfixArithmetic
