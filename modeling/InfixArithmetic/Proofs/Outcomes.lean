import InfixArithmetic.Outcome
import InfixArithmetic.Proofs.FirstFailure
import InfixArithmetic.Proofs.Range
/-!
# Every expression has an outcome

An evaluation never makes a misplaced request and never applies a symbol that is no operator:
whatever the text, it gives a value in range or one of six kinds of failure
(`FirstFailure`, `Range`). So `calculate` passes nothing on, and the records that it would build
from a value or a message are the outcomes that it returns: `calculate_answers`.
-/

namespace InfixArithmetic

open Evaluation

def possibleKinds : List ErrorKind :=
  [.invalidCharacter, .mismatchedParentheses, .divisionByZero, .integerOverflow,
    .stackUnderflow, .invalidExpression]

/-- What is told of a failure that names no character. -/
def plainMessages : List String :=
  ["Mismatched parentheses", "Division by zero", "Integer overflow",
    "Invalid expression: not enough operands", "Invalid expression"]

theorem map_message_plainFailures : plainFailures.map EvalError.message = plainMessages := by
  decide

theorem message_invalidCharacter (c : Char) :
    (EvalError.invalidCharacter c).message = "Invalid character: " ++ String.singleton c :=
  rfl

theorem exists_kind_of_evaluate {expression : String} {e : EvalError}
    (herror : evaluate expression = .error e) : ∃ kind ∈ possibleKinds, e.kind? = some kind := by
  have hplain : ∀ e ∈ plainFailures, ∃ kind ∈ possibleKinds, e.kind? = some kind := by decide
  rcases cause_of_evaluate herror with hmem | ⟨c, -, rfl⟩
  · exact hplain e hmem
  · exact ⟨.invalidCharacter, by decide, rfl⟩

theorem message_of_evaluate {expression : String} {e : EvalError}
    (herror : evaluate expression = .error e) :
    e.message ∈ plainMessages ∨
      ∃ c ∈ expression.toList, e.message = "Invalid character: " ++ String.singleton c := by
  rcases cause_of_evaluate herror with hmem | ⟨c, hc, rfl⟩
  · rw [← map_message_plainFailures]
    exact .inl (List.mem_map_of_mem hmem)
  · exact .inr ⟨c, hc, message_invalidCharacter c⟩

theorem calculate_of_ok {expression : String} {v : Int} (hvalue : evaluate expression = .ok v) :
    calculate expression = .ok ⟨expression, .ok v⟩ := by
  rw [calculate, hvalue]

theorem calculate_of_error {expression : String} {e : EvalError}
    (herror : evaluate expression = .error e) :
    calculate expression = .ok ⟨expression, .error e.message⟩ := by
  obtain ⟨kind, -, hkind⟩ := exists_kind_of_evaluate herror
  have hfailure : e.isFailure = true := by rw [EvalError.isFailure, hkind]; rfl
  rw [calculate, herror]
  exact if_pos hfailure

namespace Outcome

theorem ofRecord_value (expression : String) (v : Int) :
    ofRecord [("expression", .text expression), ("result", .int v)] =
      .ok ⟨expression, .ok v⟩ :=
  rfl

theorem ofRecord_error (expression message : String) :
    ofRecord [("expression", .text expression), ("error", .text message)] =
      .ok ⟨expression, .error message⟩ :=
  rfl

theorem isSome_value?_iff (o : Outcome) : o.value?.isSome = true ↔ o.error? = none := by
  obtain ⟨expression, answer⟩ := o
  cases answer with
  | ok v => exact ⟨fun _ => rfl, fun _ => rfl⟩
  | error message => exact ⟨nofun, nofun⟩

end Outcome

/-- Every expression has an outcome, which keeps the expression and holds either its value, which
lies in the range, or the message of one of six kinds of failure, and passes its own check. -/
theorem calculate_answers (expression : String) :
    ∃ o, calculate expression = .ok o ∧ o.expression = expression ∧
      (o.value?.isSome = true ↔ o.error? = none) ∧
      (o.ok = true ↔ ∃ v, evaluate expression = .ok v) ∧
      (∀ v, evaluate expression = .ok v →
        Outcome.ofRecord [("expression", .text expression), ("result", .int v)] = .ok o ∧
          o.value? = some v ∧ InRange v) ∧
      ∀ e, evaluate expression = .error e →
        Outcome.ofRecord [("expression", .text expression), ("error", .text e.message)] = .ok o ∧
          o.error? = some e.message ∧
          (∃ kind ∈ possibleKinds, e.kind? = some kind) ∧
          (e.message ∈ plainMessages ∨
            ∃ c ∈ expression.toList, e.message = "Invalid character: " ++ String.singleton c) := by
  cases hresult : evaluate expression with
  | ok v =>
    refine ⟨⟨expression, .ok v⟩, calculate_of_ok hresult, rfl, Outcome.isSome_value?_iff _,
      iff_of_true rfl ⟨v, rfl⟩, ?_, nofun⟩
    intro w hw
    cases hw
    exact ⟨Outcome.ofRecord_value expression v, rfl, inRange_of_evaluate hresult⟩
  | error e =>
    refine ⟨⟨expression, .error e.message⟩, calculate_of_error hresult, rfl,
      Outcome.isSome_value?_iff _, iff_of_false Bool.false_ne_true nofun, nofun, ?_⟩
    intro other hother
    cases hother
    exact ⟨Outcome.ofRecord_error expression e.message, rfl, exists_kind_of_evaluate hresult,
      message_of_evaluate hresult⟩

theorem calculate_answers_quotient :
    (∃ o, calculate "7/(0-2)" = .ok o ∧ o.value? = some (-3) ∧ InRange (-3)) ∧
      ∃ o, calculate "7/(2-2)" = .ok o ∧ o.error? = some "Division by zero" := by
  have hvalue : evaluate "7/(0-2)" = .ok (-3) := by decide +kernel
  have herror : evaluate "7/(2-2)" = .error .divisionByZero := by decide +kernel
  obtain ⟨o, ho, -, -, -, hok, -⟩ := calculate_answers "7/(0-2)"
  obtain ⟨f, hf, -, -, -, -, hfailed⟩ := calculate_answers "7/(2-2)"
  exact ⟨⟨o, ho, (hok _ hvalue).2⟩, ⟨f, hf, (hfailed _ herror).2.1⟩⟩

end InfixArithmetic
