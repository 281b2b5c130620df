import InfixArithmetic.Batch.Runner
import InfixArithmetic.Proofs.Outcomes
/-!
# Workers never show

Every expression has an outcome of its own, whoever evaluates it. So a batch comes down to the
outcomes of its expressions in their order, however many workers share it: `evaluate_eq_map`.
-/

namespace InfixArithmetic

open Evaluation

def Outcome.ofExpression (expression : String) : Outcome where
  expression
  answer :=
    match evaluate expression with
    | .ok v => .ok v
    | .error e => .error e.message

theorem Outcome.ofExpression_of_ok {expression : String} {v : Int}
    (hvalue : evaluate expression = .ok v) : ofExpression expression = ⟨expression, .ok v⟩ := by
  rw [ofExpression, hvalue]

theorem Outcome.ofExpression_of_error {expression : String} {e : EvalError}
    (herror : evaluate expression = .error e) :
    ofExpression expression = ⟨expression, .error e.message⟩ := by
  rw [ofExpression, herror]

theorem Outcome.ok_ofExpression_iff (expression : String) :
    (ofExpression expression).ok = true ↔ ∃ v, evaluate expression = .ok v := by
  cases hresult : evaluate expression with
  | ok v =>
    rw [ofExpression_of_ok hresult]
    exact iff_of_true rfl ⟨v, rfl⟩
  | error e =>
    rw [ofExpression_of_error hresult]
    exact iff_of_false Bool.false_ne_true nofun

theorem calculate_eq (expression : String) :
    calculate expression = .ok (Outcome.ofExpression expression) := by
  cases hresult : evaluate expression with
  | ok v => rw [calculate_of_ok hresult, Outcome.ofExpression_of_ok hresult]
  | error e => rw [calculate_of_error hresult, Outcome.ofExpression_of_error hresult]

namespace Batch

theorem mapM_calculate (expressions : List String) :
    expressions.mapM calculate = .ok (expressions.map Outcome.ofExpression) := by
  have hcalculate : calculate = fun expression => pure (Outcome.ofExpression expression) :=
    funext calculate_eq
  rw [hcalculate, List.mapM_pure]
  rfl

theorem evaluateShared_eq_map (crew : Nat) (expressions : List String) :
    Runner.evaluateShared crew expressions = .ok (expressions.map Outcome.ofExpression) := by
  have hshares : ∀ parts : List (List String),
      (parts.map fun share => Task.spawn fun _ => share.mapM calculate).mapM Task.get =
        .ok (parts.map (List.map Outcome.ofExpression)) := by
    intro parts
    have htask : (fun task => Task.get task) ∘
        (fun share : List String => Task.spawn fun _ => share.mapM calculate) =
        fun share => pure (share.map Outcome.ofExpression) :=
      funext mapM_calculate
    rw [List.mapM_map, htask, List.mapM_pure]
    rfl
  unfold Runner.evaluateShared
  dsimp only
  rw [hshares]
  change Except.ok (List.map _ (shares _ expressions)).flatten = _
  rw [← List.map_flatten, flatten_shares]

theorem evaluate_eq_map (runner : Runner) (expressions : List String) :
    runner.evaluate expressions = .ok (expressions.map Outcome.ofExpression) := by
  unfold Runner.evaluate
  dsimp only
  split
  · exact mapM_calculate expressions
  · exact evaluateShared_eq_map _ expressions

def reportOf (input output : String) (bytes : List UInt8) : Report :=
  Report.ofOutcomes input output ((expressions bytes).map Outcome.ofExpression)

theorem run_eq (runner : Runner) (input output : String) (bytes : List UInt8) :
    runner.run input output bytes = .ok (reportOf input output bytes) := by
  rw [Runner.run, evaluate_eq_map]
  rfl

end Batch

end InfixArithmetic
