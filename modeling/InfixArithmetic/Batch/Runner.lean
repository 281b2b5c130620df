import InfixArithmetic.Batch.Expressions
import InfixArithmetic.Batch.Summary
import InfixArithmetic.Log.Entry
import InfixArithmetic.Outcome
import InfixArithmetic.Text.Quoted
/-!
# Running a batch

A runner evaluates many expressions, alone or with several workers. Workers take consecutive
shares of the expressions and their outcomes are put together in the order of the shares, so
that the number of workers never shows. A run gives the text of the results file, the entries
of the log and the summary together.
-/

namespace InfixArithmetic.Batch

/-- Cuts a list into consecutive shares of `size + 1` items, the last one perhaps shorter. -/
def shares {α : Type} (size : Nat) (items : List α) : List (List α) :=
  match items with
  | [] => []
  | first :: rest => (first :: rest.take size) :: shares size (rest.drop size)
termination_by items.length
decreasing_by
  simp only [List.length_drop, List.length_cons]
  omega

theorem flatten_shares {α : Type} (size : Nat) (items : List α) :
    (shares size items).flatten = items := by
  fun_induction shares size items with
  | case1 => rfl
  | case2 first rest ih => rw [List.flatten_cons, ih, List.cons_append, List.take_append_drop]

/-- A runner with at most the given number of workers; without a number it works alone. -/
structure Runner where
  workers : Option Nat := none
  workers_pos : ∀ n ∈ workers, 1 ≤ n := by simp

structure Report where
  results : String
  log : List Log.Entry
  summary : Summary

namespace Runner

def ofRecord (r : Record) : Checked Runner :=
  match _hok : r.check "workers" Record.optionalPositive with
  | .error complaints => .error complaints
  | .ok workers =>
    .ok {
      workers
      workers_pos := by
        intro n hn
        have hread := Record.check_eq_ok_iff.1 _hok
        rw [Option.mem_def.1 hn] at hread
        exact Record.one_le_of_optionalPositive hread }

def evaluateShared (crew : Nat) (expressions : List String) : Except EvalError (List Outcome) :=
  let tasks := (shares ((expressions.length - 1) / crew) expressions).map fun share =>
    Task.spawn fun _ => share.mapM calculate
  (tasks.mapM Task.get).map List.flatten

/-- Evaluates expressions, in the order given. Several workers take part only where both they
and the expressions are more than one. -/
def evaluate (runner : Runner) (expressions : List String) : Except EvalError (List Outcome) :=
  let crew := min (runner.workers.getD 1) expressions.length
  if crew ≤ 1 then expressions.mapM calculate else evaluateShared crew expressions

end Runner

def failureEntry? (line : Nat) (o : Outcome) : Option Log.Entry :=
  o.error?.map fun message =>
    let quoted := String.ofList (Text.Quoted.encode o.expression.toList)
    ⟨.error, "❌ Line " ++ String.ofList (Text.Decimal.digits line) ++ ": " ++ message ++ " (" ++
      quoted ++ ")"⟩

def failureEntries (outcomes : List Outcome) : List Log.Entry :=
  (outcomes.zipIdx 1).filterMap fun (o, line) => failureEntry? line o

def Report.ofOutcomes (input output : String) (outcomes : List Outcome) : Report :=
  let total := outcomes.length
  let failed := outcomes.countP (!·.ok)
  let count := fun n => String.ofList (Text.Decimal.digits n)
  { results := String.join (outcomes.map (·.describe ++ "\n"))
    log :=
      ⟨.info, "📥 Read " ++ count total ++ " expressions from " ++ input⟩ ::
        failureEntries outcomes ++
          [⟨.info, "📄✅ " ++ count (total - failed) ++ "/" ++ count total ++
            " results written to " ++ output⟩]
    summary := ⟨total, failed⟩ }

def Runner.run (runner : Runner) (input output : String) (bytes : List UInt8) :
    Except EvalError Report :=
  (runner.evaluate (expressions bytes)).map (Report.ofOutcomes input output)

end InfixArithmetic.Batch
