import InfixArithmetic.Proofs.FirstFailure
import InfixArithmetic.Proofs.Rounds
/-!
# Every run comes to an end

A context may hold anything: symbols that are no operators, operands of any size, a cursor past the
end of the text. A reduction still takes no operator from an empty stack, since it goes on only
while there is one (`Stacks.Yields`), and every token that is read moves the cursor on. So a run
reads no more tokens than there are characters left, and it ends with a value in the done phase or
with a failure of the evaluation in the failed one: `run_ends`.
-/

namespace InfixArithmetic.Evaluation

/-- Whatever fails here is a failure of an evaluation. Nothing is asked for that is not there. -/
def FailsAsEvaluation {α : Type} (x : Except Failure α) : Prop :=
  ∀ failure, x = .error failure → failure.error.isFailure = true

section

variable {α β : Type}

theorem failsAsEvaluation_ok (a : α) : FailsAsEvaluation (.ok a) := by
  intro failure herror
  cases herror

theorem failsAsEvaluation_error {failure : Failure} (hcause : failure.error.isFailure = true) :
    FailsAsEvaluation (.error failure : Except Failure α) := by
  intro other herror
  cases herror
  exact hcause

theorem FailsAsEvaluation.bind {x : Except Failure α} {f : α → Except Failure β}
    (hx : FailsAsEvaluation x) (hf : ∀ a, FailsAsEvaluation (f a)) :
    FailsAsEvaluation (x >>= f) := by
  intro failure herror
  rcases bind_eq_error_iff.1 herror with hfirst | ⟨a, -, hrest⟩
  · exact hx failure hfirst
  · exact hf a failure hrest

theorem FailsAsEvaluation.map {x : Except Failure α} (hx : FailsAsEvaluation x) (f : α → β) :
    FailsAsEvaluation (x.map f) := by
  cases x with
  | ok a => exact failsAsEvaluation_ok (f a)
  | error failure => exact failsAsEvaluation_error (hx failure rfl)

end

theorem isFailure_of_mem_plainFailures {e : EvalError} (hmem : e ∈ plainFailures) :
    e.isFailure = true := by
  have hall : ∀ e ∈ plainFailures, e.isFailure = true := by decide
  exact hall e hmem

/-! ## Reductions -/

namespace Stacks

variable {s t : Stacks} {p : Pending → Bool} {e : EvalError}

theorem isFailure_of_reduceTop (hyields : s.Yields p) (herror : s.reduceTop = .error (e, t)) :
    e.isFailure = true := by
  obtain ⟨top, operators, hoperators, -⟩ := hyields
  cases reduceTop_eq_error_iff.1 herror with
  | few hfew => rfl
  | empty => cases hoperators
  | unknown hother => rfl
  | arithmetic happly =>
    exact isFailure_of_mem_plainFailures (mem_plainFailures_of_apply happly)

theorem isFailure_of_reduceWhile (herror : s.reduceWhile p = .error (e, t)) :
    e.isFailure = true := by
  obtain ⟨u, -, ⟨-, hresult⟩ | ⟨failure, hyields, hround, hresult⟩⟩ := rounds_reduceWhile p s
  · cases hresult.symm.trans herror
  · cases hresult.symm.trans herror
    exact isFailure_of_reduceTop hyields hround

end Stacks

/-! ## Transitions -/

namespace Context

variable {c d : Context}

theorem failsAsEvaluation_reduceWhile (c : Context) (p : Pending → Bool) :
    FailsAsEvaluation (c.reduceWhile p) := by
  unfold reduceWhile withStacks
  split
  · exact failsAsEvaluation_ok _
  · rename_i error stack hreduce
    exact failsAsEvaluation_error (Stacks.isFailure_of_reduceWhile hreduce)

theorem failsAsEvaluation_closeGroup (c : Context) : FailsAsEvaluation c.closeGroup := by
  refine (failsAsEvaluation_reduceWhile c _).bind fun d => ?_
  split
  · exact failsAsEvaluation_error rfl
  · exact failsAsEvaluation_ok _

theorem failsAsEvaluation_enterOperator (c : Context) (pending : Pending) :
    FailsAsEvaluation (c.enterOperator pending) := by
  unfold enterOperator
  split
  · exact failsAsEvaluation_ok _
  · exact (failsAsEvaluation_reduceWhile c _).bind fun d => failsAsEvaluation_ok _

theorem failsAsEvaluation_readLiteral (c : Context) : FailsAsEvaluation c.readLiteral := by
  unfold readLiteral
  dsimp only
  split
  · exact failsAsEvaluation_ok _
  · exact failsAsEvaluation_error rfl

theorem failsAsEvaluation_reduceAll (c : Context) : FailsAsEvaluation c.reduceAll := by
  refine (failsAsEvaluation_reduceWhile c _).bind fun d => ?_
  split
  · exact failsAsEvaluation_ok _
  · exact failsAsEvaluation_error rfl

theorem failsAsEvaluation_conclude (c : Context) : FailsAsEvaluation c.conclude := by
  unfold conclude
  split
  · exact failsAsEvaluation_ok _
  · exact failsAsEvaluation_error rfl

theorem rest_ne_nil_of_not_atEnd (hend : c.atEnd = false) : c.source.rest ≠ [] := by
  intro hempty
  rw [atEnd, Source.atEnd, hempty] at hend
  cases hend

theorem failsAsEvaluation_readToken (hend : c.atEnd = false) : FailsAsEvaluation c.readToken := by
  obtain ⟨character, rest, hrest⟩ := List.exists_cons_of_ne_nil (rest_ne_nil_of_not_atEnd hend)
  rw [readToken_cons hrest]
  split
  · exact failsAsEvaluation_ok _
  split
  · exact failsAsEvaluation_readLiteral c
  split
  · exact failsAsEvaluation_ok _
  split
  · exact (failsAsEvaluation_closeGroup c).map _
  split
  · exact (failsAsEvaluation_enterOperator c _).map _
  · exact failsAsEvaluation_error rfl

theorem cursor_readToken (hok : c.readToken = .ok d) :
    c.source.cursor < d.source.cursor ∧ d.source.cursor ≤ c.source.text.length ∧
      d.source.text = c.source.text := by
  obtain ⟨n, hpos, hwithin, hsource⟩ := source_readToken hok
  rw [c.source.length_rest] at hwithin
  rw [hsource, Source.cursor_advance]
  exact ⟨by omega, by omega, rfl⟩

end Context

/-! ## Counted transitions -/

inductive StepsIn : Nat → Context → Context → Prop
  | none (c : Context) : StepsIn 0 c c
  | more {n : Nat} {c d e : Context} (hstep : c.readToken = .ok d) (hrest : StepsIn n d e) :
    StepsIn (n + 1) c e

theorem StepsIn.text_eq {n : Nat} {c d : Context} (hsteps : StepsIn n c d) :
    d.source.text = c.source.text := by
  induction hsteps with
  | none c => rfl
  | more hstep _ ih => rw [ih, (Context.cursor_readToken hstep).2.2]

theorem StepsIn.add_length_rest_le {n : Nat} {c d : Context} (hsteps : StepsIn n c d) :
    n + d.source.rest.length ≤ c.source.rest.length := by
  induction hsteps with
  | none c => exact Nat.le_of_eq (Nat.zero_add _)
  | more hstep _ ih =>
    have hshorter := Context.length_rest_readToken_lt hstep
    omega

theorem exists_stepsIn_readAll (c : Context) :
    ∃ n d, StepsIn n c d ∧
      (d.atEnd = true ∧ c.readAll = .ok d ∨
        d.atEnd = false ∧ ∃ failure, d.readToken = .error failure ∧
          c.readAll = .error failure) := by
  fun_induction Context.readAll c with
  | case1 c hend => exact ⟨0, c, .none c, .inl ⟨hend, rfl⟩⟩
  | case2 c hend failure hfailed =>
    exact ⟨0, c, .none c, .inr ⟨by simpa using hend, failure, hfailed, rfl⟩⟩
  | case3 c _ e hread ih =>
    obtain ⟨n, d, hsteps, hresult⟩ := ih
    exact ⟨n + 1, d, .more hread hsteps, hresult⟩

/-! ## Runs -/

def Failure.marked (failure : Failure) : Failure :=
  { failure with context := { failure.context with phase := .failed } }

namespace Context

variable {c d : Context} {v : Int}

theorem failsAsEvaluation_readAll (c : Context) : FailsAsEvaluation c.readAll := by
  obtain ⟨n, d, -, ⟨-, hresult⟩ | ⟨hend, failure, hfailed, hresult⟩⟩ := exists_stepsIn_readAll c
  · rw [hresult]
    exact failsAsEvaluation_ok d
  · rw [hresult, ← hfailed]
    exact failsAsEvaluation_readToken hend

theorem source_of_readAll (hok : c.readAll = .ok d) :
    d.atEnd = true ∧ d.source.text = c.source.text := by
  obtain ⟨n, e, hsteps, ⟨hend, hresult⟩ | ⟨-, failure, -, hresult⟩⟩ := exists_stepsIn_readAll c
  · cases hresult.symm.trans hok
    exact ⟨hend, hsteps.text_eq⟩
  · cases hresult.symm.trans hok

theorem of_reduceAll (hok : c.reduceAll = .ok d) :
    d.stack.operators = [] ∧ d.source = c.source := by
  obtain ⟨e, hreduce, hlast⟩ := bind_eq_ok_iff.1 hok
  split at hlast
  · rename_i hempty
    cases hlast
    exact ⟨hempty, source_reduceWhile hreduce⟩
  · cases hlast

theorem conclude_eq_ok_iff :
    c.conclude = .ok (v, d) ↔ c.stack.operands = [v] ∧ d = { c with phase := .done } := by
  unfold conclude
  split
  · rename_i w hoperands
    rw [hoperands]
    constructor
    · intro hok
      cases hok
      exact ⟨rfl, rfl⟩
    · rintro ⟨hw, rfl⟩
      cases hw
      rfl
  · rename_i hoperands
    constructor
    · intro hok
      cases hok
    · rintro ⟨hv, -⟩
      exact absurd hv (hoperands v)

theorem conclude_eq_error {failure : Failure} (herror : c.conclude = .error failure) :
    failure = ⟨.invalidExpression, c⟩ := by
  unfold conclude at herror
  split at herror
  · cases herror
  · cases herror
    rfl

theorem failsAsEvaluation_parts (c : Context) :
    FailsAsEvaluation (c.readAll >>= reduceAll >>= conclude) :=
  ((failsAsEvaluation_readAll c).bind failsAsEvaluation_reduceAll).bind failsAsEvaluation_conclude

/-- A run marks what fails, and changes nothing else about it. -/
theorem run_eq_mapError (c : Context) :
    c.run = (c.readAll >>= reduceAll >>= conclude).mapError Failure.marked := by
  unfold run
  cases hresult : c.readAll >>= reduceAll >>= conclude with
  | ok outcome => rfl
  | error failure =>
    have hcause := failsAsEvaluation_parts c failure hresult
    change Except.error (ite _ _ _) = _
    rw [if_pos hcause]
    rfl

theorem of_run_eq_error {failure : Failure} (herror : c.run = .error failure) :
    failure.error.isFailure = true ∧ failure.context.phase = .failed := by
  rw [run_eq_mapError] at herror
  cases hresult : c.readAll >>= reduceAll >>= conclude with
  | ok outcome =>
    rw [hresult] at herror
    cases herror
  | error other =>
    rw [hresult] at herror
    cases herror
    exact ⟨failsAsEvaluation_parts c other hresult, rfl⟩

end Context

def Progresses (c : Context) : Transition → Prop
  | .ok d =>
    c.source.cursor < d.source.cursor ∧ d.source.cursor ≤ c.source.text.length ∧
      d.source.text = c.source.text
  | .error failure => failure.error.isFailure = true

/-- What a run of `c` comes to: a value, and nothing else on the stacks at the end of the text, or
a failure of the evaluation. -/
def Ends (c : Context) : Except Failure (Int × Context) → Prop
  | .ok (v, d) =>
    d.phase = .done ∧ d.stack.operators = [] ∧ d.stack.operands = [v] ∧
      d.source.text = c.source.text ∧ c.source.text.length ≤ d.source.cursor
  | .error failure => failure.error.isFailure = true ∧ failure.context.phase = .failed

/-- Whatever a context holds, a token that is read moves the cursor on within the text, so that no
more tokens are read than there are characters left, the one that fails included. In the end a run
has a value, in the done phase and on stacks that hold nothing else, or it has failed as an
evaluation does, in the failed phase. -/
theorem run_ends (c : Context) :
    (c.atEnd = false → Progresses c c.readToken) ∧
      (∃ n d, StepsIn n c d ∧
        (d.atEnd = true ∧ c.readAll = .ok d ∧ n ≤ c.source.text.length - c.source.cursor ∨
          d.atEnd = false ∧ n + 1 ≤ c.source.text.length - c.source.cursor ∧
            ∃ failure, d.readToken = .error failure ∧ c.readAll = .error failure)) ∧
      Ends c c.run := by
  refine ⟨?_, ?_, ?_⟩
  · intro hend
    cases hread : c.readToken with
    | ok d => exact Context.cursor_readToken hread
    | error failure => exact Context.failsAsEvaluation_readToken hend failure hread
  · obtain ⟨n, d, hsteps, hresult⟩ := exists_stepsIn_readAll c
    have hcount := hsteps.add_length_rest_le
    rw [c.source.length_rest] at hcount
    refine ⟨n, d, hsteps, ?_⟩
    rcases hresult with ⟨hend, hread⟩ | ⟨hend, failure, hfailed, hread⟩
    · exact .inl ⟨hend, hread, by omega⟩
    · have hleft := List.length_pos_iff.2 (Context.rest_ne_nil_of_not_atEnd hend)
      exact .inr ⟨hend, by omega, failure, hfailed, hread⟩
  · cases hrun : c.run with
    | error failure => exact Context.of_run_eq_error hrun
    | ok outcome =>
      obtain ⟨v, d⟩ := outcome
      obtain ⟨a, b, hread, hreduce, hconclude⟩ := run_eq_ok_iff.1 hrun
      obtain ⟨hend, htext⟩ := Context.source_of_readAll hread
      obtain ⟨hoperators, hsource⟩ := Context.of_reduceAll hreduce
      obtain ⟨hoperands, rfl⟩ := Context.conclude_eq_ok_iff.1 hconclude
      have hpast : a.source.text.length ≤ a.source.cursor := (Source.atEnd_iff _).1 hend
      rw [htext] at hpast
      exact ⟨rfl, hoperators, hoperands, hsource ▸ htext, hsource ▸ hpast⟩

theorem run_ends_midway :
    let closing : Context :=
      { source := .startingAt "9)*2".toList 1
        stack := ⟨[3, 10], [.operator .sub, .group]⟩
        phase := .failed }
    let stray : Context :=
      { source := .startingAt "1".toList 7
        stack := ⟨[0, 10000000000], [.unknown "%"]⟩
        expectsOperand := false }
    (closing.atEnd = false ∧ Progresses closing closing.readToken) ∧
      (∃ d, closing.run = .ok (14, d) ∧ d.phase = .done ∧ d.stack.operands = [14]) ∧
      ∃ failure, stray.run = .error failure ∧ failure.error = .unknownOperator "%" ∧
        failure.context.phase = .failed := by
  intro closing stray
  have hvalue : closing.run.toOption.map Prod.fst = some 14 := by decide +kernel
  have hcause : (match stray.run with
      | .ok _ => none
      | .error failure => some failure.error) = some (.unknownOperator "%") := by decide +kernel
  obtain ⟨hprogress, -, hends⟩ := run_ends closing
  obtain ⟨-, -, hfails⟩ := run_ends stray
  refine ⟨⟨rfl, hprogress rfl⟩, ?_, ?_⟩
  · cases hrun : closing.run with
    | error failure =>
      rw [hrun] at hvalue
      cases hvalue
    | ok outcome =>
      obtain ⟨v, d⟩ := outcome
      rw [hrun] at hvalue hends
      cases hvalue
      exact ⟨d, rfl, hends.1, hends.2.2.1⟩
  · cases hrun : stray.run with
    | ok outcome =>
      rw [hrun] at hcause
      cases hcause
    | error failure =>
      rw [hrun] at hcause hfails
      exact ⟨failure, rfl, Option.some.inj hcause, hfails.2⟩

end InfixArithmetic.Evaluation
