import InfixArithmetic.Evaluation.Context
/-!
# Running an evaluation

Every token that is read shortens the text that is left, so reading ends. A run reads the
whole text, applies what is still pending and takes the single value that remains; the first
failure ends it in the failed phase.
-/

namespace InfixArithmetic.Evaluation

namespace Context

theorem source_withStacks {c d : Context} {change : Except (EvalError × Stacks) Stacks}
    (hok : c.withStacks change = .ok d) : d.source = c.source := by
  unfold withStacks at hok
  split at hok
  · cases hok
    rfl
  · cases hok

theorem source_reduceWhile {c d : Context} {p : Pending → Bool}
    (hok : c.reduceWhile p = .ok d) : d.source = c.source :=
  source_withStacks (c := { c with phase := .reducing }) hok

theorem source_closeGroup {c d : Context} (hok : c.closeGroup = .ok d) :
    d.source = c.source := by
  unfold closeGroup at hok
  cases hreduce : c.reduceWhile Pending.isInner with
  | error failure => simp [hreduce, bind, Except.bind] at hok
  | ok e =>
    simp only [hreduce, bind, Except.bind] at hok
    split at hok
    · cases hok
    · cases hok
      exact (source_reduceWhile hreduce :)

theorem source_enterOperator {c d : Context} {pending : Pending}
    (hok : c.enterOperator pending = .ok d) : d.source = c.source := by
  unfold enterOperator at hok
  split at hok
  · cases hok
    rfl
  · cases hreduce : c.reduceWhile (Pending.yieldsTo pending.precedence) with
    | error failure => simp [hreduce, bind, Except.bind] at hok
    | ok e =>
      simp only [hreduce, bind, Except.bind] at hok
      cases hok
      exact (source_reduceWhile hreduce :)

private theorem advanced_of_map {c d : Context} {transition : Transition}
    (hsource : ∀ e, transition = .ok e → e.source = c.source)
    (hok : transition.map (·.advance 1) = .ok d) : d.source = c.source.advance 1 := by
  cases transition with
  | error failure => cases hok
  | ok e =>
    cases hok
    simp [advance, hsource e rfl]

theorem source_readToken {c d : Context} (hok : c.readToken = .ok d) :
    ∃ n, 0 < n ∧ n ≤ c.source.rest.length ∧ d.source = c.source.advance n := by
  unfold readToken at hok
  split at hok
  · cases hok
  · rename_i character rest hrest
    have hone : 1 ≤ c.source.rest.length := by
      rw [hrest]
      exact Nat.le_add_left _ _
    split at hok
    · cases hok
      exact ⟨1, by decide, hone, rfl⟩
    split at hok
    · rename_i hdigit
      simp only [readLiteral] at hok
      split at hok
      · rename_i n hvalue
        cases hok
        refine ⟨_, ?_, Literal.length_read_le _, rfl⟩
        rw [hrest] at hvalue ⊢
        exact Literal.length_read_pos hdigit hvalue
      · cases hok
    split at hok
    · cases hok
      exact ⟨1, by decide, hone, rfl⟩
    split at hok
    · exact ⟨1, by decide, hone, advanced_of_map (fun _ => source_closeGroup) hok⟩
    split at hok
    · exact ⟨1, by decide, hone, advanced_of_map (fun _ => source_enterOperator) hok⟩
    · cases hok

theorem length_rest_readToken_lt {c d : Context} (hok : c.readToken = .ok d) :
    d.source.rest.length < c.source.rest.length := by
  obtain ⟨n, hpos, hwithin, hsource⟩ := source_readToken hok
  simp only [hsource, Source.rest_advance, List.length_drop]
  omega

def readAll (c : Context) : Transition :=
  if c.atEnd then
    .ok c
  else
    match _hok : c.readToken with
    | .error failure => .error failure
    | .ok d => d.readAll
termination_by c.source.rest.length
decreasing_by exact length_rest_readToken_lt _hok

def run (c : Context) : Except Failure (Int × Context) :=
  (c.readAll >>= reduceAll >>= conclude).mapError fun failure =>
    if failure.error.isFailure then
      { failure with context := { failure.context with phase := .failed } }
    else
      failure

end Context

def evaluate (text : String) : Except EvalError Int :=
  match (Context.ofText text.toList).run with
  | .ok (v, _) => .ok v
  | .error failure => .error failure.error

end InfixArithmetic.Evaluation
