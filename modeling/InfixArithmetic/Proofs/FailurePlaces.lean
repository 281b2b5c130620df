import InfixArithmetic.Proofs.Range
import InfixArithmetic.Proofs.Reachable
import InfixArithmetic.Proofs.Reductions
import InfixArithmetic.Proofs.Termination
/-!
# Where an evaluation fails

An evaluation scans between two transitions, so the phase that a failing one leaves behind tells
whether the token was at fault, or a reduction that it set off. The cursor tells the rest: it stands
on the character that starts no token, on the digit that takes a literal out of the range, or on the
parenthesis or the operator that the reduction was for (`failsAt_of_readToken`). The end of the text
has phases of its own, and a run as a whole only marks what fails: `failures_placed`.
-/

namespace InfixArithmetic.Evaluation

open Text (isBlank)

/-- The place of the digit that takes the value of a run of digits out of the range. The run starts
behind `front`, which does not end in a digit, and the beginnings of it up to that digit are in the
range. -/
def LeavesRange (text : List Char) (place : Nat) : Prop :=
  ∃ front run c back, text = front ++ (run ++ c :: back) ∧ place = (front ++ run).length ∧
    endsInDigit front = false ∧ (∀ d ∈ run, d.isDigit = true) ∧ c.isDigit = true ∧
    (∀ shorter, shorter <+: run → (Text.Decimal.ofDigits shorter : Int) ≤ maxValue) ∧
    maxValue < (Text.Decimal.ofDigits (run ++ [c]) : Int)

def BreaksOff (p : Pending → Bool) (c : Context) (failure : Failure) : Prop :=
  ∃ s, Stacks.Rounds p c.stack s ∧ s.Yields p ∧
    s.reduceTop = .error (failure.error, failure.context.stack)

/-- What a transition may fail at. -/
inductive Stop where
  | character
  | digit
  | reduction

/-- What `c` leaves behind when it fails at a character that starts no token, at a digit or in a
reduction, for the character under the cursor. -/
def FailsAt (c : Context) (failure : Failure) : Stop → Prop
  | .character =>
    failure.context.phase = .scanning ∧ ∃ character,
      failure.error = .invalidCharacter character ∧
      failure.context.source.text[failure.context.source.cursor]? = some character
  | .digit =>
    failure.context.phase = .scanning ∧ failure.error = .integerOverflow ∧
      LeavesRange failure.context.source.text failure.context.source.cursor
  | .reduction =>
    failure.context.phase = .reducing ∧
      (failure.context.source.text[failure.context.source.cursor]? = some ')' ∧
          (BreaksOff Pending.isInner c failure ∨
            failure.error = .mismatchedParentheses ∧ failure.context.stack.operators = []) ∨
        ∃ op : Operator,
          failure.context.source.text[failure.context.source.cursor]? = some op.symbol ∧
          BreaksOff (Pending.yieldsTo op.precedence) c failure)

theorem FailsAt.unique {c : Context} {failure : Failure} {first second : Stop}
    (hfirst : FailsAt c failure first) (hsecond : FailsAt c failure second) : second = first := by
  have hphase : Phase.scanning ≠ .reducing := by decide
  cases first with
  | character =>
    obtain ⟨hscanning, character, herror, -⟩ := hfirst
    cases second with
    | character => rfl
    | digit => cases herror.symm.trans hsecond.2.1
    | reduction => exact absurd (hscanning.symm.trans hsecond.1) hphase
  | digit =>
    cases second with
    | character =>
      obtain ⟨-, character, herror, -⟩ := hsecond
      cases herror.symm.trans hfirst.2.1
    | digit => rfl
    | reduction => exact absurd (hfirst.1.symm.trans hsecond.1) hphase
  | reduction =>
    cases second with
    | character => exact absurd (hsecond.1.symm.trans hfirst.1) hphase
    | digit => exact absurd (hsecond.1.symm.trans hfirst.1) hphase
    | reduction => rfl

theorem FailsAt.cursor_lt {c : Context} {failure : Failure} {stop : Stop}
    (hfails : FailsAt c failure stop) :
    failure.context.source.cursor < failure.context.source.text.length := by
  cases stop with
  | character =>
    obtain ⟨-, _, -, hcurrent⟩ := hfails
    exact (List.getElem?_eq_some_iff.1 hcurrent).1
  | digit =>
    obtain ⟨-, -, front, run, c, back, htext, hplace, -⟩ := hfails
    rw [htext, hplace]
    simp
  | reduction =>
    rcases hfails.2 with ⟨hcurrent, -⟩ | ⟨_, hcurrent, -⟩
    · exact (List.getElem?_eq_some_iff.1 hcurrent).1
    · exact (List.getElem?_eq_some_iff.1 hcurrent).1

/-! ## Transitions that fail -/

namespace Context

variable {c d : Context} {failure : Failure}

theorem breaksOff_of_reduceWhile {p : Pending → Bool}
    (herror : c.reduceWhile p = .error failure) : BreaksOff p c failure := by
  obtain ⟨s, hrounds, ⟨-, hresult⟩ | ⟨other, hyields, hround, hresult⟩⟩ :=
    Stacks.rounds_reduceWhile p c.stack
  · rw [reduceWhile, hresult] at herror
    cases herror
  · rw [reduceWhile, hresult] at herror
    cases herror
    exact ⟨s, hrounds, hyields, hround⟩

theorem readLiteral_eq_error (herror : c.readLiteral = .error failure) :
    (Literal.read c.source.rest).value = none ∧
      failure = ⟨.integerOverflow, c.advance (Literal.read c.source.rest).length⟩ := by
  unfold readLiteral at herror
  dsimp only at herror
  split at herror
  · cases herror
  · rename_i hnone
    cases herror
    exact ⟨hnone, rfl⟩

theorem closeGroup_eq_error (herror : c.closeGroup = .error failure) :
    BrokenOff c failure.context ∧
      (BreaksOff Pending.isInner c failure ∨
        failure.error = .mismatchedParentheses ∧ failure.context.stack.operators = []) := by
  rcases bind_eq_error_iff.1 herror with hreduce | ⟨d, hreduce, hclose⟩
  · exact ⟨brokenOff_of_reduceWhile hreduce, .inl (breaksOff_of_reduceWhile hreduce)⟩
  · obtain ⟨ops, hreduced⟩ := exists_reduced hreduce
    split at hclose
    · rename_i hempty
      cases hclose
      exact ⟨hreduced.brokenOff, .inr ⟨rfl, hempty⟩⟩
    · cases hclose

theorem enterOperator_eq_error {pending : Pending}
    (herror : c.enterOperator pending = .error failure) :
    BrokenOff c failure.context ∧
      BreaksOff (Pending.yieldsTo pending.precedence) c failure := by
  unfold enterOperator at herror
  split at herror
  · cases herror
  · rcases bind_eq_error_iff.1 herror with hreduce | ⟨d, -, henter⟩
    · exact ⟨brokenOff_of_reduceWhile hreduce, breaksOff_of_reduceWhile hreduce⟩
    · cases henter

/-! ## Phases between transitions -/

theorem phase_closeGroup (hok : c.closeGroup = .ok d) : d.phase = .scanning := by
  have hreduces := c.reduces_closeGroup
  rw [hok] at hreduces
  obtain ⟨-, ops, -, -, hcloses⟩ := hreduces
  exact hcloses.phase_eq

theorem phase_enterOperator {pending : Pending} (hc : c.phase = .scanning)
    (hok : c.enterOperator pending = .ok d) : d.phase = .scanning := by
  unfold enterOperator at hok
  split at hok
  · cases hok
    exact hc
  · obtain ⟨e, -, henter⟩ := bind_eq_ok_iff.1 hok
    cases henter
    rfl

theorem phase_readLiteral (hc : c.phase = .scanning) (hok : c.readLiteral = .ok d) :
    d.phase = .scanning := by
  unfold readLiteral at hok
  dsimp only at hok
  split at hok
  · cases hok
    exact hc
  · cases hok

theorem phase_readToken (hc : c.phase = .scanning) (hok : c.readToken = .ok d) :
    d.phase = .scanning := by
  obtain ⟨character, rest, hrest⟩ := exists_rest_of_readToken hok
  rw [readToken_cons hrest] at hok
  split at hok
  · cases hok
    exact hc
  split at hok
  · exact phase_readLiteral hc hok
  split at hok
  · cases hok
    exact hc
  split at hok
  · obtain ⟨e, hclose, rfl⟩ := map_eq_ok_iff.1 hok
    exact (phase_closeGroup hclose :)
  split at hok
  · obtain ⟨e, henter, rfl⟩ := map_eq_ok_iff.1 hok
    exact (phase_enterOperator hc henter :)
  · cases hok

end Context

/-! ## Contexts of an evaluation -/

variable {text : List Char} {c d : Context} {failure : Failure}

theorem phase_of_reaches (hreaches : Reaches text c) : c.phase = .scanning := by
  induction hreaches with
  | refl => rfl
  | tail _ hstep ih => exact Context.phase_readToken ih hstep

theorem readAll_of_reaches (hreaches : Reaches text c) :
    (Context.ofText text).readAll = c.readAll := by
  induction hreaches with
  | refl => rfl
  | tail _ hstep ih => rw [ih, readAll_of_readToken hstep]

theorem Source.passed_append_rest (s : Source) : s.passed ++ s.rest = s.text := by
  rw [passed, s.rest_eq_drop, List.take_append_drop]

theorem Source.length_passed {s : Source} (hne : s.rest ≠ []) : s.passed.length = s.cursor := by
  have hleft := List.length_pos_iff.2 hne
  rw [s.length_rest] at hleft
  rw [passed, List.length_take]
  omega

/-- No evaluation stands in the middle of a run of digits, so the digit that takes a literal out of
the range does so for the whole run. -/
theorem leavesRange_of_reaches (hreaches : Reaches text c)
    (hdigit : startsWithDigit c.source.rest = true)
    (hnone : (Literal.read c.source.rest).value = none) :
    LeavesRange text (c.source.cursor + (Literal.read c.source.rest).length) := by
  obtain ⟨r, hfollows⟩ := exists_follows_of_reaches hreaches
  obtain ⟨run, digit, back, hrest, hrun, hd, hlength, hle, hlt⟩ :=
    Literal.exists_digit_of_readFrom (by decide) hnone
  have hpassed : c.source.passed.length = c.source.cursor :=
    Source.length_passed (by simp [hrest])
  have hseam : endsInDigit c.source.passed = false := by
    refine hfollows.seam.resolve_right ?_
    rw [hdigit]
    exact Bool.false_ne_true.symm
  refine ⟨c.source.passed, run, digit, back, ?_, ?_, hseam, hrun, hd, fun shorter hshorter => ?_,
    hlt⟩
  · rw [← hrest, Source.passed_append_rest, hfollows.text_eq]
  · rw [Literal.read, hlength, List.length_append, hpassed, Nat.zero_add]
  · have hgrows := Literal.ofDigits_le_of_prefix hshorter
    change (Text.Decimal.ofDigits run : Int) ≤ maxValue at hle
    omega

theorem failsAt_of_readToken (hreaches : Reaches text c) (hend : c.atEnd = false)
    (herror : c.readToken = .error failure) :
    failure.context.source.text = text ∧ ∃ stop, FailsAt c failure stop := by
  have hphase := phase_of_reaches hreaches
  obtain ⟨r, hfollows⟩ := exists_follows_of_reaches hreaches
  obtain ⟨character, rest, hrest⟩ :=
    List.exists_cons_of_ne_nil (Context.rest_ne_nil_of_not_atEnd hend)
  have hcurrent : c.source.text[c.source.cursor]? = some character := by
    rw [← Source.head?_rest, hrest, List.head?_cons]
  rw [readToken_cons hrest] at herror
  split at herror
  · cases herror
  split at herror
  · rename_i hdigit
    obtain ⟨hnone, rfl⟩ := Context.readLiteral_eq_error herror
    have hleaves := leavesRange_of_reaches hreaches (by rwa [hrest]) hnone
    exact ⟨hfollows.text_eq, .digit, hphase, rfl, hfollows.text_eq ▸ hleaves⟩
  split at herror
  · cases herror
  split at herror
  · rename_i hclosing
    rw [map_eq_error_iff] at herror
    obtain ⟨hbroken, hcause⟩ := Context.closeGroup_eq_error herror
    refine ⟨hbroken.source_eq ▸ hfollows.text_eq, .reduction, hbroken.phase_eq, .inl ⟨?_, hcause⟩⟩
    rw [hbroken.source_eq, hcurrent, hclosing]
  split at herror
  · rename_i op hop
    rw [map_eq_error_iff] at herror
    obtain ⟨hbroken, hcause⟩ := Context.enterOperator_eq_error herror
    refine ⟨hbroken.source_eq ▸ hfollows.text_eq, .reduction, hbroken.phase_eq,
      .inr ⟨op, ?_, hcause⟩⟩
    rw [hbroken.source_eq, hcurrent, Operator.symbol_eq_of_ofChar?_eq_some hop]
  · cases herror
    exact ⟨hfollows.text_eq, .character, hphase, character, rfl, hcurrent⟩

/-! ## The end of the text -/

namespace Context

theorem phase_reduceAll (c : Context) : Leaves (·.phase = .reducing) c.reduceAll := by
  have hreduces := c.reduces_reduceAll
  cases hreduce : c.reduceAll with
  | ok d =>
    rw [hreduce] at hreduces
    obtain ⟨-, ops, -, -, hclears⟩ := hreduces
    exact hclears.phase_eq
  | error failure =>
    rw [hreduce] at hreduces
    exact hreduces.phase_eq

theorem phase_conclude (c : Context) :
    (∀ v d, c.conclude = .ok (v, d) → d.phase = .done) ∧
      ∀ failure, c.conclude = .error failure → failure.context.phase = c.phase := by
  refine ⟨fun v d hok => ?_, fun failure herror => ?_⟩
  · obtain ⟨-, rfl⟩ := conclude_eq_ok_iff.1 hok
    rfl
  · rw [conclude_eq_error herror]

end Context

/-- How an evaluation ends from a context at the end of the text: it reduces, whether that goes
through or not, and is done exactly if a value remains. -/
structure EndsIn (c : Context) : Prop where
  reduces : Leaves (·.phase = .reducing) c.reduceAll
  concludes : ∀ d, c.reduceAll = .ok d →
    (∀ v e, d.conclude = .ok (v, e) → e.phase = .done) ∧
      ∀ failure, d.conclude = .error failure → failure.context.phase = .reducing

theorem endsIn (c : Context) : EndsIn c where
  reduces := c.phase_reduceAll
  concludes d hreduce := by
    have hphase := c.phase_reduceAll
    rw [hreduce] at hphase
    refine ⟨d.phase_conclude.1, fun failure herror => ?_⟩
    rw [d.phase_conclude.2 failure herror]
    exact hphase

theorem StepsIn.reaches {n : Nat} (hsteps : StepsIn n c d) (hreaches : Reaches text c) :
    Reaches text d := by
  induction hsteps with
  | none c => exact hreaches
  | more hstep _ ih => exact ih (hreaches.step hstep)

/-- An evaluation scans wherever it stands. A transition that fails leaves the cursor within the
text and fails at one thing alone: at a character that starts no token, at the digit that takes a
literal out of the range, or in the reduction for a closing parenthesis or an operator. At the end
of the text the evaluation reduces, and it is done exactly if a value remains. A run comes to the
same, and only marks what fails. -/
theorem failures_placed (text : String) :
    (∃ c, Reaches text.toList c ∧
        (c.atEnd = true ∨ c.atEnd = false ∧ ∃ failure, c.readToken = .error failure)) ∧
      ∀ c, Reaches text.toList c →
        c.phase = .scanning ∧
          (c.atEnd = false → ∀ failure, c.readToken = .error failure →
            failure.context.source.text = text.toList ∧
              failure.context.source.cursor < text.toList.length ∧
              (∃! stop, FailsAt c failure stop) ∧
              (Context.ofText text.toList).run = .error failure.marked) ∧
          (c.atEnd = true →
            EndsIn c ∧
              (Context.ofText text.toList).run =
                (c.reduceAll >>= Context.conclude).mapError Failure.marked) := by
  constructor
  · obtain ⟨n, d, hsteps, ⟨hend, -⟩ | ⟨hend, failure, hfailed, -⟩⟩ :=
      exists_stepsIn_readAll (Context.ofText text.toList)
    · exact ⟨d, hsteps.reaches (reaches_ofText _), .inl hend⟩
    · exact ⟨d, hsteps.reaches (reaches_ofText _), .inr ⟨hend, failure, hfailed⟩⟩
  · intro c hreaches
    rw [Context.run_eq_mapError, readAll_of_reaches hreaches]
    refine ⟨phase_of_reaches hreaches, fun hend failure herror => ?_, fun hend => ⟨endsIn c, ?_⟩⟩
    · obtain ⟨htext, stop, hfails⟩ := failsAt_of_readToken hreaches hend herror
      have hcursor := hfails.cursor_lt
      rw [htext] at hcursor
      refine ⟨htext, hcursor, ⟨stop, hfails, fun other => hfails.unique⟩, ?_⟩
      obtain ⟨character, rest, hrest⟩ :=
        List.exists_cons_of_ne_nil (Context.rest_ne_nil_of_not_atEnd hend)
      rw [readAll_cons hrest, herror]
      rfl
    · rw [readAll_nil (List.isEmpty_iff.1 hend)]
      rfl

theorem failures_placed_overflows :
    (∃ c failure, Reaches "4+3000000000)".toList c ∧ c.readToken = .error failure ∧
        failure.context.phase = .scanning ∧ failure.error = .integerOverflow ∧
        failure.context.source.cursor = 11 ∧ ∃! stop, FailsAt c failure stop) ∧
      (∃ c failure, Reaches "(2147483647+1)".toList c ∧ c.readToken = .error failure ∧
        failure.context.phase = .reducing ∧ failure.error = .integerOverflow ∧
        failure.context.source.cursor = 13 ∧ ∃! stop, FailsAt c failure stop) ∧
      ∃ c, Reaches "1 2".toList c ∧ c.atEnd = true ∧ EndsIn c ∧
        (Context.ofText "1 2".toList).run =
          (c.reduceAll >>= Context.conclude).mapError Failure.marked := by
  refine ⟨?_, ?_, ?_⟩
  · obtain ⟨c, failure, hreaches, hend, herror, hrest⟩ :
        ∃ c failure, Reaches "4+3000000000)".toList c ∧ c.atEnd = false ∧
          c.readToken = .error failure ∧ failure.context.phase = .scanning ∧
          failure.error = .integerOverflow ∧ failure.context.source.cursor = 11 :=
      ⟨_, _, .step (.step (reaches_ofText _) rfl) rfl, rfl, rfl, rfl, rfl, rfl⟩
    obtain ⟨-, -, hstop, -⟩ := ((failures_placed _).2 c hreaches).2.1 hend failure herror
    exact ⟨c, failure, hreaches, herror, hrest.1, hrest.2.1, hrest.2.2, hstop⟩
  · obtain ⟨c, failure, hreaches, hend, herror, hrest⟩ :
        ∃ c failure, Reaches "(2147483647+1)".toList c ∧ c.atEnd = false ∧
          c.readToken = .error failure ∧ failure.context.phase = .reducing ∧
          failure.error = .integerOverflow ∧ failure.context.source.cursor = 13 :=
      ⟨_, _, .step (.step (.step (.step (reaches_ofText _) rfl) rfl) rfl) rfl, rfl, rfl, rfl, rfl,
        rfl⟩
    obtain ⟨-, -, hstop, -⟩ := ((failures_placed _).2 c hreaches).2.1 hend failure herror
    exact ⟨c, failure, hreaches, herror, hrest.1, hrest.2.1, hrest.2.2, hstop⟩
  · obtain ⟨c, hreaches, hend⟩ : ∃ c, Reaches "1 2".toList c ∧ c.atEnd = true :=
      ⟨_, .step (.step (.step (reaches_ofText _) rfl) rfl) rfl, rfl⟩
    exact ⟨c, hreaches, hend, ((failures_placed _).2 c hreaches).2.2 hend⟩

end InfixArithmetic.Evaluation
