import InfixArithmetic.Proofs.Reading
import InfixArithmetic.Proofs.Rounds
/-!
# Operands stay in range

Every operand on the stack is a value, in the contexts that failing transitions leave behind as
well as in those that go on. `Leaves` speaks of both at once, and each transition has one lemma.
In particular an evaluation never ends with anything but a value: `inRange_of_evaluate`.
-/

namespace InfixArithmetic

theorem inRange_of_checked {n v : Int} (hok : checked n = .ok v) : InRange v :=
  (checked_eq_ok_iff.1 hok).2

theorem Operator.inRange_of_apply {op : Operator} {a b v : Int} (hok : op.apply a b = .ok v) :
    InRange v := by
  obtain ⟨n, -, hchecked⟩ := Evaluation.bind_eq_ok_iff.1 hok
  exact inRange_of_checked hchecked

namespace Evaluation

def Stacks.leftBy : Except (EvalError × Stacks) Stacks → Stacks
  | .ok s => s
  | .error (_, s) => s

/-- The context that a transition leaves behind satisfies `P`, whether it succeeds or fails. -/
def Leaves (P : Context → Prop) : Transition → Prop
  | .ok c => P c
  | .error failure => P failure.context

section

variable {P : Context → Prop}

theorem Leaves.bind {x : Transition} {f : Context → Transition} (hx : Leaves P x)
    (hf : ∀ c, P c → Leaves P (f c)) : Leaves P (x >>= f) := by
  cases x with
  | ok c => exact hf c hx
  | error failure => exact hx

theorem Leaves.map {x : Transition} {f : Context → Context} (hx : Leaves P x)
    (hf : ∀ c, P c → P (f c)) : Leaves P (x.map f) := by
  cases x with
  | ok c => exact hf c hx
  | error failure => exact hx

theorem Leaves.imp {Q : Context → Prop} {x : Transition} (hx : Leaves P x)
    (hPQ : ∀ c, P c → Q c) : Leaves Q x := by
  cases x with
  | ok c => exact hPQ c hx
  | error failure => exact hPQ failure.context hx

theorem leaves_readToken {c : Context} (hc : P c) (hadvance : ∀ d n, P d → P (d.advance n))
    (hliteral : Leaves P c.readLiteral) (hopen : P c.openGroup) (hclose : Leaves P c.closeGroup)
    (henter : ∀ op, Leaves P (c.enterOperator (.operator op))) : Leaves P c.readToken := by
  cases hrest : c.source.rest with
  | nil =>
    simp only [Context.readToken, hrest]
    exact hc
  | cons character rest =>
    rw [readToken_cons hrest]
    split
    · exact hadvance _ _ hc
    split
    · exact hliteral
    split
    · exact hadvance _ _ hopen
    split
    · exact hclose.map fun d hd => hadvance _ _ hd
    split
    · exact (henter _).map fun d hd => hadvance _ _ hd
    · exact hc

theorem leaves_withStacks {c : Context} {change : Except (EvalError × Stacks) Stacks}
    (hstack : P { c with stack := Stacks.leftBy change }) : Leaves P (c.withStacks change) := by
  cases change with
  | ok s => exact hstack
  | error failure => exact hstack

end

def Stacks.HoldsValues (s : Stacks) : Prop :=
  ∀ n ∈ s.operands, InRange n

def Context.HoldsValues (c : Context) : Prop :=
  c.stack.HoldsValues

namespace Stacks

theorem holdsValues_cons {n : Int} {operands : List Int} {operators operators' : List Pending}
    (hn : InRange n) (hs : HoldsValues ⟨operands, operators⟩) :
    HoldsValues ⟨n :: operands, operators'⟩ :=
  List.forall_mem_cons.2 ⟨hn, hs⟩

theorem holdsValues_reduceTop {s : Stacks} (hs : s.HoldsValues) :
    (leftBy s.reduceTop).HoldsValues := by
  cases hreduce : s.reduceTop with
  | ok t =>
    obtain ⟨b, a, operands, op, operators, v, rfl, happly, rfl⟩ := reduceTop_eq_ok_iff.1 hreduce
    exact List.forall_mem_cons.2 ⟨Operator.inRange_of_apply happly, fun n hn => hs n (by simp [hn])⟩
  | error failure =>
    obtain ⟨e, t⟩ := failure
    cases reduceTop_eq_error_iff.1 hreduce with
    | few hfew => exact hs
    | empty => exact hs
    | unknown hother => exact hs
    | arithmetic happly =>
      exact fun n hn => hs n (List.mem_cons_of_mem _ (List.mem_cons_of_mem _ hn))

theorem holdsValues_of_rounds {s t : Stacks} {p : Pending → Bool} (hs : s.HoldsValues)
    (hrounds : Rounds p s t) : t.HoldsValues := by
  refine hrounds.invariant hs fun u v hu hreduce => ?_
  have hleft := holdsValues_reduceTop hu
  rwa [hreduce] at hleft

theorem holdsValues_reduceWhile {s : Stacks} (hs : s.HoldsValues) (p : Pending → Bool) :
    (leftBy (s.reduceWhile p)).HoldsValues := by
  obtain ⟨t, hrounds, ⟨-, hresult⟩ | ⟨failure, -, hfailed, hresult⟩⟩ := rounds_reduceWhile p s
  · rw [hresult]
    exact holdsValues_of_rounds hs hrounds
  · have hleft := holdsValues_reduceTop (holdsValues_of_rounds hs hrounds)
    rw [hresult]
    rwa [hfailed] at hleft

end Stacks

namespace Context

variable {c : Context}

theorem holdsValues_reduceWhile (hc : c.HoldsValues) (p : Pending → Bool) :
    Leaves HoldsValues (c.reduceWhile p) :=
  leaves_withStacks (Stacks.holdsValues_reduceWhile hc p)

theorem holdsValues_closeGroup (hc : c.HoldsValues) : Leaves HoldsValues c.closeGroup := by
  refine (holdsValues_reduceWhile hc _).bind fun d hd => ?_
  split
  · exact hd
  · exact hd

theorem holdsValues_enterOperator (hc : c.HoldsValues) (pending : Pending) :
    Leaves HoldsValues (c.enterOperator pending) := by
  unfold enterOperator
  split
  · exact Stacks.holdsValues_cons (by decide) hc
  · exact (holdsValues_reduceWhile hc _).bind fun d hd => hd

theorem holdsValues_readLiteral (hc : c.HoldsValues) : Leaves HoldsValues c.readLiteral := by
  have hvalue := Literal.value_read c.source.rest
  unfold readLiteral
  dsimp only
  rw [hvalue]
  split
  · rename_i n hn
    split at hn
    · rename_i hle
      cases hn
      have hlow : minValue ≤ 0 := by decide
      exact Stacks.holdsValues_cons ⟨by omega, hle⟩ hc
    · cases hn
  · exact hc

theorem holdsValues_readToken (hc : c.HoldsValues) : Leaves HoldsValues c.readToken :=
  leaves_readToken hc (fun _ _ hd => hd) (holdsValues_readLiteral hc) hc
    (holdsValues_closeGroup hc) fun _ => holdsValues_enterOperator hc _

theorem holdsValues_readAll (hc : c.HoldsValues) : Leaves HoldsValues c.readAll := by
  fun_induction readAll c with
  | case1 c _ => exact hc
  | case2 c _ failure hfailed =>
    have hstep := holdsValues_readToken hc
    rwa [hfailed] at hstep
  | case3 c _ d hread ih =>
    have hstep := holdsValues_readToken hc
    rw [hread] at hstep
    exact ih hstep

theorem holdsValues_reduceAll (hc : c.HoldsValues) : Leaves HoldsValues c.reduceAll := by
  refine (holdsValues_reduceWhile hc _).bind fun d hd => ?_
  split
  · exact hd
  · exact hd

theorem inRange_of_conclude {v : Int} {d : Context} (hc : c.HoldsValues)
    (hok : c.conclude = .ok (v, d)) : InRange v := by
  unfold conclude at hok
  split at hok
  · rename_i w hoperands
    cases hok
    exact hc v (by simp [hoperands])
  · cases hok

end Context

theorem evaluate_eq_ok_iff {text : String} {v : Int} :
    evaluate text = .ok v ↔ ∃ d, (Context.ofText text.toList).run = .ok (v, d) := by
  unfold evaluate
  cases (Context.ofText text.toList).run with
  | ok outcome =>
    obtain ⟨w, d⟩ := outcome
    simp
  | error failure => simp

theorem evaluate_eq_error_iff {text : String} {e : EvalError} :
    evaluate text = .error e ↔ ∃ c, (Context.ofText text.toList).run = .error ⟨e, c⟩ := by
  unfold evaluate
  cases (Context.ofText text.toList).run with
  | ok outcome => simp
  | error failure =>
    obtain ⟨error, c⟩ := failure
    simp

theorem inRange_of_evaluate {text : String} {v : Int} (hvalue : evaluate text = .ok v) :
    InRange v := by
  have hstart : (Context.ofText text.toList).HoldsValues := nofun
  obtain ⟨e, hrun⟩ := evaluate_eq_ok_iff.1 hvalue
  obtain ⟨c, d, hread, hreduce, hconclude⟩ := run_eq_ok_iff.1 hrun
  have hc := Context.holdsValues_readAll hstart
  rw [hread] at hc
  have hd := Context.holdsValues_reduceAll hc
  rw [hreduce] at hd
  exact Context.inRange_of_conclude hd hconclude

end Evaluation

end InfixArithmetic
