import InfixArithmetic.Proofs.Balance
import InfixArithmetic.Proofs.Rounds
import Mathlib.Data.List.Infix
/-!
# What a reduction takes away

A reduction takes operators off the top of one stack and operands off the top of the other, and
leaves alone what lies below them, whatever the stacks hold. It consumes one operand more than it
applies operators and puts their value in the place of these: `consumes_of_applyAll`. A reduction
that breaks off has put nothing else on the stacks either. What is taken off by an operator, at the
end of a group and at the end of the text, and what stays when they fail: `reductions_frame`.
-/

namespace InfixArithmetic.Evaluation

/-- What is left of operands when operators have been applied: those that they consume are on top,
one more than there are operators, and their value takes the place of them. -/
def Consumes (ops : List Operator) (operands left : List Int) : Prop :=
  ops = [] ∧ left = operands ∨
    ∃ consumed below v, operands = consumed ++ below ∧ consumed.length = ops.length + 1 ∧
      applyAll ops consumed = .ok [v] ∧ left = v :: below

theorem consumes_of_applyAll {ops : List Operator} {operands left : List Int}
    (happly : applyAll ops operands = .ok left) : Consumes ops operands left := by
  induction ops generalizing operands with
  | nil =>
    cases happly
    exact .inl ⟨rfl, rfl⟩
  | cons op ops ih =>
    match operands with
    | [] => cases happly
    | [_] => cases happly
    | b :: a :: operands =>
      obtain ⟨v, hv, hrest⟩ := bind_eq_ok_iff.1 happly
      right
      rcases ih hrest with ⟨rfl, rfl⟩ | ⟨consumed, below, w, hsplit, hlength, hw, rfl⟩
      · refine ⟨[b, a], operands, v, rfl, rfl, ?_, rfl⟩
        exact bind_eq_ok_iff.2 ⟨v, hv, rfl⟩
      · match consumed with
        | [] => cases hlength
        | _ :: consumed =>
          cases hsplit
          refine ⟨b :: a :: consumed, below, w, rfl, ?_, ?_, rfl⟩
          · simpa using hlength
          · exact bind_eq_ok_iff.2 ⟨v, hv, hw⟩

/-! ## The stacks -/

namespace Stacks

variable {s t u : Stacks} {p : Pending → Bool} {e : EvalError} {ops : List Operator}

/-- `t` is what is left of `s` when its topmost operators have been applied, which are `ops`. -/
structure Applied (ops : List Operator) (s t : Stacks) : Prop where
  operators_eq : s.operators = ops.map .operator ++ t.operators
  applyAll_eq : applyAll ops s.operands = .ok t.operands

theorem applied_nil (s : Stacks) : Applied [] s s :=
  ⟨rfl, rfl⟩

theorem exists_applied_of_reduceTop (hok : s.reduceTop = .ok t) :
    ∃ op, s.operators = .operator op :: t.operators ∧
      ∀ ops u, Applied ops t u → Applied (op :: ops) s u := by
  obtain ⟨b, a, operands, op, operators, v, rfl, happly, rfl⟩ := reduceTop_eq_ok_iff.1 hok
  refine ⟨op, rfl, fun ops u hrest => ⟨?_, bind_eq_ok_iff.2 ⟨v, happly, hrest.applyAll_eq⟩⟩⟩
  exact congrArg (.operator op :: ·) hrest.operators_eq

theorem Rounds.exists_applied (hrounds : Rounds p s t) :
    ∃ ops, Applied ops s t ∧ ∀ op ∈ ops, p (.operator op) = true := by
  induction hrounds using Relation.ReflTransGen.head_induction_on with
  | refl => exact ⟨[], applied_nil t, List.forall_mem_nil _⟩
  | head hround _ ih =>
    obtain ⟨ops, happlied, hops⟩ := ih
    obtain ⟨⟨top, operators, hoperators, htop⟩, hreduce⟩ := hround
    obtain ⟨op, hfirst, hcons⟩ := exists_applied_of_reduceTop hreduce
    refine ⟨op :: ops, hcons ops t happlied, List.forall_mem_cons.2 ⟨?_, hops⟩⟩
    rw [hfirst] at hoperators
    cases hoperators
    exact htop

theorem suffix_of_reduceTop (herror : s.reduceTop = .error (e, t)) :
    t.operators <:+ s.operators ∧ t.operands <:+ s.operands := by
  cases reduceTop_eq_error_iff.1 herror with
  | few hfew => exact ⟨List.suffix_rfl, List.suffix_rfl⟩
  | empty => exact ⟨List.suffix_rfl, List.suffix_rfl⟩
  | unknown hother => exact ⟨List.suffix_cons _ _, List.suffix_rfl⟩
  | arithmetic happly =>
    exact ⟨List.suffix_cons _ _, (List.suffix_cons _ _).trans (List.suffix_cons _ _)⟩

/-- `t` has less on its stacks than `s`, but for one value at most that was computed from operands
that are gone. -/
structure Remains (s t : Stacks) : Prop where
  operators : t.operators <:+ s.operators
  operands : t.operands <:+ s.operands ∨
    ∃ ops, ops.map .operator <+: s.operators ∧ Consumes ops s.operands t.operands

theorem Applied.remains (happlied : Applied ops s t) : Remains s t where
  operators := happlied.operators_eq ▸ List.suffix_append _ _
  operands := .inr ⟨ops, happlied.operators_eq ▸ List.prefix_append _ _,
    consumes_of_applyAll happlied.applyAll_eq⟩

theorem Applied.remains_of_suffix (happlied : Applied ops s t)
    (hoperators : u.operators <:+ t.operators) (hoperands : u.operands <:+ t.operands) :
    Remains s u := by
  refine ⟨hoperators.trans happlied.remains.operators, ?_⟩
  rcases consumes_of_applyAll happlied.applyAll_eq with
    ⟨-, hsame⟩ | ⟨consumed, below, v, hsplit, hv⟩
  · exact .inl (hsame ▸ hoperands)
  · rcases List.suffix_cons_iff.1 (hv.2.2 ▸ hoperands) with htop | hbelow
    · exact .inr ⟨ops, happlied.operators_eq ▸ List.prefix_append _ _,
        .inr ⟨consumed, below, v, hsplit, hv.1, hv.2.1, htop⟩⟩
    · exact .inl (hbelow.trans (hsplit ▸ List.suffix_append _ _))

theorem applied_of_reduceWhile (hok : s.reduceWhile p = .ok t) :
    ∃ ops, Applied ops s t ∧ (∀ op ∈ ops, p (.operator op) = true) ∧ ¬ t.Yields p := by
  obtain ⟨u, hrounds, ⟨hend, hresult⟩ | ⟨failure, -, -, hresult⟩⟩ := rounds_reduceWhile p s
  · cases hresult.symm.trans hok
    obtain ⟨ops, happlied, hops⟩ := hrounds.exists_applied
    exact ⟨ops, happlied, hops, hend⟩
  · cases hresult.symm.trans hok

theorem remains_of_reduceWhile (herror : s.reduceWhile p = .error (e, t)) : Remains s t := by
  obtain ⟨u, hrounds, ⟨-, hresult⟩ | ⟨failure, -, hround, hresult⟩⟩ := rounds_reduceWhile p s
  · cases hresult.symm.trans herror
  · cases hresult.symm.trans herror
    obtain ⟨ops, happlied, -⟩ := hrounds.exists_applied
    obtain ⟨hoperators, hoperands⟩ := suffix_of_reduceTop hround
    exact happlied.remains_of_suffix hoperators hoperands

end Stacks

/-! ## The transitions -/

theorem Pending.ofSymbol_eq_sub_iff {symbol : String} :
    ofSymbol symbol = .operator .sub ↔ symbol = "-" := by
  constructor
  · intro hsymbol
    unfold ofSymbol at hsymbol
    split at hsymbol
    · cases hsymbol
    · cases hsymbol
    · rfl
    · cases hsymbol
    · cases hsymbol
    · cases hsymbol
  · rintro rfl
    rfl

theorem Pending.yieldsTo_iff {n : Nat} {q : Pending} :
    q.yieldsTo n = true ↔ q ≠ .group ∧ n ≤ q.precedence := by
  cases q <;> simp [yieldsTo, isInner]

structure IsLongestFront (P : Pending → Prop) (front whole : List Pending) : Prop where
  isFront : front <+: whole
  satisfies : ∀ q ∈ front, P q
  longest : ∀ other, other <+: whole → (∀ q ∈ other, P q) → other.length ≤ front.length

theorem Stacks.Applied.isLongestFront {s t : Stacks} {ops : List Operator} {p : Pending → Bool}
    (happlied : Applied ops s t) (hops : ∀ op ∈ ops, p (.operator op) = true)
    (hend : ¬ t.Yields p) :
    IsLongestFront (p · = true) (ops.map .operator) s.operators := by
  have hfront : ops.map .operator <+: s.operators :=
    happlied.operators_eq ▸ List.prefix_append _ _
  refine ⟨hfront, List.forall_mem_map.2 hops, fun other hother hall => ?_⟩
  by_contra hlonger
  obtain ⟨more, rfl⟩ := List.prefix_of_prefix_length_le hfront hother (by omega)
  rw [happlied.operators_eq, List.prefix_append_right_inj] at hother
  match more with
  | [] => simp at hlonger
  | top :: _ =>
    obtain ⟨rest, hrest⟩ := hother
    exact hend ⟨top, _, hrest.symm, hall top (by simp)⟩

structure BrokenOff (c d : Context) : Prop where
  source_eq : d.source = c.source
  expectsOperand_eq : d.expectsOperand = c.expectsOperand
  phase_eq : d.phase = .reducing
  remains : Stacks.Remains c.stack d.stack

/-- What a reduction of `c` comes to: it applies operators to the topmost operands, and `Done` tells
which ones and what else it does, or it breaks off. -/
def Reduces (c : Context) (Done : List Operator → Context → Prop) : Transition → Prop
  | .ok d =>
    d.source = c.source ∧
      ∃ ops, Consumes ops c.stack.operands d.stack.operands ∧
        d.stack.operands.length + ops.length = c.stack.operands.length ∧ Done ops d
  | .error failure => BrokenOff c failure.context

/-- The operators that a new one takes off are the topmost ones down to an open group or to an
operator that binds less, and the new one lies on those that stay. -/
structure Enters (symbol : String) (c : Context) (ops : List Operator) (d : Context) : Prop where
  takesOff : IsLongestFront
    (fun q => q ≠ .group ∧ (Pending.ofSymbol symbol).precedence ≤ q.precedence)
    (ops.map .operator) c.stack.operators
  operators_eq : ∃ kept, c.stack.operators = ops.map .operator ++ kept ∧
    d.stack.operators = .ofSymbol symbol :: kept
  expectsOperand_eq : d.expectsOperand = true
  phase_eq : d.phase = .scanning

structure Closes (c : Context) (ops : List Operator) (d : Context) : Prop where
  operators_eq : c.stack.operators = ops.map .operator ++ .group :: d.stack.operators
  expectsOperand_eq : d.expectsOperand = false
  phase_eq : d.phase = .scanning

structure Clears (c : Context) (ops : List Operator) (d : Context) : Prop where
  operators_eq : c.stack.operators = ops.map .operator
  empty : d.stack.operators = []
  expectsOperand_eq : d.expectsOperand = c.expectsOperand
  phase_eq : d.phase = .reducing

namespace Context

variable {c d : Context} {p : Pending → Bool}

structure Reduced (p : Pending → Bool) (c : Context) (ops : List Operator) (d : Context) :
    Prop where
  source_eq : d.source = c.source
  expectsOperand_eq : d.expectsOperand = c.expectsOperand
  phase_eq : d.phase = .reducing
  applied : Stacks.Applied ops c.stack d.stack
  satisfies : ∀ op ∈ ops, p (.operator op) = true
  ends : ¬ d.stack.Yields p

theorem Reduced.brokenOff {ops : List Operator} (hreduced : Reduced p c ops d) : BrokenOff c d :=
  ⟨hreduced.source_eq, hreduced.expectsOperand_eq, hreduced.phase_eq, hreduced.applied.remains⟩

theorem exists_reduced (hok : c.reduceWhile p = .ok d) : ∃ ops, Reduced p c ops d := by
  unfold reduceWhile withStacks at hok
  split at hok
  · rename_i stack hreduce
    cases hok
    obtain ⟨ops, happlied, hops, hend⟩ := Stacks.applied_of_reduceWhile hreduce
    exact ⟨ops, rfl, rfl, rfl, happlied, hops, hend⟩
  · cases hok

theorem brokenOff_of_reduceWhile {failure : Failure} (herror : c.reduceWhile p = .error failure) :
    BrokenOff c failure.context := by
  unfold reduceWhile withStacks at herror
  split at herror
  · cases herror
  · rename_i error stack hreduce
    cases herror
    exact ⟨rfl, rfl, rfl, Stacks.remains_of_reduceWhile hreduce⟩

theorem reduces_bind {Done : List Operator → Context → Prop} {f : Context → Transition}
    (hf : ∀ ops e, Reduced p c ops e →
      (∃ d, f e = .ok d ∧ d.source = e.source ∧ d.stack.operands = e.stack.operands ∧ Done ops d) ∨
        ∃ error, f e = .error ⟨error, e⟩) :
    Reduces c Done (c.reduceWhile p >>= f) := by
  cases hreduce : c.reduceWhile p with
  | error failure => exact brokenOff_of_reduceWhile hreduce
  | ok e =>
    obtain ⟨ops, hreduced⟩ := exists_reduced hreduce
    change Reduces c Done (f e)
    rcases hf ops e hreduced with ⟨d, hok, hsource, hoperands, hdone⟩ | ⟨error, herror⟩
    · rw [hok]
      have hconsumes := consumes_of_applyAll hreduced.applied.applyAll_eq
      have hlength := length_of_applyAll hreduced.applied.applyAll_eq
      rw [← hoperands] at hconsumes hlength
      exact ⟨hsource.trans hreduced.source_eq, ops, hconsumes, hlength, hdone⟩
    · rw [herror]
      exact hreduced.brokenOff

theorem Reduced.operators_cases {ops : List Operator} (hreduced : Reduced Pending.isInner c ops d) :
    d.stack.operators = [] ∨ ∃ operators, d.stack.operators = .group :: operators := by
  match hoperators : d.stack.operators with
  | [] => exact .inl rfl
  | .group :: operators => exact .inr ⟨operators, rfl⟩
  | .operator op :: operators => exact absurd ⟨_, _, hoperators, rfl⟩ hreduced.ends
  | .unknown symbol :: operators => exact absurd ⟨_, _, hoperators, rfl⟩ hreduced.ends

theorem reduces_closeGroup (c : Context) : Reduces c (Closes c) c.closeGroup := by
  refine reduces_bind fun ops e hreduced => ?_
  rcases hreduced.operators_cases with hempty | ⟨operators, hgroup⟩
  · rw [hempty]
    exact .inr ⟨_, rfl⟩
  · rw [hgroup]
    refine .inl ⟨_, rfl, rfl, rfl, ?_, rfl, rfl⟩
    rw [hreduced.applied.operators_eq, hgroup]

theorem reduces_reduceAll (c : Context) : Reduces c (Clears c) c.reduceAll := by
  refine reduces_bind fun ops e hreduced => ?_
  rcases hreduced.operators_cases with hempty | ⟨operators, hgroup⟩
  · rw [hempty]
    refine .inl ⟨e, rfl, rfl, rfl, ?_, hempty, hreduced.expectsOperand_eq, hreduced.phase_eq⟩
    rw [hreduced.applied.operators_eq, hempty, List.append_nil]
  · rw [hgroup]
    exact .inr ⟨_, rfl⟩

theorem reduces_enterOperator {symbol : String}
    (hbinary : ¬ (symbol = "-" ∧ c.expectsOperand = true)) :
    Reduces c (Enters symbol c) (c.enterOperator (.ofSymbol symbol)) := by
  rw [← Pending.ofSymbol_eq_sub_iff] at hbinary
  rw [enterOperator, if_neg hbinary]
  refine reduces_bind fun ops e hreduced => .inl ⟨_, rfl, rfl, rfl, ?_, ?_, rfl, rfl⟩
  · have hfront := hreduced.applied.isLongestFront hreduced.satisfies hreduced.ends
    simpa only [Pending.yieldsTo_iff] using hfront
  · exact ⟨_, hreduced.applied.operators_eq, rfl⟩

end Context

/-- Whatever a context holds, an operator that is no sign takes off the longest run of operators on
top that bind no less than it, the end of a group takes off what lies above the topmost open group
and the group itself, and the end of the text takes off all that is pending, where no group is open.
Each consumes the topmost operands, and the text and the cursor stay. Where one of them fails,
nothing has been put on the stacks but one value that was computed. -/
theorem reductions_frame (c : Context) :
    (∀ symbol, ¬ (symbol = "-" ∧ c.expectsOperand = true) →
        Reduces c (Enters symbol c) (c.enterOperator (.ofSymbol symbol))) ∧
      Reduces c (Closes c) c.closeGroup ∧
      Reduces c (Clears c) c.reduceAll :=
  ⟨fun _ => c.reduces_enterOperator, c.reduces_closeGroup, c.reduces_reduceAll⟩

theorem reductions_frame_unknown :
    let entering : Context :=
      { source := .startingAt "7-x".toList 1
        stack := ⟨[4, 3, 2, 1], [.operator .mul, .operator .add, .group, .operator .div]⟩
        expectsOperand := false }
    let closing : Context :=
      { source := .startingAt "7)".toList 1
        stack := ⟨[3, 6, 9], [.operator .div, .unknown "%", .group]⟩
        phase := .done }
    (¬ ("-" = "-" ∧ entering.expectsOperand = true) ∧
        ∃ d ops, entering.enterOperator (.ofSymbol "-") = .ok d ∧ Enters "-" entering ops d ∧
          d.stack = ⟨[14, 1], [.operator .sub, .group, .operator .div]⟩) ∧
      ∃ failure, closing.closeGroup = .error failure ∧ BrokenOff closing failure.context ∧
        failure.error = .unknownOperator "%" ∧ failure.context.stack = ⟨[2, 9], [.group]⟩ := by
  intro entering closing
  have hbinary : ¬ ("-" = "-" ∧ entering.expectsOperand = true) := by simp [entering]
  have hentered := (reductions_frame entering).1 "-" hbinary
  have hclosed := (reductions_frame closing).2.1
  obtain ⟨-, ops, -, -, hdone⟩ := hentered
  exact ⟨⟨hbinary, _, ops, rfl, hdone, rfl⟩, _, rfl, hclosed, rfl, rfl⟩

end InfixArithmetic.Evaluation
