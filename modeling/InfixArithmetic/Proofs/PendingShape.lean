import InfixArithmetic.Proofs.Range
import InfixArithmetic.Proofs.Reachable
import InfixArithmetic.Proofs.Reductions
/-!
# The shape of the pending operators

Which operator may stand directly on which is a matter of neighbours, so a stack that loses
operators from its top keeps its shape: reductions need no argument of their own, whether they go
through or break off. A new operator lies on what its reduction could not take off
(`Pending.standsOn_of_not_yieldsTo`), and a sign or an open group may lie on anything. Hence an
evaluation keeps the shape throughout, between the rounds of its reductions as well:
`reaches_shape`.
-/

namespace InfixArithmetic.Evaluation

/-! ## Neighbours -/

namespace Pending

def Known (q : Pending) : Prop :=
  q = .group ∨ ∃ op, q = .operator op

/-- Whether a symbol may stand directly on another one. -/
def StandsOn (upper lower : Pending) : Prop :=
  (upper = .operator .add → lower = .group) ∧ (upper.precedence = 2 → lower.precedence ≠ 2)

theorem group_standsOn (lower : Pending) : group.StandsOn lower :=
  ⟨nofun, nofun⟩

theorem sub_standsOn (lower : Pending) : (operator .sub).StandsOn lower :=
  ⟨nofun, nofun⟩

theorem standsOn_of_not_yieldsTo {op : Operator} {lower : Pending} (hknown : lower.Known)
    (hstays : ¬ lower.yieldsTo op.precedence = true) : (operator op).StandsOn lower := by
  rcases hknown with rfl | ⟨under, rfl⟩
  · exact ⟨fun _ => rfl, fun _ => nofun⟩
  · have hlow : under.precedence < op.precedence := by
      rw [yieldsTo_iff, not_and] at hstays
      exact Nat.lt_of_not_le (hstays nofun)
    constructor
    · intro hadd
      cases hadd
      exact absurd under.precedence_pos (Nat.not_lt.2 (Nat.le_of_lt_succ hlow))
    · intro hproduct hunder
      exact absurd (hunder.trans hproduct.symm) hlow.ne

end Pending

/-! ## Stacks -/

/-- A stack of open groups and operators, each of which may stand on the one below it. -/
structure Piled (operators : List Pending) : Prop where
  known : ∀ q ∈ operators, q.Known
  stands : operators.IsChain Pending.StandsOn

namespace Piled

variable {operators left : List Pending}

theorem nil : Piled [] where
  known := List.forall_mem_nil _
  stands := .nil

theorem of_suffix (hpiled : Piled operators) (hsuffix : left <:+ operators) : Piled left where
  known q hq := hpiled.known q (hsuffix.subset hq)
  stands := hpiled.stands.suffix hsuffix

theorem cons {q : Pending} (hpiled : Piled operators) (hq : q.Known)
    (hstands : ∀ top ∈ operators.head?, q.StandsOn top) : Piled (q :: operators) where
  known := List.forall_mem_cons.2 ⟨hq, hpiled.known⟩
  stands := List.isChain_cons.2 ⟨hstands, hpiled.stands⟩

/-- An operator goes on the stack when none is left on top of it that its reduction takes off. -/
theorem cons_of_not_yields {s : Stacks} {op : Operator} (hpiled : Piled s.operators)
    (hends : ¬ s.Yields (Pending.yieldsTo op.precedence)) :
    Piled (.operator op :: s.operators) := by
  refine hpiled.cons (.inr ⟨op, rfl⟩) fun top htop => ?_
  obtain ⟨operators, hoperators⟩ := List.head?_eq_some_iff.1 htop
  apply Pending.standsOn_of_not_yieldsTo
  · exact hpiled.known top (hoperators ▸ List.mem_cons_self)
  · exact fun hyields => hends ⟨top, operators, hoperators, hyields⟩

theorem of_rounds {p : Pending → Bool} {s t : Stacks} (hpiled : Piled s.operators)
    (hrounds : Stacks.Rounds p s t) : Piled t.operators := by
  obtain ⟨ops, happlied, -⟩ := hrounds.exists_applied
  exact hpiled.of_suffix happlied.remains.operators

end Piled

/-! ## Transitions -/

namespace Context

def Piles (c : Context) : Prop :=
  Piled c.stack.operators

variable {c : Context}

theorem piles_of_brokenOff {d : Context} (hc : c.Piles) (hbroken : BrokenOff c d) : d.Piles :=
  hc.of_suffix hbroken.remains.operators

theorem piles_readLiteral (hc : c.Piles) : Leaves Piles c.readLiteral := by
  unfold readLiteral
  dsimp only
  split
  · exact hc
  · exact hc

theorem piles_openGroup (hc : c.Piles) : c.openGroup.Piles :=
  hc.cons (.inl rfl) fun top _ => top.group_standsOn

/-- A reduction that breaks off keeps the shape, so only one that goes through needs a look. -/
theorem piles_of_reduces {Done : List Operator → Context → Prop} {x : Transition} (hc : c.Piles)
    (hreduces : Reduces c Done x) (hdone : ∀ ops d, Done ops d → d.Piles) : Leaves Piles x := by
  cases x with
  | ok d =>
    obtain ⟨-, ops, -, -, hd⟩ := hreduces
    exact hdone ops d hd
  | error failure => exact piles_of_brokenOff hc hreduces

theorem piles_closeGroup (hc : c.Piles) : Leaves Piles c.closeGroup := by
  refine piles_of_reduces hc c.reduces_closeGroup fun ops d hcloses => ?_
  refine hc.of_suffix ((List.suffix_cons .group _).trans ?_)
  rw [hcloses.operators_eq]
  exact List.suffix_append _ _

theorem piles_reduceAll (hc : c.Piles) : Leaves Piles c.reduceAll := by
  refine piles_of_reduces hc c.reduces_reduceAll fun ops d hclears => ?_
  rw [Piles, hclears.empty]
  exact .nil

theorem piles_enterOperator (hc : c.Piles) (op : Operator) :
    Leaves Piles (c.enterOperator (.operator op)) := by
  unfold enterOperator
  split
  · rename_i hsign
    obtain ⟨hsub, -⟩ := hsign
    rw [hsub]
    exact hc.cons (.inr ⟨_, rfl⟩) fun top _ => top.sub_standsOn
  · change Leaves Piles (c.reduceWhile (Pending.yieldsTo op.precedence) >>= _)
    cases hreduce : c.reduceWhile (Pending.yieldsTo op.precedence) with
    | error failure => exact piles_of_brokenOff hc (brokenOff_of_reduceWhile hreduce)
    | ok e =>
      obtain ⟨ops, hreduced⟩ := exists_reduced hreduce
      have he : e.Piles := hc.of_suffix hreduced.applied.remains.operators
      exact he.cons_of_not_yields hreduced.ends

theorem piles_readToken (hc : c.Piles) : Leaves Piles c.readToken :=
  leaves_readToken hc (fun _ _ hd => hd) (piles_readLiteral hc) (piles_openGroup hc)
    (piles_closeGroup hc) (piles_enterOperator hc)

end Context

theorem piles_of_reaches {text : List Char} {c : Context} (hreaches : Reaches text c) :
    c.Piles := by
  induction hreaches with
  | refl => exact .nil
  | tail _ hstep ih =>
    have hleft := Context.piles_readToken ih
    rwa [hstep] at hleft

/-! ## The shape -/

structure Shape (operators : List Pending) : Prop where
  known : ∀ q ∈ operators, q.Known
  /-- An addition is at the bottom or directly on an open group. -/
  add_lowest : ∀ above below, operators = above ++ .operator .add :: below →
    below = [] ∨ ∃ lower, below = .group :: lower
  /-- No multiplication or division is directly on another one. -/
  products_apart : ∀ above upper lower below,
    operators = above ++ .operator upper :: .operator lower :: below →
      (upper = .mul ∨ upper = .div) → lower ≠ .mul ∧ lower ≠ .div
  /-- Where no subtraction or sign has been put on top, an operator binds tighter than the one that
  it is directly on. -/
  rises : ∀ above upper lower below,
    operators = above ++ .operator upper :: .operator lower :: below →
      upper ≠ .sub → lower.precedence < upper.precedence

theorem Piled.standsOn {operators above below : List Pending} {upper lower : Pending}
    (hpiled : Piled operators) (hsplit : operators = above ++ upper :: lower :: below) :
    upper.StandsOn lower := by
  have hstands := hpiled.stands
  rw [hsplit, List.isChain_append_cons_cons] at hstands
  exact hstands.2.1

theorem Piled.shape {operators : List Pending} (hpiled : Piled operators) : Shape operators where
  known := hpiled.known
  add_lowest above below hsplit := by
    match below with
    | [] => exact .inl rfl
    | top :: lower => exact .inr ⟨lower, by rw [(hpiled.standsOn hsplit).1 rfl]⟩
  products_apart above upper lower below hsplit hproduct := by
    have hapart : lower.precedence ≠ 2 := (hpiled.standsOn hsplit).2 <| by
      rcases hproduct with rfl | rfl
      · rfl
      · rfl
    constructor
    · rintro rfl
      exact hapart rfl
    · rintro rfl
      exact hapart rfl
  rises above upper lower below hsplit hnotSub := by
    obtain ⟨hadd, hproduct⟩ := hpiled.standsOn hsplit
    have hlow := lower.precedence_le_two
    cases upper with
    | add => cases hadd rfl
    | sub => exact absurd rfl hnotSub
    | mul => exact lt_of_le_of_ne hlow (hproduct rfl)
    | div => exact lt_of_le_of_ne hlow (hproduct rfl)

/-- Wherever an evaluation stands, between two transitions or between two rounds of a reduction, and
whatever a transition leaves behind, well or badly, the pending operators have their shape. -/
theorem reaches_shape {text : List Char} {c : Context} (hreaches : Reaches text c) :
    (∀ p s, Stacks.Rounds p c.stack s → Shape s.operators) ∧
      Leaves (fun d => Shape d.stack.operators) c.readToken ∧
      Leaves (fun d => Shape d.stack.operators) c.reduceAll := by
  have hc := piles_of_reaches hreaches
  refine ⟨fun p s hrounds => (Piled.of_rounds hc hrounds).shape, ?_, ?_⟩
  · exact (Context.piles_readToken hc).imp fun d hd => hd.shape
  · exact (Context.piles_reduceAll hc).imp fun d hd => hd.shape

theorem reaches_shape_sign :
    ∃ c s, Reaches "(1+2*-3/4)".toList c ∧ Stacks.Rounds Pending.isInner c.stack s ∧
      c.stack.operators =
        [.operator .div, .operator .sub, .operator .mul, .operator .add, .group] ∧
      s.operators = [.operator .mul, .operator .add, .group] ∧
      Shape c.stack.operators ∧ Shape s.operators ∧
      Leaves (fun d => Shape d.stack.operators) c.readToken := by
  obtain ⟨c, hreaches, hstack⟩ : ∃ c, Reaches "(1+2*-3/4)".toList c ∧
      c.stack = ⟨[4, 3, 0, 2, 1],
        [.operator .div, .operator .sub, .operator .mul, .operator .add, .group]⟩ :=
    ⟨_, .step (.step (.step (.step (.step (.step (.step (.step (.step (reaches_ofText _) rfl) rfl)
      rfl) rfl) rfl) rfl) rfl) rfl) rfl, rfl⟩
  have hrounds : Stacks.Rounds Pending.isInner c.stack
      ⟨[0, 2, 1], [.operator .mul, .operator .add, .group]⟩ := by
    rw [hstack]
    have hfirst : Stacks.Round Pending.isInner
        ⟨[4, 3, 0, 2, 1],
          [.operator .div, .operator .sub, .operator .mul, .operator .add, .group]⟩
        ⟨[0, 0, 2, 1], [.operator .sub, .operator .mul, .operator .add, .group]⟩ :=
      ⟨⟨_, _, rfl, rfl⟩, rfl⟩
    exact .tail (.single hfirst) ⟨⟨_, _, rfl, rfl⟩, rfl⟩
  obtain ⟨hshape, hread, -⟩ := reaches_shape hreaches
  exact ⟨c, _, hreaches, hrounds, by rw [hstack], rfl, hshape Pending.isInner _ .refl,
    hshape _ _ hrounds, hread⟩

end InfixArithmetic.Evaluation
