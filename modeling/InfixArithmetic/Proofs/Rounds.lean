import InfixArithmetic.Evaluation.Stacks
import Mathlib.Logic.Relation
/-!
# Rounds of a reduction

A reduction applies one operator after another. What one round can do is said once, by
`reduceTop_eq_ok_iff` where it succeeds and by `Spoils` where it fails. `Rounds` relates the stacks
that a reduction starts from to those that it comes to between two rounds. A reduction that succeeds
ends in one of these, and a reduction that fails is broken off by a round that starts from one of
them.
-/

namespace InfixArithmetic.Evaluation.Stacks

variable {p : Pending → Bool} {s t : Stacks} {e : EvalError}

theorem reduceTop_eq_ok_iff :
    s.reduceTop = .ok t ↔ ∃ b a operands op operators v,
      s = ⟨b :: a :: operands, .operator op :: operators⟩ ∧ op.apply a b = .ok v ∧
        t = ⟨v :: operands, operators⟩ := by
  constructor
  · intro hok
    obtain ⟨operands, operators⟩ := s
    match operands, operators with
    | b :: a :: operands, top :: operators =>
      cases top with
      | group => cases hok
      | unknown symbol => cases hok
      | operator op =>
        cases happly : op.apply a b with
        | error e =>
          simp only [reduceTop, happly] at hok
          cases hok
        | ok v =>
          simp only [reduceTop, happly] at hok
          cases hok
          exact ⟨b, a, operands, op, operators, v, rfl, happly, rfl⟩
    | _ :: _ :: _, [] => cases hok
    | [], _ => cases hok
    | [_], _ => cases hok
  · rintro ⟨b, a, operands, op, operators, v, rfl, happly, rfl⟩
    simp only [reduceTop, happly]

/-- How a round fails and what it leaves: too few operands and a missing operator leave all as it
was, a symbol that is no operator is gone, and so are the operands of arithmetic that fails. -/
inductive Spoils : Stacks → EvalError → Stacks → Prop
  | few {s : Stacks} (hfew : s.operands.length < 2) : Spoils s .stackUnderflow s
  | empty {b a : Int} {operands : List Int} :
      Spoils ⟨b :: a :: operands, []⟩ .noOperator ⟨b :: a :: operands, []⟩
  | unknown {b a : Int} {operands : List Int} {top : Pending} {operators : List Pending}
      (hother : ∀ op, top ≠ .operator op) :
      Spoils ⟨b :: a :: operands, top :: operators⟩ (.unknownOperator top.symbol)
        ⟨b :: a :: operands, operators⟩
  | arithmetic {b a : Int} {operands : List Int} {op : Operator} {operators : List Pending}
      {e : EvalError} (happly : op.apply a b = .error e) :
      Spoils ⟨b :: a :: operands, .operator op :: operators⟩ e ⟨operands, operators⟩

theorem reduceTop_eq_error_iff : s.reduceTop = .error (e, t) ↔ Spoils s e t := by
  constructor
  · intro herror
    obtain ⟨operands, operators⟩ := s
    match operands, operators with
    | b :: a :: operands, top :: operators =>
      cases top with
      | group =>
        cases herror
        exact .unknown (by simp)
      | unknown symbol =>
        cases herror
        exact .unknown (by simp)
      | operator op =>
        cases happly : op.apply a b with
        | ok v =>
          simp only [reduceTop, happly] at herror
          cases herror
        | error cause =>
          simp only [reduceTop, happly] at herror
          cases herror
          exact .arithmetic happly
    | _ :: _ :: _, [] =>
      cases herror
      exact .empty
    | [], _ =>
      cases herror
      exact .few Nat.zero_lt_two
    | [_], _ =>
      cases herror
      exact .few Nat.one_lt_two
  · intro hspoils
    cases hspoils with
    | few hfew =>
      obtain ⟨operands, operators⟩ := s
      match operands with
      | [] => rfl
      | [_] => rfl
      | _ :: _ :: _ =>
        simp only [List.length_cons] at hfew
        omega
    | empty => rfl
    | @unknown _ _ _ top _ hother =>
      cases top with
      | group => rfl
      | unknown symbol => rfl
      | operator op => exact absurd rfl (hother op)
    | arithmetic happly => simp only [reduceTop, happly]

def Yields (p : Pending → Bool) (s : Stacks) : Prop :=
  ∃ top operators, s.operators = top :: operators ∧ p top = true

def Round (p : Pending → Bool) (s t : Stacks) : Prop :=
  s.Yields p ∧ s.reduceTop = .ok t

/-- What a reduction that goes on while `p` holds comes to after any number of rounds. -/
def Rounds (p : Pending → Bool) : Stacks → Stacks → Prop :=
  Relation.ReflTransGen (Round p)

theorem Rounds.invariant {P : Stacks → Prop} (hrounds : Rounds p s t) (hs : P s)
    (hround : ∀ u v, P u → u.reduceTop = .ok v → P v) : P t := by
  induction hrounds with
  | refl => exact hs
  | tail _ hlast ih => exact hround _ _ ih hlast.2

theorem reduceWhile_of_not_yields (hend : ¬ s.Yields p) : s.reduceWhile p = .ok s := by
  cases hoperators : s.operators with
  | nil => exact reduceWhile_of_operators_eq_nil hoperators
  | cons top operators =>
    apply reduceWhile_of_not hoperators
    have htop : ¬ p top = true := fun htop => hend ⟨top, operators, hoperators, htop⟩
    simpa using htop

theorem reduceWhile_of_yields (hyields : s.Yields p) :
    s.reduceWhile p = s.reduceTop >>= fun t => t.reduceWhile p := by
  obtain ⟨top, operators, hoperators, htop⟩ := hyields
  exact reduceWhile_of_pos hoperators htop

/-- A reduction goes through its rounds and stops where none is left, or at a round that fails. -/
theorem rounds_reduceWhile (p : Pending → Bool) (s : Stacks) :
    ∃ t, Rounds p s t ∧
      ((¬ t.Yields p ∧ s.reduceWhile p = .ok t) ∨
        ∃ failure, t.Yields p ∧ t.reduceTop = .error failure ∧
          s.reduceWhile p = .error failure) := by
  -- on the pending operators, since every round takes one of them away
  induction hlength : s.operators.length generalizing s with
  | zero =>
    have hend : ¬ s.Yields p := by
      rintro ⟨top, operators, hoperators, -⟩
      rw [hoperators] at hlength
      cases hlength
    exact ⟨s, .refl, .inl ⟨hend, reduceWhile_of_not_yields hend⟩⟩
  | succ n ih =>
    by_cases hyields : s.Yields p
    · rw [reduceWhile_of_yields hyields]
      cases hreduce : s.reduceTop with
      | error failure => exact ⟨s, .refl, .inr ⟨failure, hyields, hreduce, rfl⟩⟩
      | ok u =>
        obtain ⟨top, hoperators⟩ := operators_reduceTop hreduce
        have hshorter : u.operators.length = n := by
          rw [hoperators, List.length_cons] at hlength
          omega
        obtain ⟨t, hrounds, hresult⟩ := ih u hshorter
        exact ⟨t, hrounds.head ⟨hyields, hreduce⟩, hresult⟩
    · exact ⟨s, .refl, .inl ⟨hyields, reduceWhile_of_not_yields hyields⟩⟩

end InfixArithmetic.Evaluation.Stacks
