import InfixArithmetic.Evaluation.Context
import InfixArithmetic.Proofs.Literals
/-!
# Runs of digits

Reading a literal stops in the middle of a run of digits when the value read so far is out of the
range. There is at most one digit at which that happens first (`LeavesAt.unique`), and reading stops
there (`Literal.leavesAt_length_read`). So the value of the whole run tells what becomes of a
literal, however long the run is and however many zeros it starts with: `Context.readLiteral_run`.
-/

namespace InfixArithmetic.Evaluation

open Text.Decimal (ofDigits)

/-- The digit at a place of a run is the first at which the value of the digits so far is out of the
range. -/
structure LeavesAt (run : List Char) (place : Nat) : Prop where
  lt_length : place < run.length
  le_before : ∀ n ≤ place, (ofDigits (run.take n) : Int) ≤ maxValue
  lt_behind : maxValue < (ofDigits (run.take (place + 1)) : Int)

namespace LeavesAt

variable {run : List Char} {place other : Nat}

theorem le (hplace : LeavesAt run place) (hother : LeavesAt run other) : place ≤ other := by
  by_contra hlt
  have hfits := hplace.le_before (other + 1) (Nat.lt_of_not_le hlt)
  exact absurd hother.lt_behind (Int.not_lt.2 hfits)

theorem unique (hplace : LeavesAt run place) (hother : LeavesAt run other) : other = place :=
  Nat.le_antisymm (hother.le hplace) (hplace.le hother)

end LeavesAt

theorem Literal.leavesAt_length_read {text : List Char} (hnone : (read text).value = none) :
    LeavesAt (text.takeWhile Char.isDigit) (read text).length := by
  obtain ⟨front, digit, back, htext, hfront, hdigit, hlength, hle, hlt⟩ :=
    exists_digit_of_readFrom (by decide) hnone
  have hrun : text.takeWhile Char.isDigit =
      front ++ digit :: back.takeWhile Char.isDigit := by
    rw [htext, List.takeWhile_append_of_pos hfront, List.takeWhile_cons_of_pos hdigit]
  rw [read, hlength, Nat.zero_add, hrun]
  refine ⟨by simp, fun n hn => ?_, ?_⟩
  · have hprefix : (front ++ digit :: back.takeWhile Char.isDigit).take n <+: front := by
      rw [List.take_append_of_le_length hn]
      exact List.take_prefix n front
    have hgrows := ofDigits_le_of_prefix hprefix
    change (ofDigits front : Int) ≤ maxValue at hle
    omega
  · rwa [List.take_length_add_append, List.take_succ_cons, List.take_zero]

/-- Reading a literal comes to what the value of its whole run of digits says. In the range, the
value goes on the operands, no operand is expected behind it and the cursor is behind the run. Out
of the range, nothing but the cursor moves, to the one digit at which the value of the digits so far
leaves the range. -/
theorem Context.readLiteral_run (c : Context) :
    let run := (c.source.text.drop c.source.cursor).takeWhile Char.isDigit
    ((ofDigits run : Int) ≤ maxValue →
        c.readLiteral = .ok { c with
          source := c.source.advance run.length
          stack := { c.stack with operands := ofDigits run :: c.stack.operands }
          expectsOperand := false }) ∧
      (maxValue < (ofDigits run : Int) →
        ∃ place, LeavesAt run place ∧ (∀ other, LeavesAt run other → other = place) ∧
          c.readLiteral =
            .error ⟨.integerOverflow, { c with source := c.source.advance place }⟩) := by
  intro run
  have hrun : c.source.rest.takeWhile Char.isDigit = run := by rw [c.source.rest_eq_drop]
  have hvalue := Literal.value_read c.source.rest
  rw [hrun] at hvalue
  refine ⟨fun hle => ?_, fun hlt => ?_⟩
  · have hlength : (Literal.read c.source.rest).length = run.length := by
      rw [Literal.length_read (by rwa [hrun]), hrun]
    rw [if_pos hle] at hvalue
    rw [readLiteral, hvalue, hlength]
    rfl
  · rw [if_neg (Int.not_le.2 hlt)] at hvalue
    have hleaves := Literal.leavesAt_length_read hvalue
    rw [hrun] at hleaves
    refine ⟨_, hleaves, fun other hother => hleaves.unique hother, ?_⟩
    rw [readLiteral, hvalue]
    rfl

theorem Context.readLiteral_run_zeros :
    (∃ c d : Context, c.source = .startingAt "(007)".toList 1 ∧ c.readLiteral = .ok d ∧
        d.stack.operands = 7 :: c.stack.operands ∧ d.source.cursor = 4) ∧
      ∃ (c : Context) (failure : Failure), c.source = .startingAt "1-00030000000005".toList 2 ∧
        c.readLiteral = .error failure ∧ failure.error = .integerOverflow ∧
        failure.context.stack = c.stack ∧ failure.context.source.cursor = 14 := by
  constructor
  · let c : Context := { source := .startingAt "(007)".toList 1, stack := ⟨[], [.group]⟩ }
    exact ⟨c, _, rfl, c.readLiteral_run.1 (by decide), rfl, rfl⟩
  · let c : Context :=
      { source := .startingAt "1-00030000000005".toList 2
        stack := ⟨[1], [.operator .sub]⟩ }
    obtain ⟨place, -, honly, herror⟩ := c.readLiteral_run.2 (by decide)
    have hplace : 12 = place := honly 12 ⟨by decide, by decide, by decide⟩
    subst hplace
    exact ⟨c, _, rfl, herror, rfl, rfl, rfl⟩

end InfixArithmetic.Evaluation
