import InfixArithmetic.Proofs.Attached
import InfixArithmetic.Proofs.Grouping
/-!
# Printed values

The decimal text of an integer is an expression as well: a literal, with a sign in front of it if
the integer is negative (`Grammar.ofInt`). The sign is no part of the literal, and a literal has to
be a value on its own. So every value is read back from its text but the least one, whose literal is
out of range: `evaluate_printed`.
-/

namespace InfixArithmetic

open Evaluation

namespace Text.Decimal

/-- A text that writes an integer in decimal: one or more digits, of which the first is no zero
unless it stands alone, and a minus sign in front of them if the integer is negative. -/
def Writes (n : Int) (text : List Char) : Prop :=
  ∃ run : List Char, text = (if n < 0 then '-' :: run else run) ∧ run ≠ [] ∧
    (∀ c ∈ run, c.isDigit = true) ∧ (run.head? = some '0' → run = ['0']) ∧
    ofDigits run = n.natAbs

theorem digits_of_lt {n : Nat} (hn : n < 10) : digits n = [digit n] := by
  rw [digits, if_pos hn]

theorem digits_of_ge {n : Nat} (hn : 10 ≤ n) : digits n = digits (n / 10) ++ [digit (n % 10)] := by
  rw [digits, if_neg (Nat.not_lt.2 hn)]

theorem head?_digits_ne_zero {n : Nat} (hpos : 0 < n) : (digits n).head? ≠ some '0' := by
  have hdigit : ∀ d, d < 10 → 0 < d → digit d ≠ '0' := by decide
  induction n using Nat.strongRecOn with
  | ind n ih =>
    by_cases hsmall : n < 10
    · rw [digits_of_lt hsmall, List.head?_cons]
      exact fun hzero => hdigit n hsmall hpos (Option.some.inj hzero)
    · rw [digits_of_ge (Nat.not_lt.1 hsmall), List.head?_append_of_ne_nil _ (digits_ne_nil _)]
      exact ih (n / 10) (by omega) (by omega)

theorem toList_ofInt (n : Int) :
    (ofInt n).toList = if n < 0 then '-' :: digits n.natAbs else digits n.natAbs := by
  unfold ofInt
  split
  · exact String.toList_ofList
  · exact String.toList_ofList

theorem writes_ofInt (n : Int) : Writes n (ofInt n).toList := by
  refine ⟨digits n.natAbs, toList_ofInt n, digits_ne_nil _, isDigit_of_mem_digits _, ?_,
    ofDigits_digits _⟩
  intro hzero
  by_cases hn : n.natAbs = 0
  · rw [hn]
    exact digits_of_lt (by decide)
  · exact absurd hzero (head?_digits_ne_zero (Nat.pos_of_ne_zero hn))

end Text.Decimal

namespace Grammar

open Text

def ofInt (n : Int) : Grouping .expression :=
  let magnitude : Grouping .chain := .single (.literal (.ofNat n.natAbs))
  .ofTerm (if n < 0 then .ofNegation (.sign (.ofChain magnitude)) else .ofChain magnitude)

theorem flatMap_chars_tokens_ofInt (n : Int) :
    (ofInt n).tokens.flatMap Token.chars = (Decimal.ofInt n).toList := by
  rw [Decimal.toList_ofInt, ofInt]
  split
  · exact congrArg ('-' :: ·) (List.append_nil _)
  · exact List.append_nil _

theorem laidOut_ofInt (n : Int) : LaidOut (ofInt n).tokens (Decimal.ofInt n).toList :=
  flatMap_chars_tokens_ofInt n ▸ laidOut_flatMap_chars _

theorem value_ofInt_of_nonneg {n : Int} (hn : 0 ≤ n) : (ofInt n).value = checked n := by
  have hvalue : ((Numeral.ofNat n.natAbs).value : Int) = n := by
    rw [Numeral.value_ofNat, Int.natAbs_of_nonneg hn]
  rw [ofInt, if_neg (Int.not_lt.2 hn)]
  exact congrArg checked hvalue

theorem value_ofInt_of_neg {n : Int} (hn : n < 0) :
    (ofInt n).value = checked (-n) >>= fun m => checked (0 - m) := by
  have hvalue : ((Numeral.ofNat n.natAbs).value : Int) = -n := by
    rw [Numeral.value_ofNat, Int.ofNat_natAbs_of_nonpos (Int.le_of_lt hn)]
  rw [ofInt, if_pos hn]
  change combine checked .sub (.ok 0) (checked (Numeral.ofNat n.natAbs).value) = _
  rw [hvalue]
  rfl

theorem value_ofInt (n : Int) :
    (ofInt n).value =
      if minValue < n ∧ n ≤ maxValue then .ok n else .error .integerOverflow := by
  have hmin : minValue = -maxValue - 1 := rfl
  have hmax : 0 < maxValue := by decide
  by_cases hn : n < 0
  · rw [value_ofInt_of_neg hn]
    by_cases hfits : minValue < n
    · have hmagnitude : checked (-n) = .ok (-n) :=
        checked_eq_ok_iff.2 ⟨rfl, by omega, by omega⟩
      have hnegated : checked (0 - -n) = .ok n :=
        checked_eq_ok_iff.2 ⟨by omega, by omega, by omega⟩
      rw [hmagnitude, if_pos ⟨hfits, by omega⟩]
      exact hnegated
    · have hmagnitude : checked (-n) = .error .integerOverflow :=
        checked_eq_error_iff.2 ⟨fun hrange => by have := hrange.2; omega, rfl⟩
      rw [hmagnitude, if_neg fun hrange => hfits hrange.1]
      rfl
  · rw [value_ofInt_of_nonneg (Int.not_lt.1 hn)]
    by_cases hfits : n ≤ maxValue
    · rw [if_pos ⟨by omega, hfits⟩]
      exact checked_eq_ok_iff.2 ⟨rfl, by omega, hfits⟩
    · rw [if_neg fun hrange => hfits hrange.2]
      exact checked_eq_error_iff.2 ⟨fun hrange => hfits hrange.2, rfl⟩

end Grammar

namespace Evaluation

open Text

theorem evaluate_ofInt (n : Int) :
    evaluate (Decimal.ofInt n) =
      if minValue < n ∧ n ≤ maxValue then .ok n else .error .integerOverflow := by
  have hseparated := separated_of_dueAfter (Grammar.ofInt n).dueAfter_tokens
  rw [evaluate_eq_read, tokens_eq_of_laidOut (Grammar.laidOut_ofInt n) hseparated,
    Grammar.Grouping.read_tokens, Grammar.value_ofInt]

/-- The decimal text of an integer evaluates to the integer if that is a value other than the least
one, and is out of range otherwise. So what is printed for an expression evaluates to the same value
again, unless that is the least value, which some expressions do have. -/
theorem evaluate_printed :
    (∀ n : Int, Decimal.Writes n (Decimal.ofInt n).toList ∧
      evaluate (Decimal.ofInt n) =
        if minValue < n ∧ n ≤ maxValue then .ok n else .error .integerOverflow) ∧
      (∀ text v, evaluate text = .ok v →
        CommandLine.evaluateOne text = .ok { output := Decimal.ofInt v ++ "\n" } ∧
          (v ≠ minValue → evaluate (Decimal.ofInt v) = .ok v) ∧
          (v = minValue → evaluate (Decimal.ofInt v) = .error .integerOverflow)) ∧
      ∃ text, evaluate text = .ok minValue := by
  refine ⟨fun n => ⟨Decimal.writes_ofInt n, evaluate_ofInt n⟩, ?_, "0-2147483647-1",
    by decide +kernel⟩
  intro text v hvalue
  obtain ⟨hlow, hhigh⟩ := inRange_of_evaluate hvalue
  refine ⟨CommandLine.evaluateOne_of_ok hvalue, fun hleast => ?_, fun hleast => ?_⟩
  · rw [evaluate_ofInt, if_pos ⟨Int.lt_iff_le_and_ne.2 ⟨hlow, hleast.symm⟩, hhigh⟩]
  · rw [evaluate_ofInt, if_neg fun hrange => Int.ne_of_lt hrange.1 hleast.symm]

theorem evaluate_printed_bounds :
    evaluate "2147483647*(0-1)" = .ok (-2147483647) ∧ -2147483647 ≠ minValue ∧
      evaluate (Decimal.ofInt (-2147483647)) = .ok (-2147483647) ∧
      evaluate "-2147483647-1" = .ok minValue ∧
      evaluate (Decimal.ofInt minValue) = .error .integerOverflow := by
  have hnegated : evaluate "2147483647*(0-1)" = .ok (-2147483647) := by decide +kernel
  have hleast : evaluate "-2147483647-1" = .ok minValue := by decide +kernel
  have hne : -2147483647 ≠ minValue := by decide
  obtain ⟨-, hagain, -⟩ := evaluate_printed.2.1 _ _ hnegated
  obtain ⟨-, -, hrejected⟩ := evaluate_printed.2.1 _ _ hleast
  exact ⟨hnegated, hne, hagain hne, hleast, hrejected rfl⟩

end Evaluation

end InfixArithmetic
