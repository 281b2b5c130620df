import InfixArithmetic.Proofs.Reading
/-!
# Quotients

A truncated quotient is known by the remainder that it leaves: smaller than the divisor and, unless
it is zero, of the sign of the dividend (`Truncates`). One integer and no other leaves such a
remainder, so this says what division comes to for integers of any size. The quotient of a value is
a value again, with one exception: the least value divided by -1. Both are put together in
`truncatedQuotient_truncates`.
-/

namespace InfixArithmetic

variable {a b q : Int}

/-- What is left of `a` when `b` is taken away `q` times is smaller than `b`, and it is zero or has
the sign of `a`. -/
structure Truncates (a b q : Int) : Prop where
  lt_divisor : (a - q * b).natAbs < b.natAbs
  sign_eq : a - q * b = 0 ∨ (a - q * b).sign = a.sign

instance (a b q : Int) : Decidable (Truncates a b q) :=
  decidable_of_iff (_ ∧ _) ⟨fun ⟨hlt, hsign⟩ => ⟨hlt, hsign⟩, fun ⟨hlt, hsign⟩ => ⟨hlt, hsign⟩⟩

namespace Truncates

theorem divisor_ne_zero (hq : Truncates a b q) : b ≠ 0 := by
  rintro rfl
  exact absurd hq.lt_divisor (Nat.not_lt_zero _)

theorem remainder_nonneg (hq : Truncates a b q) (ha : 0 ≤ a) : 0 ≤ a - q * b := by
  rcases hq.sign_eq with hzero | hsign
  · exact Int.le_of_eq hzero.symm
  · rwa [← Int.sign_nonneg_iff, hsign, Int.sign_nonneg_iff]

theorem remainder_nonpos (hq : Truncates a b q) (ha : a ≤ 0) : a - q * b ≤ 0 := by
  rcases hq.sign_eq with hzero | hsign
  · exact Int.le_of_eq hzero
  · rwa [← Int.sign_nonpos_iff, hsign, Int.sign_nonpos_iff]

theorem tdiv_eq (hq : Truncates a b q) : a.tdiv b = q := by
  have hlt := hq.lt_divisor
  have hsplit : a - q * b + b * q = a := by rw [Int.mul_comm b q, Int.sub_add_cancel]
  -- the remainder lies on the side of the dividend, and on either side it fixes the quotient
  rcases Int.le_total 0 a with ha | ha
  · have hnonneg := hq.remainder_nonneg ha
    have hbound : a - q * b < b.natAbs := by omega
    exact ((Int.tdiv_tmod_unique ha hq.divisor_ne_zero).2 ⟨hsplit, hnonneg, hbound⟩).1
  · have hnonpos := hq.remainder_nonpos ha
    have hbound : -(b.natAbs : Int) < a - q * b := by omega
    exact ((Int.tdiv_tmod_unique' ha hq.divisor_ne_zero).2 ⟨hsplit, hbound, hnonpos⟩).1

end Truncates

theorem truncates_tdiv (a : Int) (hb : b ≠ 0) : Truncates a b (a.tdiv b) := by
  have hremainder : a - a.tdiv b * b = a.tmod b := by rw [Int.tmod_def, Int.mul_comm]
  constructor
  · rw [hremainder, Int.natAbs_tmod]
    exact Nat.mod_lt _ (Int.natAbs_pos.2 hb)
  · rw [hremainder]
    by_cases hdivides : b ∣ a
    · exact .inl (Int.tmod_eq_zero_of_dvd hdivides)
    · rw [Int.sign_tmod, if_neg hdivides]
      exact .inr rfl

theorem truncatedQuotient_eq_ok_iff_truncates :
    truncatedQuotient a b = .ok q ↔ Truncates a b q := by
  rw [truncatedQuotient_eq_ok_iff]
  constructor
  · rintro ⟨hb, rfl⟩
    exact truncates_tdiv a hb
  · intro hq
    exact ⟨hq.divisor_ne_zero, hq.tdiv_eq⟩

/-! ## Quotients of values -/

theorem inRange_tdiv_iff (ha : InRange a) (hb : b ≠ 0) :
    InRange (a.tdiv b) ↔ ¬ (a = minValue ∧ b = -1) := by
  unfold InRange minValue maxValue at *
  obtain rfl | rfl | hlarge : b = 1 ∨ b = -1 ∨ 2 ≤ b.natAbs := by omega
  · rw [Int.tdiv_one]
    omega
  · rw [Int.tdiv_neg, Int.tdiv_one]
    omega
  · have hsize : (a.tdiv b).natAbs = a.natAbs / b.natAbs := Int.natAbs_tdiv a b
    have hhalf : a.natAbs / b.natAbs ≤ a.natAbs / 2 := Nat.div_le_div_left hlarge (by decide)
    omega

theorem apply_div_eq_overflow_iff (ha : InRange a) :
    Operator.div.apply a b = .error .integerOverflow ↔ a = minValue ∧ b = -1 := by
  constructor
  · intro hoverflow
    rcases Evaluation.bind_eq_error_iff.1 hoverflow with hexact | ⟨q, hexact, hchecked⟩
    · cases (truncatedQuotient_eq_error_iff.1 hexact).2
    · obtain ⟨hb, rfl⟩ := truncatedQuotient_eq_ok_iff.1 hexact
      by_contra hother
      have hrange := (inRange_tdiv_iff ha hb).2 hother
      exact absurd hrange (checked_eq_error_iff.1 hchecked).1
  · rintro ⟨rfl, rfl⟩
    decide

/-- Division fails for a zero divisor alone. For any other it gives the one integer that truncates,
and a minus of the dividend or of the divisor is a minus of the quotient. The quotient of a value is
out of the range for one pair alone. -/
theorem truncatedQuotient_truncates (a b : Int) :
    (∀ e, truncatedQuotient a b = .error e ↔ b = 0 ∧ e = .divisionByZero) ∧
      (b ≠ 0 → ∃ q, truncatedQuotient a b = .ok q ∧ Truncates a b q ∧
        ∀ p, Truncates a b p → p = q) ∧
      truncatedQuotient (-a) b = (truncatedQuotient a b).map (fun q => -q) ∧
      truncatedQuotient a (-b) = (truncatedQuotient a b).map (fun q => -q) ∧
      (InRange a →
        (Operator.div.apply a b = .error .integerOverflow ↔ a = minValue ∧ b = -1)) := by
  refine ⟨fun e => truncatedQuotient_eq_error_iff, fun hb => ?_, truncatedQuotient_neg_left a b,
    truncatedQuotient_neg_right a b, apply_div_eq_overflow_iff⟩
  have htruncates : Truncates a b (a.tdiv b) := truncates_tdiv a hb
  exact ⟨_, truncatedQuotient_eq_ok_iff_truncates.2 htruncates, htruncates,
    fun p hp => hp.tdiv_eq.symm⟩

theorem truncatedQuotient_truncates_signs :
    (2 : Int) ≠ 0 ∧ truncatedQuotient (-7) 2 = .ok (-3) ∧ Truncates (-7) 2 (-3) ∧
      (∀ p, Truncates (-7) 2 p → p = -3) ∧ ¬ Truncates (-7) 2 (-4) ∧ InRange minValue ∧
      Operator.div.apply minValue (-1) = .error .integerOverflow := by
  have hdivisor : (2 : Int) ≠ 0 := by decide
  have hquotient : truncatedQuotient (-7) 2 = .ok (-3) := by decide
  have hfloor : ¬ Truncates (-7) 2 (-4) := by decide
  have hleast : InRange minValue := by decide
  obtain ⟨-, hgives, -⟩ := truncatedQuotient_truncates (-7) 2
  obtain ⟨q, hq, htruncates, honly⟩ := hgives hdivisor
  obtain rfl : -3 = q := Except.ok.inj (hquotient.symm.trans hq)
  obtain ⟨-, -, -, -, hoverflow⟩ := truncatedQuotient_truncates minValue (-1)
  exact ⟨hdivisor, hquotient, htruncates, honly, hfloor, hleast, (hoverflow hleast).2 ⟨rfl, rfl⟩⟩

end InfixArithmetic
