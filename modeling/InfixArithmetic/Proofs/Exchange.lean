import InfixArithmetic.Proofs.Range
/-!
# Groups stand for their values

A text that has a value never looks below its own operands and operators, so inside a group it runs
as it does alone, on top of whatever the surroundings have left on the stacks
(`enterAll_inside`). All that its surroundings see of the group is the value that it pushes. Hence
groups of one value are exchangeable wherever they stand, and a value that is not negative can be
written in place of its group: `evaluate_group_exchange`.
-/

namespace InfixArithmetic.Evaluation

namespace Reading

/-- A reading inside a group that has been opened behind another reading. -/
def inside (outer r : Reading) : Reading where
  operands := r.operands ++ outer.operands
  held := r.held ++ none :: outer.held
  operandDue := r.operandDue

def pushValue (v : Int) (r : Reading) : Reading :=
  { r with operands := v :: r.operands, operandDue := false }

end Reading

theorem applyAll_above {ops : List Operator} {operands left : List Int}
    (happly : applyAll ops operands = .ok left) (below : List Int) :
    applyAll ops (operands ++ below) = .ok (left ++ below) := by
  induction ops generalizing operands with
  | nil =>
    cases happly
    rfl
  | cons op ops ih =>
    match operands with
    | [] => cases happly
    | [_] => cases happly
    | b :: a :: operands =>
      obtain ⟨v, hv, hrest⟩ := bind_eq_ok_iff.1 happly
      rw [List.cons_append, List.cons_append, applyAll, hv]
      exact ih hrest

theorem yielded_above_group (p : Operator → Bool) (held below : List (Option Operator)) :
    yielded p (held ++ none :: below) = yielded p held ∧
      kept p (held ++ none :: below) = kept p held ++ none :: below := by
  induction held with
  | nil => exact ⟨rfl, rfl⟩
  | cons entry held ih =>
    cases entry with
    | none => exact ⟨rfl, rfl⟩
    | some op =>
      by_cases hp : p op = true
      · simp [yielded, kept, hp, ih.1, ih.2]
      · simp [yielded, kept, hp]

namespace Reading

variable {r s : Reading}

theorem reduce_inside (outer : Reading) {p : Operator → Bool} (hreduce : r.reduce p = .ok s) :
    (outer.inside r).reduce p = .ok (outer.inside s) := by
  obtain ⟨left, happly, hs⟩ := bind_eq_ok_iff.1 hreduce
  cases hs
  obtain ⟨hyielded, hkept⟩ := yielded_above_group p r.held outer.held
  unfold reduce inside
  rw [hyielded, hkept, applyAll_above happly outer.operands]
  rfl

theorem enter_inside (outer : Reading) {token : Token} (henter : r.enter token = .ok s) :
    (outer.inside r).enter token = .ok (outer.inside s) := by
  cases token with
  | literal n =>
    rw [enter_literal] at henter ⊢
    obtain ⟨v, hv, hs⟩ := bind_eq_ok_iff.1 henter
    cases hs
    rw [hv]
    rfl
  | opening =>
    cases henter
    rfl
  | closing =>
    rw [enter_closing] at henter ⊢
    obtain ⟨t, hreduce, hclose⟩ := bind_eq_ok_iff.1 henter
    rw [reduce_inside outer hreduce]
    obtain ⟨operands, held, operandDue⟩ := t
    -- a group of its own is open, since the text alone could close one
    cases held with
    | nil => cases hclose
    | cons entry held =>
      cases hclose
      rfl
  | operator op =>
    by_cases hsign : op = .sub ∧ r.operandDue = true
    · rw [hsign.1, enter_sign hsign.2] at henter
      cases henter
      rw [hsign.1]
      exact enter_sign hsign.2
    · rw [enter_binary hsign] at henter
      obtain ⟨t, hreduce, hs⟩ := bind_eq_ok_iff.1 henter
      cases hs
      have hinside : ¬ (op = .sub ∧ (outer.inside r).operandDue = true) := hsign
      rw [enter_binary hinside, reduce_inside outer hreduce]
      rfl
  | invalid c => cases henter

theorem enterAll_inside (outer : Reading) {rest : List Token} (hread : r.enterAll rest = .ok s) :
    (outer.inside r).enterAll rest = .ok (outer.inside s) := by
  induction rest generalizing r with
  | nil =>
    cases hread
    rfl
  | cons token rest ih =>
    rw [enterAll_cons] at hread
    obtain ⟨t, henter, hrest⟩ := bind_eq_ok_iff.1 hread
    rw [enterAll_cons, enter_inside outer henter]
    exact ih hrest

/-- The end of a text and the end of a group do the same work. -/
theorem enter_closing_inside (outer : Reading) {v : Int} (hfinish : r.finish = .ok v) :
    (outer.inside r).enter .closing = .ok (outer.pushValue v) := by
  obtain ⟨s, hreduce, hs⟩ := bind_eq_ok_iff.1 hfinish
  rw [enter_closing, reduce_inside outer hreduce]
  obtain ⟨operands, held, operandDue⟩ := s
  split at hs
  · rename_i w hheld hoperands
    cases hs
    dsimp only at hheld hoperands
    subst hheld hoperands
    rfl
  · cases hs
  · cases hs

theorem enterAll_group (outer : Reading) {rest : List Token} {v : Int}
    (hvalue : read rest = .ok v) :
    outer.enterAll (.opening :: rest ++ [.closing]) = .ok (outer.pushValue v) := by
  obtain ⟨s, hread, hfinish⟩ := bind_eq_ok_iff.1 hvalue
  rw [List.cons_append, enterAll_cons, enter_opening]
  change (outer.inside {}).enterAll (rest ++ [.closing]) = _
  rw [enterAll_append, enterAll_inside outer hread]
  exact (enterAll_singleton _ _).trans (enter_closing_inside outer hfinish)

theorem enterAll_literal (outer : Reading) {n : Nat} (hn : InRange n) :
    outer.enterAll [.literal (.ofNat n)] = .ok (outer.pushValue n) := by
  rw [enterAll_singleton, enter_literal, Numeral.value_ofNat, checked_eq_ok_iff.2 ⟨rfl, hn⟩]
  rfl

end Reading

/-- The outcome of a text in which an operand of the given value stands between two texts. -/
def outcomeAround (front back : List Char) (v : Int) : Except EvalError Int := do
  let outer ← Reading.enterAll {} (tokens front)
  let r ← (outer.pushValue v).enterAll (tokens back)
  r.finish

theorem read_eq_outcomeAround {front back : List Char} {middle : List Token} {v : Int}
    (hmiddle : ∀ outer : Reading, outer.enterAll middle = .ok (outer.pushValue v)) :
    Reading.read (tokens front ++ middle ++ tokens back) = outcomeAround front back v := by
  unfold Reading.read outcomeAround
  rw [List.append_assoc, Reading.enterAll_append, bind_assoc]
  congr 1
  funext outer
  rw [Reading.enterAll_append, hmiddle]
  rfl

theorem evaluate_around_group (front back : String) {text : String} {v : Int}
    (hvalue : evaluate text = .ok v) :
    evaluate (front ++ "(" ++ text ++ ")" ++ back) =
      outcomeAround front.toList back.toList v := by
  rw [evaluate_eq_read] at hvalue
  rw [evaluate_eq_read, ← read_eq_outcomeAround fun outer => Reading.enterAll_group outer hvalue]
  have hopening := tokens_append_cons (c := '(') front.toList
    (text.toList ++ ')' :: back.toList) (by decide) (by decide)
  have hclosing := tokens_append_cons (c := ')') text.toList back.toList (by decide) (by decide)
  rw [hclosing] at hopening
  simpa [Token.ofChar] using congrArg Reading.read hopening

theorem evaluate_around_literal {front back : String} {n : Nat} (hn : InRange n)
    (hfront : endsInDigit front.toList = false) (hback : startsWithDigit back.toList = false) :
    evaluate (front ++ Text.Decimal.ofInt n ++ back) =
      outcomeAround front.toList back.toList n := by
  have hdigits : (Text.Decimal.ofInt n).toList = (Numeral.ofNat n).digits := by
    have hsign : ¬ (n : Int) < 0 := by omega
    simp [Text.Decimal.ofInt, Numeral.ofNat, hsign]
  have htokens : tokens (front.toList ++ (Numeral.ofNat n).digits ++ back.toList) =
      tokens front.toList ++ [.literal (.ofNat n)] ++ tokens back.toList := by
    rw [tokens_append (.inr hback), tokens_append (.inl hfront), tokens_digits]
  rw [evaluate_eq_read, String.toList_append, String.toList_append, hdigits, htokens]
  exact read_eq_outcomeAround fun outer => Reading.enterAll_literal outer hn

/-- Groups of one value are exchangeable in every text, well formed or not; where no digit touches
it, a value that is not negative may stand there without the group. -/
theorem evaluate_group_exchange (front back first second : String) (v : Int)
    (hfirst : evaluate first = .ok v) (hsecond : evaluate second = .ok v) :
    evaluate (front ++ "(" ++ first ++ ")" ++ back) =
        evaluate (front ++ "(" ++ second ++ ")" ++ back) ∧
      (0 ≤ v → endsInDigit front.toList = false → startsWithDigit back.toList = false →
        evaluate (front ++ "(" ++ first ++ ")" ++ back) =
          evaluate (front ++ Text.Decimal.ofInt v ++ back)) := by
  have hleft := evaluate_around_group front back hfirst
  refine ⟨hleft.trans (evaluate_around_group front back hsecond).symm, ?_⟩
  intro hv hfront hback
  obtain ⟨n, rfl⟩ := Int.eq_ofNat_of_zero_le hv
  exact hleft.trans (evaluate_around_literal (inRange_of_evaluate hfirst) hfront hback).symm

theorem evaluate_group_exchange_quotient :
    evaluate "1+2" = .ok 3 ∧ evaluate "-(0-6)/2" = .ok 3 ∧
      endsInDigit "7-(2*".toList = false ∧ startsWithDigit "-4)".toList = false ∧
      evaluate ("7-(2*" ++ "(" ++ "1+2" ++ ")" ++ "-4)") =
        evaluate ("7-(2*" ++ "(" ++ "-(0-6)/2" ++ ")" ++ "-4)") ∧
      evaluate ("7-(2*" ++ "(" ++ "1+2" ++ ")" ++ "-4)") =
        evaluate ("7-(2*" ++ Text.Decimal.ofInt 3 ++ "-4)") := by
  have hfirst : evaluate "1+2" = .ok 3 := by decide +kernel
  have hsecond : evaluate "-(0-6)/2" = .ok 3 := by decide +kernel
  obtain ⟨hgroups, hliteral⟩ := evaluate_group_exchange "7-(2*" "-4)" _ _ 3 hfirst hsecond
  exact ⟨hfirst, hsecond, by decide, by decide, hgroups,
    hliteral (by decide) (by decide) (by decide)⟩

end InfixArithmetic.Evaluation
