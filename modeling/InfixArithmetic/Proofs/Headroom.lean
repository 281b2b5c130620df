import InfixArithmetic.Proofs.Range
import InfixArithmetic.Proofs.Reachable
/-!
# Numbers before their check

Arithmetic is exact and checked afterwards, so an evaluation holds numbers for a moment that are no
values. They are never far out of the range: an operator is applied to two values, wherever an
evaluation stands, and a digit is put behind a value. So a word of 64 bits holds them all:
`reaches_headroom`.
-/

namespace InfixArithmetic

def FitsWord (n : Int) : Prop :=
  -9223372036854775808 ≤ n ∧ n ≤ 9223372036854775807

theorem natAbs_le_of_inRange {n : Int} (hn : InRange n) : n.natAbs ≤ 2147483648 := by
  unfold InRange minValue maxValue at hn
  omega

theorem natAbs_mul_le {a b : Int} (ha : InRange a) (hb : InRange b) :
    (a * b).natAbs ≤ 4611686018427387904 := by
  calc (a * b).natAbs = a.natAbs * b.natAbs := Int.natAbs_mul a b
    _ ≤ 2147483648 * 2147483648 :=
      Nat.mul_le_mul (natAbs_le_of_inRange ha) (natAbs_le_of_inRange hb)
    _ = 4611686018427387904 := by decide

namespace Operator

theorem natAbs_le_of_exact {op : Operator} {a b n : Int} (ha : InRange a) (hb : InRange b)
    (hexact : op.exact a b = .ok n) : n.natAbs ≤ 4611686018427387904 := by
  have hleft := natAbs_le_of_inRange ha
  have hright := natAbs_le_of_inRange hb
  cases op with
  | add =>
    cases hexact
    omega
  | sub =>
    cases hexact
    omega
  | mul =>
    cases hexact
    exact natAbs_mul_le ha hb
  | div =>
    obtain ⟨-, rfl⟩ := truncatedQuotient_eq_ok_iff.1 hexact
    have hquotient := Int.natAbs_tdiv_le_natAbs a b
    omega

end Operator

namespace Evaluation

namespace Literal

open Text (Decimal.digitValue)

/-- `n` is what a digit of the literal at the start of a text takes its value to, in or out of the
range. All digits in front of it have been read. -/
def Accumulates (text : List Char) (n : Nat) : Prop :=
  ∃ front c back value, text = front ++ c :: back ∧ read front = ⟨front.length, some value⟩ ∧
    c.isDigit = true ∧ n = value * 10 + Decimal.digitValue c

theorem digitValue_le {c : Char} (hdigit : c.isDigit = true) : Decimal.digitValue c ≤ 9 := by
  have hhigh : c.toNat ≤ 57 := by
    simp only [Char.isDigit, Bool.and_eq_true, decide_eq_true_eq] at hdigit
    exact hdigit.2
  have hzero : '0'.toNat = 48 := rfl
  unfold Decimal.digitValue
  omega

theorem le_maxValue_of_read {text : List Char} {value : Nat}
    (hvalue : (read text).value = some value) : (value : Int) ≤ maxValue := by
  rw [value_read] at hvalue
  split at hvalue
  · rename_i hle
    cases hvalue
    exact hle
  · cases hvalue

theorem accumulates_le {text : List Char} {n : Nat} (hn : Accumulates text n) :
    (n : Int) ≤ 10 * maxValue + 9 := by
  obtain ⟨front, c, back, value, -, hread, hdigit, rfl⟩ := hn
  have hvalue : (value : Int) ≤ maxValue := le_maxValue_of_read (by rw [hread])
  have hc := digitValue_le hdigit
  push_cast
  omega

theorem value_readFrom_eq_none_iff {value length : Nat} {text : List Char} :
    (readFrom value length text).value = none ↔
      ∃ front c back reached, text = front ++ c :: back ∧
        readFrom value length front = ⟨length + front.length, some reached⟩ ∧
        c.isDigit = true ∧ maxValue < ((reached * 10 + Decimal.digitValue c : Nat) : Int) := by
  induction text generalizing value length with
  | nil => simp [readFrom]
  | cons c rest ih =>
    by_cases hdigit : c.isDigit = true
    · by_cases hfits : maxValue < ((value * 10 + Decimal.digitValue c : Nat) : Int)
      · refine iff_of_true ?_ ⟨[], c, rest, value, rfl, rfl, hdigit, hfits⟩
        simp only [readFrom, hdigit, hfits, ↓reduceIte]
      · rw [readFrom_cons_of_fits hdigit hfits, ih]
        constructor
        · rintro ⟨front, d, back, reached, rfl, hread, hd, hlt⟩
          refine ⟨c :: front, d, back, reached, rfl, ?_, hd, hlt⟩
          rw [readFrom_cons_of_fits hdigit hfits, hread, List.length_cons, Nat.add_right_comm,
            Nat.add_assoc]
        · rintro ⟨front, d, back, reached, hsplit, hread, hd, hlt⟩
          cases front with
          | nil =>
            cases hsplit
            cases hread
            exact absurd hlt hfits
          | cons b front =>
            cases hsplit
            refine ⟨front, d, back, reached, rfl, ?_, hd, hlt⟩
            rw [← readFrom_cons_of_fits hdigit hfits, hread, List.length_cons,
              Nat.add_right_comm, Nat.add_assoc]
    · rw [readFrom_cons_of_not_isDigit hdigit]
      refine iff_of_false (Option.some_ne_none value) ?_
      rintro ⟨front, d, back, reached, hsplit, hread, hd, -⟩
      cases front with
      | nil =>
        cases hsplit
        exact hdigit hd
      | cons b front =>
        cases hsplit
        rw [readFrom_cons_of_not_isDigit hdigit, List.length_cons] at hread
        injection hread with hlength
        omega

theorem value_read_eq_none_iff (text : List Char) :
    (read text).value = none ↔ ∃ n, Accumulates text n ∧ maxValue < (n : Int) := by
  rw [read, value_readFrom_eq_none_iff]
  constructor
  · rintro ⟨front, c, back, value, hsplit, hread, hdigit, hlt⟩
    rw [Nat.zero_add] at hread
    exact ⟨_, ⟨front, c, back, value, hsplit, hread, hdigit, rfl⟩, hlt⟩
  · rintro ⟨n, ⟨front, c, back, value, hsplit, hread, hdigit, rfl⟩, hlt⟩
    rw [← Nat.zero_add front.length] at hread
    exact ⟨front, c, back, value, hsplit, hread, hdigit, hlt⟩

end Literal

/-- `n` is what the next round of a reduction computes and then checks. -/
def Stacks.Computes (s : Stacks) (op : Operator) (n : Int) : Prop :=
  ∃ b a operands operators, s = ⟨b :: a :: operands, .operator op :: operators⟩ ∧
    op.exact a b = .ok n

theorem Stacks.Computes.natAbs_le {s : Stacks} {op : Operator} {n : Int} (hs : s.HoldsValues)
    (hn : s.Computes op n) : n.natAbs ≤ 4611686018427387904 := by
  obtain ⟨b, a, operands, operators, rfl, hexact⟩ := hn
  exact Operator.natAbs_le_of_exact (hs a (by simp)) (hs b (by simp)) hexact

theorem Stacks.exists_reduceTop_iff (s : Stacks) :
    (∃ t, s.reduceTop = .ok t) ↔ ∃ op n, s.Computes op n ∧ InRange n := by
  constructor
  · rintro ⟨t, hreduce⟩
    obtain ⟨b, a, operands, op, operators, v, hs, happly, -⟩ := reduceTop_eq_ok_iff.1 hreduce
    obtain ⟨n, hexact, hchecked⟩ := bind_eq_ok_iff.1 happly
    obtain ⟨rfl, hrange⟩ := checked_eq_ok_iff.1 hchecked
    exact ⟨op, n, ⟨b, a, operands, operators, hs, hexact⟩, hrange⟩
  · rintro ⟨op, n, ⟨b, a, operands, operators, hs, hexact⟩, hrange⟩
    have happly : op.apply a b = .ok n :=
      bind_eq_ok_iff.2 ⟨n, hexact, checked_eq_ok_iff.2 ⟨rfl, hrange⟩⟩
    exact ⟨_, reduceTop_eq_ok_iff.2 ⟨b, a, operands, op, operators, n, hs, happly, rfl⟩⟩

theorem holdsValues_of_reaches {text : List Char} {c : Context} (hreaches : Reaches text c) :
    c.HoldsValues := by
  induction hreaches with
  | refl => exact nofun
  | tail _ hstep ih =>
    have hleft := Context.holdsValues_readToken ih
    rwa [hstep] at hleft

theorem holdsValues_conclude {c : Context} (hc : c.HoldsValues) :
    (∀ failure, c.conclude = .error failure → failure.context.HoldsValues) ∧
      ∀ v d, c.conclude = .ok (v, d) → d.HoldsValues ∧ InRange v := by
  refine ⟨fun failure herror => ?_, fun v d hok => ⟨?_, Context.inRange_of_conclude hc hok⟩⟩
  · unfold Context.conclude at herror
    split at herror
    · cases herror
    · cases herror
      exact hc
  · unfold Context.conclude at hok
    split at hok
    · cases hok
      exact hc
    · cases hok

theorem holdsValues_run (text : List Char) :
    (∀ failure, (Context.ofText text).run = .error failure → failure.context.HoldsValues) ∧
      ∀ v d, (Context.ofText text).run = .ok (v, d) → d.HoldsValues ∧ InRange v := by
  have hread : Leaves Context.HoldsValues (Context.ofText text).readAll :=
    Context.holdsValues_readAll nofun
  have hreduce : Leaves Context.HoldsValues
      ((Context.ofText text).readAll >>= Context.reduceAll) :=
    hread.bind fun c hc => Context.holdsValues_reduceAll hc
  have hparts :
      (∀ failure, (Context.ofText text).readAll >>= Context.reduceAll >>= Context.conclude =
        .error failure → failure.context.HoldsValues) ∧
      ∀ v d, (Context.ofText text).readAll >>= Context.reduceAll >>= Context.conclude =
        .ok (v, d) → d.HoldsValues ∧ InRange v := by
    cases hreduced : (Context.ofText text).readAll >>= Context.reduceAll with
    | ok c =>
      rw [hreduced] at hreduce
      exact holdsValues_conclude hreduce
    | error failure =>
      rw [hreduced] at hreduce
      refine ⟨fun other hother => ?_, nofun⟩
      cases hother
      exact hreduce
  unfold Context.run
  generalize (Context.ofText text).readAll >>= Context.reduceAll >>= Context.conclude =
    outcome at hparts
  cases outcome with
  | ok result =>
    refine ⟨nofun, fun v d hok => ?_⟩
    cases hok
    exact hparts.2 v d rfl
  | error failure =>
    refine ⟨fun other hother => ?_, nofun⟩
    have hcontext := hparts.1 failure rfl
    cases hother
    dsimp only
    split
    · exact hcontext
    · exact hcontext

/-- Wherever an evaluation stands, between two transitions or between two rounds of a reduction,
and whatever it leaves behind when it ends, well or badly, all operands are values. So what is
computed before it is checked, by a digit of a literal or by an operator, is bounded and fits a
word of 64 bits. A literal that is read and a round of a reduction go through exactly where what
they compute lies in the range, and what comes out of an evaluation is a value. -/
theorem reaches_headroom (text : String) :
    (∀ c, Reaches text.toList c →
      (∀ p s, Stacks.Rounds p c.stack s →
        s.HoldsValues ∧
          ((∃ t, s.reduceTop = .ok t) ↔ ∃ op n, s.Computes op n ∧ InRange n) ∧
          ∀ op n, s.Computes op n → n.natAbs ≤ 4611686018427387904 ∧ FitsWord n) ∧
      ((Literal.read c.source.rest).value = none ↔
        ∃ n, Literal.Accumulates c.source.rest n ∧ maxValue < (n : Int)) ∧
      (∀ n, Literal.Accumulates c.source.rest n →
        (n : Int) ≤ 10 * maxValue + 9 ∧ FitsWord n) ∧
      Leaves Context.HoldsValues c.readToken ∧ Leaves Context.HoldsValues c.reduceAll) ∧
    (∀ failure, (Context.ofText text.toList).run = .error failure →
      failure.context.HoldsValues) ∧
    (∀ v d, (Context.ofText text.toList).run = .ok (v, d) → d.HoldsValues ∧ InRange v) ∧
    ∀ v, evaluate text = .ok v → InRange v := by
  obtain ⟨hfailed, hdone⟩ := holdsValues_run text.toList
  refine ⟨fun c hreaches => ?_, hfailed, hdone, fun v => inRange_of_evaluate⟩
  have hc := holdsValues_of_reaches hreaches
  refine ⟨fun p s hrounds => ?_, Literal.value_read_eq_none_iff _, fun n hn => ?_,
    Context.holdsValues_readToken hc, Context.holdsValues_reduceAll hc⟩
  · have hs : s.HoldsValues := Stacks.holdsValues_of_rounds hc hrounds
    refine ⟨hs, s.exists_reduceTop_iff, fun op n hn => ?_⟩
    have hbound := hn.natAbs_le hs
    refine ⟨hbound, ?_⟩
    unfold FitsWord
    omega
  · have hbound := Literal.accumulates_le hn
    refine ⟨hbound, ?_⟩
    unfold FitsWord
    unfold maxValue at hbound
    omega

theorem reaches_headroom_square :
    (∃ c, Reaches "(0-2147483647-1)*(0-2147483647-1)".toList c ∧
        c.stack.Computes .mul 4611686018427387904 ∧ FitsWord 4611686018427387904) ∧
      (∃ c, (Context.ofText "(0-2147483647-1)*(0-2147483647-1)".toList).run =
        .error ⟨.integerOverflow, c⟩ ∧ c.HoldsValues) ∧
      (∃ c s, Reaches "2+3*4".toList c ∧ c.stack.operands = [4, 3, 2] ∧
        Stacks.Rounds Pending.isInner c.stack s ∧ s.operands = [12, 2] ∧ s.HoldsValues) ∧
      (∃ d, (Context.ofText "2+3*4".toList).run = .ok (14, d) ∧ d.HoldsValues) ∧
      (evaluate "2+3*4" = .ok 14 ∧ InRange 14) ∧
      Literal.Accumulates "21474836479".toList 21474836479 ∧
      ((21474836479 : Nat) : Int) ≤ 10 * maxValue + 9 := by
  obtain ⟨hcontexts, hfailed, -, -⟩ :=
    reaches_headroom "(0-2147483647-1)*(0-2147483647-1)"
  obtain ⟨hcontexts', -, hdone, hvalue⟩ := reaches_headroom "2+3*4"
  have herror : evaluate "(0-2147483647-1)*(0-2147483647-1)" = .error .integerOverflow := by
    decide +kernel
  have hevaluate : evaluate "2+3*4" = .ok 14 := by decide +kernel
  refine ⟨?_, ?_, ?_, ?_, ⟨hevaluate, hvalue 14 hevaluate⟩, ?_⟩
  · have hreaches : ∃ c, Reaches "(0-2147483647-1)*(0-2147483647-1)".toList c ∧
        c.stack = ⟨[-2147483648, -2147483648], [.operator .mul]⟩ := by
      refine ⟨_, .step (.step (.step (.step (.step (.step (.step (.step (.step (.step (.step
        (.step (.step (.step (.step (reaches_ofText _) rfl) rfl) rfl) rfl) rfl) rfl) rfl) rfl)
        rfl) rfl) rfl) rfl) rfl) rfl) rfl, rfl⟩
    obtain ⟨c, hc, hstack⟩ := hreaches
    have hcomputes : c.stack.Computes .mul 4611686018427387904 := by
      rw [hstack]
      exact ⟨_, _, _, _, rfl, rfl⟩
    obtain ⟨-, -, hfits⟩ := (hcontexts c hc).1 Pending.isInner c.stack .refl
    exact ⟨c, hc, hcomputes, (hfits _ _ hcomputes).2⟩
  · obtain ⟨c, hrun⟩ := evaluate_eq_error_iff.1 herror
    exact ⟨c, hrun, hfailed _ hrun⟩
  · have hreaches : ∃ c, Reaches "2+3*4".toList c ∧
        c.stack = ⟨[4, 3, 2], [.operator .mul, .operator .add]⟩ :=
      ⟨_, .step (.step (.step (.step (.step (reaches_ofText _) rfl) rfl) rfl) rfl) rfl, rfl⟩
    obtain ⟨c, hc, hstack⟩ := hreaches
    have hrounds : Stacks.Rounds Pending.isInner c.stack ⟨[12, 2], [.operator .add]⟩ := by
      rw [hstack]
      exact .single ⟨⟨_, _, rfl, rfl⟩, rfl⟩
    exact ⟨c, _, hc, by rw [hstack], hrounds, rfl, ((hcontexts' c hc).1 _ _ hrounds).1⟩
  · obtain ⟨d, hrun⟩ := evaluate_eq_ok_iff.1 hevaluate
    exact ⟨d, hrun, (hdone 14 d hrun).1⟩
  · have hliteral : Literal.Accumulates "21474836479".toList 21474836479 :=
      ⟨"2147483647".toList, '9', [], 2147483647, rfl, rfl, rfl, rfl⟩
    obtain ⟨-, -, hnumbers, -⟩ := (reaches_headroom "21474836479").1 _ (reaches_ofText _)
    exact ⟨hliteral, (hnumbers _ hliteral).1⟩

end Evaluation

end InfixArithmetic
