import InfixArithmetic.Proofs.Arithmetic
import InfixArithmetic.Proofs.Balance
/-!
# Evaluation in two passes

The evaluator reduces while it scans. The two passes here are kept apart: the first one turns
the tokens into instructions with nothing but an operator stack, the second one executes them
with nothing but an operand stack and arithmetic that is written out for it. Which operator is
applied when never depends on an operand, so both ways give the same values:
`evaluate_eq_ok_iff_inTwoPasses`.
-/

namespace InfixArithmetic.Postfix

open Evaluation

inductive Instruction where
  | push (n : Int)
  | apply (op : Operator)
  deriving DecidableEq

structure Scan where
  held : List (Option Operator) := []
  operandDue : Bool := true

/-- Takes one token and emits instructions for the operators that it pops. -/
def Scan.take (s : Scan) : Token → Except EvalError (List Instruction × Scan)
  | .literal n =>
    if (n.value : Int) ≤ maxValue then
      .ok ([.push n.value], ⟨s.held, false⟩)
    else .error .integerOverflow
  | .opening => .ok ([], ⟨none :: s.held, true⟩)
  | .closing =>
    match kept (fun _ => true) s.held with
    | [] => .error .mismatchedParentheses
    | _ :: held => .ok ((yielded (fun _ => true) s.held).map .apply, ⟨held, false⟩)
  | .operator op =>
    if op = .sub ∧ s.operandDue = true then
      .ok ([.push 0], ⟨some op :: s.held, true⟩)
    else
      .ok ((yielded (op.precedence ≤ ·.precedence) s.held).map .apply,
        ⟨some op :: kept (op.precedence ≤ ·.precedence) s.held, true⟩)
  | .invalid c => .error (.invalidCharacter c)

/-- The instructions for tokens; the end pops every operator and finds no open group. -/
def Scan.compile (s : Scan) : List Token → Except EvalError (List Instruction)
  | [] =>
    match kept (fun _ => true) s.held with
    | [] => .ok ((yielded (fun _ => true) s.held).map .apply)
    | _ :: _ => .error .mismatchedParentheses
  | token :: rest => do
    let (code, next) ← s.take token
    let more ← next.compile rest
    return code ++ more

def Instruction.execute : List Int → Instruction → Except EvalError (List Int)
  | operands, push n => .ok (n :: operands)
  | b :: a :: operands, apply op => do
    let result ← op.meaning a b
    let v ← checked result
    return v :: operands
  | _, apply _ => .error .stackUnderflow

def execute (operands : List Int) (code : List Instruction) : Except EvalError (List Int) :=
  code.foldlM Instruction.execute operands

def onlyValue : List Int → Except EvalError Int
  | [v] => .ok v
  | _ => .error .invalidExpression

/-- Scans the whole text before any arithmetic is done. -/
def evaluateInTwoPasses (text : String) : Except EvalError Int := do
  let code ← Scan.compile {} (tokens text.toList)
  let operands ← execute [] code
  onlyValue operands

example : Scan.compile {} (tokens "-1+2*3".toList) =
    .ok [.push 0, .push 1, .apply .sub, .push 2, .push 3, .apply .mul, .apply .add] := by
  decide +kernel

/-! ## The passes in step with a reading -/

theorem execute_append (operands : List Int) (code more : List Instruction) :
    execute operands (code ++ more) = execute operands code >>= fun left => execute left more :=
  List.foldlM_append

theorem execute_apply (b a : Int) (operands : List Int) (op : Operator) :
    (Instruction.apply op).execute (b :: a :: operands) =
      op.apply a b >>= fun v => .ok (v :: operands) := by
  rw [op.apply_eq_meaning, bind_assoc]
  rfl

theorem execute_map_apply (ops : List Operator) (operands : List Int) :
    execute operands (ops.map .apply) = applyAll ops operands := by
  induction ops generalizing operands with
  | nil => rfl
  | cons op ops ih =>
    rw [List.map_cons, execute, List.foldlM_cons]
    match operands with
    | [] => rfl
    | [a] => rfl
    | b :: a :: operands =>
      rw [execute_apply, applyAll, bind_assoc]
      congr 1
      funext v
      exact ih (v :: operands)

def scanOf (r : Reading) : Scan :=
  ⟨r.held, r.operandDue⟩

theorem reduce_eq_ok_iff (r s : Reading) (p : Operator → Bool) :
    r.reduce p = .ok s ↔
      execute r.operands ((yielded p r.held).map .apply) = .ok s.operands ∧
        s.held = kept p r.held ∧ s.operandDue = r.operandDue := by
  rw [execute_map_apply]
  constructor
  · exact Reading.of_reduce
  · rintro ⟨happly, hheld, hdue⟩
    obtain ⟨operands, held, operandDue⟩ := s
    dsimp only at happly hheld hdue
    rw [Reading.reduce, happly, hheld, hdue]
    rfl

/-- The first pass takes a token between the stacks of two readings, and what it emits can be
executed on the operands. -/
def Takes (r : Reading) (token : Token) (s : Reading) : Prop :=
  ∃ code, (scanOf r).take token = .ok (code, scanOf s) ∧
    execute r.operands code = .ok s.operands

theorem enter_literal_eq_ok_iff (r s : Reading) (n : Numeral) :
    r.enter (.literal n) = .ok s ↔ Takes r (.literal n) s := by
  obtain ⟨operands, held, operandDue⟩ := s
  rw [Reading.enter_literal, checked_natCast]
  by_cases hle : (n.value : Int) ≤ maxValue
  · rw [if_pos hle]
    constructor
    · intro henter
      cases henter
      exact ⟨[.push n.value], if_pos hle, rfl⟩
    · rintro ⟨code, htake, hcode⟩
      cases (if_pos hle).symm.trans htake
      cases hcode
      rfl
  · rw [if_neg hle]
    constructor
    · intro henter
      cases henter
    · rintro ⟨code, htake, -⟩
      cases (if_neg hle).symm.trans htake

theorem enter_closing_eq_ok_iff (r s : Reading) :
    r.enter .closing = .ok s ↔ Takes r .closing s := by
  obtain ⟨operands, held, operandDue⟩ := s
  rw [Reading.enter_closing, bind_eq_ok_iff]
  cases hkept : kept (fun _ => true) r.held with
  | nil =>
    constructor
    · rintro ⟨t, hreduce, hclose⟩
      obtain ⟨-, hheld, -⟩ := (reduce_eq_ok_iff r t _).1 hreduce
      rw [Reading.close, hheld, hkept] at hclose
      cases hclose
    · rintro ⟨code, htake, -⟩
      simp [Scan.take, scanOf, hkept] at htake
  | cons entry below =>
    have htake : (scanOf r).take .closing =
        .ok ((yielded (fun _ => true) r.held).map .apply, ⟨below, false⟩) := by
      simp [Scan.take, scanOf, hkept]
    unfold Takes
    rw [htake]
    constructor
    · rintro ⟨t, hreduce, hclose⟩
      obtain ⟨happly, hheld, -⟩ := (reduce_eq_ok_iff r t _).1 hreduce
      rw [Reading.close, hheld, hkept] at hclose
      cases hclose
      exact ⟨_, rfl, happly⟩
    · rintro ⟨code, hcode, happly⟩
      cases hcode
      refine ⟨⟨operands, entry :: held, r.operandDue⟩, ?_, rfl⟩
      exact (reduce_eq_ok_iff r _ _).2 ⟨happly, hkept.symm, rfl⟩

theorem enter_operator_eq_ok_iff (r s : Reading) (op : Operator) :
    r.enter (.operator op) = .ok s ↔ Takes r (.operator op) s := by
  obtain ⟨operands, held, operandDue⟩ := s
  unfold Takes
  by_cases hsign : op = .sub ∧ r.operandDue = true
  · have htake : (scanOf r).take (.operator op) =
        .ok ([.push 0], ⟨some op :: r.held, true⟩) := if_pos hsign
    rw [htake, hsign.1, Reading.enter_sign hsign.2]
    constructor
    · intro henter
      cases henter
      exact ⟨_, rfl, rfl⟩
    · rintro ⟨code, hcode, hpush⟩
      cases hcode
      cases hpush
      rfl
  · have htake : (scanOf r).take (.operator op) =
        .ok ((yielded (op.precedence ≤ ·.precedence) r.held).map .apply,
          ⟨some op :: kept (op.precedence ≤ ·.precedence) r.held, true⟩) := if_neg hsign
    rw [htake, Reading.enter_binary hsign, bind_eq_ok_iff]
    constructor
    · rintro ⟨t, hreduce, ht⟩
      obtain ⟨happly, hheld, -⟩ := (reduce_eq_ok_iff r t _).1 hreduce
      cases ht
      refine ⟨_, ?_, happly⟩
      rw [← hheld]
      rfl
    · rintro ⟨code, hcode, happly⟩
      cases hcode
      refine ⟨⟨operands, kept (op.precedence ≤ ·.precedence) r.held, r.operandDue⟩, ?_, rfl⟩
      exact (reduce_eq_ok_iff r _ _).2 ⟨happly, rfl, rfl⟩

theorem enter_eq_ok_iff (r s : Reading) (token : Token) :
    r.enter token = .ok s ↔ Takes r token s := by
  cases token with
  | literal n => exact enter_literal_eq_ok_iff r s n
  | opening =>
    constructor
    · intro henter
      cases henter
      exact ⟨[], rfl, rfl⟩
    · rintro ⟨code, htake, hcode⟩
      obtain ⟨operands, held, operandDue⟩ := s
      cases htake
      cases hcode
      rfl
  | closing => exact enter_closing_eq_ok_iff r s
  | operator op => exact enter_operator_eq_ok_iff r s op
  | invalid c =>
    constructor
    · intro henter
      cases henter
    · rintro ⟨code, htake, -⟩
      cases htake

theorem finish_eq_onlyValue (r : Reading) :
    r.finish = r.reduce (fun _ => true) >>= fun s =>
      match s.held with
      | [] => onlyValue s.operands
      | _ :: _ => .error .mismatchedParentheses := by
  unfold Reading.finish
  congr 1
  funext s
  obtain ⟨operands, held, operandDue⟩ := s
  cases held with
  | cons entry held => rfl
  | nil =>
    match operands with
    | [] => rfl
    | [v] => rfl
    | _ :: _ :: _ => rfl

theorem finish_eq_ok_iff (r : Reading) (v : Int) :
    r.finish = .ok v ↔
      ∃ code, (scanOf r).compile [] = .ok code ∧
        execute r.operands code >>= onlyValue = .ok v := by
  rw [finish_eq_onlyValue, bind_eq_ok_iff]
  cases hkept : kept (fun _ => true) r.held with
  | nil =>
    have hcompile : (scanOf r).compile [] =
        .ok ((yielded (fun _ => true) r.held).map .apply) := by
      simp [Scan.compile, scanOf, hkept]
    rw [hcompile]
    constructor
    · rintro ⟨t, hreduce, ht⟩
      obtain ⟨happly, hheld, -⟩ := (reduce_eq_ok_iff r t _).1 hreduce
      refine ⟨_, rfl, ?_⟩
      rw [happly]
      rw [hheld, hkept] at ht
      exact ht
    · rintro ⟨code, hcode, hvalue⟩
      cases hcode
      obtain ⟨left, happly, hleft⟩ := bind_eq_ok_iff.1 hvalue
      refine ⟨⟨left, [], r.operandDue⟩, ?_, hleft⟩
      exact (reduce_eq_ok_iff r _ _).2 ⟨happly, hkept.symm, rfl⟩
  | cons entry below =>
    constructor
    · rintro ⟨t, hreduce, ht⟩
      obtain ⟨-, hheld, -⟩ := (reduce_eq_ok_iff r t _).1 hreduce
      rw [hheld, hkept] at ht
      cases ht
    · rintro ⟨code, hcompile, -⟩
      simp [Scan.compile, scanOf, hkept] at hcompile

theorem read_eq_ok_iff (r : Reading) (rest : List Token) (v : Int) :
    r.enterAll rest >>= Reading.finish = .ok v ↔
      ∃ code, (scanOf r).compile rest = .ok code ∧
        execute r.operands code >>= onlyValue = .ok v := by
  induction rest generalizing r with
  | nil => exact finish_eq_ok_iff r v
  | cons token rest ih =>
    -- the instructions of the first token run on their own, since `execute` folds over code
    rw [Reading.enterAll_cons, bind_assoc, bind_eq_ok_iff]
    constructor
    · rintro ⟨s, henter, hrest⟩
      obtain ⟨code, htake, hcode⟩ := (enter_eq_ok_iff r s token).1 henter
      obtain ⟨more, hcompile, hmore⟩ := (ih s).1 hrest
      refine ⟨code ++ more, ?_, ?_⟩
      · rw [Scan.compile, htake]
        change (scanOf s).compile rest >>= _ = _
        rw [hcompile]
        rfl
      · rw [execute_append, hcode]
        exact hmore
    · rintro ⟨all, hcompile, hall⟩
      rw [Scan.compile, bind_eq_ok_iff] at hcompile
      obtain ⟨⟨code, next⟩, htake, hcompile⟩ := hcompile
      obtain ⟨more, hmore, happend⟩ := bind_eq_ok_iff.1 hcompile
      cases happend
      rw [execute_append, bind_assoc, bind_eq_ok_iff] at hall
      obtain ⟨left, hleft, hvalue⟩ := hall
      refine ⟨⟨left, next.held, next.operandDue⟩, ?_, ?_⟩
      · exact (enter_eq_ok_iff _ _ token).2 ⟨code, htake, hleft⟩
      · exact (ih _).2 ⟨more, hmore, hvalue⟩

/-- The evaluator and the two passes give the same value to every text, and so fail on the
same texts. -/
theorem evaluate_eq_ok_iff_inTwoPasses (text : String) :
    (∀ v, evaluate text = .ok v ↔ evaluateInTwoPasses text = .ok v) ∧
      ((∃ e, evaluate text = .error e) ↔ ∃ e, evaluateInTwoPasses text = .error e) := by
  have hvalue : ∀ v, evaluate text = .ok v ↔ evaluateInTwoPasses text = .ok v := by
    intro v
    rw [evaluate_eq_read, evaluateInTwoPasses, bind_eq_ok_iff]
    exact read_eq_ok_iff {} (tokens text.toList) v
  refine ⟨hvalue, ?_⟩
  cases hfused : evaluate text with
  | ok v => simp [(hvalue v).1 hfused]
  | error e =>
    cases hunfused : evaluateInTwoPasses text with
    | ok v => cases hfused.symm.trans ((hvalue v).2 hunfused)
    | error other => exact iff_of_true ⟨e, rfl⟩ ⟨other, rfl⟩

example : evaluateInTwoPasses "-7/2*(1-9)+10" = .ok 34 := by
  decide +kernel

end InfixArithmetic.Postfix
