import InfixArithmetic.Evaluation.Run
import InfixArithmetic.Proofs.Literals
import InfixArithmetic.Proofs.Seams
/-!
# Evaluation as a reading of tokens

The evaluating machine walks over characters and keeps a cursor, a phase and symbols that may
be anything. A `Reading` keeps only what decides the outcome of an evaluation: the operands,
the operators and open groups, and whether an operand is due. It takes whole tokens. The two
run in step (`readAll_agrees`), so an evaluation is a fold over the tokens of its text:
`evaluate_eq_read`.
-/

namespace InfixArithmetic.Evaluation

open Text (isBlank)

theorem bind_eq_ok_iff {ε α β : Type} {x : Except ε α} {f : α → Except ε β} {b : β} :
    x >>= f = .ok b ↔ ∃ a, x = .ok a ∧ f a = .ok b := by
  constructor
  · intro hbind
    cases x with
    | error e => cases hbind
    | ok a => exact ⟨a, rfl, hbind⟩
  · rintro ⟨a, rfl, hf⟩
    exact hf

theorem bind_eq_error_iff {ε α β : Type} {x : Except ε α} {f : α → Except ε β} {e : ε} :
    x >>= f = .error e ↔ x = .error e ∨ ∃ a, x = .ok a ∧ f a = .error e := by
  constructor
  · intro hbind
    cases x with
    | error other =>
      cases hbind
      exact .inl rfl
    | ok a => exact .inr ⟨a, rfl, hbind⟩
  · rintro (rfl | ⟨a, rfl, hf⟩)
    · rfl
    · exact hf

theorem mapError_eq_ok_iff {ε ε' α : Type} {f : ε → ε'} {x : Except ε α} {a : α} :
    x.mapError f = .ok a ↔ x = .ok a := by
  cases x with
  | error e => exact ⟨nofun, nofun⟩
  | ok b => exact ⟨fun hok => by cases hok; rfl, fun hok => by cases hok; rfl⟩

theorem map_eq_ok_iff {ε α β : Type} {f : α → β} {x : Except ε α} {b : β} :
    x.map f = .ok b ↔ ∃ a, x = .ok a ∧ f a = b := by
  cases x with
  | error e => exact ⟨nofun, nofun⟩
  | ok a =>
    constructor
    · intro hok
      cases hok
      exact ⟨a, rfl, rfl⟩
    · rintro ⟨_, ha, rfl⟩
      cases ha
      rfl

theorem map_eq_error_iff {ε α β : Type} {f : α → β} {x : Except ε α} {e : ε} :
    x.map f = .error e ↔ x = .error e := by
  cases x with
  | error other => exact ⟨fun herror => by cases herror; rfl, fun herror => by cases herror; rfl⟩
  | ok a => exact ⟨nofun, nofun⟩

def applyAll : List Operator → List Int → Except EvalError (List Int)
  | [], operands => .ok operands
  | op :: ops, b :: a :: operands => op.apply a b >>= fun v => applyAll ops (v :: operands)
  | _ :: _, _ => .error .stackUnderflow

/-- The topmost operators as long as they satisfy `p`; an open group (`none`) ends them. -/
def yielded (p : Operator → Bool) : List (Option Operator) → List Operator
  | some op :: held => if p op then op :: yielded p held else []
  | _ => []

def kept (p : Operator → Bool) : List (Option Operator) → List (Option Operator)
  | some op :: held => if p op then kept p held else some op :: held
  | held => held

/-- The state of an evaluation between two tokens. -/
structure Reading where
  operands : List Int := []
  held : List (Option Operator) := []
  operandDue : Bool := true

namespace Reading

def reduce (p : Operator → Bool) (r : Reading) : Except EvalError Reading := do
  let operands ← applyAll (yielded p r.held) r.operands
  return { r with operands, held := kept p r.held }

def close (r : Reading) : Except EvalError Reading :=
  match r.held with
  | [] => .error .mismatchedParentheses
  | _ :: held => .ok { r with held, operandDue := false }

def hold (op : Operator) (r : Reading) : Reading :=
  { r with held := some op :: r.held, operandDue := true }

def enter (r : Reading) : Token → Except EvalError Reading
  | .literal n => do
    let v ← checked n.value
    return { r with operands := v :: r.operands, operandDue := false }
  | .opening => return { r with held := none :: r.held, operandDue := true }
  | .closing => r.reduce (fun _ => true) >>= close
  | .operator op =>
    if op = .sub ∧ r.operandDue = true then
      return { r with operands := 0 :: r.operands }.hold op
    else do
      let r ← r.reduce (op.precedence ≤ ·.precedence)
      return r.hold op
  | .invalid c => .error (.invalidCharacter c)

def finish (r : Reading) : Except EvalError Int := do
  let r ← r.reduce (fun _ => true)
  match r.held, r.operands with
  | [], [v] => return v
  | [], _ => .error .invalidExpression
  | _ :: _, _ => .error .mismatchedParentheses

def enterAll (r : Reading) (rest : List Token) : Except EvalError Reading :=
  rest.foldlM enter r

def read (rest : List Token) : Except EvalError Int :=
  enterAll {} rest >>= finish

theorem enterAll_cons (r : Reading) (token : Token) (rest : List Token) :
    r.enterAll (token :: rest) = r.enter token >>= fun s => s.enterAll rest :=
  List.foldlM_cons

theorem enterAll_singleton (r : Reading) (token : Token) :
    r.enterAll [token] = r.enter token := by
  rw [enterAll, List.foldlM_cons]
  exact bind_pure _

theorem enterAll_append (r : Reading) (first rest : List Token) :
    r.enterAll (first ++ rest) = r.enterAll first >>= fun s => s.enterAll rest :=
  List.foldlM_append

theorem enter_literal (r : Reading) (n : Numeral) :
    r.enter (.literal n) =
      checked n.value >>= fun v =>
        .ok { r with operands := v :: r.operands, operandDue := false } := rfl

theorem enter_opening (r : Reading) :
    r.enter .opening = .ok { r with held := none :: r.held, operandDue := true } := rfl

theorem enter_closing (r : Reading) :
    r.enter .closing = r.reduce (fun _ => true) >>= close := rfl

theorem enter_sign {r : Reading} (hdue : r.operandDue = true) :
    r.enter (.operator .sub) = .ok ({ r with operands := 0 :: r.operands }.hold .sub) := by
  simp [enter, hdue, pure, Except.pure]

theorem enter_binary {r : Reading} {op : Operator} (hbinary : ¬ (op = .sub ∧ r.operandDue = true)) :
    r.enter (.operator op) =
      r.reduce (op.precedence ≤ ·.precedence) >>= fun s => .ok (s.hold op) := by
  simp only [enter, if_neg hbinary]
  rfl

end Reading

/-! ## The machine and the reading run in step -/

def pendingOf : Option Operator → Pending
  | none => .group
  | some op => .operator op

/-- A context and a reading with the same stacks that wait for the same kind of token. -/
structure Mirrors (c : Context) (r : Reading) : Prop where
  operands : c.stack.operands = r.operands
  operators : c.stack.operators = r.held.map pendingOf
  operandDue : c.expectsOperand = r.operandDue

/-- Two outcomes with related results or with the same cause of failure. -/
inductive Agrees {α β : Type} (R : α → β → Prop) : Except Failure α → Except EvalError β → Prop
  | ok {a : α} {b : β} (hrelated : R a b) : Agrees R (.ok a) (.ok b)
  | error (e : EvalError) (c : Context) : Agrees R (.error ⟨e, c⟩) (.error e)

theorem Agrees.bind {α β γ δ : Type} {R : α → β → Prop} {S : γ → δ → Prop}
    {x : Except Failure α} {y : Except EvalError β} {f : α → Except Failure γ}
    {g : β → Except EvalError δ} (hxy : Agrees R x y)
    (hfg : ∀ a b, R a b → Agrees S (f a) (g b)) : Agrees S (x >>= f) (y >>= g) := by
  cases hxy with
  | ok hrelated => exact hfg _ _ hrelated
  | error e c => exact .error e c

theorem Agrees.map_left {α β γ : Type} {R : α → β → Prop} {S : γ → β → Prop}
    {x : Except Failure α} {y : Except EvalError β} {f : α → γ} (hxy : Agrees R x y)
    (hf : ∀ a b, R a b → S (f a) b) : Agrees S (x.map f) y := by
  cases hxy with
  | ok hrelated => exact .ok (hf _ _ hrelated)
  | error e c => exact .error e c

theorem Agrees.and_left {α β : Type} {R : α → β → Prop} {P : α → Prop} {x : Except Failure α}
    {y : Except EvalError β} (hxy : Agrees R x y) (hx : ∀ a, x = .ok a → P a) :
    Agrees (fun a b => R a b ∧ P a) x y := by
  cases hxy with
  | ok hrelated => exact .ok ⟨hrelated, hx _ rfl⟩
  | error e c => exact .error e c

theorem Agrees.exists_right {α β : Type} {R : α → β → Prop} {x : Except Failure α}
    {y : Except EvalError β} {a : α} (hxy : Agrees R x y) (hx : x = .ok a) :
    ∃ b, y = .ok b ∧ R a b := by
  subst hx
  cases hxy with
  | ok hrelated => exact ⟨_, rfl, hrelated⟩

theorem Agrees.exists_left {α β : Type} {R : α → β → Prop} {x : Except Failure α}
    {y : Except EvalError β} {b : β} (hxy : Agrees R x y) (hy : y = .ok b) :
    ∃ a, x = .ok a ∧ R a b := by
  subst hy
  cases hxy with
  | ok hrelated => exact ⟨_, rfl, hrelated⟩

theorem Agrees.error_right {α β : Type} {R : α → β → Prop} {x : Except Failure α}
    {y : Except EvalError β} {failure : Failure} (hxy : Agrees R x y)
    (hx : x = .error failure) : y = .error failure.error := by
  subst hx
  cases hxy with
  | error e c => rfl

theorem reduceOperators_map_pendingOf {P : Pending → Bool} {p : Operator → Bool}
    (hgroup : P .group = false) (hoperator : ∀ op, P (.operator op) = p op)
    (held : List (Option Operator)) (operands : List Int) :
    (∀ left, applyAll (yielded p held) operands = .ok left →
      Stacks.reduceOperators P (held.map pendingOf) operands =
        .ok ⟨left, (kept p held).map pendingOf⟩) ∧
    (∀ e, applyAll (yielded p held) operands = .error e →
      ∃ s, Stacks.reduceOperators P (held.map pendingOf) operands = .error (e, s)) := by
  induction held generalizing operands with
  | nil => simp [yielded, kept, applyAll, Stacks.reduceOperators]
  | cons entry held ih =>
    cases entry with
    | none => simp [yielded, kept, applyAll, pendingOf, Stacks.reduceOperators, hgroup]
    | some op =>
      by_cases hp : p op = true
      · -- the operator is applied first, and the induction is on what it leaves
        simp only [yielded, kept, hp, ↓reduceIte, List.map_cons, pendingOf,
          Stacks.reduceOperators, hoperator]
        rcases operands with _ | ⟨b, _ | ⟨a, operands⟩⟩
        · simp [applyAll, Stacks.reduceTop]
        · simp [applyAll, Stacks.reduceTop]
        · cases happly : op.apply a b with
          | error e => simp [applyAll, Stacks.reduceTop, happly, bind, Except.bind]
          | ok v =>
            have hrest := ih (v :: operands)
            simpa [applyAll, Stacks.reduceTop, happly, bind, Except.bind] using hrest
      · simp [yielded, kept, applyAll, pendingOf, Stacks.reduceOperators, hoperator, hp]

theorem Mirrors.reduceWhile {c : Context} {r : Reading} {P : Pending → Bool}
    {p : Operator → Bool} (hmirrors : Mirrors c r) (hgroup : P .group = false)
    (hoperator : ∀ op, P (.operator op) = p op) :
    Agrees Mirrors (c.reduceWhile P) (r.reduce p) := by
  obtain ⟨hok, herror⟩ := reduceOperators_map_pendingOf hgroup hoperator r.held r.operands
  unfold Context.reduceWhile Stacks.reduceWhile Reading.reduce
  rw [hmirrors.operands, hmirrors.operators]
  cases happly : applyAll (yielded p r.held) r.operands with
  | error e =>
    obtain ⟨s, hs⟩ := herror e happly
    rw [hs]
    exact .error e _
  | ok left =>
    rw [hok left happly]
    exact .ok ⟨rfl, rfl, hmirrors.operandDue⟩

theorem Mirrors.closeGroup {c : Context} {r : Reading} (hmirrors : Mirrors c r) :
    Agrees Mirrors c.closeGroup (r.enter .closing) := by
  refine (hmirrors.reduceWhile rfl fun _ => rfl).bind fun d s hds => ?_
  cases hheld : s.held with
  | nil =>
    have hoperators : d.stack.operators = [] := by rw [hds.operators, hheld]; rfl
    simp only [hoperators, Reading.close, hheld]
    exact .error _ _
  | cons entry held =>
    have hoperators : d.stack.operators = pendingOf entry :: held.map pendingOf := by
      rw [hds.operators, hheld]; rfl
    simp only [hoperators, Reading.close, hheld]
    exact .ok ⟨hds.operands, rfl, rfl⟩

theorem Mirrors.enterOperator {c : Context} {r : Reading} (hmirrors : Mirrors c r)
    (op : Operator) :
    Agrees Mirrors (c.enterOperator (.operator op)) (r.enter (.operator op)) := by
  unfold Context.enterOperator
  by_cases hsign : op = .sub ∧ r.operandDue = true
  · have hsign' : Pending.operator op = .operator .sub ∧ c.expectsOperand = true := by
      rw [hmirrors.operandDue]
      exact ⟨congrArg _ hsign.1, hsign.2⟩
    rw [if_pos hsign', hsign.1, Reading.enter_sign hsign.2]
    refine .ok ⟨?_, ?_, rfl⟩
    · exact congrArg (0 :: ·) hmirrors.operands
    · exact congrArg (Pending.operator .sub :: ·) hmirrors.operators
  · have hsign' : ¬ (Pending.operator op = .operator .sub ∧ c.expectsOperand = true) := by
      rw [hmirrors.operandDue]
      exact fun h => hsign ⟨Pending.operator.inj h.1, h.2⟩
    rw [if_neg hsign', Reading.enter_binary hsign]
    refine (hmirrors.reduceWhile rfl fun other => ?_).bind fun d s hds => ?_
    · rfl
    · refine .ok ⟨hds.operands, ?_, rfl⟩
      exact congrArg (Pending.operator op :: ·) hds.operators

theorem checked_natCast (n : Nat) :
    checked n = if (n : Int) ≤ maxValue then .ok (n : Int) else .error .integerOverflow := by
  have hlow : minValue ≤ (n : Int) := by
    have hzero : minValue ≤ 0 := by decide
    omega
  unfold checked
  by_cases hle : (n : Int) ≤ maxValue
  · rw [if_pos (show InRange n from ⟨hlow, hle⟩), if_pos hle]
  · rw [if_neg (show ¬ InRange n from fun hrange => hle hrange.2), if_neg hle]

theorem Mirrors.readLiteral {c : Context} {r : Reading} (hmirrors : Mirrors c r)
    {character : Char} {rest : List Char} (hrest : c.source.rest = character :: rest)
    (hdigit : character.isDigit = true) :
    Agrees (fun d s => Mirrors d s ∧ d.source.rest = rest.dropWhile Char.isDigit)
      c.readLiteral (r.enter (.literal (.ofRun character rest hdigit))) := by
  have hrun : (character :: rest).takeWhile Char.isDigit =
      character :: rest.takeWhile Char.isDigit := List.takeWhile_cons_of_pos hdigit
  have hvalue := Literal.value_read c.source.rest
  rw [hrest, hrun] at hvalue
  have hchecked := checked_natCast (Numeral.ofRun character rest hdigit).value
  unfold Numeral.value Numeral.ofRun at hchecked
  dsimp only at hchecked
  unfold Context.readLiteral
  dsimp only
  rw [Reading.enter_literal, hrest, hvalue]
  unfold Numeral.value Numeral.ofRun
  dsimp only
  rw [hchecked]
  by_cases hle : (Text.Decimal.ofDigits (character :: rest.takeWhile Char.isDigit) : Int) ≤ maxValue
  · rw [if_pos hle, if_pos hle]
    refine .ok ⟨⟨?_, hmirrors.operators, rfl⟩, ?_⟩
    · exact congrArg (_ :: ·) hmirrors.operands
    · have hlength : (Literal.read (character :: rest)).length =
          (rest.takeWhile Char.isDigit).length + 1 := by
        rw [Literal.length_read (by rw [hrun]; exact hle), hrun, List.length_cons]
      change c.source.rest.drop (Literal.read (character :: rest)).length = _
      rw [hrest, hlength, List.drop_succ_cons]
      calc rest.drop (rest.takeWhile Char.isDigit).length
          = (rest.takeWhile Char.isDigit ++ rest.dropWhile Char.isDigit).drop
              (rest.takeWhile Char.isDigit).length := by
            rw [List.takeWhile_append_dropWhile]
        _ = rest.dropWhile Char.isDigit := List.drop_left
  · rw [if_neg hle, if_neg hle]
    exact .error _ _

theorem Mirrors.advance {c : Context} {r : Reading} (hmirrors : Mirrors c r) (n : Nat) :
    Mirrors (c.advance n) r :=
  ⟨hmirrors.operands, hmirrors.operators, hmirrors.operandDue⟩

theorem Mirrors.openGroup {c : Context} {r : Reading} (hmirrors : Mirrors c r) :
    Mirrors c.openGroup { r with held := none :: r.held, operandDue := true } :=
  ⟨hmirrors.operands, congrArg (Pending.group :: ·) hmirrors.operators, rfl⟩

theorem readToken_cons {c : Context} {character : Char} {rest : List Char}
    (hrest : c.source.rest = character :: rest) :
    c.readToken =
      if isBlank character then .ok (c.advance 1)
      else if character.isDigit then c.readLiteral
      else if character = '(' then .ok (c.openGroup.advance 1)
      else if character = ')' then (c.closeGroup).map (·.advance 1)
      else match Operator.ofChar? character with
        | some op => (c.enterOperator (.operator op)).map (·.advance 1)
        | none => .error ⟨.invalidCharacter character, c⟩ := by
  unfold Context.readToken
  split
  · rename_i hnil
    rw [hrest] at hnil
    cases hnil
  · rename_i other tail hother
    rw [hrest] at hother
    cases hother
    rfl

theorem exists_rest_of_readToken {c d : Context} (hok : c.readToken = .ok d) :
    ∃ character rest, c.source.rest = character :: rest := by
  cases hrest : c.source.rest with
  | nil => simp [Context.readToken, hrest] at hok
  | cons character rest => exact ⟨character, rest, rfl⟩

theorem Mirrors.readToken_other {c : Context} {r : Reading} (hmirrors : Mirrors c r)
    {character : Char} {rest : List Char} (hrest : c.source.rest = character :: rest)
    (hblank : isBlank character = false) (hdigit : character.isDigit = false) :
    Agrees (fun d s => Mirrors d s ∧ d.source.rest = rest)
      c.readToken (r.enter (.ofChar character)) := by
  have hadvance : ∀ d s, Mirrors d s ∧ d.source = c.source →
      Mirrors (d.advance 1) s ∧ (d.advance 1).source.rest = rest := by
    rintro d s ⟨hds, hsource⟩
    refine ⟨hds.advance 1, ?_⟩
    change d.source.rest.drop 1 = rest
    rw [hsource, hrest, List.drop_succ_cons, List.drop_zero]
  rw [readToken_cons hrest, if_neg (by simp [hblank]), if_neg (by simp [hdigit])]
  unfold Token.ofChar
  by_cases hopen : character = '('
  · rw [if_pos hopen, if_pos hopen]
    exact .ok (hadvance _ _ ⟨hmirrors.openGroup, rfl⟩)
  rw [if_neg hopen, if_neg hopen]
  by_cases hclose : character = ')'
  · rw [if_pos hclose, if_pos hclose]
    exact (hmirrors.closeGroup.and_left fun _ => Context.source_closeGroup).map_left hadvance
  rw [if_neg hclose, if_neg hclose]
  cases Operator.ofChar? character with
  | some op =>
    exact ((hmirrors.enterOperator op).and_left fun _ => Context.source_enterOperator).map_left
      hadvance
  | none => exact .error _ _

theorem readAll_nil {c : Context} (hrest : c.source.rest = []) : c.readAll = .ok c := by
  rw [Context.readAll, if_pos (by rw [Context.atEnd, Source.atEnd, hrest]; rfl)]

theorem readAll_cons {c : Context} {character : Char} {rest : List Char}
    (hrest : c.source.rest = character :: rest) :
    c.readAll = c.readToken >>= Context.readAll := by
  have hend : ¬ c.atEnd = true := by
    rw [Context.atEnd, Source.atEnd, hrest]
    exact Bool.false_ne_true
  rw [Context.readAll, if_neg hend]
  split
  · rename_i failure hfailure
    rw [hfailure]
    rfl
  · rename_i d hd
    rw [hd]
    rfl

theorem readAll_of_readToken {c d : Context} (hok : c.readToken = .ok d) :
    c.readAll = d.readAll := by
  obtain ⟨character, rest, hrest⟩ := exists_rest_of_readToken hok
  rw [readAll_cons hrest, hok]
  rfl

theorem run_eq_ok_iff {c d : Context} {v : Int} :
    c.run = .ok (v, d) ↔
      ∃ a b, c.readAll = .ok a ∧ a.reduceAll = .ok b ∧ b.conclude = .ok (v, d) := by
  rw [Context.run, mapError_eq_ok_iff]
  constructor
  · intro hok
    obtain ⟨b, hreduced, hconclude⟩ := bind_eq_ok_iff.1 hok
    obtain ⟨a, hread, hreduce⟩ := bind_eq_ok_iff.1 hreduced
    exact ⟨a, b, hread, hreduce, hconclude⟩
  · rintro ⟨a, b, hread, hreduce, hconclude⟩
    rw [hread]
    exact bind_eq_ok_iff.2 ⟨b, hreduce, hconclude⟩

/-- One transition reads a piece of the text that ends at a seam: a blank, a run of digits or a
single character. -/
theorem Mirrors.readToken {c : Context} {r : Reading} (hmirrors : Mirrors c r)
    (hrest : c.source.rest ≠ []) :
    ∃ piece rest, c.source.rest = piece ++ rest ∧ piece ≠ [] ∧ Seam piece rest ∧
      Agrees (fun d s => Mirrors d s ∧ d.source.rest = rest)
        c.readToken (r.enterAll (tokens piece)) := by
  obtain ⟨character, rest, hrest⟩ := List.exists_cons_of_ne_nil hrest
  by_cases hdigit : character.isDigit = true
  · have hsplit := digits_ofRun_append_dropWhile character rest hdigit
    refine ⟨_, _, hrest.trans hsplit.symm, Numeral.ne_nil _, ?_, ?_⟩
    · exact .inr (startsWithDigit_dropWhile rest)
    · rw [tokens_digits, Reading.enterAll_singleton, readToken_cons hrest,
        if_neg (by simp [isBlank_eq_false_of_isDigit hdigit]), if_pos hdigit]
      exact hmirrors.readLiteral hrest hdigit
  have hdigit' : character.isDigit = false := by simpa using hdigit
  refine ⟨[character], rest, hrest, List.cons_ne_nil _ _, .inl ?_, ?_⟩
  · simpa [endsInDigit] using hdigit'
  by_cases hblank : isBlank character = true
  · rw [readToken_cons hrest, if_pos hblank, tokens_cons_of_isBlank hblank, tokens]
    refine .ok ⟨hmirrors.advance 1, ?_⟩
    change c.source.rest.drop 1 = rest
    rw [hrest, List.drop_succ_cons, List.drop_zero]
  · have hblank' : isBlank character = false := by simpa using hblank
    rw [tokens_cons_of_other hblank' hdigit', tokens, Reading.enterAll_singleton]
    exact hmirrors.readToken_other hrest hblank' hdigit'

theorem readAll_agrees {c : Context} {r : Reading} (hmirrors : Mirrors c r) :
    Agrees Mirrors c.readAll (r.enterAll (tokens c.source.rest)) := by
  -- by induction on the length of what is left to read
  induction hlength : c.source.rest.length using Nat.strong_induction_on generalizing c r with
  | _ n ih =>
    cases hrest : c.source.rest with
    | nil =>
      rw [readAll_nil hrest, tokens]
      exact .ok hmirrors
    | cons character tail =>
      obtain ⟨piece, rest, hsplit, hne, hseam, hstep⟩ :=
        hmirrors.readToken (by rw [hrest]; exact List.cons_ne_nil _ _)
      have hlt : rest.length < n := by
        have hpos := List.length_pos_iff.2 hne
        rw [← hlength, hsplit, List.length_append]
        omega
      rw [readAll_cons hrest, ← hrest, hsplit, tokens_append hseam, Reading.enterAll_append]
      refine hstep.bind ?_
      rintro d s ⟨hds, hdrest⟩
      have htail := ih rest.length hlt hds (by rw [hdrest])
      rwa [hdrest] at htail

theorem Mirrors.finish {c : Context} {r : Reading} (hmirrors : Mirrors c r) :
    Agrees (fun outcome v => outcome.1 = v) (c.reduceAll >>= Context.conclude) r.finish := by
  unfold Context.reduceAll Reading.finish
  rw [bind_assoc]
  refine (hmirrors.reduceWhile rfl fun _ => rfl).bind fun d s hds => ?_
  cases hheld : s.held with
  | cons entry held =>
    have hoperators : d.stack.operators = pendingOf entry :: held.map pendingOf := by
      rw [hds.operators, hheld]; rfl
    simp only [hoperators]
    exact .error _ _
  | nil =>
    have hoperators : d.stack.operators = [] := by rw [hds.operators, hheld]; rfl
    simp only [hoperators]
    change Agrees _ d.conclude _
    unfold Context.conclude
    rw [hds.operands]
    match s.operands with
    | [] => exact .error _ _
    | [v] => exact .ok rfl
    | _ :: _ :: _ => exact .error _ _

theorem mirrors_ofText (text : List Char) : Mirrors (Context.ofText text) {} :=
  ⟨rfl, rfl, rfl⟩

/-- The outcome of an evaluation is that of reading the tokens of its text. -/
theorem evaluate_eq_read (text : String) :
    evaluate text = Reading.read (tokens text.toList) := by
  have hrun := (readAll_agrees (mirrors_ofText text.toList)).bind fun _ _ hds => hds.finish
  rw [← bind_assoc] at hrun
  change Agrees _ _ (Reading.read (tokens text.toList)) at hrun
  unfold evaluate Context.run
  generalize (Context.ofText text.toList).readAll >>= Context.reduceAll >>= Context.conclude =
    outcome at hrun
  generalize Reading.read (tokens text.toList) = value at hrun
  cases hrun with
  | ok hvalue => exact congrArg Except.ok hvalue
  | error e c =>
    change Except.error (ite (e.isFailure = true) (Failure.mk e _) (Failure.mk e c)).error = _
    split
    · rfl
    · rfl

end InfixArithmetic.Evaluation
