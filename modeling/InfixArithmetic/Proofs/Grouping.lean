import InfixArithmetic.Proofs.Arithmetic
import InfixArithmetic.Proofs.Placement
import InfixArithmetic.Proofs.Reading
/-!
# How the evaluator groups an expression

In a `Grouping` a minus in operand position takes in the whole run of products that follows
it, up to the next sum, closing parenthesis or end; other operators group to the left and
products bind tighter than sums. While such an expression is read, the operators that wait
above the entries of its surroundings are exactly those that its value still needs
(`Reads`), so evaluation gives the value of the grouping with the first of its failures:
`evaluate_eq_value`.
-/

namespace InfixArithmetic.Grammar

open Evaluation

inductive Part where
  | primary
  | chain
  | negation
  | term
  | expression

/-- A derivation tree of the grammar that the evaluator follows. -/
inductive Grouping : Part → Type
  | literal (n : Numeral) : Grouping .primary
  | group (e : Grouping .expression) : Grouping .primary
  | single (p : Grouping .primary) : Grouping .chain
  | product (c : Grouping .chain) (op : Operator) (hop : op.IsProduct)
      (p : Grouping .primary) : Grouping .chain
  | sign (t : Grouping .term) : Grouping .negation
  | ofNegation (n : Grouping .negation) : Grouping .term
  | ofChain (c : Grouping .chain) : Grouping .term
  | signedProduct (c : Grouping .chain) (op : Operator) (hop : op.IsProduct)
      (n : Grouping .negation) : Grouping .term
  | ofTerm (t : Grouping .term) : Grouping .expression
  | sum (e : Grouping .expression) (op : Operator) (hop : op.IsSum)
      (t : Grouping .term) : Grouping .expression

/-- An operator on the values of its operands, the left one first; the result is checked. -/
def combine (check : Int → Except EvalError Int) (op : Operator) (x y : Except EvalError Int) :
    Except EvalError Int := do
  let a ← x
  let b ← y
  let result ← op.meaning a b
  check result

theorem combine_checked (op : Operator) (a b : Int) :
    combine checked op (.ok a) (.ok b) = op.apply a b := by
  rw [op.apply_eq_meaning]
  rfl

namespace Grouping

def tokens {part : Part} : Grouping part → List Token
  | literal n => [.literal n]
  | group e => .opening :: e.tokens ++ [.closing]
  | single p => p.tokens
  | product c op _ p => c.tokens ++ .operator op :: p.tokens
  | sign t => .operator .sub :: t.tokens
  | ofNegation n => n.tokens
  | ofChain c => c.tokens
  | signedProduct c op _ n => c.tokens ++ .operator op :: n.tokens
  | ofTerm t => t.tokens
  | sum e op _ t => e.tokens ++ .operator op :: t.tokens

/-- Evaluation in post-order, in which every literal and every result is checked. -/
def evalBy (check : Int → Except EvalError Int) {part : Part} :
    Grouping part → Except EvalError Int
  | literal n => check n.value
  | group e => e.evalBy check
  | single p => p.evalBy check
  | product c op _ p => combine check op (c.evalBy check) (p.evalBy check)
  | sign t => combine check .sub (.ok 0) (t.evalBy check)
  | ofNegation n => n.evalBy check
  | ofChain c => c.evalBy check
  | signedProduct c op _ n => combine check op (c.evalBy check) (n.evalBy check)
  | ofTerm t => t.evalBy check
  | sum e op _ t => combine check op (e.evalBy check) (t.evalBy check)

def value {part : Part} (t : Grouping part) : Except EvalError Int :=
  t.evalBy checked

end Grouping

/-! ## Reading a grouping -/

/-- The topmost held entry, if it is an operator, does not yield to one of precedence `bound`. -/
def Blocks (bound : Nat) (held : List (Option Operator)) : Prop :=
  ∀ op, held.head? = some (some op) → op.precedence < bound

theorem yielded_append {p : Operator → Bool} {ops : List Operator}
    {held : List (Option Operator)} (hops : ∀ op ∈ ops, p op = true)
    (hheld : ∀ op, held.head? = some (some op) → p op = false) :
    yielded p (ops.map some ++ held) = ops ∧ kept p (ops.map some ++ held) = held := by
  induction ops with
  | nil =>
    cases held with
    | nil => exact ⟨rfl, rfl⟩
    | cons entry held =>
      cases entry with
      | none => exact ⟨rfl, rfl⟩
      | some op =>
        have hop : p op = false := hheld op rfl
        simp [yielded, kept, hop]
  | cons op ops ih =>
    have hop : p op = true := hops op (by simp)
    obtain ⟨hyielded, hkept⟩ := ih fun other hother => hops other (by simp [hother])
    simp [yielded, kept, hop, hyielded, hkept]

theorem applyAll_append (first last : List Operator) (operands : List Int) :
    applyAll (first ++ last) operands = applyAll first operands >>= applyAll last := by
  induction first generalizing operands with
  | nil => rfl
  | cons op first ih =>
    match operands with
    | [] => rfl
    | [a] => rfl
    | b :: a :: operands =>
      simp only [List.cons_append, applyAll, bind_assoc]
      congr 1
      funext v
      exact ih (v :: operands)

/-- A part with the given value has been read: operators of precedence `low` or higher wait
above the held entries, and applying them puts the value on the operands. -/
def Waits (low : Nat) (value : Except EvalError Int) (operands : List Int)
    (held : List (Option Operator)) (r : Reading) : Prop :=
  r.operandDue = false ∧ ∃ ops : List Operator,
    r.held = ops.map some ++ held ∧ (∀ op ∈ ops, low ≤ op.precedence) ∧
      applyAll ops r.operands = value >>= fun v => .ok (v :: operands)

def FailsOr (value : Except EvalError Int) (P : Reading → Prop) :
    Except EvalError Reading → Prop
  | .error e => value = .error e
  | .ok r => P r

/-- Reading tokens on any stacks fails as the value does, or leaves the rest of the value to
the operators that wait. -/
def Reads (low bound : Nat) (rest : List Token) (value : Except EvalError Int) : Prop :=
  ∀ operands held, Blocks bound held →
    FailsOr value (Waits low value operands held) (Reading.enterAll ⟨operands, held, true⟩ rest)

theorem FailsOr.bind {x y : Except EvalError Int} {P Q : Reading → Prop}
    {outcome : Except EvalError Reading} {next : Reading → Except EvalError Reading}
    (hfirst : FailsOr x P outcome) (herror : ∀ e, x = .error e → y = .error e)
    (hnext : ∀ r, P r → FailsOr y Q (next r)) : FailsOr y Q (outcome >>= next) := by
  cases outcome with
  | error e => exact herror e hfirst
  | ok r => exact hnext r hfirst

theorem Waits.reduce {low : Nat} {value : Except EvalError Int} {operands : List Int}
    {held : List (Option Operator)} {r : Reading} (hwaits : Waits low value operands held r)
    {p : Operator → Bool} (hops : ∀ op : Operator, low ≤ op.precedence → p op = true)
    (hheld : ∀ op, held.head? = some (some op) → p op = false) :
    r.reduce p = value >>= fun v => .ok ⟨v :: operands, held, false⟩ := by
  obtain ⟨hdue, ops, hops', hlow, happly⟩ := hwaits
  obtain ⟨hyielded, hkept⟩ := yielded_append (fun op hop => hops op (hlow op hop)) hheld
  unfold Reading.reduce
  rw [hops', hyielded, hkept, happly, hdue]
  cases value with
  | error e => rfl
  | ok v => rfl

theorem Waits.mono {low low' : Nat} {value : Except EvalError Int} {operands : List Int}
    {held : List (Option Operator)} {r : Reading} (hwaits : Waits low value operands held r)
    (hle : low' ≤ low) : Waits low' value operands held r := by
  obtain ⟨hdue, ops, hops, hlow, happly⟩ := hwaits
  exact ⟨hdue, ops, hops, fun op hop => hle.trans (hlow op hop), happly⟩

theorem Blocks.mono {bound bound' : Nat} {held : List (Option Operator)}
    (hblocks : Blocks bound held) (hle : bound ≤ bound') : Blocks bound' held :=
  fun op hop => (hblocks op hop).trans_le hle

theorem Reads.mono {low low' bound bound' : Nat} {rest : List Token}
    {value : Except EvalError Int} (hreads : Reads low bound rest value) (hlow : low' ≤ low)
    (hbound : bound' ≤ bound) : Reads low' bound' rest value := by
  intro operands held hblocks
  have hread := hreads operands held (hblocks.mono hbound)
  rw [← bind_pure (Reading.enterAll _ _)]
  exact hread.bind (fun _ h => h) fun r hr => hr.mono hlow

theorem reads_literal (n : Numeral) (low bound : Nat) :
    Reads low bound [.literal n] (checked n.value) := by
  intro operands held _
  rw [Reading.enterAll_cons, Reading.enter_literal]
  cases hvalue : checked (n.value : Int) with
  | error e => rfl
  | ok v => exact ⟨rfl, [], rfl, by simp, rfl⟩

theorem Reads.group {rest : List Token} {value : Except EvalError Int} {lowest : Nat}
    (hreads : Reads lowest 1 rest value) (low bound : Nat) :
    Reads low bound (.opening :: rest ++ [.closing]) value := by
  intro operands held _
  rw [List.cons_append, Reading.enterAll_cons, Reading.enter_opening]
  change FailsOr _ _ (Reading.enterAll ⟨operands, none :: held, true⟩ (rest ++ [.closing]))
  rw [Reading.enterAll_append]
  refine (hreads operands (none :: held) (by simp [Blocks])).bind (fun _ h => h) fun r hr => ?_
  have hreduce := hr.reduce (p := fun _ => true) (by simp) (by simp)
  rw [Reading.enterAll_cons, Reading.enter_closing, hreduce]
  cases value with
  | error e => rfl
  | ok v => exact ⟨rfl, [], rfl, by simp, rfl⟩

/-- What is read above a held operator waits, and then the operator waits for it. -/
theorem Reads.above_operator {rest : List Token} {y : Except EvalError Int}
    {lowest bound low : Nat} {op : Operator} (hreads : Reads lowest bound rest y)
    (hblocks : op.precedence < bound) (hlow : low ≤ op.precedence) (hlowest : low ≤ lowest)
    (a : Int) (operands : List Int) (held : List (Option Operator)) :
    FailsOr (combine checked op (.ok a) y)
      (Waits low (combine checked op (.ok a) y) operands held)
      (Reading.enterAll ⟨a :: operands, some op :: held, true⟩ rest) := by
  have hblocks' : Blocks bound (some op :: held) := by
    rintro other hother
    cases hother
    exact hblocks
  have hread := hreads (a :: operands) (some op :: held) hblocks'
  rw [← bind_pure (Reading.enterAll _ _)]
  refine hread.bind ?_ ?_
  · rintro e rfl
    rfl
  · rintro r ⟨hdue, ops, hops, hlows, happly⟩
    refine ⟨hdue, ops ++ [op], by simp [hops], ?_, ?_⟩
    · intro other hother
      rcases List.mem_append.1 hother with hother | hother
      · exact hlowest.trans (hlows other hother)
      · rwa [List.mem_singleton.1 hother]
    · rw [applyAll_append, happly]
      cases y with
      | error e => rfl
      | ok b =>
        rw [combine_checked]
        rfl

/-- A sign puts a zero under itself and waits for what follows, whatever is held below. -/
theorem Reads.sign {rest : List Token} {value : Except EvalError Int} {lowest : Nat}
    (hreads : Reads lowest 2 rest value) (hlow : 1 ≤ lowest) (bound : Nat) :
    Reads 1 bound (.operator .sub :: rest) (combine checked .sub (.ok 0) value) := by
  intro operands held _
  rw [Reading.enterAll_cons, Reading.enter_sign rfl]
  exact hreads.above_operator (by decide) (by decide) hlow 0 operands held

theorem Reads.binary {left right : List Token} {x y : Except EvalError Int}
    {lowLeft lowRight boundLeft boundRight low : Nat} {op : Operator}
    (hleft : Reads lowLeft boundLeft left x) (hright : Reads lowRight boundRight right y)
    (hyields : op.precedence ≤ lowLeft) (hstops : boundLeft ≤ op.precedence)
    (hblocks : op.precedence < boundRight) (hlow : low ≤ op.precedence)
    (hlow' : low ≤ lowRight) :
    Reads low boundLeft (left ++ .operator op :: right) (combine checked op x y) := by
  intro operands held hheld
  rw [Reading.enterAll_append]
  refine (hleft operands held hheld).bind ?_ fun r hr => ?_
  · rintro e rfl
    rfl
  · have hreduce := hr.reduce (p := (op.precedence ≤ ·.precedence))
      (fun other hother => decide_eq_true (hyields.trans hother))
      (fun other hother => decide_eq_false
        (Nat.not_le.2 ((hheld other hother).trans_le hstops)))
    rw [Reading.enterAll_cons, Reading.enter_binary (by simp [hr.1]), hreduce]
    cases x with
    | error e => rfl
    | ok a => exact hright.above_operator hblocks hlow hlow' a operands held

/-! ## The value of a grouping -/

def Part.low : Part → Nat
  | .primary => 3
  | .chain => 2
  | .negation | .term | .expression => 1

def Part.bound : Part → Nat
  | .primary | .negation => 3
  | .chain | .term => 2
  | .expression => 1

theorem Grouping.reads {part : Part} (t : Grouping part) :
    Reads part.low part.bound t.tokens t.value := by
  induction t with
  | literal n => exact reads_literal n _ _
  | group e ih => exact ih.group _ _
  | single p ih => exact ih.mono (by decide) (by decide)
  | product c op hop p ihc ihp =>
    have hlevel := hop.precedence
    exact ihc.binary ihp hlevel.le hlevel.ge (by rw [hlevel]; decide) hlevel.ge (by decide)
  | sign t ih => exact ih.sign (by decide) _
  | ofNegation n ih => exact ih.mono (by decide) (by decide)
  | ofChain c ih => exact ih.mono (by decide) (by decide)
  | signedProduct c op hop n ihc ihn =>
    have hlevel := hop.precedence
    exact ihc.binary ihn hlevel.le hlevel.ge (by rw [hlevel]; decide) (by rw [hlevel]; decide)
      (by decide)
  | ofTerm t ih => exact ih.mono (by decide) (by decide)
  | sum e op hop t ihe iht =>
    have hlevel := hop.precedence
    exact ihe.binary iht hlevel.le hlevel.ge (by rw [hlevel]; decide) hlevel.ge (by decide)

theorem Grouping.read_tokens (t : Grouping .expression) : Reading.read t.tokens = t.value := by
  have hread := t.reads [] [] (by simp [Blocks])
  unfold Reading.read
  cases hrest : Reading.enterAll {} t.tokens with
  | error e =>
    rw [hrest] at hread
    exact Eq.symm hread
  | ok r =>
    rw [hrest] at hread
    have hreduce := Waits.reduce hread (p := fun _ => true) (by simp) (by simp)
    change r.finish = _
    unfold Reading.finish
    rw [hreduce]
    cases t.value with
    | error e => rfl
    | ok v => rfl

theorem Grouping.dueAfter_tokens {part : Part} (t : Grouping part) :
    dueAfter true t.tokens = some false := by
  have hbinary : ∀ (op : Operator) (rest : List Token),
      dueAfter false (.operator op :: rest) = dueAfter true rest := fun _ _ => rfl
  induction t with
  | literal n => rfl
  | group e ih =>
    change dueAfter true (e.tokens ++ [.closing]) = _
    rw [dueAfter_append, ih]
    rfl
  | single p ih => exact ih
  | product c op hop p ihc ihp => rw [tokens, dueAfter_append, ihc, Option.bind_some, hbinary, ihp]
  | sign t ih => exact ih
  | ofNegation n ih => exact ih
  | ofChain c ih => exact ih
  | signedProduct c op hop n ihc ihn =>
    rw [tokens, dueAfter_append, ihc, Option.bind_some, hbinary, ihn]
  | ofTerm t ih => exact ih
  | sum e op hop t ihe iht => rw [tokens, dueAfter_append, ihe, Option.bind_some, hbinary, iht]

/-- Evaluating a text that writes a grouping, with any blanks, gives the value of the grouping
in post-order or the first failure met there. -/
theorem evaluate_eq_value (t : Grouping .expression) (text : String)
    (hlaid : LaidOut t.tokens text.toList) : evaluate text = t.value := by
  rw [evaluate_eq_read, tokens_eq_of_laidOut hlaid (separated_of_dueAfter t.dueAfter_tokens)]
  exact t.read_tokens

/-- The grouping of `7 / -2 * (3 - 1) + 5`, where the sign takes in the product behind it. -/
def signInQuotient : Grouping .expression :=
  let digit (c : Char) (hdigit : c.isDigit = true) : Grouping .primary :=
    .literal (.ofRun c [] hdigit)
  let difference : Grouping .expression :=
    .sum (.ofTerm (.ofChain (.single (digit '3' rfl)))) .sub .sub
      (.ofChain (.single (digit '1' rfl)))
  let product : Grouping .chain :=
    .product (.single (digit '2' rfl)) .mul .mul (.group difference)
  .sum (.ofTerm (.signedProduct (.single (digit '7' rfl)) .div .div (.sign (.ofChain product))))
    .add .add (.ofChain (.single (digit '5' rfl)))

theorem evaluate_signInQuotient :
    LaidOut signInQuotient.tokens " 7/ -2*(3-1)+5".toList ∧
      evaluate " 7/ -2*(3-1)+5" = signInQuotient.value ∧ signInQuotient.value = .ok 4 := by
  have htokens : tokens " 7/ -2*(3-1)+5".toList = signInQuotient.tokens := by decide +kernel
  have hlaid : LaidOut signInQuotient.tokens " 7/ -2*(3-1)+5".toList :=
    htokens ▸ laidOut_tokens _
  exact ⟨hlaid, evaluate_eq_value signInQuotient _ hlaid, by decide +kernel⟩

end InfixArithmetic.Grammar
