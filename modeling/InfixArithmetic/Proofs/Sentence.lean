import InfixArithmetic.Proofs.Balance
import InfixArithmetic.Proofs.Phrase
/-!
# Which accepted texts are expressions

The sentences of the conventional grammar are the lists of tokens that stand in their places,
close their groups and leave no operand due (`derives_iff`). The evaluator counts operands and
groups but never asks where a token stands. So among the texts that it gives a value the
expressions are exactly those with every token in its place, and there are others:
`isExpression_iff_inPlace` and `accepted_not_isExpression`.
-/

namespace InfixArithmetic.Grammar

open Evaluation

def Derives (rank : Rank) (rest : List Token) : Prop :=
  ∃ t : Phrase Numeral rank, t.tokens = rest

def IsExpression (text : String) : Prop :=
  ∃ e : Phrase Numeral .expression, LaidOut e.tokens text.toList

/-! ## Sentences stand in their places and close their groups -/

theorem Phrase.depthAfter_tokens {rank : Rank} (t : Phrase Numeral rank) (depth : Nat) :
    depthAfter depth t.tokens = some depth := by
  have hoperator : ∀ (op : Operator) (n : Nat) (rest : List Token),
      depthAfter n (.operator op :: rest) = depthAfter n rest := by
    intro op n rest
    cases n <;> rfl
  induction t generalizing depth with
  | literal n => cases depth <;> rfl
  | group e ih =>
    change depthAfter (depth + 1) (e.tokens ++ [.closing]) = _
    rw [depthAfter_append, ih]
    rfl
  | sign f ih => rw [tokens, hoperator, ih]
  | ofFactor f ih => exact ih depth
  | product t op hop f iht ihf =>
    rw [tokens, depthAfter_append, iht, Option.bind_some, hoperator, ihf]
  | ofTerm t ih => exact ih depth
  | sum e op hop t ihe iht =>
    rw [tokens, depthAfter_append, ihe, Option.bind_some, hoperator, iht]

/-! ## Tokens in their places with closed groups are sentences -/

/-- Tokens that any factor completes to an expression, when an operand is due, or that are an
expression themselves. -/
def Fits : Bool → List Token → Prop
  | true, rest => ∀ factor, Derives .factor factor → Derives .expression (rest ++ factor)
  | false, rest => Derives .expression rest

theorem fits_nil : Fits true [] := by
  rintro factor ⟨f, rfl⟩
  exact ⟨.ofTerm (.ofFactor f), rfl⟩

theorem Fits.literal {rest : List Token} (hfits : Fits true rest) (n : Numeral) :
    Fits false (rest ++ [.literal n]) :=
  hfits _ ⟨.literal n, rfl⟩

theorem Fits.group {rest inner : List Token} (hfits : Fits true rest) (hinner : Fits false inner) :
    Fits false (rest ++ .opening :: (inner ++ [.closing])) := by
  obtain ⟨e, rfl⟩ := hinner
  exact hfits _ ⟨.group e, rfl⟩

theorem Fits.sign {rest : List Token} (hfits : Fits true rest) :
    Fits true (rest ++ [.operator .sub]) := by
  rintro factor ⟨f, rfl⟩
  have hsigned := hfits _ ⟨.sign f, rfl⟩
  rwa [Phrase.tokens, List.append_cons] at hsigned

/-- Behind an expression any operator asks for one more factor: a product goes on with the last
term of the expression, a sum with the whole. -/
theorem Fits.operator {rest : List Token} (hfits : Fits false rest) (op : Operator) :
    Fits true (rest ++ [.operator op]) := by
  obtain ⟨e, rfl⟩ := hfits
  rintro factor ⟨f, rfl⟩
  rw [← List.append_cons]
  rcases op.isSum_or_isProduct with hop | hop
  · exact ⟨.sum e op hop (.ofFactor f), rfl⟩
  · cases e with
    | ofTerm t => exact ⟨.ofTerm (.product t op hop f), rfl⟩
    | sum e other hother t =>
      exact ⟨.sum e other hother (.product t op hop f), by simp [Phrase.tokens]⟩

/-- The beginning of an expression: one fitting run of tokens for every group that is open and
one around them all. -/
inductive Viable : Nat → Bool → List Token → Prop
  | flat {due : Bool} {rest : List Token} (hfits : Fits due rest) : Viable 0 due rest
  | nested {depth : Nat} {due : Bool} {outer rest : List Token}
      (houter : Viable depth true outer) (hfits : Fits due rest) :
      Viable (depth + 1) due (outer ++ .opening :: rest)

theorem Viable.exchange {depth : Nat} {due due' : Bool} {rest more : List Token}
    (hviable : Viable depth due rest)
    (hmore : ∀ inner, Fits due inner → Fits due' (inner ++ more)) :
    Viable depth due' (rest ++ more) := by
  cases hviable with
  | flat hfits => exact .flat (hmore _ hfits)
  | nested houter hfits =>
    rw [List.append_assoc, List.cons_append]
    exact .nested houter (hmore _ hfits)

theorem Viable.step {depth depth' : Nat} {due due' : Bool} {rest : List Token} {token : Token}
    (hviable : Viable depth due rest) (hdepth : token.depthAfter depth = some depth')
    (hdue : token.dueAfter due = some due') : Viable depth' due' (rest ++ [token]) := by
  cases token with
  | literal n =>
    cases due
    · cases hdue
    · cases hdue
      cases depth <;> cases hdepth <;> exact hviable.exchange fun inner hinner => hinner.literal n
  | opening =>
    cases due
    · cases hdue
    · cases hdue
      cases depth <;> cases hdepth <;> exact .nested hviable fits_nil
  | closing =>
    cases due
    · cases hdue
      cases hviable with
      | flat hfits => cases hdepth
      | nested houter hfits =>
        cases hdepth
        rw [List.append_assoc, List.cons_append]
        exact houter.exchange fun inner hinner => hinner.group hfits
    · cases hdue
  | operator op =>
    have hsame : depth' = depth := by
      cases depth <;> cases hdepth <;> rfl
    subst hsame
    cases due
    · cases hdue
      exact hviable.exchange fun inner hinner => hinner.operator op
    · simp only [Token.dueAfter, Option.ite_none_right_eq_some, Option.some.injEq] at hdue
      obtain ⟨rfl, rfl⟩ := hdue
      exact hviable.exchange fun inner hinner => hinner.sign
  | invalid c => cases due <;> cases hdue

theorem viable_of_after {depth : Nat} {due : Bool} (rest : List Token)
    (hdepth : depthAfter 0 rest = some depth) (hdue : dueAfter true rest = some due) :
    Viable depth due rest := by
  induction rest using List.reverseRecOn generalizing depth due with
  | nil =>
    cases hdepth
    cases hdue
    exact .flat fits_nil
  | append_singleton rest token ih =>
    rw [depthAfter_append, Option.bind_eq_some_iff] at hdepth
    rw [dueAfter_append, Option.bind_eq_some_iff] at hdue
    obtain ⟨before, hbefore, hdepth⟩ := hdepth
    obtain ⟨dueBefore, hdueBefore, hdue⟩ := hdue
    refine (ih hbefore hdueBefore).step ?_ ?_
    · simpa [depthAfter_cons, depthAfter] using hdepth
    · simpa [dueAfter_cons, dueAfter] using hdue

theorem derives_iff (rest : List Token) :
    Derives .expression rest ↔
      dueAfter true rest = some false ∧ depthAfter 0 rest = some 0 := by
  constructor
  · rintro ⟨e, rfl⟩
    exact ⟨e.dueAfter_tokens, e.depthAfter_tokens 0⟩
  · rintro ⟨hdue, hdepth⟩
    cases viable_of_after rest hdepth hdue with
    | flat hfits => exact hfits

theorem isExpression_iff_derives (text : String) :
    IsExpression text ↔ Derives .expression (tokens text.toList) := by
  constructor
  · rintro ⟨e, hlaid⟩
    exact ⟨e, (tokens_eq_of_laidOut hlaid (separated_of_dueAfter e.dueAfter_tokens)).symm⟩
  · rintro ⟨e, he⟩
    exact ⟨e, he ▸ laidOut_tokens text.toList⟩

/-! ## What the evaluator accepts -/

/-- Among the texts that have a value, the expressions are those whose literals, opening
parentheses and signs stand where an operand is due and whose binary operators and closing
parentheses stand where none is. -/
theorem isExpression_iff_inPlace (text : String) (v : Int) (hvalue : evaluate text = .ok v) :
    IsExpression text ↔ InPlace (tokens text.toList) := by
  rw [evaluate_eq_read] at hvalue
  obtain ⟨r, hread, hfinish⟩ := bind_eq_ok_iff.1 hvalue
  obtain ⟨hdepth, hsurplus⟩ := Reading.balance_of_finish hfinish
  rw [isExpression_iff_derives, derives_iff]
  constructor
  · rintro ⟨hdue, -⟩
    exact ⟨false, hdue⟩
  · rintro ⟨due, hdue⟩
    have hgroups := Reading.depthAfter_of_enterAll hread
    rw [hdepth] at hgroups
    have hexcess := Reading.surplus_of_enterAll hread hdue
    rw [hsurplus] at hexcess
    cases due with
    | false => exact ⟨hdue, hgroups⟩
    | true => cases hexcess

/-- A leading plus, neighbouring operands, an empty pair of parentheses and an operator that
takes its operands from outside its group are all accepted somewhere. -/
theorem accepted_not_isExpression :
    (evaluate "+1 2" = .ok 3 ∧ ¬ IsExpression "+1 2") ∧
      (evaluate "1 2+" = .ok 3 ∧ ¬ IsExpression "1 2+") ∧
      (evaluate "()1" = .ok 1 ∧ ¬ IsExpression "()1") ∧
      evaluate "1 2(+)" = .ok 3 ∧ ¬ IsExpression "1 2(+)" := by
  have hrejects : ∀ text : String, dueAfter true (tokens text.toList) ≠ some false →
      ¬ IsExpression text := by
    intro text hplace hexpression
    rw [isExpression_iff_derives, derives_iff] at hexpression
    exact hplace hexpression.1
  refine ⟨⟨by decide +kernel, hrejects _ ?_⟩, ⟨by decide +kernel, hrejects _ ?_⟩,
    ⟨by decide +kernel, hrejects _ ?_⟩, by decide +kernel, hrejects _ ?_⟩
  · decide +kernel
  · decide +kernel
  · decide +kernel
  · decide +kernel

theorem isExpression_iff_inPlace_sign :
    evaluate "4*(-3+1)" = .ok (-8) ∧
      (IsExpression "4*(-3+1)" ↔ InPlace (tokens "4*(-3+1)".toList)) := by
  have hvalue : evaluate "4*(-3+1)" = .ok (-8) := by decide +kernel
  exact ⟨hvalue, isExpression_iff_inPlace _ _ hvalue⟩

end InfixArithmetic.Grammar
