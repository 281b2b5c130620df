import InfixArithmetic.Proofs.Tokens
/-!
# Where tokens may stand

In an infix expression literals, opening parentheses and signs stand where an operand is due,
binary operators and closing parentheses where one has just ended. `dueAfter` follows that
rule through a list of tokens.
-/

namespace InfixArithmetic.Evaluation

/-- Whether an operand is due behind a token that stands in its place; `due` tells whether one
is due in front of it. -/
def Token.dueAfter : Bool → Token → Option Bool
  | true, literal _ => some false
  | true, opening => some true
  | true, operator op => if op = .sub then some true else none
  | false, operator _ => some true
  | false, closing => some false
  | _, _ => none

def dueAfter (due : Bool) (rest : List Token) : Option Bool :=
  rest.foldlM Token.dueAfter due

def InPlace (rest : List Token) : Prop :=
  ∃ due, dueAfter true rest = some due

theorem dueAfter_cons (due : Bool) (token : Token) (rest : List Token) :
    dueAfter due (token :: rest) = (token.dueAfter due).bind (dueAfter · rest) :=
  List.foldlM_cons

theorem dueAfter_append (due : Bool) (first rest : List Token) :
    dueAfter due (first ++ rest) = (dueAfter due first).bind (dueAfter · rest) :=
  List.foldlM_append

theorem separated_of_dueAfter {due due' : Bool} {rest : List Token}
    (hplace : dueAfter due rest = some due') : Separated rest := by
  induction rest generalizing due with
  | nil => exact ⟨by simp, .nil⟩
  | cons token rest ih =>
    rw [dueAfter_cons, Option.bind_eq_some_iff] at hplace
    obtain ⟨next, hnext, hrest⟩ := hplace
    obtain ⟨hvalid, hchain⟩ := ih hrest
    refine ⟨?_, ?_⟩
    · have htoken : ¬ token.IsInvalid := by
        cases token with
        | invalid c => cases due <;> cases hnext
        | literal | opening | closing | operator => exact id
      simpa [htoken] using hvalid
    · refine hchain.cons fun other hother hliteral => ?_
      cases token with
      | opening | closing | operator | invalid => exact hliteral.elim
      | literal n =>
        have hoperator : next = false := by
          cases due
          · cases hnext
          · cases hnext; rfl
        subst hoperator
        cases rest with
        | nil => cases hother
        | cons second rest =>
          cases hother
          rw [dueAfter_cons, Option.bind_eq_some_iff] at hrest
          obtain ⟨_, hsecond, _⟩ := hrest
          cases other with
          | literal m => cases hsecond
          | opening | closing | operator | invalid => exact id

end InfixArithmetic.Evaluation
