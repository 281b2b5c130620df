import InfixArithmetic.Proofs.Placement
import InfixArithmetic.Proofs.Reading
/-!
# What a reading conserves

Reducing takes one operand away with every operator, so the surplus of operands over waiting
operators depends on the tokens alone, and so does the number of open groups. Both are known
at the end of a successful evaluation: no group is open and the surplus is one
(`balance_of_finish`).
-/

namespace InfixArithmetic.Evaluation

def Token.depthAfter : Nat → Token → Option Nat
  | depth, opening => some (depth + 1)
  | 0, closing => none
  | depth + 1, closing => some depth
  | depth, _ => some depth

/-- The number of open groups behind tokens, if every closing parenthesis has its partner. -/
def depthAfter (depth : Nat) (rest : List Token) : Option Nat :=
  rest.foldlM Token.depthAfter depth

theorem depthAfter_cons (depth : Nat) (token : Token) (rest : List Token) :
    depthAfter depth (token :: rest) = (token.depthAfter depth).bind (depthAfter · rest) :=
  List.foldlM_cons

theorem depthAfter_append (depth : Nat) (first rest : List Token) :
    depthAfter depth (first ++ rest) = (depthAfter depth first).bind (depthAfter · rest) :=
  List.foldlM_append

/-- What a token adds to the surplus of operands; a sign brings its own zero. -/
def Token.weight (due : Bool) : Token → Int
  | literal _ => 1
  | operator op => if op = .sub ∧ due = true then 0 else -1
  | _ => 0

def Token.asksOperand : Token → Bool
  | opening | operator _ => true
  | _ => false

def weigh (due : Bool) : List Token → Int
  | [] => 0
  | token :: rest => token.weight due + weigh token.asksOperand rest

def expectedBehind (due : Bool) (rest : List Token) : Bool :=
  rest.foldl (fun _ token => token.asksOperand) due

theorem Token.weight_of_dueAfter {token : Token} {due due' : Bool}
    (hplace : token.dueAfter due = some due') :
    due' = token.asksOperand ∧ token.weight due + due'.toNat = due.toNat := by
  cases token with
  | literal | opening | closing | invalid => cases due <;> cases hplace <;> exact ⟨rfl, rfl⟩
  | operator op => cases op <;> cases due <;> cases hplace <;> decide

theorem weigh_of_dueAfter {due due' : Bool} {rest : List Token}
    (hplace : dueAfter due rest = some due') : weigh due rest + due'.toNat = due.toNat := by
  induction rest generalizing due with
  | nil =>
    cases hplace
    exact Int.zero_add _
  | cons token rest ih =>
    rw [dueAfter_cons, Option.bind_eq_some_iff] at hplace
    obtain ⟨next, hnext, hrest⟩ := hplace
    obtain ⟨rfl, hweight⟩ := Token.weight_of_dueAfter hnext
    have htail := ih hrest
    rw [weigh]
    omega

theorem add_count_of_depthAfter {depth depth' : Nat} {rest : List Token}
    (hdepth : depthAfter depth rest = some depth') :
    depth' + rest.count .closing = depth + rest.count .opening := by
  induction rest generalizing depth with
  | nil =>
    cases hdepth
    rfl
  | cons token rest ih =>
    rw [depthAfter_cons, Option.bind_eq_some_iff] at hdepth
    obtain ⟨next, hnext, hrest⟩ := hdepth
    have htail := ih hrest
    cases token with
    | opening =>
      cases hnext
      simp only [List.count_cons_self,
        List.count_cons_of_ne (show Token.opening ≠ .closing by decide)]
      omega
    | closing =>
      cases depth with
      | zero => cases hnext
      | succ depth =>
        cases hnext
        simp only [List.count_cons_self,
          List.count_cons_of_ne (show Token.closing ≠ .opening by decide)]
        omega
    | literal | operator | invalid =>
      have hsame : next = depth := by cases depth <;> cases hnext <;> rfl
      simpa [hsame] using htail

namespace Reading

def depth (r : Reading) : Nat :=
  r.held.countP Option.isNone

/-- The operands in excess of the waiting operators. -/
def surplus (r : Reading) : Int :=
  r.operands.length - r.held.countP Option.isSome

end Reading

theorem map_yielded_append_kept (p : Operator → Bool) (held : List (Option Operator)) :
    (yielded p held).map some ++ kept p held = held := by
  induction held with
  | nil => rfl
  | cons entry held ih =>
    cases entry with
    | none => rfl
    | some op =>
      by_cases hp : p op = true
      · simp [yielded, kept, hp, ih]
      · simp [yielded, kept, hp]

theorem eq_false_of_kept_eq_cons {p : Operator → Bool} {held rest : List (Option Operator)}
    {op : Operator} (hkept : kept p held = some op :: rest) : p op = false := by
  induction held with
  | nil => cases hkept
  | cons entry held ih =>
    cases entry with
    | none => cases hkept
    | some other =>
      by_cases hp : p other = true
      · rw [kept, if_pos hp] at hkept
        exact ih hkept
      · rw [kept, if_neg hp] at hkept
        cases hkept
        simpa using hp

theorem length_of_applyAll {ops : List Operator} {operands left : List Int}
    (happly : applyAll ops operands = .ok left) :
    left.length + ops.length = operands.length := by
  induction ops generalizing operands with
  | nil =>
    cases happly
    rfl
  | cons op ops ih =>
    match operands with
    | [] => cases happly
    | [a] => cases happly
    | b :: a :: operands =>
      cases hop : op.apply a b with
      | error e => simp [applyAll, hop, bind, Except.bind] at happly
      | ok v =>
        simp only [applyAll, hop, bind, Except.bind] at happly
        have hlength := ih happly
        simp only [List.length_cons] at hlength ⊢
        omega

namespace Reading

theorem of_reduce {r s : Reading} {p : Operator → Bool} (hreduce : r.reduce p = .ok s) :
    applyAll (yielded p r.held) r.operands = .ok s.operands ∧ s.held = kept p r.held ∧
      s.operandDue = r.operandDue := by
  unfold reduce at hreduce
  cases happly : applyAll (yielded p r.held) r.operands with
  | error e => simp [happly, bind, Except.bind] at hreduce
  | ok left =>
    simp only [happly, bind, Except.bind] at hreduce
    cases hreduce
    exact ⟨rfl, rfl, rfl⟩

theorem balance_of_reduce {r s : Reading} {p : Operator → Bool} (hreduce : r.reduce p = .ok s) :
    s.depth = r.depth ∧ s.surplus = r.surplus := by
  obtain ⟨happly, hheld, -⟩ := of_reduce hreduce
  have hlength := length_of_applyAll happly
  have hnone : (kept p r.held).countP Option.isNone = r.held.countP Option.isNone := by
    conv_rhs => rw [← map_yielded_append_kept p r.held]
    simp [List.countP_map, Function.comp_def]
  have hsome : r.held.countP Option.isSome =
      (yielded p r.held).length + (kept p r.held).countP Option.isSome := by
    conv_lhs => rw [← map_yielded_append_kept p r.held]
    simp [List.countP_map, Function.comp_def]
  constructor
  · rw [depth, depth, hheld, hnone]
  · rw [surplus, surplus, hheld, hsome]
    omega

theorem balance_of_enter_closing {r s : Reading} (henter : r.enter .closing = .ok s) :
    r.depth = s.depth + 1 ∧ s.surplus = r.surplus := by
  rw [enter_closing] at henter
  obtain ⟨t, hreduce, hclose⟩ := bind_eq_ok_iff.1 henter
  obtain ⟨hdepth, hsurplus⟩ := balance_of_reduce hreduce
  obtain ⟨-, hheld, -⟩ := of_reduce hreduce
  unfold close at hclose
  split at hclose
  · cases hclose
  · rename_i entry held hentry
    cases hclose
    have hgroup : entry = none := by
      cases entry with
      | none => rfl
      | some op => cases eq_false_of_kept_eq_cons (hheld.symm.trans hentry)
    subst hgroup
    rw [← hdepth, ← hsurplus]
    simp [depth, surplus, hentry]

theorem balance_of_enter {r s : Reading} {token : Token} (henter : r.enter token = .ok s) :
    token.depthAfter r.depth = some s.depth ∧
      s.surplus = r.surplus + token.weight r.operandDue := by
  cases token with
  | literal n =>
    rw [enter_literal] at henter
    obtain ⟨v, -, hs⟩ := bind_eq_ok_iff.1 henter
    cases hs
    refine ⟨by simp [Token.depthAfter, depth], ?_⟩
    simp only [surplus, Token.weight, List.length_cons]
    omega
  | opening =>
    cases henter
    simp [Token.depthAfter, depth, surplus, Token.weight]
  | closing =>
    obtain ⟨hdepth, hsurplus⟩ := balance_of_enter_closing henter
    rw [hdepth, hsurplus]
    exact ⟨rfl, (Int.add_zero _).symm⟩
  | operator op =>
    by_cases hsign : op = .sub ∧ r.operandDue = true
    · rw [hsign.1, enter_sign hsign.2] at henter
      cases henter
      refine ⟨by simp [Token.depthAfter, depth, hold], ?_⟩
      simp only [surplus, hold, Token.weight, hsign, and_self, ↓reduceIte, List.length_cons,
        List.countP_cons, Option.isSome_some]
      omega
    · rw [enter_binary hsign] at henter
      obtain ⟨t, hreduce, hs⟩ := bind_eq_ok_iff.1 henter
      cases hs
      obtain ⟨hdepth, hsurplus⟩ := balance_of_reduce hreduce
      rw [← hdepth, ← hsurplus, Token.weight, if_neg hsign]
      refine ⟨by simp [Token.depthAfter, depth, hold], ?_⟩
      simp only [surplus, hold, List.countP_cons, Option.isSome_some, ↓reduceIte]
      omega
  | invalid c => cases henter

theorem operandDue_of_enter {r s : Reading} {token : Token} (henter : r.enter token = .ok s) :
    s.operandDue = token.asksOperand := by
  cases token with
  | literal n =>
    rw [enter_literal] at henter
    obtain ⟨v, -, hs⟩ := bind_eq_ok_iff.1 henter
    cases hs
    rfl
  | opening =>
    cases henter
    rfl
  | closing =>
    rw [enter_closing] at henter
    obtain ⟨t, -, hclose⟩ := bind_eq_ok_iff.1 henter
    unfold close at hclose
    split at hclose
    · cases hclose
    · cases hclose
      rfl
  | operator op =>
    by_cases hsign : op = .sub ∧ r.operandDue = true
    · rw [hsign.1, enter_sign hsign.2] at henter
      cases henter
      rfl
    · rw [enter_binary hsign] at henter
      obtain ⟨t, -, hs⟩ := bind_eq_ok_iff.1 henter
      cases hs
      rfl
  | invalid c => cases henter

theorem depthAfter_of_enterAll {r s : Reading} {rest : List Token}
    (hread : r.enterAll rest = .ok s) : depthAfter r.depth rest = some s.depth := by
  induction rest generalizing r with
  | nil =>
    cases hread
    rfl
  | cons token rest ih =>
    rw [enterAll_cons] at hread
    obtain ⟨t, henter, hrest⟩ := bind_eq_ok_iff.1 hread
    rw [depthAfter_cons, (balance_of_enter henter).1, Option.bind_some, ih hrest]

theorem weigh_of_enterAll {r s : Reading} {rest : List Token} (hread : r.enterAll rest = .ok s) :
    s.surplus = r.surplus + weigh r.operandDue rest ∧
      s.operandDue = expectedBehind r.operandDue rest := by
  induction rest generalizing r with
  | nil =>
    cases hread
    exact ⟨(Int.add_zero _).symm, rfl⟩
  | cons token rest ih =>
    rw [enterAll_cons] at hread
    obtain ⟨t, henter, hrest⟩ := bind_eq_ok_iff.1 hread
    obtain ⟨hsurplus, hexpected⟩ := ih hrest
    have hstep := (balance_of_enter henter).2
    rw [operandDue_of_enter henter] at hsurplus hexpected
    refine ⟨?_, hexpected⟩
    rw [weigh]
    omega

theorem surplus_of_enterAll {r s : Reading} {rest : List Token} {due : Bool}
    (hread : r.enterAll rest = .ok s) (hplace : dueAfter r.operandDue rest = some due) :
    s.surplus + due.toNat = r.surplus + r.operandDue.toNat := by
  have hsurplus := (weigh_of_enterAll hread).1
  have hweigh := weigh_of_dueAfter hplace
  omega

theorem balance_of_finish {r : Reading} {v : Int} (hfinish : r.finish = .ok v) :
    r.depth = 0 ∧ r.surplus = 1 := by
  unfold finish at hfinish
  obtain ⟨s, hreduce, hs⟩ := bind_eq_ok_iff.1 hfinish
  obtain ⟨hdepth, hsurplus⟩ := balance_of_reduce hreduce
  split at hs
  · rename_i value hheld hoperands
    rw [← hdepth, ← hsurplus]
    simp [depth, surplus, hheld, hoperands]
  · cases hs
  · cases hs

end Reading

end InfixArithmetic.Evaluation
