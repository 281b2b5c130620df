import InfixArithmetic.Proofs.Balance
import InfixArithmetic.Proofs.FirstFailure
import InfixArithmetic.Proofs.Reachable
/-!
# The stacks against the consumed text

What a reading conserves can be counted off the characters: each run of digits brings an operand and
each binary operator uses one up, the last character that is no blank tells whether an operand is
expected (`weigh_tokens`), and parentheses open and close groups (`count_ofChar_tokens`). The counts
hold in every context that an evaluation reaches, and they come out even where it ends in a value:
`reaches_accounts`.
-/

namespace InfixArithmetic.Evaluation

open Text (isBlank)

/-- How many characters of a text satisfy `p` together with all that is in front of them; `front`
is in front of the text. -/
def countFrom (p : List Char → Char → Bool) (front : List Char) : List Char → Nat
  | [] => 0
  | c :: rest => (p front c).toNat + countFrom p (front ++ [c]) rest

def lastSolid (text : List Char) : Option Char :=
  (text.filter fun c => !isBlank c).getLast?

/-- Whether the next token is the first one or follows an opening parenthesis or an operator. -/
def expectsBehind (front : List Char) : Bool :=
  match lastSolid front with
  | none => true
  | some c => c == '(' || (Operator.ofChar? c).isSome

def beginsRun (front : List Char) (c : Char) : Bool :=
  c.isDigit && !endsInDigit front

/-- Whether a character is an operator and no sign. -/
def isBinary (front : List Char) (c : Char) : Bool :=
  (Operator.ofChar? c).isSome && !(c == '-' && expectsBehind front)

def digitRuns (text : List Char) : Nat :=
  countFrom beginsRun [] text

def binaryOperators (text : List Char) : Nat :=
  countFrom isBinary [] text

theorem countFrom_append (p : List Char → Char → Bool) (front left right : List Char) :
    countFrom p front (left ++ right) =
      countFrom p front left + countFrom p (front ++ left) right := by
  induction left generalizing front with
  | nil => simp [countFrom]
  | cons c left ih =>
    rw [List.cons_append, countFrom, countFrom, ih, List.append_assoc, List.singleton_append]
    omega

theorem countFrom_eq_zero {p : List Char → Char → Bool} {text : List Char}
    (hnone : ∀ front, ∀ c ∈ text, p front c = false) (front : List Char) :
    countFrom p front text = 0 := by
  induction text generalizing front with
  | nil => rfl
  | cons c rest ih =>
    rw [countFrom, hnone front c (by simp), ih fun other d hd => hnone other d (by simp [hd])]
    rfl

/-! ## Characters and their tokens -/

theorem ofChar?_eq_none {c : Char} (hc : isBlank c = true ∨ c.isDigit = true) :
    Operator.ofChar? c = none := by
  cases hop : Operator.ofChar? c with
  | none => rfl
  | some op =>
    rw [← Operator.symbol_eq_of_ofChar?_eq_some hop] at hc
    cases op <;> exact absurd hc (by decide)

theorem asksOperand_ofChar (c : Char) :
    (Token.ofChar c).asksOperand = (c == '(' || (Operator.ofChar? c).isSome) := by
  rcases Token.ofChar_cases c with rfl | rfl | ⟨op, rfl⟩ | ⟨hopen, -, hnone, hinvalid⟩
  · decide
  · decide
  · cases op <;> decide
  · simp [hopen, hnone, hinvalid, Token.asksOperand]

theorem weight_ofChar (front : List Char) (c : Char) :
    (Token.ofChar c).weight (expectsBehind front) = -(isBinary front c).toNat := by
  unfold isBinary
  generalize expectsBehind front = due
  rcases Token.ofChar_cases c with rfl | rfl | ⟨op, rfl⟩ | ⟨-, -, hnone, hinvalid⟩
  · cases due <;> decide
  · cases due <;> decide
  · cases op <;> cases due <;> decide
  · simp [hnone, hinvalid, Token.weight]

theorem lastSolid_append_of_isBlank (front : List Char) {c : Char} (hblank : isBlank c = true) :
    lastSolid (front ++ [c]) = lastSolid front := by
  simp [lastSolid, List.filter_append, hblank]

theorem lastSolid_append_of_solid (front : List Char) {c : Char} (hblank : isBlank c = false) :
    lastSolid (front ++ [c]) = some c := by
  simp [lastSolid, List.filter_append, hblank]

theorem expectsBehind_append_ofChar (front : List Char) {c : Char} (hblank : isBlank c = false) :
    expectsBehind (front ++ [c]) = (Token.ofChar c).asksOperand := by
  rw [asksOperand_ofChar, expectsBehind, lastSolid_append_of_solid front hblank]

theorem expectsBehind_append_digits (front : List Char) (n : Numeral) :
    expectsBehind (front ++ n.digits) = false := by
  have hlast : n.digits.getLast n.ne_nil ∈ n.digits := List.getLast_mem n.ne_nil
  have hdigit := n.isDigit_of_mem _ hlast
  rw [← List.dropLast_append_getLast n.ne_nil, ← List.append_assoc, expectsBehind,
    lastSolid_append_of_solid _ (isBlank_eq_false_of_isDigit hdigit)]
  have hopen : (n.digits.getLast n.ne_nil == '(') = false := by
    rw [beq_eq_false_iff_ne]
    intro heq
    rw [heq] at hdigit
    cases hdigit
  simp [hopen, ofChar?_eq_none (.inr hdigit)]

theorem endsInDigit_append_digit (front : List Char) {c : Char} (hdigit : c.isDigit = true) :
    endsInDigit (front ++ [c]) = true := by
  simp [endsInDigit, hdigit]

theorem countFrom_beginsRun_inside {front rest : List Char} (hfront : endsInDigit front = true)
    (hrest : ∀ c ∈ rest, c.isDigit = true) : countFrom beginsRun front rest = 0 := by
  induction rest generalizing front with
  | nil => rfl
  | cons c rest ih =>
    have hnext := endsInDigit_append_digit front (hrest c (by simp))
    rw [countFrom, ih hnext fun d hd => hrest d (by simp [hd])]
    simp [beginsRun, hfront]

theorem countFrom_beginsRun_digits {front : List Char} (hfront : endsInDigit front = false)
    (n : Numeral) : countFrom beginsRun front n.digits = 1 := by
  obtain ⟨digits, hne, hdigits⟩ := n
  cases digits with
  | nil => exact absurd rfl hne
  | cons c rest =>
    have hc : c.isDigit = true := hdigits c (by simp)
    have hnext := endsInDigit_append_digit front hc
    rw [countFrom, countFrom_beginsRun_inside hnext fun d hd => hdigits d (by simp [hd])]
    simp [beginsRun, hc, hfront]

/-! ## Counting over a text -/

theorem weigh_tokens {front rest : List Char} (hseam : Seam front rest) :
    weigh (expectsBehind front) (tokens rest) =
        countFrom beginsRun front rest - countFrom isBinary front rest ∧
      expectedBehind (expectsBehind front) (tokens rest) = expectsBehind (front ++ rest) := by
  induction rest using induction_on_pieces generalizing front with
  | nil =>
    rw [tokens, List.append_nil]
    exact ⟨rfl, rfl⟩
  | blank c rest hblank ih =>
    have hdigit := isDigit_eq_false_of_isBlank hblank
    have hborder : Seam (front ++ [c]) rest := .inl (by simp [endsInDigit, hdigit])
    have hsame : expectsBehind (front ++ [c]) = expectsBehind front := by
      rw [expectsBehind, lastSolid_append_of_isBlank front hblank, expectsBehind]
    obtain ⟨hweigh, hexpected⟩ := ih hborder
    rw [hsame] at hweigh hexpected
    rw [tokens_cons_of_isBlank hblank, hweigh, hexpected, countFrom, countFrom, List.append_assoc]
    simp [beginsRun, isBinary, hdigit, ofChar?_eq_none (.inl hblank)]
  | run n rest hrest ih =>
    have hfront : endsInDigit front = false :=
      hseam.resolve_right (by simp [n.startsWithDigit_append])
    have hbinary : countFrom isBinary front n.digits = 0 := by
      apply countFrom_eq_zero
      intro other d hd
      simp [isBinary, ofChar?_eq_none (.inr (n.isDigit_of_mem d hd))]
    have hborder : Seam (front ++ n.digits) rest := .inr hrest
    obtain ⟨hweigh, hexpected⟩ := ih hborder
    rw [expectsBehind_append_digits] at hweigh hexpected
    rw [tokens_numeral_append n hrest, countFrom_append, countFrom_append, hbinary,
      countFrom_beginsRun_digits hfront, ← List.append_assoc, ← hexpected]
    refine ⟨?_, rfl⟩
    change 1 + weigh false (tokens rest) = _
    rw [hweigh]
    push_cast
    omega
  | other c rest hblank hdigit ih =>
    have hborder : Seam (front ++ [c]) rest := .inl (by simp [endsInDigit, hdigit])
    have hrun : (beginsRun front c).toNat = 0 := by simp [beginsRun, hdigit]
    obtain ⟨hweigh, hexpected⟩ := ih hborder
    rw [expectsBehind_append_ofChar front hblank] at hweigh hexpected
    rw [tokens_cons_of_other hblank hdigit, weigh, weight_ofChar, hweigh, countFrom, countFrom,
      hrun]
    refine ⟨by omega, ?_⟩
    rw [List.append_cons]
    exact hexpected

theorem ofChar_inj {c d : Char} : Token.ofChar c = Token.ofChar d ↔ c = d := by
  constructor
  · intro htoken
    have hchars := congrArg Token.chars htoken
    rw [Token.chars_ofChar, Token.chars_ofChar] at hchars
    exact (List.cons.inj hchars).1
  · rintro rfl
    rfl

theorem literal_ne_ofChar (n : Numeral) {c : Char} (hdigit : c.isDigit = false) :
    Token.literal n ≠ .ofChar c := by
  intro htoken
  have hchars := congrArg Token.chars htoken
  rw [Token.chars_ofChar] at hchars
  have hmem : c ∈ n.digits := by
    change c ∈ (Token.literal n).chars
    rw [hchars]
    exact List.mem_singleton_self c
  rw [n.isDigit_of_mem c hmem] at hdigit
  cases hdigit

theorem count_ofChar_tokens {c : Char} (hblank : isBlank c = false) (hdigit : c.isDigit = false)
    (text : List Char) : (tokens text).count (.ofChar c) = text.count c := by
  induction text using induction_on_pieces with
  | nil =>
    rw [tokens]
    rfl
  | blank d rest hd ih =>
    have hne : d ≠ c := by
      rintro rfl
      rw [hd] at hblank
      cases hblank
    rw [tokens_cons_of_isBlank hd, List.count_cons_of_ne hne, ih]
  | run n rest hrest ih =>
    have hnone : n.digits.count c = 0 := by
      rw [List.count_eq_zero]
      intro hmem
      rw [n.isDigit_of_mem c hmem] at hdigit
      cases hdigit
    rw [tokens_numeral_append n hrest, List.count_cons_of_ne (literal_ne_ofChar n hdigit), ih,
      List.count_append, hnone, Nat.zero_add]
  | other d rest hd hd' ih =>
    rw [tokens_cons_of_other hd hd']
    by_cases hsame : d = c
    · rw [hsame, List.count_cons_self, List.count_cons_self, ih]
    · rw [List.count_cons_of_ne hsame, List.count_cons_of_ne (mt ofChar_inj.1 hsame), ih]

namespace Reading

variable {r : Reading} {text : List Char}

theorem surplus_eq (hread : enterAll {} (tokens text) = .ok r) :
    r.surplus = digitRuns text - binaryOperators text := by
  have hzero : surplus {} = 0 := rfl
  rw [(weigh_of_enterAll hread).1, hzero, Int.zero_add]
  exact (@weigh_tokens [] text (.inl rfl)).1

theorem operandDue_eq (hread : enterAll {} (tokens text) = .ok r) :
    r.operandDue = expectsBehind text := by
  rw [(weigh_of_enterAll hread).2]
  exact (@weigh_tokens [] text (.inl rfl)).2

theorem depth_add_count (hread : enterAll {} (tokens text) = .ok r) :
    r.depth + text.count ')' = text.count '(' := by
  have hcount := add_count_of_depthAfter (depthAfter_of_enterAll hread)
  rw [← count_ofChar_tokens (c := '(') (by decide) (by decide) text,
    ← count_ofChar_tokens (c := ')') (by decide) (by decide) text]
  exact hcount.trans (Nat.zero_add _)

end Reading

theorem expectsBehind_eq_false_iff {text : List Char} (hvalid : ∀ c ∈ text, isForeign c = false) :
    expectsBehind text = false ↔
      ∃ d, lastSolid text = some d ∧ (d.isDigit = true ∨ d = ')') := by
  unfold expectsBehind
  cases hlast : lastSolid text with
  | none => simp
  | some d =>
    obtain ⟨hmem, hsolid⟩ := List.mem_filter.1 (List.mem_of_getLast? hlast)
    have hexists : (∃ e, some d = some e ∧ (e.isDigit = true ∨ e = ')')) ↔
        d.isDigit = true ∨ d = ')' := by simp
    rw [hexists]
    rcases Token.ofChar_cases d with rfl | rfl | ⟨op, rfl⟩ | ⟨hopen, hclose, hnone, hinvalid⟩
    · decide
    · decide
    · cases op <;> decide
    · have hdigit : d.isDigit = true := by
        by_contra hdigit
        have hforeign := (isForeign_iff d).2
          ⟨by simpa using hsolid, by simpa using hdigit, hinvalid⟩
        rw [hvalid d hmem] at hforeign
        cases hforeign
      simp [hopen, hnone, hdigit]

/-! ## Contexts -/

/-- The stacks of a context balance against the text that it has consumed. -/
structure Accounts (consumed : List Char) (c : Context) : Prop where
  surplus : (c.stack.operands.length : Int) - c.stack.operators.countP Pending.isInner =
    digitRuns consumed - binaryOperators consumed
  groups : (c.stack.operators.count .group : Int) = consumed.count '(' - consumed.count ')'
  expectsOperand : c.expectsOperand = false ↔
    ∃ d, lastSolid consumed = some d ∧ (d.isDigit = true ∨ d = ')')

theorem Mirrors.accounts {c : Context} {r : Reading} {consumed : List Char}
    (hmirrors : Mirrors c r) (hread : Reading.enterAll {} (tokens consumed) = .ok r) :
    Accounts consumed c where
  surplus := by
    have hinner : Pending.isInner ∘ pendingOf = Option.isSome := by
      funext entry
      cases entry <;> rfl
    rw [← Reading.surplus_eq hread, hmirrors.operands, hmirrors.operators, List.countP_map, hinner]
    rfl
  groups := by
    have hgroup : (fun pending => pending == Pending.group) ∘ pendingOf = Option.isNone := by
      funext entry
      cases entry <;> rfl
    have hdepth := Reading.depth_add_count hread
    rw [hmirrors.operators, List.count, List.countP_map, hgroup]
    rw [Reading.depth] at hdepth
    omega
  expectsOperand := by
    rw [hmirrors.operandDue, Reading.operandDue_eq hread]
    exact expectsBehind_eq_false_iff (Reading.isForeign_eq_false_of_enterAll hread)

/-- In every context that an evaluation reaches the stacks balance against the consumed text. A text
that has a value has one run of digits more than binary operators, as many opening parentheses as
closing ones, and no more closing ones in any of its beginnings. -/
theorem reaches_accounts (text : String) :
    (∀ c, Reaches text.toList c → Accounts (text.toList.take c.source.cursor) c) ∧
      ∀ v, evaluate text = .ok v →
        digitRuns text.toList = binaryOperators text.toList + 1 ∧
          text.toList.count '(' = text.toList.count ')' ∧
          ∀ front, front <+: text.toList → front.count ')' ≤ front.count '(' := by
  refine ⟨?_, ?_⟩
  · intro c hreaches
    obtain ⟨r, hr⟩ := exists_follows_of_reaches hreaches
    rw [← hr.text_eq]
    exact hr.mirrors.accounts hr.read
  · intro v hvalue
    rw [evaluate_eq_read] at hvalue
    obtain ⟨r, hread, hfinish⟩ := bind_eq_ok_iff.1 hvalue
    obtain ⟨hdepth, hsurplus⟩ := Reading.balance_of_finish hfinish
    have hruns := Reading.surplus_eq hread
    have hgroups := Reading.depth_add_count hread
    refine ⟨by omega, by omega, ?_⟩
    rintro front ⟨back, hsplit⟩
    rw [← hsplit] at hread
    obtain ⟨s, hs⟩ := Reading.exists_enterAll_of_append hread
    have hfront := Reading.depth_add_count hs
    omega

theorem reaches_accounts_sign :
    (∃ c, Reaches "4*(-3+1)".toList c ∧ c.stack.operands = [3, 0, 4] ∧
        Accounts ("4*(-3+1)".toList.take c.source.cursor) c) ∧
      evaluate "4*(-3+1)" = .ok (-8) ∧
      digitRuns "4*(-3+1)".toList = binaryOperators "4*(-3+1)".toList + 1 ∧
      "4*(".toList <+: "4*(-3+1)".toList ∧ "4*(".toList.count ')' ≤ "4*(".toList.count '(' := by
  obtain ⟨hcontexts, hvalues⟩ := reaches_accounts "4*(-3+1)"
  have hvalue : evaluate "4*(-3+1)" = .ok (-8) := by decide +kernel
  have hreaches : ∃ c, Reaches "4*(-3+1)".toList c ∧ c.stack.operands = [3, 0, 4] :=
    ⟨_, (((((reaches_ofText _).step rfl).step rfl).step rfl).step rfl).step rfl, rfl⟩
  obtain ⟨c, hc, hoperands⟩ := hreaches
  obtain ⟨hruns, -, hgroups⟩ := hvalues _ hvalue
  have hfront : "4*(".toList <+: "4*(-3+1)".toList := by decide
  exact ⟨⟨c, hc, hoperands, hcontexts c hc⟩, hvalue, hruns, hfront, hgroups _ hfront⟩

end InfixArithmetic.Evaluation
