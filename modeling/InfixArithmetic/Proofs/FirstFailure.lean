import InfixArithmetic.Proofs.Reading
/-!
# The first failure

A token that cannot be taken ends an evaluation, and no text behind it is looked at. A literal at
the end of a text may go on behind it, but only to grow, so one that is too large stays too large:
`enterAll_append_error`. A character that belongs to no token is such an end, whatever is pending
in front of it, and nothing else is ever reported as one: `firstFailure_decides`.
-/

namespace InfixArithmetic.Evaluation

open Text (isBlank)

/-- The failures that are told in the same words wherever they happen. -/
def plainFailures : List EvalError :=
  [.mismatchedParentheses, .divisionByZero, .integerOverflow, .stackUnderflow, .invalidExpression]

/-- Whether a character is neither a blank nor part of any token. -/
def isForeign (c : Char) : Bool :=
  !(isBlank c || c.isDigit || c == '(' || c == ')' || (Operator.ofChar? c).isSome)

theorem isForeign_iff (c : Char) :
    isForeign c = true ↔
      isBlank c = false ∧ c.isDigit = false ∧ Token.ofChar c = .invalid c := by
  unfold isForeign
  rcases Token.ofChar_cases c with rfl | rfl | ⟨op, rfl⟩ | ⟨hopen, hclose, hnone, hinvalid⟩
  · decide
  · decide
  · cases op <;> decide
  · simp [hopen, hclose, hnone, hinvalid]

/-! ## Where failures come from -/

theorem mem_plainFailures_of_checked {n : Int} {e : EvalError} (herror : checked n = .error e) :
    e ∈ plainFailures := by
  rw [(checked_eq_error_iff.1 herror).2]
  decide

theorem mem_plainFailures_of_apply {op : Operator} {a b : Int} {e : EvalError}
    (herror : op.apply a b = .error e) : e ∈ plainFailures := by
  rcases bind_eq_error_iff.1 herror with hexact | ⟨n, -, hchecked⟩
  · cases op with
    | add | sub | mul => cases hexact
    | div =>
      obtain ⟨-, rfl⟩ := truncatedQuotient_eq_error_iff.1 hexact
      decide
  · exact mem_plainFailures_of_checked hchecked

theorem mem_plainFailures_of_applyAll {ops : List Operator} {operands : List Int} {e : EvalError}
    (herror : applyAll ops operands = .error e) : e ∈ plainFailures := by
  induction ops generalizing operands with
  | nil => cases herror
  | cons op ops ih =>
    match operands with
    | [] =>
      cases herror
      decide
    | [_] =>
      cases herror
      decide
    | b :: a :: operands =>
      rcases bind_eq_error_iff.1 herror with happly | ⟨v, -, hrest⟩
      · exact mem_plainFailures_of_apply happly
      · exact ih hrest

namespace Reading

theorem mem_plainFailures_of_reduce {r : Reading} {p : Operator → Bool} {e : EvalError}
    (herror : r.reduce p = .error e) : e ∈ plainFailures := by
  rcases bind_eq_error_iff.1 herror with happly | ⟨_, -, hreturn⟩
  · exact mem_plainFailures_of_applyAll happly
  · cases hreturn

theorem cause_of_enter {r : Reading} {token : Token} {e : EvalError}
    (herror : r.enter token = .error e) :
    e ∈ plainFailures ∨ ∃ c, token = .invalid c ∧ e = .invalidCharacter c := by
  cases token with
  | literal n =>
    rw [enter_literal] at herror
    rcases bind_eq_error_iff.1 herror with hchecked | ⟨_, -, hreturn⟩
    · exact .inl (mem_plainFailures_of_checked hchecked)
    · cases hreturn
  | opening => cases herror
  | closing =>
    rw [enter_closing] at herror
    rcases bind_eq_error_iff.1 herror with hreduce | ⟨s, -, hclose⟩
    · exact .inl (mem_plainFailures_of_reduce hreduce)
    · unfold close at hclose
      split at hclose
      · cases hclose
        exact .inl (by decide)
      · cases hclose
  | operator op =>
    by_cases hsign : op = .sub ∧ r.operandDue = true
    · rw [hsign.1, enter_sign hsign.2] at herror
      cases herror
    · rw [enter_binary hsign] at herror
      rcases bind_eq_error_iff.1 herror with hreduce | ⟨_, -, hhold⟩
      · exact .inl (mem_plainFailures_of_reduce hreduce)
      · cases hhold
  | invalid c =>
    cases herror
    exact .inr ⟨c, rfl, rfl⟩

theorem cause_of_enterAll {r : Reading} {rest : List Token} {e : EvalError}
    (herror : r.enterAll rest = .error e) :
    e ∈ plainFailures ∨ ∃ c, e = .invalidCharacter c := by
  induction rest generalizing r with
  | nil => cases herror
  | cons token rest ih =>
    rw [enterAll_cons] at herror
    rcases bind_eq_error_iff.1 herror with henter | ⟨_, -, hrest⟩
    · rcases cause_of_enter henter with hplain | ⟨c, -, hcause⟩
      · exact .inl hplain
      · exact .inr ⟨c, hcause⟩
    · exact ih hrest

theorem cause_of_finish {r : Reading} {e : EvalError} (herror : r.finish = .error e) :
    e ∈ plainFailures := by
  rcases bind_eq_error_iff.1 herror with hreduce | ⟨s, -, hlast⟩
  · exact mem_plainFailures_of_reduce hreduce
  · split at hlast
    · cases hlast
    · cases hlast
      decide
    · cases hlast
      decide

end Reading

/-! ## Failures stay when text is added -/

/-- The run of digits that a run becomes in front of more text. -/
def Numeral.extend (n : Numeral) (more : List Char) : Numeral where
  digits := n.digits ++ more.takeWhile Char.isDigit
  ne_nil := by simp [n.ne_nil]
  isDigit_of_mem := by
    intro c hc
    rcases List.mem_append.1 hc with hc | hc
    · exact n.isDigit_of_mem c hc
    · exact List.mem_takeWhile_imp hc

theorem Numeral.value_le_extend (n : Numeral) (more : List Char) :
    n.value ≤ (n.extend more).value :=
  Literal.ofDigits_le_of_prefix (List.prefix_append _ _)

theorem tokens_extend_append (n : Numeral) (more : List Char) :
    tokens (n.digits ++ more) =
      .literal (n.extend more) :: tokens (more.dropWhile Char.isDigit) := by
  have hsplit : n.digits ++ more = (n.extend more).digits ++ more.dropWhile Char.isDigit := by
    rw [Numeral.extend, List.append_assoc, List.takeWhile_append_dropWhile]
  rw [hsplit, tokens_numeral_append _ (startsWithDigit_dropWhile more)]

namespace Reading

theorem enter_extend_error {r : Reading} {n : Numeral} {e : EvalError}
    (herror : r.enter (.literal n) = .error e) (more : List Char) :
    r.enter (.literal (n.extend more)) = .error e := by
  have hle := n.value_le_extend more
  rw [enter_literal, checked_natCast] at herror ⊢
  split at herror
  · cases herror
  · rename_i hlarge
    rw [if_neg (by omega)]
    exact herror

theorem enterAll_append_error {r : Reading} {text : List Char} {e : EvalError}
    (herror : r.enterAll (tokens text) = .error e) (more : List Char) :
    r.enterAll (tokens (text ++ more)) = .error e := by
  induction text using induction_on_pieces generalizing r with
  | nil =>
    rw [tokens] at herror
    cases herror
  | blank c rest hblank ih =>
    rw [tokens_cons_of_isBlank hblank] at herror
    rw [List.cons_append, tokens_cons_of_isBlank hblank]
    exact ih herror
  | run n rest hrest ih =>
    rw [tokens_numeral_append n hrest, enterAll_cons] at herror
    by_cases hend : rest = []
    · -- the literal is the last token and may go on
      subst hend
      rw [tokens] at herror
      rw [List.append_nil, tokens_extend_append, enterAll_cons, bind_eq_error_iff]
      rcases bind_eq_error_iff.1 herror with henter | ⟨_, -, hreturn⟩
      · exact .inl (enter_extend_error henter more)
      · cases hreturn
    · have hhead : startsWithDigit (rest ++ more) = false := by rwa [startsWithDigit_append hend]
      rw [List.append_assoc, tokens_numeral_append n hhead, enterAll_cons, bind_eq_error_iff]
      rcases bind_eq_error_iff.1 herror with henter | ⟨s, henter, hrest⟩
      · exact .inl henter
      · exact .inr ⟨s, henter, ih hrest⟩
  | other c rest hblank hdigit ih =>
    rw [tokens_cons_of_other hblank hdigit, enterAll_cons] at herror
    rw [List.cons_append, tokens_cons_of_other hblank hdigit, enterAll_cons, bind_eq_error_iff]
    rcases bind_eq_error_iff.1 herror with henter | ⟨s, henter, hrest⟩
    · exact .inl henter
    · exact .inr ⟨s, henter, ih hrest⟩

theorem exists_enterAll_of_append {r t : Reading} {text more : List Char}
    (hread : r.enterAll (tokens (text ++ more)) = .ok t) :
    ∃ s, r.enterAll (tokens text) = .ok s := by
  cases hfront : r.enterAll (tokens text) with
  | ok s => exact ⟨s, rfl⟩
  | error e => cases (enterAll_append_error hfront more).symm.trans hread

/-! ## Characters that belong to no token -/

theorem enterAll_foreign {r s : Reading} {front : List Char} {c : Char}
    (hforeign : isForeign c = true) (hfront : r.enterAll (tokens front) = .ok s)
    (back : List Char) :
    r.enterAll (tokens (front ++ c :: back)) = .error (.invalidCharacter c) := by
  obtain ⟨hblank, hdigit, htoken⟩ := (isForeign_iff c).1 hforeign
  rw [tokens_append_cons front back hblank hdigit, htoken, enterAll_append, hfront]
  rfl

theorem isForeign_eq_false_of_enterAll {r s : Reading} {text : List Char}
    (hread : r.enterAll (tokens text) = .ok s) : ∀ c ∈ text, isForeign c = false := by
  intro c hc
  obtain ⟨front, back, rfl⟩ := List.append_of_mem hc
  obtain ⟨t, hfront⟩ := exists_enterAll_of_append hread
  by_contra hforeign
  have herror := enterAll_foreign (by simpa using hforeign) hfront back
  cases herror.symm.trans hread

theorem exists_foreign_of_enterAll {r : Reading} {text : List Char} {c : Char}
    (herror : r.enterAll (tokens text) = .error (.invalidCharacter c)) :
    ∃ front back s, text = front ++ c :: back ∧ isForeign c = true ∧
      r.enterAll (tokens front) = .ok s := by
  induction text using induction_on_pieces generalizing r with
  | nil =>
    rw [tokens] at herror
    cases herror
  | blank d rest hblank ih =>
    rw [tokens_cons_of_isBlank hblank] at herror
    obtain ⟨front, back, s, rfl, hforeign, hfront⟩ := ih herror
    refine ⟨d :: front, back, s, rfl, hforeign, ?_⟩
    rwa [tokens_cons_of_isBlank hblank]
  | run n rest hrest ih =>
    rw [tokens_numeral_append n hrest, enterAll_cons] at herror
    rcases bind_eq_error_iff.1 herror with henter | ⟨t, henter, hread⟩
    · rcases cause_of_enter henter with hplain | ⟨_, htoken, -⟩
      · simp [plainFailures] at hplain
      · cases htoken
    · obtain ⟨front, back, s, rfl, hforeign, hfront⟩ := ih hread
      refine ⟨n.digits ++ front, back, s, (List.append_assoc _ _ _).symm, hforeign, ?_⟩
      rw [tokens_numeral_append n (startsWithDigit_of_append hrest), enterAll_cons, henter]
      exact hfront
  | other d rest hblank hdigit ih =>
    rw [tokens_cons_of_other hblank hdigit, enterAll_cons] at herror
    rcases bind_eq_error_iff.1 herror with henter | ⟨t, henter, hread⟩
    · rcases cause_of_enter henter with hplain | ⟨other, htoken, hcause⟩
      · simp [plainFailures] at hplain
      · cases hcause
        have hsame : d = c := by
          have hchars := Token.chars_ofChar d
          rw [htoken] at hchars
          exact (List.cons.inj hchars).1.symm
        subst hsame
        refine ⟨[], rest, r, rfl, (isForeign_iff d).2 ⟨hblank, hdigit, htoken⟩, ?_⟩
        rw [tokens]
        rfl
    · obtain ⟨front, back, s, rfl, hforeign, hfront⟩ := ih hread
      refine ⟨d :: front, back, s, rfl, hforeign, ?_⟩
      rw [tokens_cons_of_other hblank hdigit, enterAll_cons, henter]
      exact hfront

theorem cause_of_read {text : List Char} {e : EvalError} (herror : read (tokens text) = .error e) :
    e ∈ plainFailures ∨ ∃ c, e = .invalidCharacter c ∧ enterAll {} (tokens text) = .error e := by
  rcases bind_eq_error_iff.1 herror with hread | ⟨_, -, hfinish⟩
  · rcases cause_of_enterAll hread with hplain | ⟨c, hcause⟩
    · exact .inl hplain
    · exact .inr ⟨c, hcause, hread⟩
  · exact .inl (cause_of_finish hfinish)

end Reading

/-! ## The machine -/

theorem exists_readAll_iff (text : List Char) :
    (∃ d, (Context.ofText text).readAll = .ok d) ↔
      ∃ r, Reading.enterAll {} (tokens text) = .ok r := by
  have hagrees := readAll_agrees (mirrors_ofText text)
  constructor
  · rintro ⟨d, hd⟩
    obtain ⟨r, hr, -⟩ := hagrees.exists_right hd
    exact ⟨r, hr⟩
  · rintro ⟨r, hr⟩
    obtain ⟨d, hd, -⟩ := hagrees.exists_left hr
    exact ⟨d, hd⟩

theorem evaluate_eq_invalidCharacter_iff (text : String) (c : Char) :
    evaluate text = .error (.invalidCharacter c) ↔
      ∃ front back, text = front ++ String.singleton c ++ back ∧ isForeign c = true ∧
        ∃ d, (Context.ofText front.toList).readAll = .ok d := by
  simp only [exists_readAll_iff]
  rw [evaluate_eq_read]
  constructor
  · intro herror
    rcases Reading.cause_of_read herror with hplain | ⟨_, hcause, hread⟩
    · simp [plainFailures] at hplain
    · obtain ⟨front, back, s, hsplit, hforeign, hfront⟩ := Reading.exists_foreign_of_enterAll hread
      refine ⟨String.ofList front, String.ofList back, ?_, hforeign, s, ?_⟩
      · rw [String.ext_iff]
        simpa using hsplit
      · rwa [String.toList_ofList]
  · rintro ⟨front, back, rfl, hforeign, s, hfront⟩
    have hread := Reading.enterAll_foreign hforeign hfront back.toList
    rw [String.toList_append, String.toList_append, String.toList_singleton, List.append_assoc,
      List.singleton_append, Reading.read, hread]
    rfl

theorem cause_of_evaluate {text : String} {e : EvalError} (herror : evaluate text = .error e) :
    e ∈ plainFailures ∨ ∃ c ∈ text.toList, e = .invalidCharacter c := by
  rw [evaluate_eq_read] at herror
  rcases Reading.cause_of_read herror with hplain | ⟨c, rfl, hread⟩
  · exact .inl hplain
  · obtain ⟨front, back, _, hsplit, -, -⟩ := Reading.exists_foreign_of_enterAll hread
    exact .inr ⟨c, by simp [hsplit], rfl⟩

theorem isForeign_eq_false_of_evaluate {text : String} {v : Int} (hvalue : evaluate text = .ok v) :
    ∀ c ∈ text.toList, isForeign c = false := by
  rw [evaluate_eq_read] at hvalue
  obtain ⟨r, hread, -⟩ := bind_eq_ok_iff.1 hvalue
  exact Reading.isForeign_eq_false_of_enterAll hread

/-- The first failure while a text is read is that of every text that begins with it. Invalid
characters are reported exactly where the text before them can be read, so the one that is
reported is the first of its kind, and no text with such a character has a value. -/
theorem firstFailure_decides (text : String) :
    (∀ failure, (Context.ofText text.toList).readAll = .error failure →
        ∀ more, evaluate (text ++ more) = .error failure.error) ∧
      (∀ c, evaluate text = .error (.invalidCharacter c) ↔
        ∃ front back, text = front ++ String.singleton c ++ back ∧ isForeign c = true ∧
          ∃ d, (Context.ofText front.toList).readAll = .ok d) ∧
      (∀ c, evaluate text = .error (.invalidCharacter c) →
        text.toList.find? isForeign = some c) ∧
      ((∃ c ∈ text.toList, isForeign c = true) → ∀ v, evaluate text ≠ .ok v) := by
  refine ⟨?_, evaluate_eq_invalidCharacter_iff text, ?_, ?_⟩
  · intro failure hfailure more
    have hread := (readAll_agrees (mirrors_ofText text.toList)).error_right hfailure
    rw [evaluate_eq_read, String.toList_append, Reading.read]
    change Reading.enterAll {} (tokens text.toList) = _ at hread
    rw [Reading.enterAll_append_error hread more.toList]
    rfl
  · intro c herror
    obtain ⟨front, back, rfl, hforeign, hfront⟩ :=
      (evaluate_eq_invalidCharacter_iff text c).1 herror
    obtain ⟨s, hs⟩ := (exists_readAll_iff _).1 hfront
    have hnone : front.toList.find? isForeign = none := by
      rw [List.find?_eq_none]
      intro d hd
      simp [Reading.isForeign_eq_false_of_enterAll hs d hd]
    simp [List.find?_append, hnone, hforeign]
  · rintro ⟨c, hc, hforeign⟩ v hvalue
    rw [isForeign_eq_false_of_evaluate hvalue c hc] at hforeign
    cases hforeign

theorem firstFailure_decides_closing :
    (∃ failure, (Context.ofText "2*3)".toList).readAll = .error failure ∧
        evaluate ("2*3)" ++ "+4/0$") = .error failure.error) ∧
      evaluate "8/($)/0" = .error (.invalidCharacter '$') ∧
      "8/($)/0".toList.find? isForeign = some '$' ∧
      ('$' ∈ "8/($)/0".toList ∧ isForeign '$' = true) ∧ evaluate "8/($)/0" ≠ .ok 4 := by
  obtain ⟨-, hinvalid, hfirst, hnone⟩ := firstFailure_decides "8/($)/0"
  have hread : ∃ d, (Context.ofText "8/(".toList).readAll = .ok d := by
    have hok : (Context.ofText "8/(".toList).readAll.isOk = true := by decide +kernel
    cases hresult : (Context.ofText "8/(".toList).readAll with
    | ok d => exact ⟨d, rfl⟩
    | error failure =>
      rw [hresult] at hok
      cases hok
  have hcause := (hinvalid '$').2 ⟨"8/(", ")/0", by decide, by decide, hread⟩
  refine ⟨?_, hcause, hfirst '$' hcause, ⟨by decide, by decide⟩,
    hnone ⟨'$', by decide, by decide⟩ 4⟩
  have herror : (Context.ofText "2*3)".toList).readAll.isOk = false := by decide +kernel
  cases hresult : (Context.ofText "2*3)".toList).readAll with
  | ok d =>
    rw [hresult] at herror
    cases herror
  | error failure =>
    exact ⟨failure, rfl, (firstFailure_decides "2*3)").1 failure hresult "+4/0$"⟩

end InfixArithmetic.Evaluation
