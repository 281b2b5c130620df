import InfixArithmetic.Proofs.Reading
/-!
# Layout does not matter

Blanks leave no tokens behind, and zeros in front of a literal do not change its value. So wherever
blanks part no run of digits, and wherever zeros lengthen no run that has begun, they can be put in
and taken out without any effect on the outcome, in texts that fail as well: `evaluate_layout`.
-/

namespace InfixArithmetic.Evaluation

open Text (isBlank)

/-! ## Blanks -/

theorem startsWithDigit_of_isBlank {blanks : List Char}
    (hblanks : ∀ c ∈ blanks, isBlank c = true) : startsWithDigit blanks = false := by
  cases blanks with
  | nil => rfl
  | cons c blanks => exact isDigit_eq_false_of_isBlank (hblanks c (by simp))

theorem tokens_insert_blanks {front blanks back : List Char}
    (hblanks : ∀ c ∈ blanks, isBlank c = true) (hseam : Seam front back) :
    tokens (front ++ blanks ++ back) = tokens (front ++ back) := by
  by_cases hne : blanks = []
  · rw [hne, List.append_nil]
  · have hborder : Seam front (blanks ++ back) := by
      right
      rw [startsWithDigit_append hne, startsWithDigit_of_isBlank hblanks]
    calc tokens (front ++ blanks ++ back)
        = tokens front ++ tokens (blanks ++ back) := by
          rw [List.append_assoc, tokens_append hborder]
      _ = tokens front ++ tokens back := by rw [tokens_append_of_isBlank hblanks]
      _ = tokens (front ++ back) := (tokens_append hseam).symm

theorem tokens_append_blanks (front : List Char) {blanks : List Char}
    (hblanks : ∀ c ∈ blanks, isBlank c = true) :
    tokens (front ++ blanks) = tokens front := by
  have htokens : tokens (front ++ blanks ++ []) = tokens (front ++ []) :=
    tokens_insert_blanks hblanks (.inr rfl)
  rwa [List.append_nil, List.append_nil] at htokens

/-! ## Zeros in front of literals -/

theorem ofDigits_append_of_zero {zeros : List Char} (hzeros : ∀ c ∈ zeros, c = '0')
    (digits : List Char) :
    Text.Decimal.ofDigits (zeros ++ digits) = Text.Decimal.ofDigits digits := by
  induction zeros with
  | nil => rfl
  | cons c zeros ih =>
    have hzero : c = '0' := hzeros c (by simp)
    subst hzero
    exact ih fun d hd => hzeros d (by simp [hd])

def Numeral.padded (n : Numeral) (zeros : List Char) (hzeros : ∀ c ∈ zeros, c = '0') :
    Numeral where
  digits := zeros ++ n.digits
  ne_nil := by simp [n.ne_nil]
  isDigit_of_mem := by
    intro c hc
    rcases List.mem_append.1 hc with hzero | hdigit
    · rw [hzeros c hzero]
      rfl
    · exact n.isDigit_of_mem c hdigit

theorem Numeral.value_padded (n : Numeral) {zeros : List Char} (hzeros : ∀ c ∈ zeros, c = '0') :
    (n.padded zeros hzeros).value = n.value :=
  ofDigits_append_of_zero hzeros n.digits

theorem exists_numeral_of_startsWithDigit {text : List Char}
    (hhead : startsWithDigit text = true) :
    ∃ (n : Numeral) (rest : List Char), text = n.digits ++ rest ∧
      startsWithDigit rest = false := by
  cases text with
  | nil => cases hhead
  | cons c rest =>
    exact ⟨_, _, (digits_ofRun_append_dropWhile c rest hhead).symm,
      startsWithDigit_dropWhile rest⟩

theorem Reading.read_literal_congr {n m : Numeral} (hvalue : n.value = m.value)
    (front back : List Token) :
    read (front ++ .literal n :: back) = read (front ++ .literal m :: back) := by
  have henter : ∀ r : Reading, r.enter (.literal n) = r.enter (.literal m) := by
    intro r
    rw [enter_literal, enter_literal, hvalue]
  simp only [read, enterAll_append, enterAll_cons, henter]

/-- Blanks may stand wherever they part no run of digits, and zeros in front of a run. -/
theorem evaluate_layout (front back : String) :
    (∀ blanks : String, (∀ c ∈ blanks.toList, isBlank c = true) →
        ¬ (endsInDigit front.toList = true ∧ startsWithDigit back.toList = true) →
        evaluate (front ++ blanks ++ back) = evaluate (front ++ back)) ∧
      ∀ zeros : String, (∀ c ∈ zeros.toList, c = '0') →
        endsInDigit front.toList = false → startsWithDigit back.toList = true →
        evaluate (front ++ zeros ++ back) = evaluate (front ++ back) := by
  constructor
  · intro blanks hblanks hapart
    have hseam : Seam front.toList back.toList := by
      rw [not_and_or, Bool.not_eq_true, Bool.not_eq_true] at hapart
      exact hapart
    rw [evaluate_eq_read, evaluate_eq_read]
    simp only [String.toList_append]
    rw [tokens_insert_blanks hblanks hseam]
  · intro zeros hzeros hfront hback
    obtain ⟨n, rest, hsplit, hrest⟩ := exists_numeral_of_startsWithDigit hback
    have htokens : ∀ m : Numeral, tokens (front.toList ++ (m.digits ++ rest)) =
        tokens front.toList ++ .literal m :: tokens rest := by
      intro m
      rw [tokens_append (.inl hfront), tokens_numeral_append m hrest]
    have hpadded := htokens (n.padded zeros.toList hzeros)
    rw [evaluate_eq_read, evaluate_eq_read]
    simp only [String.toList_append, hsplit, htokens, List.append_assoc]
    simp only [Numeral.padded, List.append_assoc] at hpadded
    rw [hpadded]
    exact Reading.read_literal_congr (n.value_padded hzeros) _ _

theorem evaluate_layout_sign :
    ((∀ c ∈ "\t \u00A0".toList, isBlank c = true) ∧
        ¬ (endsInDigit "8/-".toList = true ∧ startsWithDigit "2)".toList = true) ∧
        evaluate ("8/-" ++ "\t \u00A0" ++ "2)") = evaluate ("8/-" ++ "2)")) ∧
      (∀ c ∈ "000".toList, c = '0') ∧ endsInDigit "-".toList = false ∧
        startsWithDigit "2147483648".toList = true ∧
        evaluate ("-" ++ "000" ++ "2147483648") = evaluate ("-" ++ "2147483648") := by
  have hblanks : ∀ c ∈ "\t \u00A0".toList, isBlank c = true :=
    List.all_eq_true.1 (by decide)
  have hapart : ¬ (endsInDigit "8/-".toList = true ∧ startsWithDigit "2)".toList = true) := by
    decide
  have hzeros : ∀ c ∈ "000".toList, c = '0' :=
    fun _ hc => List.eq_of_mem_replicate (show _ ∈ List.replicate 3 '0' from hc)
  have hfront : endsInDigit "-".toList = false := by decide
  have hback : startsWithDigit "2147483648".toList = true := by decide
  exact ⟨⟨hblanks, hapart, (evaluate_layout "8/-" "2)").1 _ hblanks hapart⟩, hzeros, hfront,
    hback, (evaluate_layout "-" "2147483648").2 _ hzeros hfront hback⟩

end InfixArithmetic.Evaluation
