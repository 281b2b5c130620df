import InfixArithmetic.Proofs.Reports
/-!
# Reports that stay on one line

Every line break is unprintable, so none is left in a quoted text: `unbroken_encode`. An entry of
the log about a failure puts a quoted expression behind a message that names at most one character
of a line, and stays on one line for that. The results file keeps to its lines as well, one for each
outcome: `run_keepsLines`.
-/

namespace InfixArithmetic

namespace Text

/-! ## Quoted texts -/

theorem isPrintable_eq_false_of_mem {c : Char} {range : Nat × Nat}
    (hrange : range ∈ unprintableRanges) (hlow : range.1 ≤ c.toNat) (hhigh : c.toNat ≤ range.2) :
    isPrintable c = false := by
  rw [isPrintable, Bool.not_eq_false', List.any_eq_true]
  refine ⟨range, hrange, ?_⟩
  rw [Bool.and_eq_true, decide_eq_true_eq, decide_eq_true_eq]
  exact ⟨hlow, hhigh⟩

theorem isPrintable_eq_false_of_isLineBreak {c : Char} (hbreak : isLineBreak c = true) :
    isPrintable c = false := by
  have hcontrol : (0x0, 0x1F) ∈ unprintableRanges := by decide +kernel
  have hupper : (0x7F, 0xA0) ∈ unprintableRanges := by decide +kernel
  have hseparator : (0x2028, 0x202F) ∈ unprintableRanges := by decide +kernel
  have hcases : c.toNat ≤ 0x1F ∨ c.toNat = 0x85 ∨ c.toNat = 0x2028 ∨ c.toNat = 0x2029 := by
    simp only [isLineBreak, Bool.or_eq_true, Bool.and_eq_true, decide_eq_true_eq,
      beq_iff_eq] at hbreak
    omega
  rcases hcases with hc | hc | hc | hc
  · exact isPrintable_eq_false_of_mem hcontrol (Nat.zero_le _) hc
  · exact isPrintable_eq_false_of_mem hupper (by simp [hc]) (by simp [hc])
  · exact isPrintable_eq_false_of_mem hseparator (by simp [hc]) (by simp [hc])
  · exact isPrintable_eq_false_of_mem hseparator (by simp [hc]) (by simp [hc])

namespace Quoted

theorem isLineBreak_hexDigit {n : Nat} (hn : n < 16) : isLineBreak (hexDigit n) = false := by
  revert n
  decide

theorem unbroken_hexDigits (n width : Nat) : Unbroken (hexDigits n width) := by
  induction width generalizing n with
  | zero => exact unbroken_nil
  | succ width ih =>
    rw [hexDigits, unbroken_append, unbroken_cons]
    exact ⟨ih (n / 16), isLineBreak_hexDigit (Nat.mod_lt n (by decide)), unbroken_nil⟩

theorem unbroken_numericEscape (c : Char) : Unbroken (numericEscape c) := by
  have hescape : ∀ (mark : Char) (width : Nat), isLineBreak mark = false →
      Unbroken ('\\' :: mark :: hexDigits c.toNat width) := by
    intro mark width hmark
    rw [unbroken_cons, unbroken_cons]
    exact ⟨by decide, hmark, unbroken_hexDigits _ _⟩
  unfold numericEscape
  dsimp only
  split
  · exact hescape 'x' 2 (by decide)
  split
  · exact hescape 'u' 4 (by decide)
  · exact hescape 'U' 8 (by decide)

theorem unbroken_escape {quote : Char} (hquote : isLineBreak quote = false) (c : Char) :
    Unbroken (escape quote c) := by
  unfold escape
  split
  · rename_i hmark
    rw [Bool.or_eq_true, decide_eq_true_eq, decide_eq_true_eq] at hmark
    have hc : isLineBreak c = false := by
      rcases hmark with rfl | rfl
      · exact hquote
      · decide
    rw [unbroken_cons, unbroken_cons]
    exact ⟨by decide, hc, unbroken_nil⟩
  split
  · decide
  split
  · decide
  split
  · decide
  split
  · rename_i hprintable
    have hc : isLineBreak c = false := by
      rw [← Bool.not_eq_true]
      intro hbreak
      rw [isPrintable_eq_false_of_isLineBreak hbreak] at hprintable
      cases hprintable
    exact unbroken_cons.2 ⟨hc, unbroken_nil⟩
  · exact unbroken_numericEscape c

theorem isLineBreak_quoteFor (text : List Char) : isLineBreak (quoteFor text) = false := by
  unfold quoteFor
  split
  · decide
  · decide

theorem unbroken_encode (text : List Char) : Unbroken (encode text) := by
  have hquote := isLineBreak_quoteFor text
  have hescaped : Unbroken (text.flatMap (escape (quoteFor text))) := by
    intro c hc
    obtain ⟨d, -, hd⟩ := List.mem_flatMap.1 hc
    exact unbroken_escape hquote d c hd
  have hclosing : Unbroken [quoteFor text] := unbroken_cons.2 ⟨hquote, unbroken_nil⟩
  exact unbroken_cons.2 ⟨hquote, unbroken_append.2 ⟨hescaped, hclosing⟩⟩

end Quoted

theorem unbroken_digits (n : Nat) : Unbroken (Decimal.digits n) :=
  fun c hc => isLineBreak_eq_false_of_isDigit (Decimal.isDigit_of_mem_digits n c hc)

end Text

/-! ## The log -/

namespace Batch

open Evaluation Text

theorem unbroken_failureEntry? {expression : String} (hexpression : Unbroken expression.toList)
    {line : Nat} {entry : Log.Entry}
    (hentry : failureEntry? line (Outcome.ofExpression expression) = some entry) :
    Unbroken entry.message.toList := by
  cases hresult : evaluate expression with
  | ok v =>
    rw [Outcome.ofExpression_of_ok hresult] at hentry
    cases hentry
  | error e =>
    rw [Outcome.ofExpression_of_error hresult] at hentry
    cases hentry
    simp only [String.toList_append, String.toList_ofList, unbroken_append]
    exact ⟨⟨⟨⟨⟨⟨by decide, unbroken_digits line⟩, by decide⟩,
      unbroken_message hresult hexpression⟩, by decide⟩, Quoted.unbroken_encode _⟩, by decide⟩

theorem exists_failureEntry?_of_not_ok {o : Outcome} (hfailed : o.ok = false) (line : Nat) :
    ∃ entry, failureEntry? line o = some entry := by
  obtain ⟨expression, answer⟩ := o
  cases answer with
  | ok v => cases hfailed
  | error message => exact ⟨_, rfl⟩

theorem unbroken_errors_reportOf {input output : String} {bytes : List UInt8} {entry : Log.Entry}
    (hentry : entry ∈ (reportOf input output bytes).errors) : Unbroken entry.message.toList := by
  rw [errors_reportOf] at hentry
  obtain ⟨⟨o, line⟩, hmem, hentry⟩ := List.mem_filterMap.1 hentry
  obtain ⟨expression, hexpression, rfl⟩ :=
    List.mem_map.1 (List.fst_mem_of_mem_zipIdx hmem)
  exact unbroken_failureEntry? (unbroken_of_mem_expressions hexpression) hentry

/-- The results file and the log of a batch keep to their lines. Cut into lines, the results file
gives back the outcomes as they are described, one for each expression and in order, and every
outcome that has failed is told of in the log by an entry on one line. -/
theorem run_keepsLines (runner : Runner) (input output : String) (bytes : List UInt8) :
    ∃ outcomes report, runner.evaluate (expressions bytes) = .ok outcomes ∧
      runner.run input output bytes = .ok report ∧
      outcomes.map Outcome.expression = expressions bytes ∧
      lines report.results.toList = outcomes.map (·.describe.toList) ∧
      (∀ o line, (o, line) ∈ outcomes.zipIdx 1 → o.ok = false →
        ∃ entry ∈ report.errors, failureEntry? line o = some entry) ∧
      ∀ entry ∈ report.errors, Unbroken entry.message.toList := by
  refine ⟨_, _, evaluate_eq_map runner _, run_eq runner input output bytes, ?_, ?_, ?_,
    fun entry => unbroken_errors_reportOf⟩
  · rw [List.map_map]
    exact List.map_id _
  · rw [lines_results, List.map_map]
    rfl
  · intro o line hmem hfailed
    obtain ⟨entry, hentry⟩ := exists_failureEntry?_of_not_ok hfailed line
    rw [errors_reportOf]
    exact ⟨entry, List.mem_filterMap.2 ⟨(o, line), hmem, hentry⟩, hentry⟩

theorem run_keepsLines_controls :
    let bytes : List UInt8 :=
      [0x31, 0x2B, 0x31, 0x0B, 0x32, 0x2F, 0x30, 0xC2, 0x85, 0x20, 0x27, 0x20, 0x07, 0xE2, 0x80,
        0xA9]
    ∃ (runner : Runner) (report : Report), runner.workers = some 2 ∧
      runner.run "ops.txt" "out.txt" bytes = .ok report ∧
      lines report.results.toList =
        ["1+1 = 2".toList, "2/0 -> ERROR: Division by zero".toList,
          "' \x07 -> ERROR: Invalid character: '".toList] ∧
      (Outcome.ofExpression "' \x07").ok = false ∧
      ∃ entry ∈ report.errors,
        entry.message = "❌ Line 3: Invalid character: ' (\"' \\x07\")" ∧
          Unbroken entry.message.toList := by
  intro bytes
  have hexpressions : expressions bytes = ["1+1", "2/0", "' \x07"] := by decide +kernel
  have hfailed : (Outcome.ofExpression "' \x07").ok = false := by decide +kernel
  obtain ⟨outcomes, report, hevaluate, hrun, -, hlines, hentries, hunbroken⟩ :=
    run_keepsLines { workers := some 2 } "ops.txt" "out.txt" bytes
  rw [evaluate_eq_map, hexpressions] at hevaluate
  cases hevaluate
  have hrows : ["1+1", "2/0", "' \x07"].map (fun e => (Outcome.ofExpression e).describe.toList) =
      ["1+1 = 2".toList, "2/0 -> ERROR: Division by zero".toList,
        "' \x07 -> ERROR: Invalid character: '".toList] := by decide +kernel
  obtain ⟨entry, hmem, hentry⟩ :=
    hentries (Outcome.ofExpression "' \x07") 3 (by simp) hfailed
  have hmessage : (·.message) <$> failureEntry? 3 (Outcome.ofExpression "' \x07") =
      some "❌ Line 3: Invalid character: ' (\"' \\x07\")" := by decide +kernel
  rw [hentry] at hmessage
  exact ⟨_, report, rfl, hrun, hlines.trans hrows, hfailed, entry, hmem,
    Option.some.inj hmessage, hunbroken entry hmem⟩

end Batch

end InfixArithmetic
