import InfixArithmetic.Proofs.Layout
import InfixArithmetic.Proofs.FirstFailure
import InfixArithmetic.Proofs.Margins
import InfixArithmetic.Proofs.Workers
/-!
# Trimmed lines

A batch trims the lines of its file before it evaluates them, and trimming knows more white space
than an evaluation does. What it takes from a line is blank but for unit separators, and an
evaluation stops at a unit separator if it gets that far. So what is recorded for a line is what
comes of the line as it stands, unless such a separator is lost: `evaluate_trims`.
-/

namespace InfixArithmetic

open Evaluation Text

namespace Evaluation

/-- Whether trimming takes away a unit separator that the evaluation of a line stops at: one in
front, or one behind a text that can be read to its end. -/
def LosesSeparator (line : List Char) : Prop :=
  unitSeparator ∈ leftMargin isSpace line ∨
    unitSeparator ∈ rightMargin isSpace line ∧
      ∃ d, (Context.ofText (trimBy isSpace line)).readAll = .ok d

variable {line front : List Char}

theorem exists_readAll_congr {first second : List Char} (htokens : tokens first = tokens second) :
    (∃ d, (Context.ofText first).readAll = .ok d) ↔
      ∃ d, (Context.ofText second).readAll = .ok d := by
  rw [exists_readAll_iff, exists_readAll_iff, htokens]

theorem evaluate_stops_at_separator (hfront : ∃ d, (Context.ofText front).readAll = .ok d)
    (back : List Char) :
    evaluate (String.ofList (front ++ unitSeparator :: back)) =
      .error (.invalidCharacter unitSeparator) := by
  rw [evaluate_eq_invalidCharacter_iff]
  refine ⟨String.ofList front, String.ofList back, ?_, by decide, by rwa [String.toList_ofList]⟩
  rw [String.ext_iff]
  simp

theorem unbroken_margins (hline : Unbroken line) :
    Unbroken (leftMargin isSpace line) ∧ Unbroken (rightMargin isSpace line) := by
  rw [← margins_append isSpace line, unbroken_append, unbroken_append] at hline
  exact ⟨hline.1, hline.2.2⟩

theorem evaluate_of_losesSeparator (hline : Unbroken line) (hloses : LosesSeparator line) :
    evaluate (String.ofList line) = .error (.invalidCharacter unitSeparator) := by
  obtain ⟨hleft, hright⟩ := unbroken_margins hline
  rw [← margins_append isSpace line]
  by_cases hunit : unitSeparator ∈ leftMargin isSpace line
  · obtain ⟨blanks, rest, hsplit, hblanks⟩ :=
      exists_blanks_of_mem_margin (fun _ => of_mem_leftMargin) hleft hunit
    rw [hsplit, List.append_assoc, List.cons_append]
    apply evaluate_stops_at_separator
    have hempty : tokens blanks = tokens [] := tokens_append_blanks [] hblanks
    rw [exists_readAll_congr hempty]
    exact ⟨_, readAll_nil rfl⟩
  · obtain ⟨hunit', hread⟩ := hloses.resolve_left hunit
    have hfront := isBlank_of_mem_margin (fun _ => of_mem_leftMargin) hleft hunit
    obtain ⟨blanks, rest, hsplit, hblanks⟩ :=
      exists_blanks_of_mem_margin (fun _ => of_mem_rightMargin) hright hunit'
    rw [hsplit, ← List.append_assoc, ← List.append_assoc]
    apply evaluate_stops_at_separator
    rwa [exists_readAll_congr (tokens_append_blanks _ hblanks),
      exists_readAll_congr (tokens_append_of_isBlank hfront _)]

theorem evaluate_trimmed (hline : Unbroken line) (hkeeps : ¬ LosesSeparator line) :
    evaluate (String.ofList (trimBy isSpace line)) = evaluate (String.ofList line) := by
  obtain ⟨hleft, hright⟩ := unbroken_margins hline
  obtain ⟨hunit, hbehind⟩ := not_or.1 hkeeps
  have hfront := isBlank_of_mem_margin (fun _ => of_mem_leftMargin) hleft hunit
  have htokens := tokens_append_of_isBlank hfront
    (trimBy isSpace line ++ rightMargin isSpace line)
  rw [margins_append] at htokens
  rw [evaluate_eq_read, evaluate_eq_read, String.toList_ofList, String.toList_ofList, htokens]
  by_cases hunit' : unitSeparator ∈ rightMargin isSpace line
  · have hfails : ¬ ∃ r, Reading.enterAll {} (tokens (trimBy isSpace line)) = .ok r := by
      rw [← exists_readAll_iff]
      exact fun hread => hbehind ⟨hunit', hread⟩
    cases hread : Reading.enterAll {} (tokens (trimBy isSpace line)) with
    | ok r => exact absurd ⟨r, hread⟩ hfails
    | error e =>
      rw [Reading.read, Reading.read, hread,
        Reading.enterAll_append_error hread (rightMargin isSpace line)]
  · have hback := isBlank_of_mem_margin (fun _ => of_mem_rightMargin) hright hunit'
    rw [tokens_append_blanks _ hback]

end Evaluation

namespace Batch

/-- A batch records for a line what comes of the line as it stands, unless trimming takes away a
unit separator that the evaluation of the line stops at. Then the line as it stands fails at that
separator, and what is recorded differs unless the trimmed line fails at another one. -/
theorem evaluate_trims (runner : Runner) (bytes : List UInt8) :
    ∃ outcomes, runner.evaluate (expressions bytes) = .ok outcomes ∧
      (∀ input output,
        runner.run input output bytes = .ok (Report.ofOutcomes input output outcomes)) ∧
      List.Forall₂ (fun line o =>
        o.expression = String.ofList (trimBy isSpace line) ∧
          ∃ direct, calculate (String.ofList line) = .ok direct ∧
            (LosesSeparator line → direct.answer = .error "Invalid character: \x1F") ∧
            (o.answer = direct.answer ↔
              (LosesSeparator line → o.answer = .error "Invalid character: \x1F")))
        (filledLines (Utf8.decode bytes)) outcomes := by
  refine ⟨_, evaluate_eq_map runner _, fun input output => run_eq runner input output bytes, ?_⟩
  rw [expressions, expressionsOfText_eq_map, List.map_map, List.forall₂_map_right_iff,
    List.forall₂_same]
  intro line hmem
  have hline := unbroken_of_mem_filledLines hmem
  have hdirect : LosesSeparator line →
      (Outcome.ofExpression (String.ofList line)).answer = .error "Invalid character: \x1F" := by
    intro hloses
    rw [Outcome.ofExpression_of_error (evaluate_of_losesSeparator hline hloses)]
    rfl
  refine ⟨rfl, _, calculate_eq _, hdirect, ?_⟩
  by_cases hloses : LosesSeparator line
  · rw [hdirect hloses]
    exact ⟨fun hsame _ => hsame, fun hsame => hsame hloses⟩
  · refine iff_of_true ?_ (fun hlost => absurd hlost hloses)
    change (Outcome.ofExpression (String.ofList (trimBy isSpace line))).answer = _
    rw [Outcome.ofExpression, Outcome.ofExpression, evaluate_trimmed hline hloses]

theorem evaluate_trims_separators :
    let bytes : List UInt8 := [0x1F, 0x31, 0x0A, 0x32, 0x29, 0x1F]
    ∃ (runner : Runner) (first second : Outcome), runner.workers = some 2 ∧
      runner.evaluate (expressions bytes) = .ok [first, second] ∧
      (LosesSeparator "\x1F1".toList ∧ ∃ direct, calculate "\x1F1" = .ok direct ∧
        direct.answer = .error "Invalid character: \x1F") ∧
      ¬ LosesSeparator "2)\x1F".toList ∧ ∃ direct, calculate "2)\x1F" = .ok direct ∧
        second.answer = direct.answer := by
  intro bytes
  have hlines : filledLines (Utf8.decode bytes) = ["\x1F1".toList, "2)\x1F".toList] := by
    decide +kernel
  have hloses : LosesSeparator "\x1F1".toList := .inl (by decide)
  have hkeeps : ¬ LosesSeparator "2)\x1F".toList := by
    rintro (hleft | ⟨-, d, hread⟩)
    · exact absurd hleft (by decide)
    · have hfails : (Context.ofText (trimBy isSpace "2)\x1F".toList)).readAll.isOk = false := by
        decide +kernel
      rw [hread] at hfails
      cases hfails
  obtain ⟨outcomes, hevaluate, -, hall⟩ := evaluate_trims { workers := some 2 } bytes
  rw [hlines] at hall
  obtain _ | ⟨hfirst, _ | ⟨hsecond, ⟨⟩⟩⟩ := hall
  obtain ⟨-, direct, hdirect, hfails, -⟩ := hfirst
  obtain ⟨-, other, hother, -, hagrees⟩ := hsecond
  exact ⟨_, _, _, rfl, hevaluate, ⟨hloses, direct, hdirect, hfails hloses⟩, hkeeps, other, hother,
    hagrees.2 fun hlost => absurd hlost hkeeps⟩

/-- Trimming turns a line that is rejected as it stands into one that has a value. -/
theorem rejected_line_accepted :
    let bytes : List UInt8 := [0x1F, 0x32, 0x20, 0x2B, 0x20, 0x33]
    filledLines (Utf8.decode bytes) = ["\x1F2 + 3".toList] ∧
      (∀ runner : Runner, runner.evaluate (expressions bytes) = .ok [⟨"2 + 3", .ok 5⟩]) ∧
      calculate "\x1F2 + 3" = .ok ⟨"\x1F2 + 3", .error "Invalid character: \x1F"⟩ := by
  intro bytes
  have hexpressions : expressions bytes = ["2 + 3"] := by decide +kernel
  have hvalue : evaluate "2 + 3" = .ok 5 := by decide +kernel
  have herror : evaluate "\x1F2 + 3" = .error (.invalidCharacter unitSeparator) := by
    decide +kernel
  refine ⟨by decide +kernel, fun runner => ?_, calculate_of_error herror⟩
  rw [evaluate_eq_map, hexpressions, List.map_singleton, Outcome.ofExpression_of_ok hvalue]

end Batch

end InfixArithmetic
