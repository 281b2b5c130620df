import InfixArithmetic.Proofs.Decoding
import InfixArithmetic.Proofs.LineBreaks
import InfixArithmetic.Proofs.Margins
import InfixArithmetic.Proofs.Workers
/-!
# Lines of a file stand alone

A line feed in the bytes of a file parts its expressions, whatever stands on its two sides: broken
sequences and carriage returns do not reach across it. So a batch is the batches of the parts of its
file put together, and bytes that are no UTF-8 cost the part that they stand in a failure and no
other part anything: `evaluate_parts`.
-/

namespace InfixArithmetic

namespace Batch

open Text

theorem expressionsOfText_append_newline (front back : List Char) :
    expressionsOfText (front ++ '\n' :: back) =
      expressionsOfText front ++ expressionsOfText back := by
  rw [expressionsOfText_eq_map, filledLines_append_newline, List.map_append,
    ← expressionsOfText_eq_map, ← expressionsOfText_eq_map]

theorem expressions_append_newline (front back : List UInt8) :
    expressions (front ++ 0x0A :: back) = expressions front ++ expressions back := by
  rw [expressions, Utf8.decode_append_ascii (by decide)]
  exact expressionsOfText_append_newline _ _

theorem exists_mem_expressionsOfText {text : List Char} {c : Char} (hmem : c ∈ text)
    (hbreak : isLineBreak c = false) (hspace : isSpace c = false) :
    ∃ expression ∈ expressionsOfText text, c ∈ expression.toList := by
  obtain ⟨line, hline, hc⟩ := exists_mem_lines_iff.2 ⟨hmem, hbreak⟩
  have htrimmed := mem_trimBy_of_not hc hspace
  have hfilled : line ∈ filledLines text :=
    mem_filledLines_iff.2 ⟨hline, List.ne_nil_of_mem htrimmed⟩
  exact ⟨_, mem_expressionsOfText_iff.2 ⟨line, hfilled, rfl⟩, by rwa [String.toList_ofList]⟩

theorem ok_eq_false_of_replacement {expression : String}
    (hmem : Utf8.replacement ∈ expression.toList) :
    (Outcome.ofExpression expression).ok = false := by
  rw [← Bool.not_eq_true, Outcome.ok_ofExpression_iff]
  rintro ⟨v, hvalue⟩
  have hknown := Evaluation.isForeign_eq_false_of_evaluate hvalue _ hmem
  have hforeign : Evaluation.isForeign Utf8.replacement = true := by decide
  rw [hforeign] at hknown
  cases hknown

theorem exists_failure_of_not_isValidUTF8 {bytes : List UInt8}
    (hbytes : ¬ bytes.toByteArray.IsValidUTF8) :
    ∃ expression ∈ expressions bytes, (Outcome.ofExpression expression).ok = false := by
  have hmem : Utf8.replacement ∈ Utf8.decode bytes := by
    by_contra hclean
    exact hbytes (Utf8.isValidUTF8_of_decode hclean)
  obtain ⟨expression, hexpression, hc⟩ :=
    exists_mem_expressionsOfText hmem (by decide) (by decide)
  exact ⟨expression, hexpression, ok_eq_false_of_replacement hc⟩

/-- A line feed in a file parts its expressions, and so the outcomes of a batch and its counts.
Bytes that are no UTF-8 make an expression fail in the part where they stand. -/
theorem evaluate_parts (runner : Runner) (front back : List UInt8) :
    expressions (front ++ 0x0A :: back) = expressions front ++ expressions back ∧
      (∃ first second, runner.evaluate (expressions front) = .ok first ∧
        runner.evaluate (expressions back) = .ok second ∧
        runner.evaluate (expressions (front ++ 0x0A :: back)) = .ok (first ++ second) ∧
        (¬ front.toByteArray.IsValidUTF8 → ∃ o ∈ first, o.ok = false) ∧
        (¬ back.toByteArray.IsValidUTF8 → ∃ o ∈ second, o.ok = false)) ∧
      ∀ input output, ∃ first second whole, runner.run input output front = .ok first ∧
        runner.run input output back = .ok second ∧
        runner.run input output (front ++ 0x0A :: back) = .ok whole ∧
        whole.summary.evaluated = first.summary.evaluated + second.summary.evaluated ∧
        whole.summary.failed = first.summary.failed + second.summary.failed := by
  have hparts := expressions_append_newline front back
  have hfailure : ∀ bytes : List UInt8, ¬ bytes.toByteArray.IsValidUTF8 →
      ∃ o ∈ (expressions bytes).map Outcome.ofExpression, o.ok = false := by
    intro bytes hbytes
    obtain ⟨expression, hexpression, hfailed⟩ := exists_failure_of_not_isValidUTF8 hbytes
    exact ⟨_, List.mem_map_of_mem hexpression, hfailed⟩
  refine ⟨hparts, ⟨_, _, evaluate_eq_map _ _, evaluate_eq_map _ _, ?_, hfailure front,
    hfailure back⟩, fun input output => ⟨_, _, _, run_eq _ _ _ _, run_eq _ _ _ _,
    run_eq _ _ _ _, ?_, ?_⟩⟩
  · rw [evaluate_eq_map, hparts, List.map_append]
  · simp only [reportOf, Report.ofOutcomes, hparts, List.map_append, List.length_append]
  · simp only [reportOf, Report.ofOutcomes, hparts, List.map_append, List.countP_append]

theorem evaluate_parts_truncated :
    ¬ [0x31, 0xE2, 0x82, 0x0D].toByteArray.IsValidUTF8 ∧
      ¬ [0x32, 0xFF].toByteArray.IsValidUTF8 ∧
      expressions ([0x31, 0xE2, 0x82, 0x0D] ++ 0x0A :: [0x32, 0xFF]) =
        expressions [0x31, 0xE2, 0x82, 0x0D] ++ expressions [0x32, 0xFF] ∧
      ∃ (runner : Runner) (first second : List Outcome), runner.workers = some 2 ∧
        runner.evaluate (expressions ([0x31, 0xE2, 0x82, 0x0D] ++ 0x0A :: [0x32, 0xFF])) =
          .ok (first ++ second) ∧
        (∃ o ∈ first, o.ok = false) ∧ ∃ o ∈ second, o.ok = false := by
  have hfront : ¬ [0x31, 0xE2, 0x82, 0x0D].toByteArray.IsValidUTF8 := by decide
  have hback : ¬ [0x32, 0xFF].toByteArray.IsValidUTF8 := by decide
  obtain ⟨hparts, ⟨first, second, -, -, hwhole, hfirst, hsecond⟩, -⟩ :=
    evaluate_parts { workers := some 2 } [0x31, 0xE2, 0x82, 0x0D] [0x32, 0xFF]
  exact ⟨hfront, hback, hparts, _, first, second, rfl, hwhole, hfirst hfront, hsecond hback⟩

end Batch

end InfixArithmetic
