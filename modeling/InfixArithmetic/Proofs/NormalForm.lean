import InfixArithmetic.Proofs.Encoding
import InfixArithmetic.Proofs.FileParts
/-!
# The normal form of a file

Reading the expressions of a file loses white space and nothing else (`filter_expressionsOfText`),
and leaves lines that cannot be trimmed or cut any further. Such lines, written one below the other,
are read back as they are: `expressions_join`. So a file has a normal form, which is what is read
from it: `expressions_normal`.
-/

namespace InfixArithmetic

namespace Text

variable {p : Char → Bool} {text : List Char} {c : Char}

/-! ## Trimming -/

theorem getLast?_trimBy (hlast : (trimBy p text).getLast? = some c) : p c = false := by
  rw [trimBy, List.getLast?_reverse] at hlast
  have hnot := List.head?_dropWhile_not p (text.dropWhile p).reverse
  simpa [hlast] using hnot

theorem dropWhile_eq_self (hhead : ∀ c, text.head? = some c → p c = false) :
    text.dropWhile p = text := by
  cases text with
  | nil => rfl
  | cons c rest => exact List.dropWhile_cons_of_neg (by simp [hhead c rfl])

theorem trimBy_eq_self (hhead : ∀ c, text.head? = some c → p c = false)
    (hlast : ∀ c, text.getLast? = some c → p c = false) : trimBy p text = text := by
  have hreversed : ∀ c, text.reverse.head? = some c → p c = false := by
    intro c hc
    rw [List.head?_reverse] at hc
    exact hlast c hc
  rw [trimBy, dropWhile_eq_self hhead, dropWhile_eq_self hreversed, List.reverse_reverse]

theorem filter_trimBy (p : Char → Bool) (text : List Char) :
    (trimBy p text).filter (fun c => !p c) = text.filter fun c => !p c := by
  have hleft : (leftMargin p text).filter (fun c => !p c) = [] := by
    rw [List.filter_eq_nil_iff]
    intro c hc
    simp [of_mem_leftMargin hc]
  have hright : (rightMargin p text).filter (fun c => !p c) = [] := by
    rw [List.filter_eq_nil_iff]
    intro c hc
    simp [of_mem_rightMargin hc]
  conv => rhs; rw [← margins_append p text]
  rw [List.filter_append, List.filter_append, hleft, hright, List.nil_append, List.append_nil]

/-- A line that is not empty, has no white space at its ends and no line break. -/
structure Trimmed (line : List Char) : Prop where
  ne_nil : line ≠ []
  isSpace_head : ∀ c, line.head? = some c → isSpace c = false
  isSpace_last : ∀ c, line.getLast? = some c → isSpace c = false
  unbroken : Unbroken line

theorem Trimmed.trimBy_eq {line : List Char} (hline : Trimmed line) : trimBy isSpace line = line :=
  trimBy_eq_self hline.isSpace_head hline.isSpace_last

theorem lines_of_unbroken {line : List Char} (hne : line ≠ []) (hline : Unbroken line) :
    lines line = [line] := by
  induction line with
  | nil => exact absurd rfl hne
  | cons c rest ih =>
    obtain ⟨hc, hrest⟩ := unbroken_cons.1 hline
    rw [lines_cons_of_not rest hc]
    by_cases hend : rest = []
    · rw [hend]
      rfl
    · rw [ih hend hrest]
      rfl

end Text

namespace Batch

open Text

/-! ## What is read -/

theorem trimmed_of_mem_expressionsOfText {text : List Char} {expression : String}
    (hmem : expression ∈ expressionsOfText text) : Trimmed expression.toList := by
  obtain ⟨line, hline, rfl⟩ := mem_expressionsOfText_iff.1 hmem
  rw [String.toList_ofList]
  exact ⟨(mem_filledLines_iff.1 hline).2, head_trimBy isSpace line, fun _ => getLast?_trimBy,
    fun c hc => unbroken_of_mem_filledLines hline c (mem_of_mem_trimBy hc)⟩

theorem filter_filledLines (text : List Char) :
    (filledLines text).flatMap (List.filter fun c => !isSpace c) =
      (lines text).flatMap (List.filter fun c => !isSpace c) := by
  rw [filledLines]
  induction lines text with
  | nil => rfl
  | cons line others ih =>
    by_cases hempty : trimBy isSpace line = []
    · have hblank : line.filter (fun c => !isSpace c) = [] := by
        rw [← filter_trimBy, hempty, List.filter_nil]
      rw [List.filter_cons_of_neg (by simp [hempty]), List.flatMap_cons, hblank, ih,
        List.nil_append]
    · rw [List.filter_cons_of_pos (by simpa using hempty), List.flatMap_cons, List.flatMap_cons, ih]

theorem filter_expressionsOfText (text : List Char) :
    ((expressionsOfText text).flatMap String.toList).filter (fun c => !isSpace c) =
      text.filter fun c => !isSpace c := by
  calc ((expressionsOfText text).flatMap String.toList).filter (fun c => !isSpace c)
      = (filledLines text).flatMap fun line =>
          (trimBy isSpace line).filter fun c => !isSpace c := by
        rw [expressionsOfText_eq_map, List.flatMap_map, List.filter_flatMap]
        simp only [String.toList_ofList]
    _ = (lines text).flatMap (List.filter fun c => !isSpace c) := by
        simp only [filter_trimBy]
        exact filter_filledLines text
    _ = (text.filter fun c => !isLineBreak c).filter fun c => !isSpace c := by
        rw [← flatten_lines, List.filter_flatten, List.flatMap_def]
    _ = text.filter fun c => !isSpace c := by
        rw [List.filter_filter]
        apply List.filter_congr
        intro c _
        cases hbreak : isLineBreak c with
        | false => simp
        | true => simp [isSpace_of_isLineBreak hbreak]

/-! ## What is read back -/

theorem expressionsOfText_of_trimmed {line : List Char} (hline : Trimmed line) :
    expressionsOfText line = [String.ofList line] := by
  have hlines := lines_of_unbroken hline.ne_nil hline.unbroken
  rw [expressionsOfText, hlines, List.map_singleton, hline.trimBy_eq,
    List.filter_cons_of_pos (by simpa using hline.ne_nil)]
  rfl

theorem expressionsOfText_intercalate {rows : List String}
    (hrows : ∀ row ∈ rows, Trimmed row.toList) :
    expressionsOfText (['\n'].intercalate (rows.map String.toList)) = rows := by
  induction rows with
  | nil => rfl
  | cons row rows ih =>
    have hrow : expressionsOfText row.toList = [row] := by
      rw [expressionsOfText_of_trimmed (hrows row List.mem_cons_self), String.ofList_toList]
    have hothers := ih fun other hother => hrows other (List.mem_cons_of_mem _ hother)
    cases rows with
    | nil => exact (congrArg expressionsOfText (List.intercalate_singleton)).trans hrow
    | cons second others =>
      rw [List.map_cons, List.map_cons, List.intercalate_cons_cons, List.append_assoc,
        List.singleton_append, expressionsOfText_append_newline, hrow]
      rw [List.map_cons] at hothers
      rw [hothers]
      rfl

theorem expressions_join {rows : List String} (hrows : ∀ row ∈ rows, Trimmed row.toList) :
    expressions (Utf8.encode ("\n".intercalate rows)) = rows := by
  rw [expressions, Utf8.decode_encode, String.toList_intercalate]
  exact expressionsOfText_intercalate hrows

/-- What is read from a file is in normal form. No line is empty, has white space at its ends or a
line break in it; the characters of the file that are no white space are those of the lines, in
their order; and the lines are read again from the file that they are written to. -/
theorem expressions_normal (bytes : List UInt8) :
    (∀ line ∈ expressions bytes, Trimmed line.toList) ∧
      (Utf8.decode bytes).filter (fun c => !isSpace c) =
        ((expressions bytes).flatMap String.toList).filter (fun c => !isSpace c) ∧
      expressions (Utf8.encode ("\n".intercalate (expressions bytes))) = expressions bytes :=
  have htrimmed : ∀ line ∈ expressions bytes, Trimmed line.toList :=
    fun _ => trimmed_of_mem_expressionsOfText
  ⟨htrimmed, (filter_expressionsOfText (Utf8.decode bytes)).symm, expressions_join htrimmed⟩

theorem expressions_normal_mixed :
    let bytes : List UInt8 :=
      [0xEF, 0xBB, 0xBF, 0x20, 0x31, 0xFF, 0x0D, 0x0A, 0x09, 0x0A, 0x1F, 0x32, 0x20, 0x2B]
    expressions bytes = ["\uFEFF 1\uFFFD", "2 +"] ∧ "\uFEFF 1\uFFFD" ∈ expressions bytes ∧
      Trimmed "\uFEFF 1\uFFFD".toList ∧
      expressions (Utf8.encode "\uFEFF 1\uFFFD\n2 +") = ["\uFEFF 1\uFFFD", "2 +"] := by
  intro bytes
  have hlines : expressions bytes = ["\uFEFF 1\uFFFD", "2 +"] := by decide +kernel
  have hmem : "\uFEFF 1\uFFFD" ∈ expressions bytes := by
    rw [hlines]
    exact List.mem_cons_self
  obtain ⟨htrimmed, -, hagain⟩ := expressions_normal bytes
  rw [hlines] at hagain
  exact ⟨hlines, hmem, htrimmed _ hmem, hagain⟩

end Batch

end InfixArithmetic
