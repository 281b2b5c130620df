import InfixArithmetic.Text.Blank
import InfixArithmetic.Batch.Expressions
import InfixArithmetic.Proofs.LineBreaks
import Mathlib.Data.List.TakeWhile
/-!
# The margins of a text

Trimming cuts a text in three: a margin on each side, in which every character is looked for, and
what is left between them (`margins_append`). What an unbroken text has in its margins is blank but
for the unit separator, the one information separator that is no line break: `isBlank_of_isSpace`.
The expressions of a file are what is left between the margins of its lines, where anything is:
`expressionsOfText_eq_map`.
-/

namespace InfixArithmetic

namespace Text

variable {p : Char → Bool} {text : List Char} {c : Char}

def leftMargin (p : Char → Bool) (text : List Char) : List Char :=
  text.takeWhile p

def rightMargin (p : Char → Bool) (text : List Char) : List Char :=
  ((text.dropWhile p).reverse.takeWhile p).reverse

theorem margins_append (p : Char → Bool) (text : List Char) :
    leftMargin p text ++ (trimBy p text ++ rightMargin p text) = text := by
  have hright : trimBy p text ++ rightMargin p text = text.dropWhile p := by
    rw [trimBy, rightMargin, ← List.reverse_append, List.takeWhile_append_dropWhile,
      List.reverse_reverse]
  rw [hright, leftMargin, List.takeWhile_append_dropWhile]

theorem of_mem_leftMargin (hc : c ∈ leftMargin p text) : p c = true :=
  List.mem_takeWhile_imp hc

theorem of_mem_rightMargin (hc : c ∈ rightMargin p text) : p c = true :=
  List.mem_takeWhile_imp (List.mem_reverse.1 hc)

theorem mem_iff_margins :
    c ∈ text ↔ c ∈ leftMargin p text ∨ c ∈ trimBy p text ∨ c ∈ rightMargin p text := by
  rw [← List.mem_append, ← List.mem_append, margins_append]

theorem mem_of_mem_trimBy (hmem : c ∈ trimBy p text) : c ∈ text :=
  mem_iff_margins.2 (.inr (.inl hmem))

theorem mem_trimBy_of_not (hmem : c ∈ text) (hc : p c = false) : c ∈ trimBy p text := by
  rcases mem_iff_margins.1 hmem with hleft | htrimmed | hright
  · cases hc.symm.trans (of_mem_leftMargin hleft)
  · exact htrimmed
  · cases hc.symm.trans (of_mem_rightMargin hright)

/-! ## White space and line breaks -/

def unitSeparator : Char :=
  '\x1F'

theorem isSpace_of_isLineBreak (hbreak : isLineBreak c = true) : isSpace c = true := by
  simp only [isLineBreak, Bool.or_eq_true, Bool.and_eq_true, decide_eq_true_eq,
    beq_iff_eq] at hbreak
  simp only [isSpace, isBlank, isSeparatorControl, Bool.or_eq_true, Bool.and_eq_true,
    decide_eq_true_eq, beq_iff_eq]
  omega

theorem isBlank_of_isSpace (hspace : isSpace c = true) (hbreak : isLineBreak c = false)
    (hunit : c ≠ unitSeparator) : isBlank c = true := by
  rw [isBlank_iff]
  refine ⟨hspace, ?_⟩
  have hcode : c.toNat ≠ 0x1F := fun hcode => hunit (Char.toNat_inj.1 hcode)
  simp only [isLineBreak, Bool.or_eq_false_iff, Bool.and_eq_false_iff, decide_eq_false_iff_not,
    beq_eq_false_iff_ne] at hbreak
  simp only [isSeparatorControl, Bool.and_eq_false_iff, decide_eq_false_iff_not]
  omega

variable {margin : List Char}

theorem isBlank_of_mem_margin (hspace : ∀ c ∈ margin, isSpace c = true)
    (hmargin : Unbroken margin) (hunit : unitSeparator ∉ margin) :
    ∀ c ∈ margin, isBlank c = true :=
  fun c hc => isBlank_of_isSpace (hspace c hc) (hmargin c hc) fun hsame => hunit (hsame ▸ hc)

theorem exists_blanks_of_mem_margin (hspace : ∀ c ∈ margin, isSpace c = true)
    (hmargin : Unbroken margin) (hunit : unitSeparator ∈ margin) :
    ∃ blanks rest, margin = blanks ++ unitSeparator :: rest ∧ ∀ c ∈ blanks, isBlank c = true := by
  obtain ⟨blanks, rest, rfl, hfirst⟩ := List.eq_append_cons_of_mem hunit
  refine ⟨blanks, rest, rfl, isBlank_of_mem_margin (fun c hc => hspace c ?_)
    (unbroken_append.1 hmargin).1 hfirst⟩
  exact List.mem_append_left _ hc

end Text

/-! ## The lines that hold an expression -/

namespace Batch

open Text

def filledLines (text : List Char) : List (List Char) :=
  (lines text).filter fun line => !(trimBy isSpace line).isEmpty

theorem mem_filledLines_iff {text line : List Char} :
    line ∈ filledLines text ↔ line ∈ lines text ∧ trimBy isSpace line ≠ [] := by
  rw [filledLines, List.mem_filter, Bool.not_eq_true', List.isEmpty_eq_false_iff]

theorem unbroken_of_mem_filledLines {text line : List Char} (hline : line ∈ filledLines text) :
    Unbroken line :=
  unbroken_of_mem_lines (mem_filledLines_iff.1 hline).1

theorem filledLines_append_newline (front back : List Char) :
    filledLines (front ++ '\n' :: back) = filledLines front ++ filledLines back := by
  obtain ⟨gap, hgap, hlines⟩ := lines_append_newline front back
  have hempty : gap.filter (fun line => !(trimBy isSpace line).isEmpty) = [] := by
    rcases hgap with rfl | rfl <;> rfl
  simp only [filledLines, hlines, List.filter_append, hempty, List.append_nil]

theorem expressionsOfText_eq_map (text : List Char) :
    expressionsOfText text =
      (filledLines text).map fun line => String.ofList (trimBy isSpace line) := by
  rw [expressionsOfText, filledLines, List.filter_map, List.map_map]
  rfl

theorem mem_expressionsOfText_iff {text : List Char} {expression : String} :
    expression ∈ expressionsOfText text ↔
      ∃ line ∈ filledLines text, String.ofList (trimBy isSpace line) = expression := by
  rw [expressionsOfText_eq_map, List.mem_map]

end Batch

end InfixArithmetic
