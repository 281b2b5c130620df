import InfixArithmetic.Text.Lines
import Mathlib.Data.List.Basic
/-!
# Cutting at line breaks

Cutting a text takes its breaks away and nothing else (`flatten_lines`). A line feed between two
texts parts their lines, except that it may end an empty line of its own (`lines_append_newline`).
Texts without breaks that are written one a line are the lines of what is written: `lines_rows`.
-/

namespace InfixArithmetic.Text

theorem isLineBreak_newline : isLineBreak '\n' = true := by decide

theorem isLineBreak_return : isLineBreak '\r' = true := by decide

def consLine (c : Char) : List (List Char) → List (List Char)
  | [] => [[c]]
  | line :: others => (c :: line) :: others

theorem lines_return_newline (rest : List Char) :
    lines ('\r' :: '\n' :: rest) = [] :: lines rest := by
  rw [lines]

theorem lines_cons_of_break {c : Char} {rest : List Char} (hbreak : isLineBreak c = true)
    (hpair : c = '\r' → rest.head? ≠ some '\n') : lines (c :: rest) = [] :: lines rest := by
  rw [lines, if_pos hbreak]
  rintro tail rfl rfl
  exact hpair rfl rfl

theorem lines_cons_of_not {c : Char} (rest : List Char) (hchar : isLineBreak c = false) :
    lines (c :: rest) = consLine c (lines rest) := by
  rw [lines]
  · rw [if_neg (by simp [hchar])]
    cases lines rest <;> rfl
  · rintro tail rfl rfl
    rw [isLineBreak_return] at hchar
    cases hchar

/-- Induction over a text as it is cut into lines. -/
@[elab_as_elim]
theorem induction_on_lines {motive : List Char → Prop} (text : List Char) (nil : motive [])
    (pair : ∀ rest, motive rest → motive ('\r' :: '\n' :: rest))
    (single : ∀ c rest, isLineBreak c = true → (c = '\r' → rest.head? ≠ some '\n') →
      motive rest → motive (c :: rest))
    (other : ∀ c rest, isLineBreak c = false → motive rest → motive (c :: rest)) :
    motive text := by
  induction text using lines.induct with
  | case1 => exact nil
  | case2 rest ih => exact pair rest ih
  | case3 c rest hpair hbreak ih =>
    refine single c rest hbreak ?_ ih
    rintro rfl hhead
    obtain ⟨tail, rfl⟩ := List.head?_eq_some_iff.1 hhead
    exact hpair tail rfl rfl
  | case4 c rest _ hbreak _ ih => exact other c rest (by simpa using hbreak) ih
  | case5 c rest _ hbreak _ _ _ ih => exact other c rest (by simpa using hbreak) ih

theorem flatten_consLine (c : Char) (cut : List (List Char)) :
    (consLine c cut).flatten = c :: cut.flatten := by
  cases cut <;> rfl

theorem consLine_append (c : Char) {cut : List (List Char)} (hne : cut ≠ [])
    (more : List (List Char)) : consLine c (cut ++ more) = consLine c cut ++ more := by
  cases cut with
  | nil => exact absurd rfl hne
  | cons line others => rfl

theorem flatten_lines (text : List Char) :
    (lines text).flatten = text.filter fun c => !isLineBreak c := by
  induction text using induction_on_lines with
  | nil => rfl
  | pair rest ih =>
    rw [lines_return_newline, List.flatten_cons, ih]
    simp [isLineBreak_return, isLineBreak_newline]
  | single c rest hbreak hpair ih =>
    rw [lines_cons_of_break hbreak hpair, List.flatten_cons, ih]
    simp [hbreak]
  | other c rest hchar ih =>
    rw [lines_cons_of_not rest hchar, flatten_consLine, ih]
    simp [hchar]

theorem exists_mem_lines_iff {text : List Char} {c : Char} :
    (∃ line ∈ lines text, c ∈ line) ↔ c ∈ text ∧ isLineBreak c = false := by
  rw [← List.mem_flatten, flatten_lines, List.mem_filter, Bool.not_eq_true']

theorem lines_ne_nil {text : List Char} (hne : text ≠ []) : lines text ≠ [] := by
  induction text using induction_on_lines with
  | nil => exact absurd rfl hne
  | pair rest ih => simp [lines_return_newline]
  | single c rest hbreak hpair ih => simp [lines_cons_of_break hbreak hpair]
  | other c rest hchar ih =>
    rw [lines_cons_of_not rest hchar]
    cases lines rest <;> simp [consLine]

theorem lines_newline (rest : List Char) : lines ('\n' :: rest) = [] :: lines rest :=
  lines_cons_of_break isLineBreak_newline (by simp)

/-- A line feed between two texts ends the last line of the first one, or it ends an empty line of
its own. -/
theorem lines_append_newline (front back : List Char) :
    ∃ gap, (gap = [] ∨ gap = [[]]) ∧
      lines (front ++ '\n' :: back) = lines front ++ gap ++ lines back := by
  induction front using induction_on_lines with
  | nil => exact ⟨[[]], .inr rfl, lines_newline back⟩
  | pair rest ih =>
    obtain ⟨gap, hgap, hlines⟩ := ih
    refine ⟨gap, hgap, ?_⟩
    rw [List.cons_append, List.cons_append, lines_return_newline, lines_return_newline, hlines]
    rfl
  | single c rest hbreak hpair ih =>
    by_cases hjoined : c = '\r' ∧ rest = []
    · -- the carriage return at the end and the line feed become one break
      obtain ⟨rfl, rfl⟩ := hjoined
      refine ⟨[], .inl rfl, ?_⟩
      rw [List.singleton_append, lines_return_newline, lines_cons_of_break hbreak hpair]
      rfl
    · obtain ⟨gap, hgap, hlines⟩ := ih
      have hpair' : c = '\r' → (rest ++ '\n' :: back).head? ≠ some '\n' := by
        intro hreturn
        have hne : rest ≠ [] := fun hempty => hjoined ⟨hreturn, hempty⟩
        rw [List.head?_append_of_ne_nil rest hne]
        exact hpair hreturn
      refine ⟨gap, hgap, ?_⟩
      rw [List.cons_append, lines_cons_of_break hbreak hpair', lines_cons_of_break hbreak hpair,
        hlines]
      rfl
  | other c rest hchar ih =>
    rw [List.cons_append, lines_cons_of_not _ hchar, lines_cons_of_not _ hchar]
    by_cases hend : rest = []
    · rw [hend, List.nil_append, lines_newline]
      exact ⟨[], .inl rfl, rfl⟩
    · obtain ⟨gap, hgap, hlines⟩ := ih
      refine ⟨gap, hgap, ?_⟩
      rw [hlines, List.append_assoc, consLine_append c (lines_ne_nil hend), List.append_assoc]

/-! ## Texts that are written one a line -/

def Unbroken (text : List Char) : Prop :=
  ∀ c ∈ text, isLineBreak c = false

instance (text : List Char) : Decidable (Unbroken text) :=
  List.decidableBAll _ text

theorem unbroken_nil : Unbroken [] :=
  List.forall_mem_nil _

theorem unbroken_cons {c : Char} {text : List Char} :
    Unbroken (c :: text) ↔ isLineBreak c = false ∧ Unbroken text :=
  List.forall_mem_cons

theorem unbroken_append {front back : List Char} :
    Unbroken (front ++ back) ↔ Unbroken front ∧ Unbroken back :=
  List.forall_mem_append

theorem unbroken_of_mem_lines {text line : List Char} (hline : line ∈ lines text) :
    Unbroken line :=
  fun _ hc => (exists_mem_lines_iff.1 ⟨line, hline, hc⟩).2

theorem lines_append_row {row : List Char} (hrow : Unbroken row) (rest : List Char) :
    lines (row ++ '\n' :: rest) = row :: lines rest := by
  induction row with
  | nil => exact lines_newline rest
  | cons c row ih =>
    rw [List.cons_append, lines_cons_of_not _ (hrow c (by simp)),
      ih fun d hd => hrow d (by simp [hd])]
    rfl

theorem lines_rows {rows : List (List Char)} (hrows : ∀ row ∈ rows, Unbroken row) :
    lines (rows.flatMap (· ++ ['\n'])) = rows := by
  induction rows with
  | nil => rfl
  | cons row rows ih =>
    rw [List.flatMap_cons, List.append_assoc, List.singleton_append,
      lines_append_row (hrows row (by simp)), ih fun other hother => hrows other (by simp [hother])]

end InfixArithmetic.Text
