import InfixArithmetic.Proofs.Reports
/-!
# The numbers in the log

An entry of the log that tells of a failure gives the number of the line of the results file, where
no blank line of the input is left. So the number is that of the line of the input but for the blank
lines in front of it: `errors_numbered`.
-/

namespace InfixArithmetic.Batch

open Evaluation Text

def isBlankLine (line : List Char) : Bool :=
  (trimBy isSpace line).isEmpty

def expressionOf (line : List Char) : String :=
  String.ofList (trimBy isSpace line)

/-- The lines of a text that hold an expression, with their numbers among all lines, counted from
one. -/
def numberedLines (text : List Char) : List (List Char × Nat) :=
  ((lines text).zipIdx 1).filter fun numbered => !isBlankLine numbered.1

def failingLines (text : List Char) : List (List Char × Nat) :=
  (numberedLines text).filter fun numbered => !(Outcome.ofExpression (expressionOf numbered.1)).ok

def blankLinesBefore (text : List Char) (number : Nat) : Nat :=
  ((lines text).take (number - 1)).countP isBlankLine

/-- An entry of the log tells of a line of the input, under the number of the line of the results
file that tells of it. The blank lines in front of the line of the input make up the difference. -/
def TellsOf (bytes : List UInt8) (report : Report) (numbered : List Char × Nat)
    (entry : Log.Entry) : Prop :=
  ∃ number, 1 ≤ number ∧
    (expressions bytes)[number - 1]? = some (expressionOf numbered.1) ∧
    Names (expressions bytes) report.rows entry number ∧
    number + blankLinesBefore (Utf8.decode bytes) numbered.2 = numbered.2

/-- The rank of an item among those that satisfy `p`, and its place among all items: the items in
front of it that do not satisfy `p` make up the difference. -/
theorem rank_of_mem_zipIdx {α : Type} {p : α → Bool} {items : List α} {start first : Nat} {a : α}
    {place rank : Nat}
    (hmem : ((a, place), rank) ∈
      ((items.zipIdx start).filter fun numbered => p numbered.1).zipIdx first) :
    rank + start + (items.take (place - start)).countP (fun b => !p b) = place + first := by
  induction items generalizing start first with
  | nil => cases hmem
  | cons b items ih =>
    have hbehind : ∀ {n}, ((a, place), rank) ∈
        ((items.zipIdx (start + 1)).filter fun numbered => p numbered.1).zipIdx n →
        place - start = place - (start + 1) + 1 ∧ start + 1 ≤ place := by
      intro n htail
      have hplace := List.mem_of_mem_filter (List.fst_mem_of_mem_zipIdx htail)
      have hle := (List.mk_mem_zipIdx_iff_le_and_getElem?_sub.1 hplace).1
      omega
    rw [List.zipIdx_cons] at hmem
    by_cases hb : p b = true
    · rw [List.filter_cons_of_pos (p := fun numbered : α × Nat => p numbered.1) hb,
        List.zipIdx_cons] at hmem
      rcases List.mem_cons.1 hmem with hhead | htail
      · cases hhead
        simp
        omega
      · obtain ⟨hsub, hle⟩ := hbehind htail
        have hrank := ih htail
        rw [hsub, List.take_succ_cons, List.countP_cons_of_neg (by simp [hb])]
        omega
    · rw [List.filter_cons_of_neg (p := fun numbered : α × Nat => p numbered.1) hb] at hmem
      obtain ⟨hsub, hle⟩ := hbehind hmem
      have hrank := ih hmem
      rw [hsub, List.take_succ_cons, List.countP_cons_of_pos (by simpa using hb)]
      omega

theorem rank_of_mem_numberedLines {text line : List Char} {place rank : Nat}
    (hmem : ((line, place), rank) ∈ (numberedLines text).zipIdx 1) :
    rank + blankLinesBefore text place = place := by
  have hrank := rank_of_mem_zipIdx (p := fun line => !isBlankLine line) hmem
  simp only [Bool.not_not] at hrank
  change rank + 1 + blankLinesBefore text place = place + 1 at hrank
  omega

theorem filledLines_eq_map (text : List Char) :
    filledLines text = (numberedLines text).map Prod.fst := by
  rw [filledLines, numberedLines]
  conv_lhs => rw [← List.zipIdx_map_fst 1 (lines text), List.filter_map]
  rfl

theorem expressions_eq_map (bytes : List UInt8) :
    expressions bytes =
      (numberedLines (Utf8.decode bytes)).map fun numbered => expressionOf numbered.1 := by
  rw [expressions, expressionsOfText_eq_map, filledLines_eq_map, List.map_map]
  rfl

theorem filter_eq_filterMap_zipIdx {α : Type} (p : α → Bool) (items : List α) (start : Nat) :
    items.filter p =
      (items.zipIdx start).filterMap fun numbered => Option.guard p numbered.1 := by
  conv_lhs => rw [← List.filterMap_eq_filter, ← List.zipIdx_map_fst start items]
  rw [List.filterMap_map]
  rfl

/-- The errors in the log tell of the lines of the input whose expressions fail, one each and in
their order. Each gives the number of the line of the results file, which falls short of that of the
line of the input by the blank lines in front of it. -/
theorem errors_numbered (runner : Runner) (input output : String) (bytes : List UInt8) :
    ∃ report, runner.run input output bytes = .ok report ∧
      List.Forall₂ (TellsOf bytes report) (failingLines (Utf8.decode bytes)) report.errors := by
  refine ⟨_, run_eq runner input output bytes, ?_⟩
  rw [errors_reportOf, failureEntries, failingLines, filter_eq_filterMap_zipIdx _ _ 1,
    expressions_eq_map, List.map_map, List.zipIdx_map, List.filterMap_map]
  apply forall₂_filterMap
  rintro ⟨⟨line, place⟩, rank⟩ hmem
  obtain ⟨hfirst, hline⟩ := List.mk_mem_zipIdx_iff_le_and_getElem?_sub.1 hmem
  have hexpression : (expressions bytes)[rank - 1]? = some (expressionOf line) := by
    rw [expressions_eq_map, List.getElem?_map, hline]
    rfl
  cases hresult : evaluate (expressionOf line) with
  | ok v =>
    have hok := (Outcome.ok_ofExpression_iff (expressionOf line)).2 ⟨v, hresult⟩
    exact .inl ⟨by simp [Option.guard, hok], failureEntry?_eq_none_of_ok hresult rank⟩
  | error e =>
    have hfailed : (Outcome.ofExpression (expressionOf line)).ok = false := by
      rw [Outcome.ofExpression_of_error hresult]
      rfl
    obtain ⟨entry, hentry, hnames⟩ := names_failureEntry? input output bytes hresult hexpression
    exact .inr ⟨(line, place), entry, by simp [Option.guard, hfailed], hentry, rank, hfirst,
      hexpression, hnames, rank_of_mem_numberedLines hmem⟩

/-- A failure behind a blank line is told of under another number than that of its line. -/
theorem blankLine_not_counted :
    let bytes : List UInt8 := [0x0A, 0x31, 0x2F, 0x30]
    failingLines (Utf8.decode bytes) = [("1/0".toList, 2)] ∧
      ∀ runner : Runner, ∃ report, runner.run "ops.txt" "out.txt" bytes = .ok report ∧
        report.errors = [⟨.error, "❌ Line 1: Division by zero ('1/0')"⟩] ∧
        ∀ entry ∈ report.errors, entry.message ≠ "❌ Line 2: Division by zero ('1/0')" := by
  intro bytes
  have hexpressions : expressions bytes = ["1/0"] := by decide +kernel
  have herrors : (reportOf "ops.txt" "out.txt" bytes).errors =
      [⟨.error, "❌ Line 1: Division by zero ('1/0')"⟩] := by
    rw [errors_reportOf, hexpressions]
    decide +kernel
  refine ⟨by decide +kernel, fun runner => ⟨_, run_eq runner _ _ bytes, herrors, ?_⟩⟩
  rw [herrors]
  intro entry hentry
  cases List.mem_singleton.1 hentry
  decide

end InfixArithmetic.Batch
