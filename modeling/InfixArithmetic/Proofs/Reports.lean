import InfixArithmetic.CommandLine.Program
import InfixArithmetic.Proofs.Encoding
import InfixArithmetic.Proofs.ResultLines
import InfixArithmetic.Proofs.ResultsFile
/-!
# The reports of a batch agree

A batch is told of four times over: in its results file, in its log, in its summary and in the
status that the program ends with. All four come from one list of outcomes, and what each of them
says can be read off the text of the results file, which is what a run leaves at the results path:
`reports_agree`.
-/

namespace InfixArithmetic

open Evaluation

namespace Batch

open Text

def Report.rows (report : Report) : List (List Char) :=
  lines report.results.toList

def Report.errors (report : Report) : List Log.Entry :=
  report.log.filter (·.level = .error)

/-- The numbers of the lines that hold the failure mark, counted from one and in order. -/
structure AreMarked (rows : List (List Char)) (numbers : List Nat) : Prop where
  increasing : numbers.Pairwise (· < ·)
  mem_iff : ∀ number, number ∈ numbers ↔
    1 ≤ number ∧ ∃ row, rows[number - 1]? = some row ∧ Marked row

/-- An entry of the log names a line of the results file by its number, and the error and the
expression that the line tells of. -/
def Names (expressions : List String) (rows : List (List Char)) (entry : Log.Entry)
    (number : Nat) : Prop :=
  ∃ expression e, evaluate expression = .error e ∧
    expressions[number - 1]? = some expression ∧
    rows[number - 1]? = some (expression ++ " -> ERROR: " ++ e.message).toList ∧
    entry = ⟨.error, "❌ Line " ++ String.ofList (Decimal.digits number) ++ ": " ++ e.message ++
      " (" ++ String.ofList (Quoted.encode expression.toList) ++ ")"⟩

/-- The results file, the log and the summary tell the same of the expressions. -/
structure Tallies (expressions : List String) (output : String) (report : Report) : Prop where
  results_eq : report.results.toList = report.rows.flatMap (· ++ ['\n'])
  described : List.Forall₂
    (fun expression row => ∃ o, calculate expression = .ok o ∧ row = o.describe.toList)
    expressions report.rows
  evaluated : report.summary.evaluated = report.rows.length
  failed : report.summary.failed = report.rows.countP (Marked ·)
  errors_length : report.errors.length = report.rows.countP (Marked ·)
  /-- The last entry counts the successes among the lines. -/
  closing : ∃ successes, successes + report.rows.countP (Marked ·) = report.rows.length ∧
    report.log.getLast? = some ⟨.info,
      "📄✅ " ++ String.ofList (Decimal.digits successes) ++ "/" ++
        String.ofList (Decimal.digits report.rows.length) ++ " results written to " ++ output⟩
  named : ∃ numbers, AreMarked report.rows numbers ∧
    List.Forall₂ (Names expressions report.rows) report.errors numbers

/-! ## Numbered lines -/

theorem forall₂_filterMap {α β γ : Type} {R : β → γ → Prop} {f : α → Option β}
    {g : α → Option γ} {items : List α}
    (hitems : ∀ a ∈ items, f a = none ∧ g a = none ∨ ∃ b c, f a = some b ∧ g a = some c ∧ R b c) :
    List.Forall₂ R (items.filterMap f) (items.filterMap g) := by
  induction items with
  | nil => exact .nil
  | cons a items ih =>
    have hrest := ih fun other hother => hitems other (by simp [hother])
    rcases hitems a (by simp) with ⟨hf, hg⟩ | ⟨b, c, hf, hg, hR⟩
    · rwa [List.filterMap_cons_none hf, List.filterMap_cons_none hg]
    · rw [List.filterMap_cons_some hf, List.filterMap_cons_some hg]
      exact .cons hR hrest

theorem pairwise_zipIdx {α : Type} (items : List α) (start : Nat) :
    (items.zipIdx start).Pairwise fun a b => a.2 < b.2 := by
  rw [← List.pairwise_map (f := Prod.snd) (R := (· < ·)), List.zipIdx_map_snd]
  exact List.pairwise_lt_range'

def markedNumber? (numbered : List Char × Nat) : Option Nat :=
  if Marked numbered.1 then some numbered.2 else none

theorem markedNumber?_eq_some_iff {row : List Char} {line number : Nat} :
    markedNumber? (row, line) = some number ↔ Marked row ∧ line = number := by
  simp [markedNumber?]

def markedNumbers (rows : List (List Char)) : List Nat :=
  (rows.zipIdx 1).filterMap markedNumber?

theorem areMarked_markedNumbers (rows : List (List Char)) :
    AreMarked rows (markedNumbers rows) where
  increasing := by
    apply (pairwise_zipIdx rows 1).filterMap
    rintro ⟨row, line⟩ ⟨row', line'⟩ hlt number hnumber number' hnumber'
    obtain ⟨-, rfl⟩ := markedNumber?_eq_some_iff.1 hnumber
    obtain ⟨-, rfl⟩ := markedNumber?_eq_some_iff.1 hnumber'
    exact hlt
  mem_iff number := by
    simp only [markedNumbers, List.mem_filterMap, Prod.exists, markedNumber?_eq_some_iff]
    constructor
    · rintro ⟨row, line, hmem, hmarked, rfl⟩
      obtain ⟨hle, hrow⟩ := List.mk_mem_zipIdx_iff_le_and_getElem?_sub.1 hmem
      exact ⟨hle, row, hrow, hmarked⟩
    · rintro ⟨hle, row, hrow, hmarked⟩
      exact ⟨row, number, List.mk_mem_zipIdx_iff_le_and_getElem?_sub.2 ⟨hle, hrow⟩, hmarked, rfl⟩

theorem length_markedNumbers (rows : List (List Char)) :
    (markedNumbers rows).length = rows.countP (Marked ·) := by
  calc
    _ = (rows.zipIdx 1).countP fun numbered => (markedNumber? numbered).isSome :=
      List.length_filterMap_eq_countP
    _ = (rows.zipIdx 1).countP ((Marked ·) ∘ Prod.fst) := by
      apply List.countP_congr
      simp [markedNumber?]
    _ = rows.countP (Marked ·) := by
      rw [← List.countP_map, List.zipIdx_map_fst]

/-! ## One list of outcomes -/

variable (input output : String) (bytes : List UInt8)

theorem rows_reportOf : (reportOf input output bytes).rows = (expressions bytes).map rowOf :=
  lines_results input output bytes

theorem level_of_mem_failureEntries {outcomes : List Outcome} {entry : Log.Entry}
    (hmem : entry ∈ failureEntries outcomes) : entry.level = .error := by
  obtain ⟨⟨o, line⟩, -, hentry⟩ := List.mem_filterMap.1 hmem
  obtain ⟨message, -, rfl⟩ := Option.map_eq_some_iff.1 hentry
  rfl

theorem errors_reportOf :
    (reportOf input output bytes).errors =
      failureEntries ((expressions bytes).map Outcome.ofExpression) := by
  have hall : ∀ entry ∈ failureEntries ((expressions bytes).map Outcome.ofExpression),
      decide (entry.level = .error) = true :=
    fun entry hmem => decide_eq_true (level_of_mem_failureEntries hmem)
  simp only [Report.errors, reportOf, Report.ofOutcomes, List.cons_append, List.filter_cons,
    List.filter_append, List.filter_eq_self.2 hall]
  simp

theorem failed_reportOf :
    (reportOf input output bytes).summary.failed =
      (reportOf input output bytes).rows.countP (Marked ·) := by
  rw [rows_reportOf, List.countP_map]
  simp only [reportOf, Report.ofOutcomes, List.countP_map]
  apply List.countP_congr
  intro expression _
  simp [marked_rowOf_iff]

theorem names_failureEntry? {expression : String} {e : EvalError} {line : Nat}
    (hresult : evaluate expression = .error e)
    (hexpression : (expressions bytes)[line - 1]? = some expression) :
    ∃ entry, failureEntry? line (Outcome.ofExpression expression) = some entry ∧
      Names (expressions bytes) (reportOf input output bytes).rows entry line := by
  have hrow : (reportOf input output bytes).rows[line - 1]? =
      some (expression ++ " -> ERROR: " ++ e.message).toList := by
    rw [rows_reportOf, List.getElem?_map, hexpression, Option.map_some, rowOf_of_error hresult,
      String.toList_append, String.toList_append]
    rfl
  rw [Outcome.ofExpression_of_error hresult]
  exact ⟨_, rfl, expression, e, hresult, hexpression, hrow, rfl⟩

theorem failureEntry?_eq_none_of_ok {expression : String} {v : Int}
    (hresult : evaluate expression = .ok v) (line : Nat) :
    failureEntry? line (Outcome.ofExpression expression) = none := by
  rw [Outcome.ofExpression_of_ok hresult]
  rfl

theorem names_errors_reportOf :
    List.Forall₂ (Names (expressions bytes) (reportOf input output bytes).rows)
      (reportOf input output bytes).errors
      (markedNumbers (reportOf input output bytes).rows) := by
  rw [errors_reportOf, failureEntries, markedNumbers]
  nth_rewrite 2 [rows_reportOf]
  rw [List.zipIdx_map, List.zipIdx_map, List.filterMap_map, List.filterMap_map]
  apply forall₂_filterMap
  rintro ⟨expression, line⟩ hmem
  obtain ⟨-, hexpression⟩ := List.mk_mem_zipIdx_iff_le_and_getElem?_sub.1 hmem
  cases hresult : evaluate expression with
  | ok v =>
    exact .inl ⟨failureEntry?_eq_none_of_ok hresult line, if_neg (not_marked_of_ok hresult)⟩
  | error e =>
    obtain ⟨entry, hentry, hnames⟩ := names_failureEntry? input output bytes hresult hexpression
    exact .inr ⟨entry, line, hentry, if_pos (marked_of_error hresult), hnames⟩

theorem forall₂_rows :
    List.Forall₂
      (fun expression row => ∃ o, calculate expression = .ok o ∧ row = o.describe.toList)
      (expressions bytes) ((expressions bytes).map rowOf) := by
  rw [List.forall₂_map_right_iff, List.forall₂_same]
  exact fun expression _ => ⟨_, calculate_eq expression, rfl⟩

theorem getLast?_log_reportOf :
    (reportOf input output bytes).log.getLast? = some ⟨.info,
      "📄✅ " ++
        String.ofList (Decimal.digits ((reportOf input output bytes).summary.evaluated -
          (reportOf input output bytes).summary.failed)) ++ "/" ++
        String.ofList (Decimal.digits (reportOf input output bytes).summary.evaluated) ++
        " results written to " ++ output⟩ :=
  List.getLast?_concat

theorem tallies_reportOf :
    Tallies (expressions bytes) output (reportOf input output bytes) := by
  have hrows := rows_reportOf input output bytes
  have hfailed := failed_reportOf input output bytes
  have hevaluated : (reportOf input output bytes).summary.evaluated =
      (reportOf input output bytes).rows.length := by
    rw [hrows, List.length_map]
    exact List.length_map _
  have hnamed := names_errors_reportOf input output bytes
  refine ⟨?_, ?_, hevaluated, hfailed, ?_, ?_, ⟨_, areMarked_markedNumbers _, hnamed⟩⟩
  · rw [hrows]
    exact toList_results input output bytes
  · rw [hrows]
    exact forall₂_rows bytes
  · rw [hnamed.length_eq, length_markedNumbers]
  · refine ⟨_, Nat.sub_add_cancel List.countP_le_length, ?_⟩
    rw [← hevaluated, ← hfailed]
    exact getLast?_log_reportOf input output bytes

end Batch

/-! ## The status of the program -/

namespace Path

theorem follow_of_parts_eq_nil (files : FileTree) {path : Path} (hparts : path.parts = []) :
    files.follow path = .nowhere ∨ files.follow path = .tooLong ∨
      files.follow path = .place (FileTree.startOf path.root) := by
  unfold FileTree.follow
  rw [hparts]
  dsimp only
  split
  · exact .inl rfl
  · split
    · exact .inr (.inl rfl)
    · exact .inr (.inr rfl)

theorem parts_ne_nil_of_read {files : FileTree} {path : Path} {bytes : List UInt8}
    (hread : files.read path = .ok (some bytes)) : path.parts ≠ [] := by
  intro hparts
  have hstart : files.entryAt? (FileTree.startOf path.root) = some .folder := by
    cases path.root <;> rfl
  unfold FileTree.read at hread
  rcases follow_of_parts_eq_nil files hparts with hnowhere | hlong | hplace
  · rw [hnowhere] at hread
    cases hread
  · rw [hlong] at hread
    cases hread
  · rw [hplace] at hread
    dsimp only at hread
    rw [hstart] at hread
    cases hread

theorem exists_results_of_read {files : FileTree} {path : Path} {bytes : List UInt8}
    (hread : files.read path = .ok (some bytes)) : ∃ output, path.results = .ok output := by
  unfold results
  split
  · rename_i hname
    exact absurd (List.getLast?_eq_none_iff.1 hname) (parts_ne_nil_of_read hread)
  · exact ⟨_, rfl⟩

end Path

namespace CommandLine

open Text

/-- The program takes its arguments, and reads these settings off them. -/
def Accepts (files : FileTree) (args : List String) (settings : Settings) : Prop :=
  ∃ r content, recordOfArguments args = .ok r ∧ contentOf files.read r = .ok content ∧
    Settings.ofRecord content.isSome r = .ok settings

theorem file_of_optionalFile {isFile : Bool} {v : Option Value} {path : Path}
    (hok : optionalFile isFile v = .ok (some path)) :
    isFile = true ∧ ∃ s, v = some (.text s) ∧ path = Path.ofString s := by
  unfold optionalFile at hok
  split at hok
  · cases hok
  · cases hok
  · rename_i s
    split at hok
    · rename_i hfile
      cases hok
      exact ⟨hfile, s, rfl, rfl⟩
    · cases hok
  · cases hok

theorem fields_of_ofRecord {isFile : Bool} {r : Record} {settings : Settings}
    (hok : Settings.ofRecord isFile r = .ok settings) :
    (∃ text, settings.task = .expression text ∧
      Record.optionalText (r.get? "expression") = .ok (some text) ∧
        optionalFile isFile (r.get? "file_path") = .ok none) ∨
      ∃ path, settings.task = .file path ∧
        Record.optionalText (r.get? "expression") = .ok none ∧
          optionalFile isFile (r.get? "file_path") = .ok (some path) := by
  obtain ⟨⟨file, expression, crew⟩, hboth, hmode⟩ := bind_eq_ok_iff.1 hok
  obtain ⟨hfile, hrest⟩ := Checked.both_eq_ok_iff.1 hboth
  obtain ⟨hexpression, -⟩ := Checked.both_eq_ok_iff.1 hrest
  rw [Record.check_eq_ok_iff] at hfile hexpression
  cases file with
  | none =>
    cases expression with
    | none => cases hmode
    | some text =>
      cases hmode
      exact .inl ⟨text, rfl, hexpression, hfile⟩
  | some path =>
    cases expression with
    | none =>
      cases hmode
      exact .inr ⟨path, rfl, hexpression, hfile⟩
    | some text => cases hmode

theorem filePath?_of_ofRecord {isFile : Bool} {r : Record} {path : Path} {runner : Batch.Runner}
    (hok : Settings.ofRecord isFile r = .ok ⟨.file path, runner⟩) :
    isFile = true ∧ filePath? r = some path := by
  obtain ⟨text, htask, -⟩ | ⟨other, htask, -, hfile⟩ := fields_of_ofRecord hok
  · cases htask
  · cases htask
    obtain ⟨hisFile, s, hget, rfl⟩ := file_of_optionalFile hfile
    refine ⟨hisFile, ?_⟩
    rw [filePath?, hget]

def endingOf (report : Batch.Report) : Ending where
  status := if report.summary.ok then 0 else 1
  log := report.log ++ [closingEntry report.summary]

theorem evaluateFile_eq (runner : Batch.Runner) {path output : Path} (bytes : List UInt8)
    (hresults : path.results = .ok output) :
    let report := Batch.reportOf path.toString output.toString bytes
    evaluateFile runner path bytes =
      .ok ⟨endingOf report, some (output, Utf8.encode report.results)⟩ := by
  have hrun := Batch.run_eq runner path.toString output.toString bytes
  rw [evaluateFile, hresults]
  change Except.bind ((runner.run _ _ bytes).mapError Breakdown.evaluation) _ = _
  rw [mapError_eq_ok_iff.2 hrun]
  rfl

theorem perform_eq_performRecord {files : FileTree} {args : List String} {r : Record}
    {content : Option (List UInt8)} (hrecord : recordOfArguments args = .ok r)
    (hcontent : contentOf files.read r = .ok content) :
    perform files.read args = performRecord content r := by
  rw [perform, hrecord]
  dsimp only
  rw [hcontent]
  rfl

theorem perform_of_accepts {files : FileTree} {args : List String} {path : Path}
    {runner : Batch.Runner} (haccepts : Accepts files args ⟨.file path, runner⟩) :
    ∃ bytes, files.read path = .ok (some bytes) ∧
      perform files.read args = evaluateFile runner path bytes := by
  obtain ⟨r, content, hrecord, hcontent, hsettings⟩ := haccepts
  obtain ⟨hsome, hpath⟩ := filePath?_of_ofRecord hsettings
  obtain ⟨bytes, rfl⟩ := Option.isSome_iff_exists.1 hsome
  have hread : files.read path = .ok (some bytes) := by
    rw [contentOf, hpath] at hcontent
    exact mapError_eq_ok_iff.1 hcontent
  refine ⟨bytes, hread, ?_⟩
  rw [perform_eq_performRecord hrecord hcontent, performRecord, hsettings]
  rfl

theorem ok_summary_iff (input output : String) (bytes : List UInt8) :
    (Batch.reportOf input output bytes).summary.ok = true ↔
      ∀ row ∈ (Batch.reportOf input output bytes).rows, ¬ Marked row := by
  rw [Batch.Summary.ok, Batch.failed_reportOf, beq_iff_eq, List.countP_eq_zero]
  simp

theorem run_of_perform {files after : FileTree} {args : List String} {ending : Ending}
    {output : Path} {bytes : List UInt8}
    (hperform : perform files.read args = .ok ⟨ending, some (output, bytes)⟩)
    (hwrite : files.write output bytes = .ok after) : run args files = .ok (ending, after) := by
  rw [run, hperform]
  change Except.bind ((files.write output bytes).mapError Breakdown.file) _ = _
  rw [mapError_eq_ok_iff.2 hwrite]
  rfl

/-- Whatever the number of workers, the results file, the log and the summary of a batch agree. The
program that is given a file to evaluate leaves that results file behind and ends with that log, and
its status tells whether a line of the file holds the failure mark. -/
theorem reports_agree :
    (∀ (input output : String) (bytes : List UInt8), ∃ report : Batch.Report,
      (∀ runner : Batch.Runner, runner.run input output bytes = .ok report) ∧
        Batch.Tallies (Batch.expressions bytes) output report) ∧
      ∀ (files : FileTree) (args : List String) (path : Path) (runner : Batch.Runner),
        Accepts files args ⟨.file path, runner⟩ →
          ∃ bytes output report ending, files.read path = .ok (some bytes) ∧
            path.results = .ok output ∧
            runner.run path.toString output.toString bytes = .ok report ∧
            perform files.read args =
              .ok ⟨ending, some (output, Utf8.encode report.results)⟩ ∧
            Utf8.decode (Utf8.encode report.results) = report.results.toList ∧
            (∀ after, files.write output (Utf8.encode report.results) = .ok after →
              run args files = .ok (ending, after) ∧
                after.read output = .ok (some (Utf8.encode report.results))) ∧
            ending.log = report.log ++ [closingEntry report.summary] ∧
            ending.status = if ∀ row ∈ report.rows, ¬ Marked row then 0 else 1 := by
  refine ⟨fun input output bytes => ⟨Batch.reportOf input output bytes,
    fun runner => Batch.run_eq runner input output bytes,
    Batch.tallies_reportOf input output bytes⟩, ?_⟩
  intro files args path runner haccepts
  obtain ⟨bytes, hread, hperform⟩ := perform_of_accepts haccepts
  obtain ⟨output, hresults⟩ := Path.exists_results_of_read hread
  rw [evaluateFile_eq runner bytes hresults] at hperform
  exact ⟨bytes, output, Batch.reportOf path.toString output.toString bytes, _, hread, hresults,
    Batch.run_eq _ _ _ _, hperform, Utf8.decode_encode _,
    fun after hwrite => ⟨run_of_perform hperform hwrite, FileTree.read_write_self hwrite⟩, rfl,
    if_congr (ok_summary_iff _ _ bytes) rfl rfl⟩

theorem reports_agree_two_lines :
    let bytes : List UInt8 := [0x31, 0x2B, 0x31, 0x0A, 0x31, 0x2F, 0x30]
    let files : FileTree := ⟨[(["ops.txt"], .file bytes)]⟩
    let args := ["ops.txt", "--workers", "2"]
    (∃ runner : Batch.Runner, runner.workers = some 2 ∧
      Accepts files args ⟨.file (Path.ofString "ops.txt"), runner⟩) ∧
      ∃ ending output after, (Path.ofString "ops.txt").results = .ok output ∧
        run args files = .ok (ending, after) ∧ ending.status = 1 ∧
        after.read output =
          .ok (some (Utf8.encode "1+1 = 2\n1/0 -> ERROR: Division by zero\n")) := by
  intro bytes files args
  have haccepts : Accepts files args
      ⟨.file (Path.ofString "ops.txt"), { workers := some 2 }⟩ :=
    ⟨[("file_path", .text "ops.txt"), ("expression", .null), ("workers", .int 2)], some bytes,
      rfl, rfl, rfl⟩
  refine ⟨⟨_, rfl, haccepts⟩, ?_⟩
  obtain ⟨found, output, report, ending, hread, houtput, hrun, -, -, hwritten, -, hstatus⟩ :=
    reports_agree.2 files args _ _ haccepts
  have hfound : files.read (Path.ofString "ops.txt") = .ok (some bytes) := rfl
  obtain rfl : bytes = found := by
    rw [hfound] at hread
    cases hread
    rfl
  rw [Batch.run_eq] at hrun
  cases hrun
  have hresults (input name : String) : (Batch.reportOf input name bytes).results =
      "1+1 = 2\n1/0 -> ERROR: Division by zero\n" := by
    change (Batch.reportOf "" "" bytes).results = _
    decide +kernel
  obtain ⟨after, hwrite⟩ : ∃ after, files.write output
      (Utf8.encode "1+1 = 2\n1/0 -> ERROR: Division by zero\n") = .ok after := by
    cases houtput
    exact ⟨_, rfl⟩
  rw [hresults] at hwritten
  obtain ⟨hended, hleft⟩ := hwritten after hwrite
  have hmem : "1/0" ∈ Batch.expressions bytes := by decide +kernel
  have herror : evaluate "1/0" = .error .divisionByZero := by decide +kernel
  refine ⟨ending, output, after, houtput, hended, hstatus.trans (if_neg fun hclean => ?_), hleft⟩
  apply hclean (Batch.rowOf "1/0") _ (Batch.marked_of_error herror)
  exact Batch.rows_reportOf _ _ bytes ▸ List.mem_map_of_mem hmem

end CommandLine

end InfixArithmetic
