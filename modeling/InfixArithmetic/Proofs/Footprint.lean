import InfixArithmetic.Proofs.Attached
import InfixArithmetic.Proofs.ResultsFile
/-!
# What the program touches

The program stops before any work, evaluates the expression that it is given, or evaluates the file
that it is given (`perform_cases`). Only in the last case does it log anything or write a file, and
then only the results file, which is never the file that it reads. So what it does depends on the
file that its arguments name and on nothing else in the tree, and it does the same when it is run
again. Where it breaks down, a path is too long to be followed or a folder is in the way:
`run_touches`.
-/

namespace InfixArithmetic.CommandLine

open Evaluation Text

/-- The arguments name a file, whether it is there or not. -/
def NamesFile (args : List String) (path : Path) : Prop :=
  ∃ r, recordOfArguments args = .ok r ∧ filePath? r = some path

def GivesExpression (args : List String) (text : String) : Prop :=
  ∃ r, recordOfArguments args = .ok r ∧ r.get? "expression" = some (.text text) ∧
    r.get? "file_path" = some .null

def GivesFile (files : FileTree) (args : List String) (path : Path) (content : List UInt8) : Prop :=
  files.read path = .ok (some content) ∧ ∃ r, recordOfArguments args = .ok r ∧
    filePath? r = some path ∧ r.get? "expression" = some .null

/-- The program has ended without work, after help or for faulty arguments. -/
def Ending.Stopped (ending : Ending) : Prop :=
  ending.status = 2 ∨ ending.output = helpText

/-- What a run leaves that evaluates the file at a path and puts the results at another one. -/
structure WritesResults (args : List String) (files : FileTree) (path output : Path)
    (ending : Ending) (after : FileTree) : Prop where
  isBeside : output.IsBeside path
  follow_ne : files.follow output ≠ files.follow path
  changesOnly : files.ChangesOnly after output
  read_path : after.read path = files.read path
  read_output : ∃ results, after.read output = .ok (some results)
  output_eq : ending.output = ""
  /-- A second run ends in the same way and leaves the same files. -/
  again : ∃ again, run args after = .ok (ending, again) ∧ again.read output = after.read output ∧
    ∀ place, again.entryAt? place = after.entryAt? place

/-- What is in the way of writing a file at a path whose folder is there. -/
def Hinders (files : FileTree) (output : Path) (e : FileError) : Prop :=
  files.follow output = .tooLong ∧ e = .nameTooLong output ∨
    ∃ place, files.follow output = .place place ∧ files.isFolder place = true ∧
      e = .isFolder output

variable {args : List String} {files after : FileTree} {path output : Path} {text : String}
  {runner : Batch.Runner} {r : Record}

/-! ## What the arguments give -/

theorem exists_draft_of_recordOfArguments (hrecord : recordOfArguments args = .ok r) :
    ∃ d : Draft, r = d.record := by
  obtain ⟨words, -, hrest⟩ := bind_eq_ok_iff.1 hrecord
  obtain ⟨d, -, hrest⟩ := bind_eq_ok_iff.1 hrest
  split at hrest
  · cases hrest
    exact ⟨d, rfl⟩
  · cases hrest

theorem exists_get?_of_recordOfArguments (hrecord : recordOfArguments args = .ok r) :
    (∃ v, r.get? "file_path" = some v) ∧ ∃ v, r.get? "expression" = some v := by
  obtain ⟨d, rfl⟩ := exists_draft_of_recordOfArguments hrecord
  exact ⟨⟨_, rfl⟩, ⟨_, rfl⟩⟩

theorem recordOfArguments_plain {name : String} (hhead : name.toList.head? ≠ some '-') :
    recordOfArguments [name] =
      .ok [("file_path", .text name), ("expression", .null), ("workers", .null)] := by
  have hseparator : name ≠ "--" := by
    rintro rfl
    exact hhead (by decide)
  have hplain : classify name.toList = .ok .plain := by
    unfold classify
    split
    · rename_i hname
      rw [hname] at hhead
      exact absurd rfl hhead
    · rfl
  have hwords : classifyAll [name] = .ok [(name, .plain)] := by
    simp only [classifyAll, if_neg hseparator, hplain]
    rfl
  exact bind_eq_ok_iff.2 ⟨_, hwords, rfl⟩

theorem eq_text_of_optionalText {v : Option Value}
    (hok : Record.optionalText v = .ok (some text)) : v = some (.text text) := by
  unfold Record.optionalText at hok
  split at hok
  · cases hok
  · cases hok
  · cases hok
    rfl
  · cases hok

theorem eq_null_of_optionalText {v : Value} (hok : Record.optionalText (some v) = .ok none) :
    v = .null := by
  cases v with
  | null => rfl
  | bool | int | real | text | compound => cases hok

theorem eq_null_of_optionalFile {isFile : Bool} {v : Value}
    (hok : optionalFile isFile (some v) = .ok none) : v = .null := by
  cases v with
  | null => rfl
  | text s => cases isFile <;> cases hok
  | bool | int | real | compound => cases hok

theorem givesExpression_of_accepts (haccepts : Accepts files args ⟨.expression text, runner⟩) :
    GivesExpression args text := by
  obtain ⟨r, content, hrecord, -, hsettings⟩ := haccepts
  obtain ⟨⟨v, hfile⟩, -⟩ := exists_get?_of_recordOfArguments hrecord
  obtain ⟨other, htask, hexpression, hnone⟩ | ⟨path, htask, -⟩ := fields_of_ofRecord hsettings
  · cases htask
    rw [hfile] at hnone
    exact ⟨r, hrecord, eq_text_of_optionalText hexpression, eq_null_of_optionalFile hnone ▸ hfile⟩
  · cases htask

theorem givesFile_of_accepts (haccepts : Accepts files args ⟨.file path, runner⟩) :
    ∃ content, GivesFile files args path content := by
  obtain ⟨content, hread, -⟩ := perform_of_accepts haccepts
  obtain ⟨r, _, hrecord, -, hsettings⟩ := haccepts
  obtain ⟨-, v, hexpression⟩ := exists_get?_of_recordOfArguments hrecord
  obtain ⟨-, hpath⟩ := filePath?_of_ofRecord hsettings
  obtain ⟨text, htask, -⟩ | ⟨other, -, hnone, -⟩ := fields_of_ofRecord hsettings
  · cases htask
  · rw [hexpression] at hnone
    exact ⟨content, hread, r, hrecord, hpath, eq_null_of_optionalText hnone ▸ hexpression⟩

theorem namesFile_of_accepts (haccepts : Accepts files args ⟨.file path, runner⟩) :
    NamesFile args path := by
  obtain ⟨r, _, hrecord, -, hsettings⟩ := haccepts
  exact ⟨r, hrecord, (filePath?_of_ofRecord hsettings).2⟩

theorem NamesFile.unique {other : Path} (hnames : NamesFile args path)
    (hother : NamesFile args other) : other = path := by
  obtain ⟨r, hrecord, hpath⟩ := hnames
  obtain ⟨r', hrecord', hpath'⟩ := hother
  cases hrecord.symm.trans hrecord'
  exact Option.some.inj (hpath'.symm.trans hpath)

/-! ## What the program does -/

theorem perform_congr (hsame : ∀ path, NamesFile args path → after.read path = files.read path) :
    perform after.read args = perform files.read args := by
  unfold perform
  cases hrecord : recordOfArguments args with
  | error stop => rfl
  | ok r =>
    have hcontent : contentOf after.read r = contentOf files.read r := by
      unfold contentOf
      cases hpath : filePath? r with
      | none => rfl
      | some path =>
        dsimp only
        rw [hsame path ⟨r, hrecord, hpath⟩]
    dsimp only
    rw [hcontent]

theorem contentOf_eq_error {breakdown : Breakdown}
    (herror : contentOf files.read r = .error breakdown) :
    ∃ path, filePath? r = some path ∧ files.follow path = .tooLong ∧
      breakdown = .file (.nameTooLong path) := by
  unfold contentOf at herror
  cases hpath : filePath? r with
  | none =>
    rw [hpath] at herror
    cases herror
  | some path =>
    rw [hpath] at herror
    dsimp only at herror
    cases hread : files.read path with
    | ok content =>
      rw [hread] at herror
      cases herror
    | error e =>
      rw [hread] at herror
      cases herror
      obtain ⟨hfollow, rfl⟩ := FileTree.read_eq_error_iff.1 hread
      exact ⟨path, rfl, hfollow, rfl⟩

theorem contentOf_of_tooLong (hpath : filePath? r = some path)
    (hfollow : files.follow path = .tooLong) :
    contentOf files.read r = .error (.file (.nameTooLong path)) := by
  have hread : files.read path = .error (.nameTooLong path) :=
    FileTree.read_eq_error_iff.2 ⟨hfollow, rfl⟩
  rw [contentOf, hpath]
  dsimp only
  rw [hread]
  rfl

theorem perform_of_tooLong (hnames : NamesFile args path) (hfollow : files.follow path = .tooLong) :
    perform files.read args = .error (.file (.nameTooLong path)) := by
  obtain ⟨r, hrecord, hpath⟩ := hnames
  rw [perform, hrecord]
  dsimp only
  rw [contentOf_of_tooLong hpath hfollow]
  rfl

theorem perform_cases (args : List String) (files : FileTree) :
    (∃ stop : Stop, perform files.read args = .ok { ending := stop.ending }) ∨
      (∃ path, NamesFile args path ∧ files.follow path = .tooLong) ∨
      ∃ settings, Accepts files args settings := by
  cases hrecord : recordOfArguments args with
  | error stop => exact .inl ⟨stop, by rw [perform, hrecord]⟩
  | ok r =>
    cases hcontent : contentOf files.read r with
    | error breakdown =>
      obtain ⟨path, hpath, hfollow, -⟩ := contentOf_eq_error hcontent
      exact .inr (.inl ⟨path, ⟨r, hrecord, hpath⟩, hfollow⟩)
    | ok content =>
      cases hsettings : Settings.ofRecord content.isSome r with
      | error complaints =>
        refine .inl ⟨.usage (Settings.complaintText complaints), ?_⟩
        rw [perform_eq_performRecord hrecord hcontent, performRecord, hsettings]
      | ok settings => exact .inr (.inr ⟨settings, r, content, hrecord, hcontent, hsettings⟩)

theorem exists_evaluateOne (text : String) :
    ∃ ending, evaluateOne text = .ok ending ∧ ending.log = [] ∧ ending.status < 2 := by
  cases hresult : evaluate text with
  | ok v => exact ⟨_, evaluateOne_of_ok hresult, rfl, (by decide : 0 < 2)⟩
  | error e => exact ⟨_, evaluateOne_of_error hresult, rfl, (by decide : 1 < 2)⟩

theorem run_of_accepts_expression (haccepts : Accepts files args ⟨.expression text, runner⟩) :
    ∃ ending, run args files = .ok (ending, files) ∧ ending.log = [] ∧ ending.status < 2 := by
  obtain ⟨ending, hending, hlog, hstatus⟩ := exists_evaluateOne text
  have hperform := perform_of_accepts_expression haccepts hending
  exact ⟨ending, run_of_perform_unwritten hperform, hlog, hstatus⟩

theorem perform_of_accepts_file (haccepts : Accepts files args ⟨.file path, runner⟩) :
    ∃ output results ending, path.results = .ok output ∧
      perform files.read args = .ok ⟨ending, some (output, results)⟩ ∧ ending.output = "" ∧
      ending.status < 2 := by
  obtain ⟨content, hread, hperform⟩ := perform_of_accepts haccepts
  obtain ⟨output, hresults⟩ := Path.exists_results_of_read hread
  rw [evaluateFile_eq runner content hresults] at hperform
  refine ⟨output, _, _, hresults, hperform, rfl, ?_⟩
  unfold endingOf
  dsimp only
  split <;> decide

theorem run_of_write_error {ending : Ending} {results : List UInt8} {e : FileError}
    (hperform : perform files.read args = .ok ⟨ending, some (output, results)⟩)
    (hwrite : files.write output results = .error e) : run args files = .error (.file e) := by
  rw [run, hperform]
  change Except.bind ((files.write output results).mapError Breakdown.file) _ = _
  rw [hwrite]
  rfl

theorem run_of_perform_error {breakdown : Breakdown}
    (hperform : perform files.read args = .error breakdown) :
    run args files = .error breakdown := by
  rw [run, hperform]
  rfl

/-! ## Evaluating a file -/

theorem follow_output (haccepts : Accepts files args ⟨.file path, runner⟩)
    (hresults : path.results = .ok output) :
    files.follow output ≠ files.follow path ∧ files.follow output ≠ .nowhere := by
  obtain ⟨content, hread, -⟩ := perform_of_accepts haccepts
  obtain ⟨found, hfound, -⟩ := FileTree.exists_place_of_read hread
  rw [hfound]
  rcases FileTree.follow_results hfound hresults with hlong | ⟨place, hplace, hne⟩
  · rw [hlong]
    exact ⟨nofun, nofun⟩
  · rw [hplace]
    exact ⟨fun hsame => hne (Destination.place.inj hsame), nofun⟩

theorem write_output_eq_error_iff (haccepts : Accepts files args ⟨.file path, runner⟩)
    (hresults : path.results = .ok output) {results : List UInt8} {e : FileError} :
    files.write output results = .error e ↔ Hinders files output e := by
  rw [FileTree.write_eq_error_iff]
  constructor
  · rintro (hlong | ⟨hnowhere, -⟩ | hfolder)
    · exact .inl hlong
    · exact absurd hnowhere (follow_output haccepts hresults).2
    · exact .inr hfolder
  · rintro (hlong | hfolder)
    · exact .inl hlong
    · exact .inr (.inr hfolder)

theorem writesResults_of_write {ending : Ending} {results : List UInt8}
    (haccepts : Accepts files args ⟨.file path, runner⟩) (hresults : path.results = .ok output)
    (hperform : perform files.read args = .ok ⟨ending, some (output, results)⟩)
    (houtput : ending.output = "") (hwrite : files.write output results = .ok after) :
    WritesResults args files path output ending after := by
  have hchanges := FileTree.changesOnly_write hwrite
  obtain ⟨hne, -⟩ := follow_output haccepts hresults
  have hread : after.read path = files.read path := hchanges.read_eq hne.symm
  have hagain : perform after.read args = perform files.read args := by
    apply perform_congr
    intro other hother
    rw [(namesFile_of_accepts haccepts).unique hother]
    exact hread
  obtain ⟨again, hwriteAgain, hentries⟩ := FileTree.exists_write_again hwrite
  refine ⟨Path.isBeside_results hresults, hne, hchanges, hread,
    ⟨results, FileTree.read_write_self hwrite⟩, houtput, again,
    run_of_perform (hagain.trans hperform) hwriteAgain, ?_, hentries⟩
  exact FileTree.read_congr ((FileTree.changesOnly_write hwriteAgain).follow_eq output)
    fun place _ => hentries place

theorem run_of_accepts_file (haccepts : Accepts files args ⟨.file path, runner⟩) :
    ∃ output, path.results = .ok output ∧
      ((∃ ending after, run args files = .ok (ending, after) ∧ ¬ ending.Stopped ∧
          WritesResults args files path output ending after) ∨
        ∃ e, run args files = .error (.file e) ∧ Hinders files output e) := by
  obtain ⟨output, results, ending, hresults, hperform, houtput, hstatus⟩ :=
    perform_of_accepts_file haccepts
  refine ⟨output, hresults, ?_⟩
  cases hwrite : files.write output results with
  | ok after =>
    refine .inl ⟨ending, after, run_of_perform hperform hwrite, ?_,
      writesResults_of_write haccepts hresults hperform houtput hwrite⟩
    rintro (htwo | hhelp)
    · omega
    · exact absurd (houtput.symm.trans hhelp) (by decide +kernel)
  | error e =>
    exact .inr ⟨e, run_of_write_error hperform hwrite,
      (write_output_eq_error_iff haccepts hresults).1 hwrite⟩

/-! ## The program as a whole -/

theorem stopped_ending (stop : Stop) : stop.ending.Stopped := by
  cases stop with
  | help => exact .inr rfl
  | usage message => exact .inl rfl

theorem log_ending (stop : Stop) : stop.ending.log = [] := by
  cases stop <;> rfl

theorem output_ending (stop : Stop) (hstatus : stop.ending.status = 2) :
    stop.ending.output = "" := by
  cases stop with
  | help => cases hstatus
  | usage message => rfl

/-- How a run goes: it stops before any work, evaluates an expression, evaluates a file, or breaks
down over a path. -/
theorem run_cases (args : List String) (files : FileTree) :
    (∃ stop : Stop, run args files = .ok (stop.ending, files)) ∨
      (∃ path, NamesFile args path ∧ files.follow path = .tooLong ∧
        run args files = .error (.file (.nameTooLong path))) ∨
      (∃ text ending, GivesExpression args text ∧ run args files = .ok (ending, files) ∧
        ending.log = [] ∧ ending.status < 2) ∨
      ∃ path runner, Accepts files args ⟨.file path, runner⟩ := by
  obtain ⟨stop, hstop⟩ | ⟨path, hnames, hfollow⟩ | ⟨⟨task, runner⟩, haccepts⟩ :=
    perform_cases args files
  · exact .inl ⟨stop, run_of_perform_unwritten hstop⟩
  · exact .inr (.inl ⟨path, hnames, hfollow,
      run_of_perform_error (perform_of_tooLong hnames hfollow)⟩)
  · cases task with
    | expression text =>
      obtain ⟨ending, hrun, hlog, hstatus⟩ := run_of_accepts_expression haccepts
      exact .inr (.inr (.inl ⟨text, ending, givesExpression_of_accepts haccepts, hrun, hlog,
        hstatus⟩))
    | file path => exact .inr (.inr (.inr ⟨path, runner, haccepts⟩))

theorem run_of_hinders (haccepts : Accepts files args ⟨.file path, runner⟩)
    (hresults : path.results = .ok output) {e : FileError} (hhinders : Hinders files output e) :
    run args files = .error (.file e) := by
  obtain ⟨output', results, ending, hresults', hperform, -⟩ := perform_of_accepts_file haccepts
  cases hresults.symm.trans hresults'
  exact run_of_write_error hperform ((write_output_eq_error_iff haccepts hresults).2 hhinders)

theorem run_eq_error_iff {breakdown : Breakdown} :
    run args files = .error breakdown ↔
      (∃ path, NamesFile args path ∧ files.follow path = .tooLong ∧
        breakdown = .file (.nameTooLong path)) ∨
      ∃ path runner output e, Accepts files args ⟨.file path, runner⟩ ∧
        path.results = .ok output ∧ Hinders files output e ∧ breakdown = .file e := by
  constructor
  · intro hrun
    obtain ⟨stop, hstop⟩ | ⟨path, hnames, hlong, hbreak⟩ | ⟨text, ended, -, hended, -⟩ |
      ⟨path, runner, haccepts⟩ := run_cases args files
    · cases hrun.symm.trans hstop
    · cases hrun.symm.trans hbreak
      exact .inl ⟨path, hnames, hlong, rfl⟩
    · cases hrun.symm.trans hended
    · obtain ⟨output, hresults, ⟨ended, left, hended, -⟩ | ⟨e, hbreak, hhinders⟩⟩ :=
        run_of_accepts_file haccepts
      · cases hrun.symm.trans hended
      · cases hrun.symm.trans hbreak
        exact .inr ⟨path, runner, output, e, haccepts, hresults, hhinders, rfl⟩
  · rintro (⟨path, hnames, hlong, rfl⟩ |
      ⟨path, runner, output, e, haccepts, hresults, hhinders, rfl⟩)
    · exact run_of_perform_error (perform_of_tooLong hnames hlong)
    · exact run_of_hinders haccepts hresults hhinders

/-- A run that ends has stopped without work, or else its arguments give either an expression or a
file that is there. Only for a file does it log anything or write, and then the results file alone:
that lies beside the file and is another one, so the file stays as it is and a second run ends like
the first. A run breaks down exactly if the file's path or that of its results is too long, or if a
folder lies where the results would go. -/
theorem run_touches (args : List String) (files : FileTree) :
    (∀ ending after, run args files = .ok (ending, after) →
      (ending.Stopped →
        after = files ∧ ending.log = [] ∧ (ending.status = 2 → ending.output = "")) ∧
      (¬ ending.Stopped →
        (∃ text, GivesExpression args text ∧ after = files ∧ ending.log = []) ∨
          ∃ path content output, GivesFile files args path content ∧
            path.results = .ok output ∧ WritesResults args files path output ending after)) ∧
      ∀ breakdown, run args files = .error breakdown ↔
        (∃ path, NamesFile args path ∧ files.follow path = .tooLong ∧
          breakdown = .file (.nameTooLong path)) ∨
        ∃ path runner output e, Accepts files args ⟨.file path, runner⟩ ∧
          path.results = .ok output ∧ Hinders files output e ∧ breakdown = .file e := by
  refine ⟨?_, fun breakdown => run_eq_error_iff⟩
  intro ending after hrun
  obtain ⟨stop, hstop⟩ | ⟨path, -, -, hbreak⟩ | ⟨text, ended, hgives, hended, hlog, hstatus⟩ |
    ⟨path, runner, haccepts⟩ := run_cases args files
  · cases hrun.symm.trans hstop
    exact ⟨fun _ => ⟨rfl, log_ending stop, output_ending stop⟩,
      fun hgoes => absurd (stopped_ending stop) hgoes⟩
  · cases hrun.symm.trans hbreak
  · cases hrun.symm.trans hended
    exact ⟨fun _ => ⟨rfl, hlog, fun htwo => by omega⟩,
      fun _ => .inl ⟨text, hgives, rfl, hlog⟩⟩
  · obtain ⟨output, hresults, ⟨ended, left, hended, hgoes, hwrites⟩ | ⟨e, hbreak, -⟩⟩ :=
      run_of_accepts_file haccepts
    · cases hrun.symm.trans hended
      obtain ⟨content, hgives⟩ := givesFile_of_accepts haccepts
      exact ⟨fun hstopped => absurd hstopped hgoes,
        fun _ => .inr ⟨path, content, output, hgives, hresults, hwrites⟩⟩
    · cases hrun.symm.trans hbreak

theorem run_touches_folder :
    let content : List UInt8 := [0x31, 0x2F, 0x30]
    let files : FileTree := ⟨[(["d"], .folder), (["d", "ops.tar.xz"], .file content)]⟩
    let args := ["d/ops.tar.xz", "--workers", "2"]
    ∃ ending after path output, run args files = .ok (ending, after) ∧ ending.status = 1 ∧
      GivesFile files args path content ∧ output.toString = "d/ops_tar_xz_results.txt" ∧
      WritesResults args files path output ending after := by
  intro content files args
  have hends : (run args files).toOption.map (fun ran => (ran.1.status, ran.1.output)) =
      some (1, "") := by decide +kernel
  have hrecord : recordOfArguments args = .ok [("file_path", .text "d/ops.tar.xz"),
      ("expression", .null), ("workers", .int 2)] := rfl
  have hread : files.read (Path.ofString "d/ops.tar.xz") = .ok (some content) := rfl
  have hresults : (Path.ofString "d/ops.tar.xz").results =
      .ok (Path.ofString "d/ops_tar_xz_results.txt") := rfl
  cases hrun : run args files with
  | error breakdown =>
    rw [hrun] at hends
    cases hends
  | ok ran =>
    obtain ⟨ending, after⟩ := ran
    rw [hrun] at hends
    obtain ⟨hstatus, houtput⟩ := Prod.mk.inj (Option.some.inj hends)
    have hgoes : ¬ ending.Stopped := by
      rintro (htwo | hhelp)
      · exact absurd (hstatus.symm.trans htwo) (by decide)
      · exact absurd (houtput.symm.trans hhelp) (by decide +kernel)
    obtain ⟨text, ⟨r, hr, hexpression, -⟩, -⟩ | ⟨path, found, output, hgives, hbeside, hwrites⟩ :=
      ((run_touches args files).1 ending after hrun).2 hgoes
    · cases hrecord.symm.trans hr
      cases hexpression
    · have ⟨hfound, r, hr, hpath, _⟩ := hgives
      cases hrecord.symm.trans hr
      obtain rfl : Path.ofString "d/ops.tar.xz" = path := Option.some.inj hpath
      cases hread.symm.trans hfound
      cases hresults.symm.trans hbeside
      exact ⟨ending, after, _, _, rfl, hstatus, hgives, by decide +kernel, hwrites⟩

/-- The name of a file that no folder can hold is neither an expression nor a file that is there.
Such arguments are not refused, as they are for every other missing file: the run breaks down. -/
theorem run_longName {name : String} (hhead : name.toList.head? ≠ some '-')
    (hpart : IsPathPart name) (hnull : '\x00' ∉ name.toList)
    (hlong : FileTree.maxPartBytes < name.utf8ByteSize) (files : FileTree) :
    run [name] files = .error (.file (.nameTooLong (Path.ofString name))) ∧
      (¬ ∃ text, GivesExpression [name] text) ∧
      ¬ ∃ path content, GivesFile files [name] path content := by
  have hfollow := files.follow_longName hpart hnull hlong
  have hrecord := recordOfArguments_plain hhead
  have hnames : NamesFile [name] (Path.ofString name) := ⟨_, hrecord, rfl⟩
  refine ⟨run_of_perform_error (perform_of_tooLong hnames hfollow), ?_, ?_⟩
  · rintro ⟨text, r, hr, hexpression, -⟩
    cases hrecord.symm.trans hr
    cases hexpression
  · rintro ⟨path, content, hread, r, hr, hpath, -⟩
    cases hrecord.symm.trans hr
    obtain rfl : Path.ofString name = path := Option.some.inj hpath
    have hbreak := FileTree.read_eq_error_iff.2 ⟨hfollow, rfl⟩
    cases hread.symm.trans hbreak

theorem run_longName_breaksDown :
    let name := String.ofList (List.replicate 256 'a')
    run [name] {} = .error (.file (.nameTooLong (Path.ofString name))) ∧
      (¬ ∃ text, GivesExpression [name] text) ∧
      ¬ ∃ path content, GivesFile {} [name] path content := by
  intro name
  have hletters : name.toList = List.replicate 256 'a' := String.toList_ofList
  have hmem : ∀ c, c ∈ name.toList → c = 'a' := by
    intro c hc
    rw [hletters] at hc
    exact List.eq_of_mem_replicate hc
  have hlong : 255 < name.utf8ByteSize := by decide +kernel
  have hpart : IsPathPart name := by
    refine ⟨?_, ?_, fun hslash => absurd (hmem '/' hslash) (by decide)⟩
    · intro hempty
      rw [hempty] at hlong
      exact absurd hlong (by decide)
    · intro hdot
      rw [hdot] at hlong
      exact absurd hlong (by decide)
  have hhead : name.toList.head? ≠ some '-' := fun hdash =>
    absurd (hmem '-' (List.mem_of_head? hdash)) (by decide)
  exact run_longName hhead hpart (fun hnull => absurd (hmem _ hnull) (by decide)) hlong {}

end InfixArithmetic.CommandLine
