import InfixArithmetic.Proofs.Reports
/-!
# Attached expressions

An expression that is attached to its flag reaches the evaluator as it is written: no part of it is
taken for another flag, for a number or for a file, since an argument is cut at its first equals
sign or after its short flag and nowhere else (`recordOfArguments_attached`). So the program does
what it does for the expression alone, and touches no file: `run_attached`. A pair of dashes is the
one expression that is lost on the way.
-/

namespace InfixArithmetic.CommandLine

open Evaluation Text

/-- An argument that attaches an expression to the flag for expressions. The short flag takes
whatever follows it, except that an equals sign there would be cut off. -/
inductive Attaches (expression : String) : String → Prop
  | long : Attaches expression ("--expression=" ++ expression)
  | short (hne : expression ≠ "") (hhead : expression.toList.head? ≠ some '=') :
    Attaches expression ("-e" ++ expression)

/-! ## Telling the argument apart -/

theorem cutAtEquals_append {name : List Char} (hname : ∀ c ∈ name, (c != '=') = true)
    (value : List Char) : cutAtEquals (name ++ '=' :: value) = (name, some value) := by
  have htake : (name ++ '=' :: value).takeWhile (· != '=') = name := by
    rw [List.takeWhile_append_of_pos hname, List.takeWhile_cons_of_neg (by decide),
      List.append_nil]
  have hdrop : (name ++ '=' :: value).dropWhile (· != '=') = '=' :: value := by
    rw [List.dropWhile_append_of_pos hname, List.dropWhile_cons_of_neg (by decide)]
  rw [cutAtEquals, List.span_eq_takeWhile_dropWhile, htake, hdrop]

theorem fst_cutAtEquals (arg : List Char) : (cutAtEquals arg).1 = arg.takeWhile (· != '=') := by
  rw [cutAtEquals, List.span_eq_takeWhile_dropWhile]
  split
  · rename_i hspan
    exact (congrArg Prod.fst hspan).symm
  · rename_i hspan
    exact (congrArg Prod.fst hspan).symm

theorem classify_of_named {c : Char} {rest name value : List Char} {flag : Flag}
    (hwhole : Flag.ofName? ('-' :: c :: rest) = none)
    (hcut : cutAtEquals ('-' :: c :: rest) = (name, some value))
    (hname : Flag.ofName? name = some flag) :
    classify ('-' :: c :: rest) = .ok (.flag flag (isShort name) (some value)) := by
  simp only [classify, hwhole, hcut, hname]

theorem classify_of_unnamed {c : Char} {rest : List Char}
    (hwhole : Flag.ofName? ('-' :: c :: rest) = none)
    (hname : Flag.ofName? (cutAtEquals ('-' :: c :: rest)).1 = none) :
    classify ('-' :: c :: rest) = classifyOther ('-' :: c :: rest) := by
  cases hcut : cutAtEquals ('-' :: c :: rest) with
  | mk name attached =>
    rw [hcut] at hname
    cases attached with
    | none => simp only [classify, hwhole, hcut]
    | some value => simp only [classify, hwhole, hcut, hname]

theorem classify_long (value : List Char) :
    classify ("--expression=".toList ++ value) = .ok (.flag .expression false (some value)) := by
  have hletters : ∀ c ∈ "--expression".toList, (c != '=') = true :=
    List.all_eq_true.1 (by decide)
  exact classify_of_named rfl (cutAtEquals_append hletters value) rfl

theorem classify_short {c : Char} (hc : c ≠ '=') (rest : List Char) :
    classify ('-' :: 'e' :: c :: rest) = .ok (.flag .expression true (some (c :: rest))) := by
  have hname : (cutAtEquals ('-' :: 'e' :: c :: rest)).1 =
      '-' :: 'e' :: c :: rest.takeWhile (· != '=') := by
    rw [fst_cutAtEquals, List.takeWhile_cons_of_pos (by decide),
      List.takeWhile_cons_of_pos (by decide), List.takeWhile_cons_of_pos (by simpa using hc)]
  rw [classify_of_unnamed rfl (by rw [hname]; rfl)]
  rfl

theorem exists_classify_of_attaches {expression arg : String} (harg : Attaches expression arg) :
    ∃ short, classify arg.toList = .ok (.flag .expression short (some expression.toList)) := by
  cases harg with
  | long =>
    rw [String.toList_append]
    exact ⟨false, classify_long expression.toList⟩
  | short hne hhead =>
    rw [String.toList_append]
    cases htext : expression.toList with
    | nil => exact absurd (String.toList_eq_nil_iff.1 htext) hne
    | cons c rest =>
      have hc : c ≠ '=' := by
        rintro rfl
        rw [htext] at hhead
        exact hhead rfl
      exact ⟨true, classify_short hc rest⟩

theorem ne_separator_of_attaches {expression arg : String} (harg : Attaches expression arg) :
    arg ≠ "--" := by
  intro hseparator
  have hletter : 'e' ∈ arg.toList := by
    cases harg with
    | long => exact String.toList_append ▸ List.mem_append_left _ (by decide)
    | short => exact String.toList_append ▸ List.mem_append_left _ (by decide)
  rw [hseparator] at hletter
  exact absurd hletter (by decide)

/-! ## Taking the argument -/

theorem recordOfArguments_attached {expression arg : String} (hdashes : expression ≠ "--")
    (harg : Attaches expression arg) :
    recordOfArguments [arg] =
      .ok [("file_path", .null), ("expression", .text expression), ("workers", .null)] := by
  obtain ⟨short, hclassify⟩ := exists_classify_of_attaches harg
  have hwords : classifyAll [arg] =
      .ok [(arg, .flag .expression short (some expression.toList))] := by
    simp only [classifyAll, if_neg (ne_separator_of_attaches harg), hclassify]
    rfl
  have hvalue : expression.toList ≠ ['-', '-'] := by
    intro htext
    exact hdashes (String.toList_inj.1 htext)
  have htake : take {} [(arg, .flag .expression short (some expression.toList))] =
      .ok { expression := .text expression } := by
    rw [take, Draft.set, if_neg hvalue, String.ofList_toList]
    · rfl
    · decide
  exact bind_eq_ok_iff.2 ⟨_, hwords, bind_eq_ok_iff.2 ⟨_, htake, rfl⟩⟩

theorem exists_accepts_attached {expression arg : String} (hdashes : expression ≠ "--")
    (harg : Attaches expression arg) (files : FileTree) :
    ∃ runner, Accepts files [arg] ⟨.expression expression, runner⟩ :=
  ⟨_, _, none, recordOfArguments_attached hdashes harg, rfl, rfl⟩

/-! ## What the program does with an expression -/

theorem perform_of_accepts_expression {files : FileTree} {args : List String} {text : String}
    {runner : Batch.Runner} (haccepts : Accepts files args ⟨.expression text, runner⟩)
    {ending : Ending} (hending : evaluateOne text = .ok ending) :
    perform files.read args = .ok { ending } := by
  obtain ⟨r, content, hrecord, hcontent, hsettings⟩ := haccepts
  rw [perform_eq_performRecord hrecord hcontent, performRecord, hsettings]
  dsimp only
  rw [hending]
  rfl

theorem run_of_perform_unwritten {files : FileTree} {args : List String} {ending : Ending}
    (hperform : perform files.read args = .ok { ending }) :
    run args files = .ok (ending, files) := by
  rw [run, hperform]
  rfl

theorem evaluateOne_of_ok {expression : String} {v : Int} (hvalue : evaluate expression = .ok v) :
    evaluateOne expression = .ok { output := Decimal.ofInt v ++ "\n" } := by
  rw [evaluateOne, calculate_of_ok hvalue]
  rfl

theorem evaluateOne_of_error {expression : String} {e : EvalError}
    (herror : evaluate expression = .error e) :
    evaluateOne expression = .ok { status := 1, errors := errorNotice e.message ++ "\n" } := by
  rw [evaluateOne, calculate_of_error herror]
  rfl

/-- The program does with an attached expression what it does with the expression alone, whatever
that looks like: it prints the value, or the failure, and its status tells which. It writes no file
and no log, and it never ends as it does for faulty arguments. -/
theorem run_attached (expression arg : String) (hdashes : expression ≠ "--")
    (harg : Attaches expression arg) (files : FileTree) :
    ∃ ending, evaluateOne expression = .ok ending ∧
      perform files.read [arg] = .ok { ending, written := none } ∧
      run [arg] files = .ok (ending, files) ∧ ending.log = [] ∧ ending.status ≠ 2 ∧
      (∀ v, evaluate expression = .ok v →
        ending.status = 0 ∧ ending.output = Decimal.ofInt v ++ "\n" ∧ ending.errors = "") ∧
      ∀ e, evaluate expression = .error e →
        ending.status = 1 ∧ ending.output = "" ∧
          ending.errors = "Error: " ++ e.message ++ "\n" := by
  obtain ⟨runner, haccepts⟩ := exists_accepts_attached hdashes harg files
  cases hresult : evaluate expression with
  | ok v =>
    have hending := evaluateOne_of_ok hresult
    have hperform := perform_of_accepts_expression haccepts hending
    refine ⟨_, hending, hperform, run_of_perform_unwritten hperform, rfl, (by decide : 0 ≠ 2), ?_,
      nofun⟩
    intro w hw
    cases hw
    exact ⟨rfl, rfl, rfl⟩
  | error e =>
    have hending := evaluateOne_of_error hresult
    have hperform := perform_of_accepts_expression haccepts hending
    refine ⟨_, hending, hperform, run_of_perform_unwritten hperform, rfl, (by decide : 1 ≠ 2),
      nofun, ?_⟩
    intro other hother
    cases hother
    exact ⟨rfl, rfl, rfl⟩

theorem run_attached_dashes :
    let files : FileTree := ⟨[(["ops.txt"], .file [0x31])]⟩
    ("-(2+3)" ≠ "--" ∧ Attaches "-(2+3)" ("-e" ++ "-(2+3)") ∧
        ∃ ending, run ["-e" ++ "-(2+3)"] files = .ok (ending, files) ∧ ending.status = 0 ∧
          ending.output = "-5\n") ∧
      "--help=-e 1" ≠ "--" ∧ Attaches "--help=-e 1" ("--expression=" ++ "--help=-e 1") ∧
        ∃ ending, run ["--expression=" ++ "--help=-e 1"] files = .ok (ending, files) ∧
          ending.status = 1 ∧ ending.errors = "Error: Invalid character: h\n" := by
  intro files
  have hsum : "-(2+3)" ≠ "--" := by decide
  have hhelp : "--help=-e 1" ≠ "--" := by decide
  have hshort : Attaches "-(2+3)" ("-e" ++ "-(2+3)") := .short (by decide) (by decide)
  have hlong : Attaches "--help=-e 1" ("--expression=" ++ "--help=-e 1") := .long
  have hvalue : evaluate "-(2+3)" = .ok (-5) := by decide +kernel
  have herror : evaluate "--help=-e 1" = .error (.invalidCharacter 'h') := by decide +kernel
  obtain ⟨first, -, -, hfirst, -, -, hok, -⟩ := run_attached _ _ hsum hshort files
  obtain ⟨second, -, -, hsecond, -, -, -, hfailed⟩ := run_attached _ _ hhelp hlong files
  obtain ⟨hzero, houtput, -⟩ := hok _ hvalue
  obtain ⟨hone, -, herrors⟩ := hfailed _ herror
  exact ⟨⟨hsum, hshort, first, hfirst, hzero, houtput.trans (by decide +kernel)⟩, hhelp, hlong,
    second, hsecond, hone, herrors⟩

end InfixArithmetic.CommandLine
