import InfixArithmetic.Proofs.Footprint
import InfixArithmetic.Proofs.ResultsName
import Mathlib.Data.List.Forall2
/-!
# Files that share a results file

Behind the dots at the start of a name, the name of the results file shows a dot and an underscore
alike. Nothing else about the name is lost: `resultsNameOf_eq_iff`. So two files share their results
path exactly if they lie in one folder and their names differ in that way alone. Only then, or where
two paths lead to one file, can a run touch results that are not its own: `results_shared`.
-/

namespace InfixArithmetic

namespace Path

variable {name other : List Char} {c d : Char}

/-! ## Names -/

/-- Two characters that a results file shows alike behind the dots at the start of a name. -/
def Alike (c d : Char) : Prop :=
  c = d ∨ c = '.' ∧ d = '_' ∨ c = '_' ∧ d = '.'

theorem dotToUnderscore_eq_iff : dotToUnderscore c = dotToUnderscore d ↔ Alike c d := by
  unfold dotToUnderscore Alike
  by_cases hc : c = '.'
  · by_cases hd : d = '.'
    · simp [hc, hd]
    · simp [hc, hd, eq_comm]
  · by_cases hd : d = '.'
    · simp [hc, hd]
    · simp [hc, hd]

/-- Two names that differ in nothing but dots of the one where the other has underscores, all of
them behind the dots at the start, and of which none ends in a dot. -/
structure LookAlike (name other : List Char) : Prop where
  getLast?_left : name.getLast? ≠ some '.'
  getLast?_right : other.getLast? ≠ some '.'
  leadingDots_eq : leadingDots name = leadingDots other
  behindDots_alike : List.Forall₂ Alike (behindDots name) (behindDots other)

theorem length_leadingDots_eq (hsame : undotted name = undotted other) :
    (leadingDots name).length = (leadingDots other).length := by
  have hlt : ∀ i, i < (leadingDots name).length ↔ i < (leadingDots other).length := by
    intro i
    rw [← getElem?_undotted_eq_dot_iff, hsame, getElem?_undotted_eq_dot_iff]
  exact eq_of_forall_lt_iff hlt

theorem undotted_eq_iff :
    undotted name = undotted other ↔ leadingDots name = leadingDots other ∧
      List.Forall₂ Alike (behindDots name) (behindDots other) := by
  have halike : List.Forall₂ Alike (behindDots name) (behindDots other) ↔
      (behindDots name).map dotToUnderscore = (behindDots other).map dotToUnderscore := by
    rw [← List.forall₂_eq_eq_eq, List.forall₂_map_left_iff, List.forall₂_map_right_iff]
    simp only [dotToUnderscore_eq_iff]
  rw [halike]
  constructor
  · intro hsame
    exact List.append_inj hsame (length_leadingDots_eq hsame)
  · rintro ⟨hdots, hbehind⟩
    rw [undotted, undotted, hdots, hbehind]

theorem getLast?_undotted (hlast : (undotted name).getLast? = some '.') :
    name.getLast? = some '.' := by
  rw [← leadingDots_append name]
  rw [undotted] at hlast
  cases hbehind : behindDots name with
  | nil => rwa [hbehind] at hlast
  | cons first rest =>
    rw [hbehind, List.getLast?_append_of_ne_nil _ (by simp), List.getLast?_map,
      Option.map_eq_some_iff] at hlast
    obtain ⟨c, -, hc⟩ := hlast
    exact absurd hc (dotToUnderscore_ne c)

theorem shownName_eq_iff :
    shownName name = shownName other ↔ name = other ∨ LookAlike name other := by
  constructor
  · intro hsame
    unfold shownName at hsame
    split at hsame
    · rename_i hname
      split at hsame
      · exact .inl hsame
      · rename_i hother
        exact absurd (getLast?_undotted (hsame ▸ hname)) hother
    · rename_i hname
      split at hsame
      · rename_i hother
        exact absurd (getLast?_undotted (hsame ▸ hother)) hname
      · rename_i hother
        obtain ⟨hdots, hbehind⟩ := undotted_eq_iff.1 hsame
        exact .inr ⟨hname, hother, hdots, hbehind⟩
  · rintro (rfl | hlook)
    · rfl
    · rw [shownName, if_neg hlook.getLast?_left, shownName, if_neg hlook.getLast?_right]
      exact undotted_eq_iff.2 ⟨hlook.leadingDots_eq, hlook.behindDots_alike⟩

theorem resultsNameOf_eq_iff {n m : String} :
    resultsNameOf n = resultsNameOf m ↔ n = m ∨ LookAlike n.toList m.toList := by
  rw [resultsNameOf, resultsNameOf, String.ofList_inj, resultsName_eq, resultsName_eq,
    List.append_cancel_right_eq, shownName_eq_iff, String.toList_inj]

/-! ## Paths -/

variable {p q pOut qOut : Path} {n m : String}

theorem eq_iff : p = q ↔ p.root = q.root ∧ p.parts = q.parts := by
  constructor
  · rintro rfl
    exact ⟨rfl, rfl⟩
  · rintro ⟨hroot, hparts⟩
    cases p
    cases q
    cases hroot
    cases hparts
    rfl

theorem parent_eq_iff :
    p.parent = q.parent ↔ p.root = q.root ∧ p.parts.dropLast = q.parts.dropLast :=
  eq_iff

theorem exists_results (hp : p.name? = some n) : ∃ output, p.results = .ok output := by
  cases hresults : p.results with
  | error e => cases hp.symm.trans (results_eq_error_iff.1 hresults).1
  | ok output => exact ⟨output, rfl⟩

theorem output_eq_iff (hp : p.name? = some n) (hq : q.name? = some m)
    (hpOut : p.results = .ok pOut) (hqOut : q.results = .ok qOut) :
    pOut = qOut ↔ p.parent = q.parent ∧ (n = m ∨ LookAlike n.toList m.toList) := by
  obtain ⟨_, hname, hroot, hparts⟩ := results_eq_ok hpOut
  obtain ⟨_, hname', hroot', hparts'⟩ := results_eq_ok hqOut
  cases hp.symm.trans hname
  cases hq.symm.trans hname'
  rw [eq_iff, hroot, hroot', hparts, hparts', parent_eq_iff, ← resultsNameOf_eq_iff, and_assoc]
  refine and_congr_right fun _ => ?_
  rw [← List.concat_eq_append, ← List.concat_eq_append, List.concat_inj]

end Path

/-! ## Places -/

namespace FileTree

variable {t : FileTree} {p q output : Path} {n : String} {place found : List String}

def folderOf (t : FileTree) (p : Path) : Destination :=
  t.walk (startOf p.root) p.parts.dropLast

theorem exists_folder_of_follow_results (hname : p.name? = some n)
    (houtput : p.results = .ok output) (hfollow : t.follow output = .place found) :
    ∃ folder, t.folderOf p = .place folder ∧ found = folder ++ [Path.resultsNameOf n] := by
  obtain ⟨name, hname', hroot, hparts⟩ := Path.results_eq_ok houtput
  cases hname.symm.trans hname'
  obtain ⟨-, -, hwalk⟩ := follow_eq_place_iff.1 hfollow
  rw [hroot, hparts] at hwalk
  obtain ⟨folder, hfolder, hlast⟩ := exists_folder_of_walk_append hwalk
  obtain ⟨-, ⟨hup, -⟩ | ⟨-, -, hstep⟩⟩ := walk_cons_eq_place_iff.1 hlast
  · exact absurd hup (Path.resultsNameOf_ne_up n)
  · cases hstep
    exact ⟨folder, hfolder, rfl⟩

end FileTree

/-! ## Runs -/

namespace CommandLine

theorem eq_ok_of_toOption {ε α : Type} {x : Except ε α} {a : α} (hsome : x.toOption = some a) :
    x = .ok a := by
  cases x with
  | error e => cases hsome
  | ok b => exact congrArg Except.ok (Option.some.inj hsome)

variable {args : List String} {files after : FileTree} {ending : Ending} {p q output : Path}

theorem changesOnly_of_run (hnames : NamesFile args p)
    (hrun : run args files = .ok (ending, after)) :
    after = files ∨ ∃ output place, p.results = .ok output ∧ files.follow output = .place place ∧
      files.ChangesOnly after output := by
  obtain ⟨stop, hstop⟩ | ⟨path, -, -, hbreak⟩ | ⟨text, ended, -, hended, -⟩ |
    ⟨path, runner, haccepts⟩ := run_cases args files
  · cases hrun.symm.trans hstop
    exact .inl rfl
  · cases hrun.symm.trans hbreak
  · cases hrun.symm.trans hended
    exact .inl rfl
  · cases hnames.unique (namesFile_of_accepts haccepts)
    obtain ⟨output, hresults, ⟨ended, left, hended, -, hwrites⟩ | ⟨e, hbreak, -⟩⟩ :=
      run_of_accepts_file haccepts
    · cases hrun.symm.trans hended
      obtain ⟨results, hread⟩ := hwrites.read_output
      obtain ⟨place, hplace, -⟩ := FileTree.exists_place_of_read hread
      rw [hwrites.changesOnly.follow_eq] at hplace
      exact .inr ⟨output, place, hresults, hplace, hwrites.changesOnly⟩
    · cases hrun.symm.trans hbreak

/-- Two paths with names have results paths. These are the same exactly if the paths are in one
folder and the names look alike. A run over one file leaves what lies at the results path of the
other one, unless both paths lead into one folder and the names are the same or look alike. -/
theorem results_shared {n m : String} (hp : p.name? = some n) (hq : q.name? = some m)
    (hne : p ≠ q) :
    ∃ pOutput qOutput, p.results = .ok pOutput ∧ q.results = .ok qOutput ∧
      (pOutput = qOutput ↔ p.parent = q.parent ∧ Path.LookAlike n.toList m.toList) ∧
      ∀ args files ending after, NamesFile args p → run args files = .ok (ending, after) →
        after.read qOutput = files.read qOutput ∨
          (∃ folder, files.folderOf p = .place folder ∧ files.folderOf q = .place folder) ∧
            (n = m ∨ Path.LookAlike n.toList m.toList) := by
  obtain ⟨pOutput, hpOutput⟩ := Path.exists_results hp
  obtain ⟨qOutput, hqOutput⟩ := Path.exists_results hq
  refine ⟨pOutput, qOutput, hpOutput, hqOutput, ?_, fun args files ending after hnames hrun => ?_⟩
  · rw [Path.output_eq_iff hp hq hpOutput hqOutput]
    refine and_congr_right fun hparent => or_iff_right fun hsame => hne ?_
    obtain ⟨hroot, hfolder⟩ := Path.parent_eq_iff.1 hparent
    refine Path.eq_iff.2 ⟨hroot, ?_⟩
    rw [Path.parts_of_name?_eq_some hp, Path.parts_of_name?_eq_some hq, hfolder, hsame]
  · rcases changesOnly_of_run hnames hrun with rfl | ⟨output, place, houtput, hplace, hchanges⟩
    · exact .inl rfl
    · cases hpOutput.symm.trans houtput
      by_cases hfollow : files.follow qOutput = files.follow pOutput
      · right
        obtain ⟨folder, hpFolder, hpPlace⟩ :=
          FileTree.exists_folder_of_follow_results hp hpOutput hplace
        obtain ⟨folder', hqFolder, hqPlace⟩ :=
          FileTree.exists_folder_of_follow_results hq hqOutput (hfollow.trans hplace)
        obtain ⟨hsame, hname⟩ := List.append_inj' (hpPlace.symm.trans hqPlace) rfl
        refine ⟨⟨folder, hpFolder, hsame ▸ hqFolder⟩, ?_⟩
        exact Path.resultsNameOf_eq_iff.1 (List.singleton_inj.1 hname)
      · exact .inl (hchanges.read_eq hfollow)

theorem results_shared_folders :
    let files : FileTree := ⟨[(["d"], .folder), (["e"], .folder), (["d", "ops.txt"], .file [0x31]),
      (["e", "ops_txt_results.txt"], .file [0x32])]⟩
    (∃ output, (Path.ofString "d/ops.txt").results = .ok output ∧
        (Path.ofString "d/ops_txt").results = .ok output) ∧
      ∃ ending after output, run ["d/ops.txt"] files = .ok (ending, after) ∧
        (Path.ofString "e/ops_txt").results = .ok output ∧
        after.read output = files.read output := by
  intro files
  have hname : (Path.ofString "d/ops.txt").name? = some "ops.txt" := by decide +kernel
  have hnames : NamesFile ["d/ops.txt"] (Path.ofString "d/ops.txt") :=
    ⟨_, recordOfArguments_plain (by decide), rfl⟩
  constructor
  · have hne : Path.ofString "d/ops.txt" ≠ Path.ofString "d/ops_txt" := fun hsame =>
      absurd (congrArg Path.toString hsame) (by decide +kernel)
    have hname' : (Path.ofString "d/ops_txt").name? = some "ops_txt" := by decide +kernel
    obtain ⟨hdots, hbehind⟩ := Path.undotted_eq_iff.1
      (by decide : Path.undotted "ops.txt".toList = Path.undotted "ops_txt".toList)
    obtain ⟨pOutput, qOutput, hpOutput, hqOutput, hsame, -⟩ := results_shared hname hname' hne
    cases hsame.2 ⟨Path.parent_eq_iff.2 (by decide +kernel),
      by decide, by decide, hdots, hbehind⟩
    exact ⟨_, hpOutput, hqOutput⟩
  · have hne : Path.ofString "d/ops.txt" ≠ Path.ofString "e/ops_txt" := fun hsame =>
      absurd (congrArg Path.toString hsame) (by decide +kernel)
    have hname' : (Path.ofString "e/ops_txt").name? = some "ops_txt" := by decide +kernel
    obtain ⟨pOutput, qOutput, -, hqOutput, -, hruns⟩ := results_shared hname hname' hne
    have hends : (run ["d/ops.txt"] files).toOption.isSome = true := by decide +kernel
    obtain ⟨⟨ending, after⟩, hsome⟩ := Option.isSome_iff_exists.1 hends
    have hrun := eq_ok_of_toOption hsome
    rcases hruns _ _ _ _ hnames hrun with hread | ⟨⟨folder, hd, he⟩, -⟩
    · exact ⟨ending, after, qOutput, hrun, hqOutput, hread⟩
    · have hapart : files.folderOf (Path.ofString "d/ops.txt") ≠
          files.folderOf (Path.ofString "e/ops_txt") := by decide +kernel
      exact absurd (hd.trans he.symm) hapart

/-- The evaluation of one file destroys the results of another one. -/
theorem results_overwritten :
    let files : FileTree := ⟨[(["a.b"], .file [0x31]), (["a_b"], .file [0x32])]⟩
    let p := Path.ofString "a.b"
    let q := Path.ofString "a_b"
    let output := Path.ofString "a_b_results.txt"
    (p ≠ q ∧ p.root = .relative ∧ q.root = .relative ∧ p.name? = some "a.b" ∧
        q.name? = some "a_b" ∧ p.results = .ok output ∧ q.results = .ok output) ∧
      ∃ ending between ending' after, run ["a_b"] files = .ok (ending, between) ∧
        between.read output = .ok (some [0x32, 0x20, 0x3D, 0x20, 0x32, 0x0A]) ∧
        run ["a.b"] between = .ok (ending', after) ∧
        after.read output = .ok (some [0x31, 0x20, 0x3D, 0x20, 0x31, 0x0A]) := by
  intro files p q output
  constructor
  · refine ⟨fun hsame => ?_, by decide +kernel, by decide +kernel, by decide +kernel,
      by decide +kernel, rfl, rfl⟩
    exact absurd (congrArg Path.toString hsame) (by decide +kernel)
  · have hreads : ((run ["a_b"] files).toOption.bind fun first =>
        (run ["a.b"] first.2).toOption.map fun second =>
          ((first.2.read output).toOption, (second.2.read output).toOption)) =
        some (some (some [0x32, 0x20, 0x3D, 0x20, 0x32, 0x0A]),
          some (some [0x31, 0x20, 0x3D, 0x20, 0x31, 0x0A])) := by decide +kernel
    obtain ⟨⟨ending, between⟩, hfirst, hreads⟩ := Option.bind_eq_some_iff.1 hreads
    obtain ⟨⟨ending', after⟩, hsecond, hreads⟩ := Option.map_eq_some_iff.1 hreads
    obtain ⟨hbetween, hafter⟩ := Prod.mk.inj hreads
    exact ⟨ending, between, ending', after, eq_ok_of_toOption hfirst, eq_ok_of_toOption hbetween,
      eq_ok_of_toOption hsecond, eq_ok_of_toOption hafter⟩

end CommandLine

end InfixArithmetic
