import InfixArithmetic.Proofs.ResultsFile
import Mathlib.Data.List.TakeWhile
/-!
# The name of a results file

The suffixes of a name are all of it from the first dot behind its stem on, and dots at its start
belong to the stem: `flatten_suffixes`. So the name of the results file shows the name of the file
character by character, with underscores for the dots in its suffixes (`resultsName_eq`), and it
goes to the same folder. Only a path without a name has no results path: `results_showsName`.
-/

namespace InfixArithmetic

namespace Text

theorem exists_splitAt (mark : Char) (text : List Char) :
    ∃ piece pieces, splitAt mark text = piece :: pieces ∧
      text = piece ++ (pieces.map (mark :: ·)).flatten := by
  induction text with
  | nil => exact ⟨[], [], rfl, rfl⟩
  | cons c rest ih =>
    obtain ⟨piece, pieces, hsplit, hrest⟩ := ih
    by_cases hmark : c = mark
    · refine ⟨[], piece :: pieces, by rw [splitAt, if_pos hmark, hsplit], ?_⟩
      rw [hmark, hrest]
      rfl
    · refine ⟨c :: piece, pieces, by rw [splitAt, if_neg hmark, hsplit], ?_⟩
      rw [List.cons_append, ← hrest]

end Text

namespace Path

variable {name : List Char} {c : Char} {i : Nat}

def leadingDots (name : List Char) : List Char :=
  name.takeWhile (· == '.')

def behindDots (name : List Char) : List Char :=
  name.dropWhile (· == '.')

theorem leadingDots_append (name : List Char) : leadingDots name ++ behindDots name = name :=
  List.takeWhile_append_dropWhile

theorem eq_dot_of_mem_leadingDots (hc : c ∈ leadingDots name) : c = '.' := by
  simpa using List.mem_takeWhile_imp hc

/-- The suffixes of a name are what follows a stem without dots behind those at the start. -/
theorem flatten_suffixes (hlast : name.getLast? ≠ some '.') :
    ∃ stem, '.' ∉ stem ∧ behindDots name = stem ++ (suffixes name).flatten := by
  obtain ⟨stem, pieces, hsplit, hjoin⟩ := Text.exists_splitAt '.' (behindDots name)
  have hmem : stem ∈ Text.splitAt '.' (behindDots name) := by
    rw [hsplit]
    exact List.mem_cons_self
  refine ⟨stem, Text.not_mem_of_mem_splitAt hmem, ?_⟩
  rw [suffixes, if_neg hlast]
  change _ = stem ++ (((Text.splitAt '.' (behindDots name)).drop 1).map _).flatten
  rw [hsplit]
  exact hjoin

theorem dotToUnderscore_of_ne (hc : c ≠ '.') : dotToUnderscore c = c :=
  if_neg hc

theorem dotToUnderscore_ne (c : Char) : dotToUnderscore c ≠ '.' := by
  unfold dotToUnderscore
  split
  · decide
  · assumption

/-- A name with underscores for its dots, those at its start aside. -/
def undotted (name : List Char) : List Char :=
  leadingDots name ++ (behindDots name).map dotToUnderscore

def shownName (name : List Char) : List Char :=
  if name.getLast? = some '.' then name else undotted name

theorem resultsName_eq (name : List Char) : resultsName name = shownName name ++ resultsEnding := by
  unfold resultsName shownName
  dsimp only
  split
  · rename_i hlast
    rw [suffixes, if_pos hlast]
    simp
  · rename_i hlast
    obtain ⟨stem, hstem, hbehind⟩ := flatten_suffixes hlast
    have hname : leadingDots name ++ stem ++ (suffixes name).flatten = name := by
      rw [List.append_assoc, ← hbehind, leadingDots_append]
    have hlength : name.length - (suffixes name).flatten.length =
        (leadingDots name ++ stem).length := by
      have htotal := congrArg List.length hname
      rw [List.length_append] at htotal
      omega
    have htake : name.take (leadingDots name ++ stem).length = leadingDots name ++ stem :=
      (List.prefix_iff_eq_take.1 ⟨_, hname⟩).symm
    have hkeeps : stem.map dotToUnderscore = stem := by
      rw [List.map_congr_left fun c hc => dotToUnderscore_of_ne fun hdot => hstem (hdot ▸ hc)]
      exact List.map_id stem
    rw [hlength, htake, undotted, hbehind, List.map_append, hkeeps, List.append_assoc,
      List.append_assoc]
    simp only [List.append_assoc]

/-! ## Character by character -/

theorem length_shownName (name : List Char) : (shownName name).length = name.length := by
  unfold shownName
  split
  · rfl
  · have hlength := congrArg List.length (leadingDots_append name)
    rw [List.length_append] at hlength
    rw [undotted, List.length_append, List.length_map, hlength]

theorem getElem?_undotted_of_lt (hi : i < (leadingDots name).length) :
    (undotted name)[i]? = some '.' := by
  rw [undotted, List.getElem?_append_left hi, List.getElem?_eq_getElem hi]
  exact congrArg some (eq_dot_of_mem_leadingDots (List.getElem_mem hi))

theorem getElem?_undotted_of_le (hi : (leadingDots name).length ≤ i) :
    (undotted name)[i]? = name[i]?.map dotToUnderscore := by
  rw [undotted, List.getElem?_append_right hi, List.getElem?_map]
  conv_rhs => rw [← leadingDots_append name, List.getElem?_append_right hi]

theorem getElem?_undotted_eq_dot_iff :
    (undotted name)[i]? = some '.' ↔ i < (leadingDots name).length := by
  refine ⟨fun hdot => ?_, getElem?_undotted_of_lt⟩
  by_contra hi
  rw [getElem?_undotted_of_le (Nat.not_lt.1 hi), Option.map_eq_some_iff] at hdot
  obtain ⟨c, -, hc⟩ := hdot
  exact dotToUnderscore_ne c hc

theorem getElem?_shownName_of_ne (hi : name[i]? = some c) (hc : c ≠ '.') :
    (shownName name)[i]? = some c := by
  unfold shownName
  split
  · exact hi
  · by_cases hdots : i < (leadingDots name).length
    · have hdot : name[i]? = some '.' := by
        conv_lhs => rw [← leadingDots_append name]
        rw [List.getElem?_append_left hdots, List.getElem?_eq_getElem hdots]
        exact congrArg some (eq_dot_of_mem_leadingDots (List.getElem_mem hdots))
      exact absurd (Option.some.inj (hi.symm.trans hdot)) hc
    · rw [getElem?_undotted_of_le (Nat.not_lt.1 hdots), hi, Option.map_some,
        dotToUnderscore_of_ne hc]

theorem getElem?_resultsEnding_eq_dot_iff : resultsEnding[i]? = some '.' ↔ i = 8 := by
  have hinside : ∀ j < 12, resultsEnding[j]? = some '.' ↔ j = 8 := by decide
  by_cases hi : i < 12
  · exact hinside i hi
  · have hnone : resultsEnding[i]? = none := List.getElem?_eq_none (Nat.not_lt.1 hi)
    rw [hnone]
    refine iff_of_false (Option.some_ne_none '.').symm ?_
    omega

structure ShowsName (name output : List Char) : Prop where
  /-- A name that does not end in a dot keeps the dots at its start, and any other name all of its
  dots. -/
  eq_append : output =
    (if name.getLast? = some '.' then name
      else leadingDots name ++ (behindDots name).map dotToUnderscore) ++ "_results.txt".toList
  length_eq : output.length = name.length + 12
  keeps : ∀ (i : Nat) (c : Char), name[i]? = some c → c ≠ '.' → output[i]? = some c
  dots : name.getLast? ≠ some '.' → ∀ i : Nat, output[i]? = some '.' ↔
    i < (leadingDots name).length ∨ i = name.length + 8

theorem showsName_resultsName (name : List Char) : ShowsName name (resultsName name) := by
  have hlength := length_shownName name
  rw [resultsName_eq]
  refine ⟨rfl, ?_, fun i c hi hc => ?_, fun hlast i => ?_⟩
  · rw [List.length_append, hlength]
    rfl
  · have hshown := getElem?_shownName_of_ne hi hc
    rw [List.getElem?_append_left (List.getElem?_eq_some_iff.1 hshown).1, hshown]
  · by_cases hi : i < name.length
    · have hundotted : shownName name = undotted name := if_neg hlast
      rw [List.getElem?_append_left (hlength ▸ hi), hundotted, getElem?_undotted_eq_dot_iff]
      exact (or_iff_left (by omega)).symm
    · have hdots : (leadingDots name).length ≤ name.length := (List.takeWhile_sublist _).length_le
      rw [List.getElem?_append_right (hlength ▸ Nat.not_lt.1 hi), hlength,
        getElem?_resultsEnding_eq_dot_iff]
      omega

/-! ## Paths -/

def parent (p : Path) : Path where
  root := p.root
  parts := p.parts.dropLast
  isPathPart := fun part hpart => p.isPathPart part (List.dropLast_subset _ hpart)

variable {p output : Path} {text : String}

theorem parent_eq (hroot : output.root = p.root)
    (hparts : output.parts.dropLast = p.parts.dropLast) : output.parent = p.parent := by
  unfold parent
  simp only [hroot, hparts]

theorem results_eq_error_iff {e : PathError} :
    p.results = .error e ↔ p.name? = none ∧ e = .emptyName p := by
  unfold results
  split
  · rename_i hname
    rw [hname]
    constructor
    · intro herror
      cases herror
      exact ⟨rfl, rfl⟩
    · rintro ⟨-, rfl⟩
      rfl
  · rename_i name hname
    constructor
    · intro herror
      cases herror
    · rintro ⟨hnone, -⟩
      cases hname.symm.trans hnone

theorem name?_eq_none_iff (hroot : p.root = .relative) : p.name? = none ↔ p.toString = "." := by
  rw [name?, List.getLast?_eq_none_iff]
  constructor
  · intro hempty
    exact if_pos ⟨hroot, hempty⟩
  · intro hdot
    by_contra hne
    have hjoin : "/".intercalate p.parts = "." := by
      rw [toString, if_neg fun h => hne h.2, hroot] at hdot
      simpa [PathRoot.text] using hdot
    cases hparts : p.parts with
    | nil => exact hne hparts
    | cons part others =>
      rw [hparts] at hjoin
      cases others with
      | nil =>
        rw [String.intercalate_singleton] at hjoin
        exact (p.isPathPart part (by simp [hparts])).2.1 hjoin
      | cons second others =>
        have hslash : '/' ∈ ("/".intercalate (part :: second :: others)).toList := by
          rw [String.toList_intercalate, List.map_cons, List.map_cons, List.intercalate_cons_cons]
          simp
        rw [hjoin] at hslash
        exact absurd hslash (by decide)

/-- A path has a results path unless it has no name, as the path of the working folder. The results
path leads to the same folder, under a name that shows the name of the file: the dots at its start
and all else but dots are as they were, and the later dots are underscores, unless the name ends in
a dot and is left as it is. -/
theorem results_showsName (p : Path) :
    (∀ e, p.results = .error e ↔ p.name? = none ∧ e = .emptyName p) ∧
      (p.root = .relative →
        (p.name? = none ↔ p.toString = ".") ∧
          (p.name? = none →
            (PathError.emptyName p).message = "PosixPath('.') has an empty name")) ∧
      ∀ name, p.name? = some name → ∃ output renamed, p.results = .ok output ∧
        output.parent = p.parent ∧ output.name? = some renamed ∧
        ShowsName name.toList renamed.toList := by
  refine ⟨fun e => results_eq_error_iff, fun hroot => ⟨name?_eq_none_iff hroot, fun hnone => ?_⟩,
    fun name hname => ?_⟩
  · have hdot := (name?_eq_none_iff hroot).1 hnone
    rw [PathError.message, hdot]
    decide +kernel
  · cases hresults : p.results with
    | error e => cases hname.symm.trans (results_eq_error_iff.1 hresults).1
    | ok output =>
      obtain ⟨found, hfound, hroot, hparts⟩ := results_eq_ok hresults
      cases hname.symm.trans hfound
      refine ⟨output, resultsNameOf name, rfl, parent_eq hroot ?_, ?_, ?_⟩
      · rw [hparts, List.dropLast_concat]
      · rw [name?, hparts, List.getLast?_concat]
      · rw [resultsNameOf, String.toList_ofList]
        exact showsName_resultsName name.toList

theorem results_showsName_dots :
    (∃ output, (ofString "d.x/./..a..b").results = .ok output ∧
        output.toString = "d.x/..a__b_results.txt" ∧
        output.parent = (ofString "d.x/./..a..b").parent ∧
        ShowsName "..a..b".toList "..a__b_results.txt".toList) ∧
      ShowsName ".x.y.".toList ".x.y._results.txt".toList ∧
      ((ofString "./.").root = .relative ∧ (ofString "./.").name? = none ∧
        (ofString "./.").results = .error (.emptyName (ofString "./.")) ∧
        (PathError.emptyName (ofString "./.")).message = "PosixPath('.') has an empty name") := by
  obtain ⟨-, -, hnamed⟩ := results_showsName (ofString "d.x/./..a..b")
  obtain ⟨-, -, hending⟩ := results_showsName (ofString ".x.y.")
  obtain ⟨hfails, hrelative, -⟩ := results_showsName (ofString "./.")
  have hname : (ofString "d.x/./..a..b").name? = some "..a..b" := by decide +kernel
  have hname' : (ofString ".x.y.").name? = some ".x.y." := by decide +kernel
  have hnone : (ofString "./.").name? = none := by decide +kernel
  have hroot : (ofString "./.").root = .relative := by decide +kernel
  refine ⟨?_, ?_, hroot, hnone, (hfails _).2 ⟨hnone, rfl⟩, (hrelative hroot).2 hnone⟩
  · obtain ⟨output, renamed, hresults, hparent, hrenamed, hshows⟩ := hnamed _ hname
    have htext : (ofString "d.x/./..a..b").results.toOption.map toString =
        some "d.x/..a__b_results.txt" := by decide +kernel
    have hlast : (ofString "d.x/./..a..b").results.toOption.bind name? =
        some "..a__b_results.txt" := by decide +kernel
    rw [hresults] at htext hlast
    cases hrenamed.symm.trans hlast
    exact ⟨output, hresults, Option.some.inj htext, hparent, hshows⟩
  · obtain ⟨output, renamed, hresults, -, hrenamed, hshows⟩ := hending _ hname'
    have hlast : (ofString ".x.y.").results.toOption.bind name? = some ".x.y._results.txt" := by
      decide +kernel
    rw [hresults] at hlast
    cases hrenamed.symm.trans hlast
    exact hshows

end Path

end InfixArithmetic
