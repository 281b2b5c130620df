import InfixArithmetic.Path.FileTree
import InfixArithmetic.Path.Results
import Mathlib.Data.List.Basic
/-!
# The place of a results file

The results of a file go to the same folder under a longer name. So the path of the results and that
of the file lead to different places, and the first one leads somewhere wherever the second one
does, unless its name has become too long: `follow_results`. Writing there keeps the way of every
path and what lies at every other place: `changesOnly_write`.
-/

namespace InfixArithmetic

/-! ## Names -/

namespace Path

variable {p output : Path} {name : String} {c : Char}

theorem length_resultsName_le (name : List Char) :
    name.length + 12 ≤ (resultsName name).length := by
  have hending : resultsEnding.length = 12 := by decide
  simp only [resultsName, List.length_append, List.length_take, List.length_map, hending]
  omega

theorem mem_resultsName (hc : c ∈ resultsName name.toList) :
    c ∈ name.toList ∨ c = '.' ∨ c = '_' ∨ c ∈ resultsEnding := by
  simp only [resultsName, List.mem_append] at hc
  rcases hc with (hstem | hsuffix) | hending
  · exact .inl (List.mem_of_mem_take hstem)
  · obtain ⟨d, hd, rfl⟩ := List.mem_map.1 hsuffix
    unfold dotToUnderscore
    split
    · exact .inr (.inr (.inl rfl))
    · exact (mem_of_mem_flatten_suffixes hd).symm.imp_right .inl
  · exact .inr (.inr (.inr hending))

def resultsNameOf (name : String) : String :=
  String.ofList (resultsName name.toList)

theorem length_resultsNameOf_le (name : String) :
    name.toList.length + 12 ≤ (resultsNameOf name).toList.length := by
  rw [resultsNameOf, String.toList_ofList]
  exact length_resultsName_le name.toList

theorem resultsNameOf_ne_self (name : String) : resultsNameOf name ≠ name := by
  intro hsame
  have hlength := length_resultsNameOf_le name
  rw [hsame] at hlength
  omega

theorem resultsNameOf_ne_up (name : String) : resultsNameOf name ≠ ".." := by
  intro hsame
  have hlength := length_resultsNameOf_le name
  have hup : "..".toList.length = 2 := by decide
  rw [hsame, hup] at hlength
  omega

/-! ## Paths -/

/-- A path to the same folder as another one, with another name at its end. -/
def IsBeside (p q : Path) : Prop :=
  p.root = q.root ∧ p.parts.dropLast = q.parts.dropLast ∧ p.name? ≠ q.name?

theorem parts_of_name?_eq_some (hname : p.name? = some name) :
    p.parts = p.parts.dropLast ++ [name] :=
  (List.dropLast_append_getLast? name hname).symm

theorem results_eq_ok (houtput : p.results = .ok output) :
    ∃ name, p.name? = some name ∧ output.root = p.root ∧
      output.parts = p.parts.dropLast ++ [resultsNameOf name] := by
  unfold results at houtput
  split at houtput
  · cases houtput
  · rename_i name hname
    cases houtput
    exact ⟨name, hname, rfl, rfl⟩

theorem isBeside_results (houtput : p.results = .ok output) : output.IsBeside p := by
  obtain ⟨name, hname, hroot, hparts⟩ := results_eq_ok houtput
  refine ⟨hroot, by rw [hparts, List.dropLast_concat], ?_⟩
  rw [hname, name?, hparts, List.getLast?_concat]
  exact fun hsame => resultsNameOf_ne_self name (Option.some.inj hsame)

theorem rootOf_of_not_mem {text : List Char} (hslash : '/' ∉ text) : rootOf text = .relative := by
  cases text with
  | nil => rfl
  | cons c rest =>
    have hc : (c == '/') = false := beq_false_of_ne fun heq => hslash (by simp [heq])
    rw [rootOf, List.takeWhile_cons_of_neg (by simp [hc])]
    rfl

theorem parts_ofString (hpart : IsPathPart name) : (ofString name).parts = [name] := by
  rw [ofString]
  dsimp only
  rw [Text.splitAt_of_not_mem hpart.2.2, List.map_singleton, String.ofList_toList,
    List.filter_cons_of_pos (by simpa using hpart), List.filter_nil]

theorem toString_ofString (hpart : IsPathPart name) : (ofString name).toString = name := by
  have hroot : (ofString name).root = .relative := rootOf_of_not_mem hpart.2.2
  rw [toString, hroot, parts_ofString hpart, if_neg (by simp)]
  simp [PathRoot.text]

theorem mem_join_iff {parts : List String} (hslash : c ≠ '/') :
    c ∈ ("/".intercalate parts).toList ↔ ∃ part ∈ parts, c ∈ part.toList := by
  rw [String.toList_intercalate]
  induction parts with
  | nil => simp
  | cons part rest ih =>
    cases rest with
    | nil => simp
    | cons second others =>
      have hseparator : c ∉ "/".toList := by simpa using hslash
      rw [List.map_cons, List.map_cons, List.intercalate_cons_cons, ← List.map_cons,
        List.mem_append, List.mem_append, or_iff_left hseparator, ih]
      simp only [List.exists_mem_cons_iff]

theorem mem_toString_iff (hslash : c ≠ '/') (hdot : c ≠ '.') :
    c ∈ p.toString.toList ↔ ∃ part ∈ p.parts, c ∈ part.toList := by
  have hroot : c ∉ p.root.text.toList := by
    cases p.root <;> simp [PathRoot.text, hslash]
  unfold toString
  split
  · rename_i hempty
    simp [hempty.2, hdot]
  · rw [String.toList_append, List.mem_append, mem_join_iff hslash]
    exact or_iff_right hroot

theorem mem_toString_results (houtput : p.results = .ok output) (hslash : c ≠ '/') (hdot : c ≠ '.')
    (hending : c ≠ '_' ∧ c ∉ resultsEnding) (hc : c ∈ output.toString.toList) :
    c ∈ p.toString.toList := by
  obtain ⟨name, hname, -, hparts⟩ := results_eq_ok houtput
  obtain ⟨part, hpart, hc⟩ := (mem_toString_iff hslash hdot).1 hc
  rw [mem_toString_iff hslash hdot, parts_of_name?_eq_some hname]
  rw [hparts] at hpart
  rcases List.mem_append.1 hpart with hfolder | hlast
  · exact ⟨part, List.mem_append_left _ hfolder, hc⟩
  · rw [List.mem_singleton.1 hlast, resultsNameOf, String.toList_ofList] at hc
    refine ⟨name, List.mem_append_right _ (List.mem_singleton_self name), ?_⟩
    rcases mem_resultsName hc with hmem | rfl | rfl | hmem
    · exact hmem
    · exact absurd rfl hdot
    · exact absurd rfl hending.1
    · exact absurd hmem hending.2

end Path

/-! ## Following paths -/

namespace FileTree

variable {t before after : FileTree} {p q output : Path} {place folder found : List String}
  {first rest : List String} {part name other : String} {content : List UInt8}

theorem walk_congr (hfolders : ∀ place, after.isFolder place = before.isFolder place)
    (place rest : List String) : after.walk place rest = before.walk place rest := by
  induction rest generalizing place with
  | nil => rfl
  | cons part rest ih => simp only [walk, hfolders, ih]

theorem follow_congr (hfolders : ∀ place, after.isFolder place = before.isFolder place)
    (p : Path) : after.follow p = before.follow p := by
  simp only [follow, walk_congr hfolders]

theorem follow_eq_place_iff :
    t.follow p = .place found ↔
      '\x00' ∉ p.toString.toList ∧ p.toString.utf8ByteSize ≤ maxPathBytes ∧
        t.walk (startOf p.root) p.parts = .place found := by
  unfold follow
  dsimp only
  split
  · rename_i hnull
    exact ⟨nofun, fun h => absurd hnull h.1⟩
  split
  · rename_i hlong
    exact ⟨nofun, fun h => absurd hlong (Nat.not_lt.2 h.2.1)⟩
  · rename_i hnull hlong
    exact ⟨fun hwalk => ⟨hnull, Nat.not_lt.1 hlong, hwalk⟩, fun h => h.2.2⟩

theorem walk_cons_eq_place_iff :
    t.walk place (part :: rest) = .place found ↔
      t.isFolder place = true ∧
        (part = ".." ∧ t.walk (above place) rest = .place found ∨
          part ≠ ".." ∧ part.utf8ByteSize ≤ maxPartBytes ∧
            t.walk (place ++ [part]) rest = .place found) := by
  rw [walk]
  by_cases hfolder : t.isFolder place = true
  · by_cases hup : part = ".."
    · simp [hfolder, hup]
    · by_cases hlong : maxPartBytes < part.utf8ByteSize
      · simp [hfolder, hup, hlong, Nat.not_le.2 hlong]
      · simp [hfolder, hup, hlong, Nat.not_lt.1 hlong]
  · simp [hfolder]

theorem exists_folder_of_walk_append (hwalk : t.walk place (first ++ rest) = .place found) :
    ∃ folder, t.walk place first = .place folder ∧ t.walk folder rest = .place found := by
  induction first generalizing place with
  | nil => exact ⟨place, rfl, hwalk⟩
  | cons part first ih =>
    obtain ⟨hfolder, hstep⟩ := walk_cons_eq_place_iff.1 hwalk
    rcases hstep with ⟨hup, hrest⟩ | ⟨hdown, hshort, hrest⟩
    · obtain ⟨folder, hfirst, hlast⟩ := ih hrest
      exact ⟨folder, walk_cons_eq_place_iff.2 ⟨hfolder, .inl ⟨hup, hfirst⟩⟩, hlast⟩
    · obtain ⟨folder, hfirst, hlast⟩ := ih hrest
      exact ⟨folder, walk_cons_eq_place_iff.2 ⟨hfolder, .inr ⟨hdown, hshort, hfirst⟩⟩, hlast⟩

theorem walk_append (hfirst : t.walk place first = .place folder) (rest : List String) :
    t.walk place (first ++ rest) = t.walk folder rest := by
  induction first generalizing place with
  | nil =>
    cases hfirst
    rfl
  | cons part first ih =>
    obtain ⟨hfolder, hstep⟩ := walk_cons_eq_place_iff.1 hfirst
    rw [List.cons_append, walk, if_pos hfolder]
    rcases hstep with ⟨hup, hrest⟩ | ⟨hdown, hshort, hrest⟩
    · rw [if_pos hup]
      exact ih hrest
    · rw [if_neg hdown, if_neg (Nat.not_lt.2 hshort)]
      exact ih hrest

/-- The last step of a way leads neither to nor past an entry of another name. -/
theorem place_ne_of_walk_last (hwalk : t.walk folder [name] = .place found) (hname : other ≠ name)
    (hup : other ≠ "..") : folder ++ [other] ≠ found := by
  obtain ⟨-, ⟨-, hstep⟩ | ⟨-, -, hstep⟩⟩ := walk_cons_eq_place_iff.1 hwalk
  · cases hstep
    intro hsame
    have hlength := congrArg List.length hsame
    have hlast := congrArg List.getLast? hsame
    rw [List.length_append, List.length_singleton] at hlength
    rw [List.getLast?_concat] at hlast
    unfold above at hlength hlast
    split at hlength
    · omega
    split at hlength
    · rename_i hroot hgiven
      have hdots : ∀ part ∈ folder, part = ".." := by
        simpa [isGiven, hroot] using hgiven
      rw [if_neg hroot, if_pos hgiven] at hlast
      rcases List.mem_cons.1 (List.mem_of_getLast? hlast.symm) with hother | hother
      · exact hup hother
      · exact hup (hdots other hother)
    · rw [List.length_dropLast] at hlength
      omega
  · cases hstep
    exact fun hsame => hname (List.singleton_inj.1 (List.append_cancel_left hsame))

/-- The path of the results leads to another place than that of the file, unless it is too long. -/
theorem follow_results (hfollow : t.follow p = .place found) (houtput : p.results = .ok output) :
    t.follow output = .tooLong ∨ ∃ place, t.follow output = .place place ∧ place ≠ found := by
  obtain ⟨name, hname, hroot, hparts⟩ := Path.results_eq_ok houtput
  obtain ⟨hnull, -, hwalk⟩ := follow_eq_place_iff.1 hfollow
  have hnull' : '\x00' ∉ output.toString.toList := fun hmem =>
    hnull (Path.mem_toString_results houtput (by decide) (by decide) (by decide) hmem)
  rw [Path.parts_of_name?_eq_some hname] at hwalk
  obtain ⟨folder, hfirst, hlast⟩ := exists_folder_of_walk_append hwalk
  have hfolder : t.isFolder folder = true := (walk_cons_eq_place_iff.1 hlast).1
  have hplace := place_ne_of_walk_last hlast (Path.resultsNameOf_ne_self name)
    (Path.resultsNameOf_ne_up name)
  unfold follow
  dsimp only
  rw [if_neg hnull', hroot, hparts, walk_append hfirst, walk, if_pos hfolder,
    if_neg (Path.resultsNameOf_ne_up name)]
  split
  · exact .inl rfl
  split
  · exact .inl rfl
  · exact .inr ⟨_, rfl, hplace⟩

theorem follow_longName (t : FileTree) (hpart : IsPathPart name) (hnull : '\x00' ∉ name.toList)
    (hlong : maxPartBytes < name.utf8ByteSize) : t.follow (Path.ofString name) = .tooLong := by
  have hroot : (Path.ofString name).root = .relative := Path.rootOf_of_not_mem hpart.2.2
  have hstart : t.isFolder (startOf .relative) = true := rfl
  have hup : name ≠ ".." := by
    rintro rfl
    exact absurd hlong (by decide)
  rw [follow, Path.toString_ofString hpart, hroot, Path.parts_ofString hpart, if_neg hnull]
  split
  · rfl
  · rw [walk, if_pos hstart, if_neg hup, if_pos hlong]

/-! ## Writing -/

/-- Two trees in which every path leads to the same place, and that differ at most in what lies
where one path leads to. -/
structure ChangesOnly (before after : FileTree) (p : Path) : Prop where
  follow_eq : ∀ q, after.follow q = before.follow q
  entryAt?_eq : ∀ place, before.follow p ≠ .place place →
    after.entryAt? place = before.entryAt? place

theorem read_congr (hfollow : after.follow q = before.follow q)
    (hentry : ∀ place, before.follow q = .place place →
      after.entryAt? place = before.entryAt? place) : after.read q = before.read q := by
  unfold read
  rw [hfollow]
  cases hplace : before.follow q with
  | place place =>
    dsimp only
    rw [hentry place hplace]
  | nowhere => rfl
  | tooLong => rfl

theorem ChangesOnly.read_eq (hchanges : ChangesOnly before after p)
    (hne : before.follow q ≠ before.follow p) : after.read q = before.read q := by
  refine read_congr (hchanges.follow_eq q) fun place hplace => ?_
  refine hchanges.entryAt?_eq place fun hsame => hne ?_
  rw [hplace, hsame]

theorem write_eq_ok_iff :
    t.write p content = .ok after ↔
      ∃ place, t.follow p = .place place ∧ t.isFolder place = false ∧
        after = t.put place (.file content) := by
  unfold write
  constructor
  · intro hwrite
    split at hwrite
    · cases hwrite
    · cases hwrite
    · rename_i place hfollow
      split at hwrite
      · cases hwrite
      · rename_i hfolder
        cases hwrite
        exact ⟨place, hfollow, Bool.not_eq_true _ ▸ hfolder, rfl⟩
  · rintro ⟨place, hfollow, hfolder, rfl⟩
    rw [hfollow]
    exact if_neg (Bool.not_eq_true _ ▸ hfolder)

theorem isGiven_of_isFolder_eq_false (hplace : t.isFolder place = false) :
    isGiven place = false := by
  rw [← Bool.not_eq_true]
  intro hgiven
  rw [isFolder, entryAt?, if_pos hgiven] at hplace
  cases hplace

theorem isFolder_put_file (hplace : t.isFolder place = false) (content : List UInt8)
    (other : List String) :
    (t.put place (.file content)).isFolder other = t.isFolder other := by
  by_cases hsame : place = other
  · rw [← hsame, hplace, isFolder, entryAt?_put_self t _ (isGiven_of_isFolder_eq_false hplace)]
    rfl
  · rw [isFolder, isFolder, entryAt?_put_of_ne t _ hsame]

theorem changesOnly_write (hwrite : before.write p content = .ok after) :
    ChangesOnly before after p := by
  obtain ⟨place, hfollow, hfolder, rfl⟩ := write_eq_ok_iff.1 hwrite
  refine ⟨follow_congr (isFolder_put_file hfolder content), fun other hother => ?_⟩
  refine entryAt?_put_of_ne before _ ?_
  rintro rfl
  exact hother hfollow

theorem read_write_self (hwrite : before.write p content = .ok after) :
    after.read p = .ok (some content) := by
  have hfollow := (changesOnly_write hwrite).follow_eq p
  obtain ⟨place, hplace, hfolder, rfl⟩ := write_eq_ok_iff.1 hwrite
  unfold read
  rw [hfollow, hplace]
  dsimp only
  rw [entryAt?_put_self before _ (isGiven_of_isFolder_eq_false hfolder)]

theorem exists_write_again (hwrite : before.write p content = .ok after) :
    ∃ again, after.write p content = .ok again ∧
      ∀ place, again.entryAt? place = after.entryAt? place := by
  have hfollow := (changesOnly_write hwrite).follow_eq p
  obtain ⟨place, hplace, hfolder, rfl⟩ := write_eq_ok_iff.1 hwrite
  have hgiven := isGiven_of_isFolder_eq_false hfolder
  have hfolder' := (isFolder_put_file hfolder content place).trans hfolder
  refine ⟨_, write_eq_ok_iff.2 ⟨place, hfollow.trans hplace, hfolder', rfl⟩, fun other => ?_⟩
  by_cases hsame : place = other
  · rw [← hsame, entryAt?_put_self _ _ hgiven, entryAt?_put_self _ _ hgiven]
  · exact entryAt?_put_of_ne _ _ hsame

theorem write_eq_error_iff {e : FileError} :
    t.write p content = .error e ↔
      t.follow p = .tooLong ∧ e = .nameTooLong p ∨ t.follow p = .nowhere ∧ e = .notFound p ∨
        ∃ place, t.follow p = .place place ∧ t.isFolder place = true ∧ e = .isFolder p := by
  unfold write
  constructor
  · intro hwrite
    split at hwrite
    · rename_i hfollow
      cases hwrite
      exact .inl ⟨hfollow, rfl⟩
    · rename_i hfollow
      cases hwrite
      exact .inr (.inl ⟨hfollow, rfl⟩)
    · rename_i place hfollow
      split at hwrite
      · rename_i hfolder
        cases hwrite
        exact .inr (.inr ⟨place, hfollow, hfolder, rfl⟩)
      · cases hwrite
  · rintro (⟨hfollow, rfl⟩ | ⟨hfollow, rfl⟩ | ⟨place, hfollow, hfolder, rfl⟩)
    · rw [hfollow]
    · rw [hfollow]
    · rw [hfollow]
      exact if_pos hfolder

theorem read_eq_error_iff {e : FileError} :
    t.read p = .error e ↔ t.follow p = .tooLong ∧ e = .nameTooLong p := by
  unfold read
  constructor
  · intro hread
    split at hread
    · rename_i hfollow
      cases hread
      exact ⟨hfollow, rfl⟩
    · cases hread
    · split at hread
      · cases hread
      · cases hread
  · rintro ⟨hfollow, rfl⟩
    rw [hfollow]

theorem exists_place_of_read (hread : t.read p = .ok (some content)) :
    ∃ place, t.follow p = .place place ∧ t.entryAt? place = some (.file content) := by
  unfold read at hread
  split at hread
  · cases hread
  · cases hread
  · rename_i place hfollow
    split at hread
    · rename_i hentry
      cases hread
      exact ⟨place, hfollow, hentry⟩
    · cases hread

end FileTree

end InfixArithmetic
