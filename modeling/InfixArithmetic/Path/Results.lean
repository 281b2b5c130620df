import InfixArithmetic.Path.Basic
import InfixArithmetic.Text.Quoted
/-!
# Where results go

The results of a file go next to it. The name of the results file shows the whole name of the
file: its suffixes stay, with underscores for their dots, and an ending is put after them.
-/

namespace InfixArithmetic.Path

/-- The suffixes of a name, each with its dot in front. Dots at the start belong to the stem,
and a name that ends in a dot has no suffixes. -/
def suffixes (name : List Char) : List (List Char) :=
  if name.getLast? = some '.' then []
  else ((Text.splitAt '.' (name.dropWhile (· == '.'))).drop 1).map ('.' :: ·)

def resultsEnding : List Char := "_results.txt".toList

def dotToUnderscore (c : Char) : Char :=
  if c = '.' then '_' else c

def resultsName (name : List Char) : List Char :=
  let suffix := (suffixes name).flatten
  let stem := name.take (name.length - suffix.length)
  stem ++ suffix.map dotToUnderscore ++ resultsEnding

inductive PathError where
  | emptyName (path : Path)

def PathError.message : PathError → String
  | emptyName path =>
    "PosixPath(" ++ String.ofList (Text.Quoted.encode path.toString.toList) ++
      ") has an empty name"

theorem mem_of_mem_flatten_suffixes {name : List Char} {c : Char}
    (hc : c ∈ (suffixes name).flatten) : c = '.' ∨ c ∈ name := by
  obtain ⟨suffix, hsuffix, hc⟩ := List.mem_flatten.1 hc
  unfold suffixes at hsuffix
  split at hsuffix
  · cases hsuffix
  · obtain ⟨piece, hpiece, rfl⟩ := List.mem_map.1 hsuffix
    rcases List.mem_cons.1 hc with hdot | hc
    · exact Or.inl hdot
    · have hdrop := Text.mem_of_mem_splitAt (List.mem_of_mem_drop hpiece) hc
      exact Or.inr ((List.dropWhile_sublist _).subset hdrop)

theorem isPathPart_resultsName {name : String} (hname : IsPathPart name) :
    IsPathPart (String.ofList (resultsName name.toList)) := by
  have hlength : 12 ≤ (resultsName name.toList).length := by
    have hending : resultsEnding.length = 12 := by decide
    simp only [resultsName, List.length_append, hending]
    omega
  have hslash : '/' ∉ resultsName name.toList := by
    intro hmem
    simp only [resultsName, List.mem_append] at hmem
    rcases hmem with (hstem | hsuffix) | hending
    · exact hname.2.2 (List.mem_of_mem_take hstem)
    · obtain ⟨d, hd, heq⟩ := List.mem_map.1 hsuffix
      unfold dotToUnderscore at heq
      split at heq
      · exact absurd heq (by decide)
      · subst heq
        rcases mem_of_mem_flatten_suffixes hd with hdot | hd
        · exact absurd hdot (by decide)
        · exact hname.2.2 hd
    · exact absurd hending (by decide)
  refine ⟨?_, ?_, by simpa using hslash⟩
  · intro hempty
    have htoList := congrArg String.toList hempty
    simp only [String.toList_ofList] at htoList
    simp [htoList] at hlength
  · intro hdot
    have htoList := congrArg String.toList hdot
    simp only [String.toList_ofList] at htoList
    simp [htoList] at hlength

def results (p : Path) : Except PathError Path :=
  match _hname : p.name? with
  | none => .error (.emptyName p)
  | some name =>
    .ok (p.withName (String.ofList (resultsName name.toList))
      (isPathPart_resultsName (p.isPathPart name (List.mem_of_getLast? _hname))))

end InfixArithmetic.Path
