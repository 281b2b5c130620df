import InfixArithmetic.Text.Split
/-!
# Paths

A path is a sequence of parts between slashes, from the working folder or from a root. Empty
parts and parts that are a single dot say nothing and are left out; a part of two dots is
kept, since what it leads to depends on the folders that exist.
-/

namespace InfixArithmetic

/-- Where a path starts: the working folder, the root, or the root of exactly two slashes. -/
inductive PathRoot where
  | relative
  | slash
  | doubleSlash
  deriving DecidableEq

def PathRoot.text : PathRoot → String
  | relative => ""
  | slash => "/"
  | doubleSlash => "//"

def IsPathPart (part : String) : Prop :=
  part ≠ "" ∧ part ≠ "." ∧ '/' ∉ part.toList

instance (part : String) : Decidable (IsPathPart part) :=
  inferInstanceAs (Decidable (_ ∧ _ ∧ _))

/-- A path without parts that say nothing. -/
structure Path where
  root : PathRoot
  parts : List String
  isPathPart : ∀ part ∈ parts, IsPathPart part

namespace Path

def rootOf (text : List Char) : PathRoot :=
  match (text.takeWhile (· == '/')).length with
  | 0 => .relative
  | 2 => .doubleSlash
  | _ => .slash

def ofString (text : String) : Path where
  root := rootOf text.toList
  parts := ((Text.splitAt '/' text.toList).map String.ofList).filter (fun part => IsPathPart part)
  isPathPart := by
    intro part hpart
    simpa using (List.mem_filter.1 hpart).2

/-- The text of a path; the working folder itself is a dot. -/
def toString (p : Path) : String :=
  if p.root = .relative ∧ p.parts = [] then "."
  else p.root.text ++ "/".intercalate p.parts

def name? (p : Path) : Option String :=
  p.parts.getLast?

def withName (p : Path) (name : String) (hname : IsPathPart name) : Path where
  root := p.root
  parts := p.parts.dropLast ++ [name]
  isPathPart := by
    intro part hpart
    rcases List.mem_append.1 hpart with hmem | hmem
    · exact p.isPathPart part (List.dropLast_subset _ hmem)
    · rw [List.mem_singleton.1 hmem]
      exact hname

end Path

end InfixArithmetic
