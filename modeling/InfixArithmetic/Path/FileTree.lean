import InfixArithmetic.Path.FileError
/-!
# The files around a working folder

A file tree tells what lies at each place. A place is the names of the folders on the way from
the working folder and of the entry itself. Outside the working folder it starts with two dots
for each folder up, or with a slash if the way is from the root. A path is followed part by
part: every part but the last has to be a folder, and two dots lead to the folder above. A part
that is too long stops the way where it is looked up.

Writing a file changes what lies at its own place and nowhere else: `entryAt?_put_self` and
`entryAt?_put_of_ne`.
-/

namespace InfixArithmetic

inductive FileEntry where
  | folder
  | file (content : List UInt8)
  deriving DecidableEq

/-- Entries by place. At a place that is entered twice the first entry counts. -/
structure FileTree where
  entries : List (List String × FileEntry) := []

inductive Destination where
  | place (names : List String)
  | nowhere
  | tooLong
  deriving DecidableEq

namespace FileTree

def maxPartBytes : Nat := 255

def maxPathBytes : Nat := 4095

def startOf : PathRoot → List String
  | .relative => []
  | .slash | .doubleSlash => ["/"]

/-- Whether a place is the root, the working folder or a folder above that. These are always
there. -/
def isGiven (place : List String) : Bool :=
  place == ["/"] || place.all (· == "..")

def isInside (place : List String) : Bool :=
  place.head? != some "/" && place.head? != some ".."

/-- The place of the folder above. The root lies above itself. -/
def above (place : List String) : List String :=
  if place = ["/"] then place
  else if isGiven place then ".." :: place
  else place.dropLast

def entryAt? (t : FileTree) (place : List String) : Option FileEntry :=
  if isGiven place then some .folder
  else (t.entries.find? fun entry => entry.1 == place).map (·.2)

def isFolder (t : FileTree) (place : List String) : Bool :=
  t.entryAt? place = some .folder

def walk (t : FileTree) (place : List String) : List String → Destination
  | [] => .place place
  | part :: rest =>
    if t.isFolder place then
      if part = ".." then t.walk (above place) rest
      else if maxPartBytes < part.utf8ByteSize then .tooLong
      else t.walk (place ++ [part]) rest
    else
      .nowhere

def follow (t : FileTree) (p : Path) : Destination :=
  let text := p.toString
  if '\x00' ∈ text.toList then .nowhere
  else if maxPathBytes < text.utf8ByteSize then .tooLong
  else t.walk (startOf p.root) p.parts

def read (t : FileTree) (p : Path) : Except FileError (Option (List UInt8)) :=
  match t.follow p with
  | .tooLong => .error (.nameTooLong p)
  | .nowhere => .ok none
  | .place place =>
    match t.entryAt? place with
    | some (.file content) => .ok (some content)
    | _ => .ok none

def put (t : FileTree) (place : List String) (entry : FileEntry) : FileTree :=
  ⟨(place, entry) :: t.entries⟩

def write (t : FileTree) (p : Path) (content : List UInt8) : Except FileError FileTree :=
  match t.follow p with
  | .tooLong => .error (.nameTooLong p)
  | .nowhere => .error (.notFound p)
  | .place place =>
    if t.isFolder place then .error (.isFolder p) else .ok (t.put place (.file content))

theorem entryAt?_put_self (t : FileTree) {place : List String} (entry : FileEntry)
    (hplace : isGiven place = false) : (t.put place entry).entryAt? place = some entry := by
  simp [entryAt?, put, hplace]

theorem entryAt?_put_of_ne (t : FileTree) {place other : List String} (entry : FileEntry)
    (hne : place ≠ other) : (t.put place entry).entryAt? other = t.entryAt? other := by
  simp [entryAt?, put, hne]

def enter (t : FileTree) (place : List String) : List String → FileTree × List String
  | [] => (t, place)
  | part :: rest =>
    if part = ".." then
      t.enter (above place) rest
    else
      let place := place ++ [part]
      (if t.isFolder place then t else t.put place .folder).enter place rest

/-- Adds a file under a name, or a folder where the name ends in a slash, with the folders on
the way. -/
def add (t : FileTree) (name : String) (content : List UInt8) : FileTree :=
  let p := Path.ofString name
  if name.toList.getLast? = some '/' then
    (t.enter (startOf p.root) p.parts).1
  else
    match p.name? with
    | none => t
    | some last =>
      let (t, folder) := t.enter (startOf p.root) p.parts.dropLast
      t.put (folder ++ [last]) (.file content)

def places (t : FileTree) : List (List String) :=
  (t.entries.map (·.1)).eraseDups

/-- The files in the working folder that another tree lacks or holds with another content, by
path. -/
def changedSince (t before : FileTree) : List (String × List UInt8) :=
  let changed := (t.places.filter isInside).filterMap fun place =>
    match t.entryAt? place with
    | some (.file content) =>
      if before.entryAt? place = some (.file content) then none
      else some ("/".intercalate place, content)
    | _ => none
  changed.mergeSort fun a b => decide (a.1 ≤ b.1)

end FileTree

end InfixArithmetic
