import InfixArithmetic.Record.Value
import InfixArithmetic.Text.Numeral
/-!
# Checking records

Each field has a reader that accepts its value or finds a fault. Checks are joined with
`Checked.both`, which complains of every faulty field and not only of the first one.
-/

namespace InfixArithmetic

inductive Fault where
  | missing
  | notText
  | notInteger
  | notFinite
  | fractional
  | unreadableInteger
  | oversized
  | below (bound : Nat)
  | notPath
  | notFile
  | conflict (rule : String)

namespace Fault

def code : Fault → String
  | missing => "missing"
  | notText => "string_type"
  | notInteger => "int_type"
  | notFinite => "finite_number"
  | fractional => "int_from_float"
  | unreadableInteger => "int_parsing"
  | oversized => "int_parsing_size"
  | below _ => "greater_than_equal"
  | notPath => "path_type"
  | notFile => "path_not_file"
  | conflict _ => "value_error"

def message : Fault → String
  | missing => "Field required"
  | notText => "Input should be a valid string"
  | notInteger => "Input should be a valid integer"
  | notFinite => "Input should be a finite number"
  | fractional => "Input should be a valid integer, got a number with a fractional part"
  | unreadableInteger =>
    "Input should be a valid integer, unable to parse string as an integer"
  | oversized => "Unable to parse input string as an integer, exceeded maximum size"
  | below bound =>
    "Input should be greater than or equal to " ++ String.ofList (Text.Decimal.digits bound)
  | notPath => "Input is not a valid path for <class 'pathlib.Path'>"
  | notFile => "Path does not point to a file"
  | conflict rule => "Value error, " ++ rule

end Fault

/-- A fault and the field that it was found in, if it is not the record's as a whole. -/
structure Complaint where
  field : Option String
  fault : Fault

abbrev Checked (α : Type) := Except (List Complaint) α

def Checked.both {α β : Type} : Checked α → Checked β → Checked (α × β)
  | .ok a, .ok b => .ok (a, b)
  | .ok _, .error complaints => .error complaints
  | .error complaints, .ok _ => .error complaints
  | .error first, .error second => .error (first ++ second)

theorem Checked.both_eq_ok_iff {α β : Type} {a : Checked α} {b : Checked β} {x : α} {y : β} :
    Checked.both a b = .ok (x, y) ↔ a = .ok x ∧ b = .ok y := by
  cases a <;> cases b <;> simp [Checked.both]

def Checked.conflict {α : Type} (rule : String) : Checked α :=
  .error [⟨none, .conflict rule⟩]

namespace Record

def get? (r : Record) (name : String) : Option Value :=
  (r.find? fun field => field.1 == name).map (·.2)

def check {α : Type} (r : Record) (name : String) (read : Option Value → Except Fault α) :
    Checked α :=
  (read (r.get? name)).mapError fun fault => [⟨some name, fault⟩]

theorem check_eq_ok_iff {α : Type} {r : Record} {name : String}
    {read : Option Value → Except Fault α} {a : α} :
    r.check name read = .ok a ↔ read (r.get? name) = .ok a := by
  unfold check
  cases read (r.get? name) with
  | error fault => exact ⟨nofun, nofun⟩
  | ok b => exact ⟨fun hok => by cases hok; rfl, fun hok => by cases hok; rfl⟩

def requiredText : Option Value → Except Fault String
  | none => .error .missing
  | some (.text s) => .ok s
  | some _ => .error .notText

def optionalText : Option Value → Except Fault (Option String)
  | none | some .null => .ok none
  | some (.text s) => .ok (some s)
  | some _ => .error .notText

/-- Reads an integer that may be left out and that nothing else stands for. -/
def exactInteger : Option Value → Except Fault (Option Int)
  | none | some .null => .ok none
  | some (.int n) => .ok (some n)
  | some _ => .error .notInteger

/-- The least magnitude at which a real number no longer stands for an integer. -/
def realLimit : Nat := 0x8000000000000000

def integerOfReal (x : Float) : Except Fault Int :=
  if isFiniteReal x then
    match wholeReal? x with
    | some n => if n.natAbs < realLimit then .ok n else .error .oversized
    | none => .error .fractional
  else
    .error .notFinite

def integerOfText (text : List Char) : Except Fault Int :=
  match Text.Numeral.readField text with
  | some n => .ok n
  | none => .error (if Text.Numeral.isOversized text then .oversized else .unreadableInteger)

def integer : Value → Except Fault Int
  | .bool b => .ok (if b then 1 else 0)
  | .int n => .ok n
  | .real x => integerOfReal x
  | .text s => integerOfText s.toList
  | .null | .compound => .error .notInteger

def integerFrom (bound : Nat) (v : Value) : Except Fault Nat := do
  let n ← integer v
  if bound ≤ n then .ok n.toNat else .error (.below bound)

def requiredCount : Option Value → Except Fault Nat
  | none => .error .missing
  | some v => integerFrom 0 v

def optionalPositive : Option Value → Except Fault (Option Nat)
  | none | some .null => .ok none
  | some v => (integerFrom 1 v).map some

theorem one_le_of_optionalPositive {v : Option Value} {n : Nat}
    (hok : optionalPositive v = .ok (some n)) : 1 ≤ n := by
  unfold optionalPositive at hok
  split at hok
  · cases hok
  · cases hok
  · rename_i v _
    unfold integerFrom at hok
    cases hinteger : integer v with
    | error fault => simp [hinteger, bind, Except.bind, Except.map] at hok
    | ok m =>
      simp only [hinteger, bind, Except.bind] at hok
      split at hok
      · rename_i hbound
        simp only [Except.map, Except.ok.injEq, Option.some.injEq] at hok
        omega
      · cases hok

end Record

end InfixArithmetic
