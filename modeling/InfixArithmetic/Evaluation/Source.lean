/-!
# A text under a cursor

The text of an expression never changes while it is read; only the cursor moves. `rest`
keeps what lies from the cursor on, so that reading a character does not walk the text
again. A cursor may stand past the end, where nothing is left.
-/

namespace InfixArithmetic.Evaluation

/-- A text, the number of characters passed, and the characters from there on. -/
structure Source where
  text : List Char
  cursor : Nat
  rest : List Char
  rest_eq_drop : rest = text.drop cursor

namespace Source

def startingAt (text : List Char) (cursor : Nat) : Source :=
  ⟨text, cursor, text.drop cursor, rfl⟩

def ofText (text : List Char) : Source :=
  ⟨text, 0, text, rfl⟩

def advance (s : Source) (n : Nat) : Source where
  text := s.text
  cursor := s.cursor + n
  rest := s.rest.drop n
  rest_eq_drop := by rw [s.rest_eq_drop, List.drop_drop]

def atEnd (s : Source) : Bool :=
  s.rest.isEmpty

@[simp] theorem text_advance (s : Source) (n : Nat) : (s.advance n).text = s.text := rfl

@[simp] theorem cursor_advance (s : Source) (n : Nat) :
    (s.advance n).cursor = s.cursor + n := rfl

@[simp] theorem rest_advance (s : Source) (n : Nat) : (s.advance n).rest = s.rest.drop n := rfl

theorem head?_rest (s : Source) : s.rest.head? = s.text[s.cursor]? := by
  rw [s.rest_eq_drop, List.head?_drop]

theorem length_rest (s : Source) : s.rest.length = s.text.length - s.cursor := by
  rw [s.rest_eq_drop, List.length_drop]

theorem atEnd_iff (s : Source) : s.atEnd = true ↔ s.text.length ≤ s.cursor := by
  rw [atEnd, List.isEmpty_iff, s.rest_eq_drop, List.drop_eq_nil_iff]

end Source

end InfixArithmetic.Evaluation
