/-!
# Lines

A text is cut at every line break, and a break at the very end starts no further line. A
carriage return and the line feed after it are one break.
-/

namespace InfixArithmetic.Text

/-- The line breaks: line feed, vertical tab, form feed, carriage return, the file, group and
record separators, next line, and the line and paragraph separators. -/
def isLineBreak (c : Char) : Bool :=
  let n := c.toNat
  (0x0A ≤ n && n ≤ 0x0D) || (0x1C ≤ n && n ≤ 0x1E) || n == 0x85 || n == 0x2028 || n == 0x2029

def lines : List Char → List (List Char)
  | [] => []
  | '\r' :: '\n' :: rest => [] :: lines rest
  | c :: rest =>
    if isLineBreak c then
      [] :: lines rest
    else
      match lines rest with
      | [] => [[c]]
      | line :: others => (c :: line) :: others

end InfixArithmetic.Text
