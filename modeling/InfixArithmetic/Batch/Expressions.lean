import InfixArithmetic.Text.Blank
import InfixArithmetic.Text.Lines
import InfixArithmetic.Text.Utf8
/-!
# The expressions of a file

A file holds one expression a line. Bytes that are no text become replacement characters, so
that they spoil the line they stand on and no other; blank lines are skipped.
-/

namespace InfixArithmetic.Batch

def expressionsOfText (text : List Char) : List String :=
  let trimmed := (Text.lines text).map (Text.trimBy Text.isSpace)
  (trimmed.filter (!·.isEmpty)).map String.ofList

def expressions (bytes : List UInt8) : List String :=
  expressionsOfText (Text.Utf8.decode bytes)

end InfixArithmetic.Batch
