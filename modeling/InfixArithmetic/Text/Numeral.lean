import InfixArithmetic.Text.Blank
import InfixArithmetic.Text.DecimalDigit
import InfixArithmetic.Text.Decimal
/-!
# Integers written by hand

Integers as people type them for an option or a field: blanks around, a sign, zeros in front,
and single underscores between digits.

`readArgument` takes the decimal digits of all scripts. `readField` takes the ASCII digits
only; it first brings a text into a plain form, which has no blanks, no zeros in front, no zeros
after a decimal point and no underscores, and then reads that. Zeros in front of a number may
have any underscores among them and a minus sign after them.
-/

namespace InfixArithmetic.Text.Numeral

def maxDigits : Nat := 4300

def readSigned (read : List Char → Option Nat) : List Char → Option Int
  | '-' :: rest => (read rest).map fun n => -(n : Int)
  | '+' :: rest => (read rest).map Int.ofNat
  | rest => (read rest).map Int.ofNat

/-- Reads digits of any script with single underscores between them. -/
def readGrouped (number : Nat) (afterDigit : Bool) : List Char → Option Nat
  | [] => if afterDigit then some number else none
  | c :: rest =>
    if c = '_' then
      if afterDigit then readGrouped number false rest else none
    else
      match decimalValue? c with
      | some d => readGrouped (number * 10 + d) true rest
      | none => none

def readArgument (text : List Char) : Option Int :=
  let text := trimBy isBlank text
  if (text.filter fun c => (decimalValue? c).isSome).length ≤ maxDigits then
    readSigned (readGrouped 0 false) text
  else
    none

/-- What follows some zeros in front of a number. The last zero stays at the end of the text and
before a decimal point. -/
def afterZeros (afterZero : Bool) : List Char → Option (List Char)
  | [] => if afterZero then some ['0'] else none
  | '0' :: rest => afterZeros true rest
  | '_' :: rest => afterZeros false rest
  | '.' :: rest => if afterZero then some ('0' :: '.' :: rest) else none
  | c :: rest => if c = '-' ∨ c.isDigit then some (c :: rest) else none

/-- Drops the zeros in front of a number. A text that starts with no digit is refused. -/
def dropZeros : List Char → Option (List Char)
  | [] => none
  | '0' :: rest => afterZeros true rest
  | c :: rest => if c.isDigit then some (c :: rest) else none

def dropZeroFraction (text : List Char) : List Char :=
  match text.reverse.span (· == '0') with
  | (_ :: _, '.' :: integer) => integer.reverse
  | _ => text

/-- Drops single underscores. A text is refused where one stands at an end or next to another. -/
def dropUnderscores (afterOther : Bool) : List Char → Option (List Char)
  | [] => if afterOther then some [] else none
  | '_' :: rest => if afterOther then dropUnderscores false rest else none
  | c :: rest => (dropUnderscores true rest).map (c :: ·)

theorem eq_filter_of_dropUnderscores {afterOther : Bool} {text plain : List Char}
    (hplain : dropUnderscores afterOther text = some plain) : plain = text.filter (· != '_') := by
  fun_induction dropUnderscores afterOther text generalizing plain with
  | case1 => simp_all
  | case2 => simp at hplain
  | case3 rest ih => simpa using ih hplain
  | case4 => simp at hplain
  | case5 _ c rest hc ih =>
    obtain ⟨tail, htail, rfl⟩ := Option.map_eq_some_iff.1 hplain
    have hne : c ≠ '_' := fun heq => hc heq
    simp [hne, ih htail]

def plainNumber (text : List Char) : Option (List Char) := do
  let number ← dropZeros text
  dropUnderscores false (dropZeroFraction number)

def plainForm (text : List Char) : Option (List Char) :=
  match trimBy isBlank text with
  | '+' :: rest => plainNumber rest
  | '-' :: rest => (plainNumber rest).map ('-' :: ·)
  | rest => plainNumber rest

def readDigits (text : List Char) : Option Nat :=
  if text ≠ [] ∧ text.all Char.isDigit ∧ (text.head? = some '0' → text.length = 1) ∧
      text.length ≤ maxDigits then
    some (Decimal.ofDigits text)
  else
    none

def readField (text : List Char) : Option Int := do
  readSigned readDigits (← plainForm text)

/-- Whether a text starts at once with too many digits of an integer. -/
def isOversized (text : List Char) : Bool :=
  let unsigned := if text.head? = some '-' then text.drop 1 else text
  let digits := unsigned.takeWhile Char.isDigit
  digits.head? != some '0' && maxDigits < digits.length

end InfixArithmetic.Text.Numeral
