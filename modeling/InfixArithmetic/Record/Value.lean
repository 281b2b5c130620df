/-!
# Records of loosely typed values

A record offers values by field name, as they come from outside. Nothing is known of their
types; the checks of `InfixArithmetic.Record.Check` decide what a field makes of them.
-/

namespace InfixArithmetic

/-- A value offered for a field. Of a list or a record of values no field looks inside. -/
inductive Value where
  | null
  | bool (b : Bool)
  | int (n : Int)
  | real (x : Float)
  | text (s : String)
  | compound

abbrev Record := List (String × Value)

/-- The exponent bits of a real number. Below them are fifty-two bits of its significand, above
them is its sign. -/
def exponentBits (x : Float) : Nat :=
  x.toBits.toNat >>> 52 &&& 0x7FF

def isFiniteReal (x : Float) : Bool :=
  exponentBits x != 0x7FF

/-- The integer that a finite real number is, unless it has a fractional part. -/
def wholeReal? (x : Float) : Option Int :=
  let bits := x.toBits.toNat
  let negative := bits >>> 63 == 1
  let exponent := exponentBits x
  let fraction := bits &&& 0xFFFFFFFFFFFFF
  let significand := if exponent = 0 then fraction else fraction + 0x10000000000000
  let scale := max exponent 1
  let magnitude? : Option Nat :=
    if 1075 ≤ scale then some (significand <<< (scale - 1075))
    else
      let whole := significand >>> (1075 - scale)
      if whole <<< (1075 - scale) = significand then some whole else none
  magnitude?.map fun magnitude => if negative then -(magnitude : Int) else magnitude

end InfixArithmetic
