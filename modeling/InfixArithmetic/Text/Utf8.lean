/-!
# Decoding UTF-8 with replacement

Bytes are decoded one at a time by a machine whose state is the multi-byte sequence under
way. The range allowed for the next byte excludes overlong forms, surrogates and code points
past U+10FFFF as early as possible, so each maximal ill-formed part of the bytes gives
exactly one replacement character, and the byte that breaks a sequence starts afresh.
-/

namespace InfixArithmetic.Text.Utf8

def replacement : Char := '\uFFFD'

/-- A sequence under way: how many bytes follow the next one, the range of the next one, and
the bits of the code point so far. -/
structure Sequence where
  following : Nat
  low : UInt8
  high : UInt8
  bits : Nat

/-- Takes a byte where a character may start: the characters that are complete with it, and
the sequence that it begins. -/
def start (b : UInt8) : List Char × Option Sequence :=
  let n := b.toNat
  if n < 0x80 then ([Char.ofNat n], none)
  else if n < 0xC2 then ([replacement], none)
  else if n < 0xE0 then ([], some ⟨0, 0x80, 0xBF, n - 0xC0⟩)
  else if n < 0xF0 then
    ([], some ⟨1, if n = 0xE0 then 0xA0 else 0x80, if n = 0xED then 0x9F else 0xBF, n - 0xE0⟩)
  else if n < 0xF5 then
    ([], some ⟨2, if n = 0xF0 then 0x90 else 0x80, if n = 0xF4 then 0x8F else 0xBF, n - 0xF0⟩)
  else ([replacement], none)

def next : Option Sequence → UInt8 → List Char × Option Sequence
  | none, b => start b
  | some s, b =>
    if s.low ≤ b ∧ b ≤ s.high then
      let bits := s.bits * 64 + (b.toNat - 0x80)
      match s.following with
      | 0 => ([Char.ofNat bits], none)
      | following + 1 => ([], some ⟨following, 0x80, 0xBF, bits⟩)
    else
      (replacement :: (start b).1, (start b).2)

/-- What is left to write when the bytes end: a sequence under way is ill-formed. -/
def flush : Option Sequence → List Char
  | none => []
  | some _ => [replacement]

def decodeFrom (state : Option Sequence) : List UInt8 → List Char
  | [] => flush state
  | b :: bytes => (next state b).1 ++ decodeFrom (next state b).2 bytes

def decode (bytes : List UInt8) : List Char :=
  decodeFrom none bytes

def encode (text : String) : List UInt8 :=
  text.toUTF8.toList

end InfixArithmetic.Text.Utf8
