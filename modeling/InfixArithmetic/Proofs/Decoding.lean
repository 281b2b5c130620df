import InfixArithmetic.Text.Utf8
import Mathlib.Data.List.Basic
/-!
# Decoded bytes

A sequence under way is the beginning of the encoding of a character: whatever bytes it still
accepts, in the end it is the encoding of the character that is decoded from it (`Completes`). So
bytes that are decoded without a replacement character are the encoding of a text
(`isValidUTF8_of_decode`). An ASCII byte ends every sequence under way, hence the bytes on its two
sides are decoded apart: `decode_append_ascii`.
-/

namespace InfixArithmetic.Text.Utf8

open String (utf8EncodeChar)

variable {n : Nat} {a b c d : UInt8}

/-! ## Encodings of one to four bytes -/

theorem toNat_val_ofNat (hvalid : n.isValidChar) : (Char.ofNat n).val.toNat = n := by
  rw [Char.ofNat, dif_pos hvalid]
  rfl

theorem utf8EncodeChar_eq_one (hn : n < 0x80) (ha : a.toNat = n) :
    utf8EncodeChar (Char.ofNat n) = [a] := by
  have hval : (Char.ofNat n).val.toNat = n := toNat_val_ofNat (.inl (by omega))
  simp only [utf8EncodeChar, hval]
  rw [if_pos (by omega), ← ha, UInt8.ofNat_toNat]

theorem utf8EncodeChar_eq_two (hlow : 0x80 ≤ n) (hhigh : n < 0x800)
    (ha : a.toNat = n / 64 + 0xC0) (hb : b.toNat = n % 64 + 0x80) :
    utf8EncodeChar (Char.ofNat n) = [a, b] := by
  have hval : (Char.ofNat n).val.toNat = n := toNat_val_ofNat (.inl (by omega))
  have hfirst : n / 64 % 32 = n / 64 := by omega
  simp only [utf8EncodeChar, hval]
  rw [if_neg (by omega), if_pos (by omega), hfirst, ← ha, ← hb, UInt8.ofNat_toNat,
    UInt8.ofNat_toNat]

theorem utf8EncodeChar_eq_three (hlow : 0x800 ≤ n) (hhigh : n < 0x10000)
    (hvalid : n < 0xD800 ∨ 0xDFFF < n) (ha : a.toNat = n / 4096 + 0xE0)
    (hb : b.toNat = n / 64 % 64 + 0x80) (hc : c.toNat = n % 64 + 0x80) :
    utf8EncodeChar (Char.ofNat n) = [a, b, c] := by
  have hval : (Char.ofNat n).val.toNat = n :=
    toNat_val_ofNat (hvalid.imp_right fun h => ⟨h, by omega⟩)
  have hfirst : n / 4096 % 16 = n / 4096 := by omega
  simp only [utf8EncodeChar, hval]
  rw [if_neg (by omega), if_neg (by omega), if_pos (by omega), hfirst, ← ha, ← hb, ← hc,
    UInt8.ofNat_toNat, UInt8.ofNat_toNat, UInt8.ofNat_toNat]

theorem utf8EncodeChar_eq_four (hlow : 0x10000 ≤ n) (hhigh : n < 0x110000)
    (ha : a.toNat = n / 262144 + 0xF0) (hb : b.toNat = n / 4096 % 64 + 0x80)
    (hc : c.toNat = n / 64 % 64 + 0x80) (hd : d.toNat = n % 64 + 0x80) :
    utf8EncodeChar (Char.ofNat n) = [a, b, c, d] := by
  have hval : (Char.ofNat n).val.toNat = n := toNat_val_ofNat (.inr ⟨by omega, hhigh⟩)
  have hfirst : n / 262144 % 8 = n / 262144 := by omega
  simp only [utf8EncodeChar, hval]
  rw [if_neg (by omega), if_neg (by omega), if_neg (by omega), hfirst, ← ha, ← hb, ← hc, ← hd,
    UInt8.ofNat_toNat, UInt8.ofNat_toNat, UInt8.ofNat_toNat, UInt8.ofNat_toNat]

/-! ## Sequences under way -/

/-- Whichever bytes a sequence still accepts behind those that it has started with, all of them
together encode the character with its bits. -/
def Completes (started : List UInt8) (low high : UInt8) (bits : Nat) : Nat → Prop
  | 0 => ∀ b, low ≤ b → b ≤ high →
    utf8EncodeChar (Char.ofNat (bits * 64 + (b.toNat - 0x80))) = started ++ [b]
  | following + 1 => ∀ b, low ≤ b → b ≤ high →
    Completes (started ++ [b]) 0x80 0xBF (bits * 64 + (b.toNat - 0x80)) following

theorem toNat_range {low high : UInt8} (hlow : low ≤ b) (hhigh : b ≤ high) :
    low.toNat ≤ b.toNat ∧ b.toNat ≤ high.toNat :=
  ⟨UInt8.le_iff_toNat_le.1 hlow, UInt8.le_iff_toNat_le.1 hhigh⟩

theorem toNat_cut_range {p q : Prop} [Decidable p] [Decidable q] {low high : UInt8}
    (hlow : (if p then low else 0x80) ≤ b) (hhigh : b ≤ if q then high else 0xBF) :
    (p → low.toNat ≤ b.toNat) ∧ (¬ p → 0x80 ≤ b.toNat) ∧ (q → b.toNat ≤ high.toNat) ∧
      (¬ q → b.toNat ≤ 0xBF) := by
  refine ⟨fun hp => ?_, fun hp => ?_, fun hq => ?_, fun hq => ?_⟩
  · rw [if_pos hp] at hlow
    exact UInt8.le_iff_toNat_le.1 hlow
  · rw [if_neg hp] at hlow
    exact UInt8.le_iff_toNat_le.1 hlow
  · rw [if_pos hq] at hhigh
    exact UInt8.le_iff_toNat_le.1 hhigh
  · rw [if_neg hq] at hhigh
    exact UInt8.le_iff_toNat_le.1 hhigh

theorem completes_two (hlow : 0xC2 ≤ a.toNat) (hhigh : a.toNat < 0xE0) :
    Completes [a] 0x80 0xBF (a.toNat - 0xC0) 0 := by
  intro b hb hb'
  obtain ⟨hb, hb'⟩ : 0x80 ≤ b.toNat ∧ b.toNat ≤ 0xBF := toNat_range hb hb'
  apply utf8EncodeChar_eq_two <;> omega

theorem completes_three (hlow : 0xE0 ≤ a.toNat) (hhigh : a.toNat < 0xF0) :
    Completes [a] (if a.toNat = 0xE0 then 0xA0 else 0x80) (if a.toNat = 0xED then 0x9F else 0xBF)
      (a.toNat - 0xE0) 1 := by
  intro b hb hb' c hc hc'
  have hrange := toNat_cut_range hb hb'
  simp only [UInt8.reduceToNat] at hrange
  obtain ⟨hc, hc'⟩ : 0x80 ≤ c.toNat ∧ c.toNat ≤ 0xBF := toNat_range hc hc'
  apply utf8EncodeChar_eq_three <;> omega

theorem completes_four (hlow : 0xF0 ≤ a.toNat) (hhigh : a.toNat < 0xF5) :
    Completes [a] (if a.toNat = 0xF0 then 0x90 else 0x80) (if a.toNat = 0xF4 then 0x8F else 0xBF)
      (a.toNat - 0xF0) 2 := by
  intro b hb hb' c hc hc' d hd hd'
  have hrange := toNat_cut_range hb hb'
  simp only [UInt8.reduceToNat] at hrange
  obtain ⟨hc, hc'⟩ : 0x80 ≤ c.toNat ∧ c.toNat ≤ 0xBF := toNat_range hc hc'
  obtain ⟨hd, hd'⟩ : 0x80 ≤ d.toNat ∧ d.toNat ≤ 0xBF := toNat_range hd hd'
  apply utf8EncodeChar_eq_four <;> omega

/-- The bytes that a decoder has taken and not yet written: those of a sequence under way. -/
def Holds (started : List UInt8) : Option Sequence → Prop
  | none => started = []
  | some s => 0x80 ≤ s.low ∧ Completes started s.low s.high s.bits s.following

theorem holds_start (b : UInt8) :
    ∃ started, Holds started (start b).2 ∧
      (replacement ∉ (start b).1 → (start b).1.flatMap utf8EncodeChar ++ started = [b]) := by
  unfold start
  dsimp only
  split
  · rename_i hascii
    refine ⟨[], rfl, fun _ => ?_⟩
    simp [utf8EncodeChar_eq_one hascii rfl]
  split
  · exact ⟨[], rfl, fun hclean => absurd (List.mem_singleton_self _) hclean⟩
  split
  · exact ⟨[b], ⟨UInt8.le_refl _, completes_two (by omega) (by omega)⟩, fun _ => rfl⟩
  split
  · refine ⟨[b], ⟨?_, completes_three (by omega) (by omega)⟩, fun _ => rfl⟩
    dsimp only
    split <;> decide
  split
  · refine ⟨[b], ⟨?_, completes_four (by omega) (by omega)⟩, fun _ => rfl⟩
    dsimp only
    split <;> decide
  · exact ⟨[], rfl, fun hclean => absurd (List.mem_singleton_self _) hclean⟩

theorem next_of_not {s : Sequence} (hoff : ¬ (s.low ≤ b ∧ b ≤ s.high)) :
    next (some s) b = (replacement :: (start b).1, (start b).2) :=
  if_neg hoff

theorem holds_next {started : List UInt8} {state : Option Sequence} (hstate : Holds started state)
    (b : UInt8) :
    ∃ now, Holds now (next state b).2 ∧
      (replacement ∉ (next state b).1 →
        (next state b).1.flatMap utf8EncodeChar ++ now = started ++ [b]) := by
  cases state with
  | none =>
    cases hstate
    exact holds_start b
  | some s =>
    obtain ⟨following, low, high, bits⟩ := s
    obtain ⟨-, hcompletes⟩ := hstate
    by_cases hrange : low ≤ b ∧ b ≤ high
    · rw [next, if_pos hrange]
      cases following with
      | zero =>
        refine ⟨[], rfl, fun _ => ?_⟩
        have hchar := hcompletes b hrange.1 hrange.2
        simpa using hchar
      | succ following =>
        exact ⟨started ++ [b], ⟨UInt8.le_refl _, hcompletes b hrange.1 hrange.2⟩, fun _ => rfl⟩
    · rw [next_of_not hrange]
      obtain ⟨now, hnow, -⟩ := holds_start b
      exact ⟨now, hnow, fun hclean => absurd List.mem_cons_self hclean⟩

/-! ## Runs of the decoder -/

theorem decodeFrom_cons (state : Option Sequence) (b : UInt8) (bytes : List UInt8) :
    decodeFrom state (b :: bytes) = (next state b).1 ++ decodeFrom (next state b).2 bytes :=
  rfl

theorem flatMap_decodeFrom {started : List UInt8} {state : Option Sequence}
    (hstate : Holds started state) {bytes : List UInt8}
    (hclean : replacement ∉ decodeFrom state bytes) :
    (decodeFrom state bytes).flatMap utf8EncodeChar = started ++ bytes := by
  induction bytes generalizing started state with
  | nil =>
    cases state with
    | none =>
      cases hstate
      rfl
    | some s => exact absurd (List.mem_singleton_self _) hclean
  | cons b bytes ih =>
    rw [decodeFrom_cons, List.mem_append, not_or] at hclean
    obtain ⟨now, hnow, hwritten⟩ := holds_next hstate b
    calc (decodeFrom state (b :: bytes)).flatMap utf8EncodeChar
        = (next state b).1.flatMap utf8EncodeChar ++
            (decodeFrom (next state b).2 bytes).flatMap utf8EncodeChar := by
          rw [decodeFrom_cons, List.flatMap_append]
      _ = (next state b).1.flatMap utf8EncodeChar ++ now ++ bytes := by
          rw [ih hnow hclean.2, List.append_assoc]
      _ = started ++ b :: bytes := by
          rw [hwritten hclean.1, List.append_assoc, List.singleton_append]

theorem isValidUTF8_of_decode {bytes : List UInt8} (hclean : replacement ∉ decode bytes) :
    bytes.toByteArray.IsValidUTF8 := by
  have hstart : Holds [] (none : Option Sequence) := rfl
  have hencoded := flatMap_decodeFrom hstart hclean
  refine .intro (decode bytes) ?_
  rw [List.utf8Encode, decode, hencoded, List.nil_append]

theorem decodeFrom_append_ascii {started : List UInt8} {state : Option Sequence}
    (hstate : Holds started state) {b : UInt8} (hascii : b.toNat < 0x80) (front back : List UInt8) :
    decodeFrom state (front ++ b :: back) =
      decodeFrom state front ++ Char.ofNat b.toNat :: decode back := by
  have hstart : start b = ([Char.ofNat b.toNat], none) := by
    rw [start]
    exact if_pos hascii
  induction front generalizing started state with
  | nil =>
    cases state with
    | none =>
      have hnext : next none b = ([Char.ofNat b.toNat], none) := hstart
      rw [List.nil_append, decodeFrom_cons, hnext]
      rfl
    | some s =>
      have hoff : ¬ (s.low ≤ b ∧ b ≤ s.high) := by
        rintro ⟨hlow, -⟩
        have hcontinuation : (0x80 : UInt8).toNat ≤ b.toNat :=
          UInt8.le_iff_toNat_le.1 (UInt8.le_trans hstate.1 hlow)
        simp only [UInt8.reduceToNat] at hcontinuation
        omega
      rw [List.nil_append, decodeFrom_cons, next_of_not hoff, hstart]
      rfl
  | cons c front ih =>
    obtain ⟨now, hnow, -⟩ := holds_next hstate c
    rw [List.cons_append, decodeFrom_cons, decodeFrom_cons, ih hnow, List.append_assoc]

theorem decode_append_ascii {b : UInt8} (hascii : b.toNat < 0x80) (front back : List UInt8) :
    decode (front ++ b :: back) = decode front ++ Char.ofNat b.toNat :: decode back := by
  have hstart : Holds [] (none : Option Sequence) := rfl
  exact decodeFrom_append_ascii hstart hascii front back

end InfixArithmetic.Text.Utf8
