import InfixArithmetic.Proofs.Decoding
/-!
# Encoded texts

The bytes of a character take the decoder through one sequence and back to where a character may
start, with one lemma for each number of bytes (`decode_encodeChar_append`). So decoding gives back
every text from its encoding, whatever characters it holds, the replacement character among them:
`decode_encode`.
-/

namespace InfixArithmetic.Text.Utf8

open String (utf8EncodeChar)

variable {n bits following : Nat} {low high a b : UInt8} {bytes : List UInt8}

/-! ## Steps of the decoder -/

theorem start_two (hlow : 0xC2 ≤ a.toNat) (hhigh : a.toNat < 0xE0) :
    start a = ([], some ⟨0, 0x80, 0xBF, a.toNat - 0xC0⟩) := by
  unfold start
  dsimp only
  rw [if_neg (by omega), if_neg (by omega), if_pos hhigh]

theorem start_three (hlow : 0xE0 ≤ a.toNat) (hhigh : a.toNat < 0xF0) :
    start a = ([], some ⟨1, if a.toNat = 0xE0 then 0xA0 else 0x80,
      if a.toNat = 0xED then 0x9F else 0xBF, a.toNat - 0xE0⟩) := by
  unfold start
  dsimp only
  rw [if_neg (by omega), if_neg (by omega), if_neg (by omega), if_pos hhigh]

theorem start_four (hlow : 0xF0 ≤ a.toNat) (hhigh : a.toNat < 0xF5) :
    start a = ([], some ⟨2, if a.toNat = 0xF0 then 0x90 else 0x80,
      if a.toNat = 0xF4 then 0x8F else 0xBF, a.toNat - 0xF0⟩) := by
  unfold start
  dsimp only
  rw [if_neg (by omega), if_neg (by omega), if_neg (by omega), if_neg (by omega), if_pos hhigh]

theorem decode_cons_of_start {s : Sequence} (hstart : start a = ([], some s)) :
    decode (a :: bytes) = decodeFrom (some s) bytes := by
  have hnext : next none a = ([], some s) := hstart
  rw [decode, decodeFrom_cons, hnext, List.nil_append]

theorem decodeFrom_inner (hlow : low ≤ b) (hhigh : b ≤ high) :
    decodeFrom (some ⟨following + 1, low, high, bits⟩) (b :: bytes) =
      decodeFrom (some ⟨following, 0x80, 0xBF, bits * 64 + (b.toNat - 0x80)⟩) bytes := by
  rw [decodeFrom_cons, next, if_pos ⟨hlow, hhigh⟩]
  rfl

theorem decodeFrom_last (hlow : low ≤ b) (hhigh : b ≤ high) :
    decodeFrom (some ⟨0, low, high, bits⟩) (b :: bytes) =
      Char.ofNat (bits * 64 + (b.toNat - 0x80)) :: decode bytes := by
  rw [decodeFrom_cons, next, if_pos ⟨hlow, hhigh⟩]
  rfl

theorem range_of_toNat (hlow : 0x80 ≤ b.toNat) (hhigh : b.toNat ≤ 0xBF) : 0x80 ≤ b ∧ b ≤ 0xBF :=
  ⟨UInt8.le_iff_toNat_le.2 hlow, UInt8.le_iff_toNat_le.2 hhigh⟩

theorem cut_range_of_toNat {p q : Prop} [Decidable p] [Decidable q]
    (hp : p → low.toNat ≤ b.toNat) (hlow : 0x80 ≤ b.toNat) (hq : q → b.toNat ≤ high.toNat)
    (hhigh : b.toNat ≤ 0xBF) : (if p then low else 0x80) ≤ b ∧ b ≤ if q then high else 0xBF := by
  constructor
  · split
    · rename_i hcut
      exact UInt8.le_iff_toNat_le.2 (hp hcut)
    · exact UInt8.le_iff_toNat_le.2 hlow
  · split
    · rename_i hcut
      exact UInt8.le_iff_toNat_le.2 (hq hcut)
    · exact UInt8.le_iff_toNat_le.2 hhigh

/-! ## Characters of one to four bytes -/

theorem exists_byte (hn : n < 256) : ∃ b : UInt8, b.toNat = n :=
  ⟨UInt8.ofNat n, UInt8.toNat_ofNat_of_lt' hn⟩

theorem decode_one (hn : n < 0x80) (bytes : List UInt8) :
    decode (utf8EncodeChar (Char.ofNat n) ++ bytes) = Char.ofNat n :: decode bytes := by
  obtain ⟨a, ha⟩ := exists_byte (n := n) (by omega)
  rw [utf8EncodeChar_eq_one hn ha, ← ha]
  exact decode_append_ascii (ha ▸ hn) [] bytes

theorem decode_two (hlow : 0x80 ≤ n) (hhigh : n < 0x800) (bytes : List UInt8) :
    decode (utf8EncodeChar (Char.ofNat n) ++ bytes) = Char.ofNat n :: decode bytes := by
  obtain ⟨a, ha⟩ := exists_byte (n := n / 64 + 0xC0) (by omega)
  obtain ⟨b, hb⟩ := exists_byte (n := n % 64 + 0x80) (by omega)
  obtain ⟨hb₁, hb₂⟩ : 0x80 ≤ b ∧ b ≤ 0xBF := range_of_toNat (by omega) (by omega)
  have hbits : (a.toNat - 0xC0) * 64 + (b.toNat - 0x80) = n := by omega
  calc decode (utf8EncodeChar (Char.ofNat n) ++ bytes)
      = decode (a :: b :: bytes) := by
          rw [utf8EncodeChar_eq_two hlow hhigh ha hb]
          rfl
    _ = decodeFrom (some ⟨0, 0x80, 0xBF, a.toNat - 0xC0⟩) (b :: bytes) :=
        decode_cons_of_start (start_two (by omega) (by omega))
    _ = Char.ofNat n :: decode bytes := by rw [decodeFrom_last hb₁ hb₂, hbits]

theorem decode_three (hlow : 0x800 ≤ n) (hhigh : n < 0x10000) (hvalid : n < 0xD800 ∨ 0xDFFF < n)
    (bytes : List UInt8) :
    decode (utf8EncodeChar (Char.ofNat n) ++ bytes) = Char.ofNat n :: decode bytes := by
  obtain ⟨a, ha⟩ := exists_byte (n := n / 4096 + 0xE0) (by omega)
  obtain ⟨b, hb⟩ := exists_byte (n := n / 64 % 64 + 0x80) (by omega)
  obtain ⟨c, hc⟩ := exists_byte (n := n % 64 + 0x80) (by omega)
  -- the range of the second byte is cut where a code point would be overlong or a surrogate
  have hcut : (a.toNat = 0xE0 → 0xA0 ≤ b.toNat) ∧ (a.toNat = 0xED → b.toNat ≤ 0x9F) := by omega
  obtain ⟨hb₁, hb₂⟩ : (if a.toNat = 0xE0 then 0xA0 else 0x80) ≤ b ∧
      b ≤ if a.toNat = 0xED then 0x9F else 0xBF :=
    cut_range_of_toNat hcut.1 (by omega) hcut.2 (by omega)
  obtain ⟨hc₁, hc₂⟩ : 0x80 ≤ c ∧ c ≤ 0xBF := range_of_toNat (by omega) (by omega)
  have hbits : ((a.toNat - 0xE0) * 64 + (b.toNat - 0x80)) * 64 + (c.toNat - 0x80) = n := by omega
  calc decode (utf8EncodeChar (Char.ofNat n) ++ bytes)
      = decode (a :: b :: c :: bytes) := by
          rw [utf8EncodeChar_eq_three hlow hhigh hvalid ha hb hc]
          rfl
    _ = decodeFrom (some ⟨1, if a.toNat = 0xE0 then 0xA0 else 0x80,
          if a.toNat = 0xED then 0x9F else 0xBF, a.toNat - 0xE0⟩) (b :: c :: bytes) :=
        decode_cons_of_start (start_three (by omega) (by omega))
    _ = Char.ofNat n :: decode bytes := by
      rw [decodeFrom_inner hb₁ hb₂, decodeFrom_last hc₁ hc₂, hbits]

theorem decode_four (hlow : 0x10000 ≤ n) (hhigh : n < 0x110000) (bytes : List UInt8) :
    decode (utf8EncodeChar (Char.ofNat n) ++ bytes) = Char.ofNat n :: decode bytes := by
  obtain ⟨a, ha⟩ := exists_byte (n := n / 262144 + 0xF0) (by omega)
  obtain ⟨b, hb⟩ := exists_byte (n := n / 4096 % 64 + 0x80) (by omega)
  obtain ⟨c, hc⟩ := exists_byte (n := n / 64 % 64 + 0x80) (by omega)
  obtain ⟨d, hd⟩ := exists_byte (n := n % 64 + 0x80) (by omega)
  -- the range of the second byte is cut where a code point would be overlong or past the last one
  have hcut : (a.toNat = 0xF0 → 0x90 ≤ b.toNat) ∧ (a.toNat = 0xF4 → b.toNat ≤ 0x8F) := by omega
  obtain ⟨hb₁, hb₂⟩ : (if a.toNat = 0xF0 then 0x90 else 0x80) ≤ b ∧
      b ≤ if a.toNat = 0xF4 then 0x8F else 0xBF :=
    cut_range_of_toNat hcut.1 (by omega) hcut.2 (by omega)
  obtain ⟨hc₁, hc₂⟩ : 0x80 ≤ c ∧ c ≤ 0xBF := range_of_toNat (by omega) (by omega)
  obtain ⟨hd₁, hd₂⟩ : 0x80 ≤ d ∧ d ≤ 0xBF := range_of_toNat (by omega) (by omega)
  have hbits : (((a.toNat - 0xF0) * 64 + (b.toNat - 0x80)) * 64 + (c.toNat - 0x80)) * 64 +
      (d.toNat - 0x80) = n := by omega
  calc decode (utf8EncodeChar (Char.ofNat n) ++ bytes)
      = decode (a :: b :: c :: d :: bytes) := by
          rw [utf8EncodeChar_eq_four hlow hhigh ha hb hc hd]
          rfl
    _ = decodeFrom (some ⟨2, if a.toNat = 0xF0 then 0x90 else 0x80,
          if a.toNat = 0xF4 then 0x8F else 0xBF, a.toNat - 0xF0⟩) (b :: c :: d :: bytes) :=
        decode_cons_of_start (start_four (by omega) (by omega))
    _ = Char.ofNat n :: decode bytes := by
      rw [decodeFrom_inner hb₁ hb₂, decodeFrom_inner hc₁ hc₂, decodeFrom_last hd₁ hd₂, hbits]

/-- The bytes of a character are decoded to it, and leave the decoder where it started. -/
theorem decode_encodeChar_append (char : Char) (bytes : List UInt8) :
    decode (utf8EncodeChar char ++ bytes) = char :: decode bytes := by
  have hvalid : char.toNat < 0xD800 ∨ 0xDFFF < char.toNat ∧ char.toNat < 0x110000 := char.valid
  rw [← Char.ofNat_toNat char]
  generalize char.toNat = n at hvalid
  rcases Nat.lt_or_ge n 0x80 with hone | htwo
  · exact decode_one hone bytes
  rcases Nat.lt_or_ge n 0x800 with hend | hthree
  · exact decode_two htwo hend bytes
  rcases Nat.lt_or_ge n 0x10000 with hend | hfour
  · exact decode_three hthree hend (hvalid.imp_right And.left) bytes
  · exact decode_four hfour (by omega) bytes

/-! ## Texts -/

theorem toList_loop (array : ByteArray) (i : Nat) (taken : List UInt8) :
    ByteArray.toList.loop array i taken = taken.reverse ++ array.data.toList.drop i := by
  fun_induction ByteArray.toList.loop array i taken with
  | case1 i taken hlt ih =>
    have hi : i < array.data.toList.length := by simpa using hlt
    rw [ih, List.drop_eq_getElem_cons hi]
    simp [ByteArray.get!, hlt]
  | case2 i taken hge =>
    rw [List.drop_eq_nil_of_le (by simpa using hge), List.append_nil]

theorem encode_eq_flatMap (text : String) : encode text = text.toList.flatMap utf8EncodeChar := by
  have hbytes : text.toUTF8 = (text.toList.flatMap utf8EncodeChar).toByteArray := by
    conv => lhs; rw [← String.ofList_toList (s := text)]
    rfl
  rw [encode, hbytes, ByteArray.toList, toList_loop, List.toList_data_toByteArray]
  rfl

theorem decode_encode (text : String) : decode (encode text) = text.toList := by
  rw [encode_eq_flatMap]
  induction text.toList with
  | nil => rfl
  | cons char chars ih => rw [List.flatMap_cons, decode_encodeChar_append, ih]

end InfixArithmetic.Text.Utf8
