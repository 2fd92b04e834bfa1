import KeyValueServer.Text.Utf8
import Mathlib

/-!
# Texts as bytes

The bytes of a text are read back as that text. In bytes that need not be a text, an ASCII character
still shows exactly where its byte stands: no piece of several bytes holds such a byte or stands for
such a character.
-/

namespace KeyValueServer.Utf8

/-! ## The bytes of a text -/

theorem toList_loop (bytes : ByteArray) (i : Nat) (taken : Bytes) :
    ByteArray.toList.loop bytes i taken = taken.reverse ++ bytes.data.toList.drop i := by
  rw [ByteArray.toList.loop]
  split
  next hlt =>
    have hlength : i < bytes.data.toList.length := hlt
    have hget : bytes.get! i = bytes.data.toList[i] := getElem!_pos bytes.data i hlt
    rw [toList_loop bytes (i + 1), List.reverse_cons, List.append_assoc, List.singleton_append,
      hget, ← List.drop_eq_getElem_cons]
  next hge => rw [List.drop_eq_nil_of_le (Nat.le_of_not_lt hge), List.append_nil]
termination_by bytes.size - i
decreasing_by omega

theorem encode_eq_flatMap (text : List Char) :
    encode text = text.flatMap String.utf8EncodeChar := by
  rw [encode, String.toUTF8, String.toByteArray_ofList, List.utf8Encode, ByteArray.toList,
    toList_loop, List.toList_data_toByteArray]
  rfl

theorem encode_cons (c : Char) (text : List Char) :
    encode (c :: text) = String.utf8EncodeChar c ++ encode text := by
  rw [encode_eq_flatMap, encode_eq_flatMap, List.flatMap_cons]

/-! ## One character -/

theorem toNat_ofNat_of_lt {n : Nat} (h : n < 256) : (UInt8.ofNat n).toNat = n :=
  UInt8.toNat_ofNat_of_lt' h

/-- A continuation byte adds its six bits. -/
theorem continued_cons {missing n value width : Nat} {low high : UInt8} {rest : Bytes}
    (hlow : low.toNat ≤ n % 64 + 128) (hhigh : n % 64 + 128 ≤ high.toNat) :
    continued (missing + 1) low high value width (UInt8.ofNat (n % 64 + 128) :: rest) =
      continued missing 0x80 0xBF (value * 64 + n % 64) (width + 1) rest := by
  have hbyte : (UInt8.ofNat (n % 64 + 128)).toNat = n % 64 + 128 := toNat_ofNat_of_lt (by omega)
  have hrange : low ≤ UInt8.ofNat (n % 64 + 128) ∧ UInt8.ofNat (n % 64 + 128) ≤ high := by
    rw [UInt8.le_iff_toNat_le, UInt8.le_iff_toNat_le, hbyte]
    exact ⟨hlow, hhigh⟩
  have hbits : (n % 64 + 128) % 64 = n % 64 := by omega
  rw [continued, if_pos hrange, hbyte, hbits]

theorem continued_tail (missing n value width : Nat) (rest : Bytes) :
    continued (missing + 1) 0x80 0xBF value width (UInt8.ofNat (n % 64 + 128) :: rest) =
      continued missing 0x80 0xBF (value * 64 + n % 64) (width + 1) rest :=
  continued_cons (Nat.le_add_left _ _) (by simp only [UInt8.reduceToNat]; omega)

/-- The bytes of a character are read as that character, whatever follows them. -/
theorem piece_utf8EncodeChar (c : Char) (rest : Bytes) :
    ∃ lead tail, String.utf8EncodeChar c = lead :: tail ∧
      piece lead (tail ++ rest) = ⟨some c, tail.length + 1⟩ := by
  have hvalid := c.valid
  have hofNat : Char.ofNat c.val.toNat = c := Char.ofNat_toNat c
  rw [String.utf8EncodeChar]
  simp only [UInt32.isValidChar, Nat.isValidChar] at hvalid
  generalize c.val.toNat = v at hvalid hofNat ⊢
  split_ifs with hone htwo hthree
  · refine ⟨_, [], rfl, ?_⟩
    have hlead : (UInt8.ofNat v).toNat = v := toNat_ofNat_of_lt (by omega)
    rw [piece, if_pos (by rw [UInt8.lt_iff_toNat_lt, hlead]; simp; omega), hlead, hofNat]
    rfl
  · refine ⟨_, _, rfl, ?_⟩
    have hlead : (UInt8.ofNat (v / 64 % 32 + 192)).toNat = v / 64 % 32 + 192 :=
      toNat_ofNat_of_lt (by omega)
    simp only [piece, UInt8.lt_iff_toNat_lt, hlead, UInt8.reduceToNat]
    rw [if_neg (by omega), if_neg (by omega), if_pos (by omega), List.cons_append, continued_tail,
      continued]
    have hvalue : (v / 64 % 32 + 192) % 32 * 64 + v % 64 = v := by omega
    rw [hvalue, hofNat]
    rfl
  · refine ⟨_, _, rfl, ?_⟩
    have hlead : (UInt8.ofNat (v / 4096 % 16 + 224)).toNat = v / 4096 % 16 + 224 :=
      toNat_ofNat_of_lt (by omega)
    simp only [piece, UInt8.lt_iff_toNat_lt, hlead, UInt8.reduceToNat, ← UInt8.toNat_inj]
    rw [if_neg (by omega), if_neg (by omega), if_neg (by omega), if_pos (by omega)]
    rw [List.cons_append, continued_cons, List.cons_append, continued_tail, continued]
    · have hvalue : ((v / 4096 % 16 + 224) % 16 * 64 + v / 64 % 64) * 64 + v % 64 = v := by omega
      rw [hvalue, hofNat]
      rfl
    · split_ifs <;> (simp only [UInt8.reduceToNat]; omega)
    · split_ifs <;> (simp only [UInt8.reduceToNat]; omega)
  · refine ⟨_, _, rfl, ?_⟩
    have hlead : (UInt8.ofNat (v / 262144 % 8 + 240)).toNat = v / 262144 % 8 + 240 :=
      toNat_ofNat_of_lt (by omega)
    simp only [piece, UInt8.lt_iff_toNat_lt, hlead, UInt8.reduceToNat, ← UInt8.toNat_inj]
    rw [if_neg (by omega), if_neg (by omega), if_neg (by omega), if_neg (by omega),
      if_pos (by omega)]
    rw [List.cons_append, continued_cons, List.cons_append, continued_tail, List.cons_append,
      continued_tail, continued]
    · have hvalue : (((v / 262144 % 8 + 240) % 8 * 64 + v / 4096 % 64) * 64 + v / 64 % 64) * 64 +
          v % 64 = v := by omega
      rw [hvalue, hofNat]
      rfl
    · split_ifs <;> (simp only [UInt8.reduceToNat]; omega)
    · split_ifs <;> (simp only [UInt8.reduceToNat]; omega)

/-! ## Texts -/

theorem chars_encode_cons (c : Char) (text : List Char) :
    chars (encode (c :: text)) = some c :: chars (encode text) := by
  obtain ⟨lead, tail, hbytes, hpiece⟩ := piece_utf8EncodeChar c (encode text)
  rw [encode_cons, hbytes, List.cons_append, chars, hpiece, Nat.add_sub_cancel, List.drop_left]

theorem chars_encode (text : List Char) : chars (encode text) = text.map some := by
  induction text with
  | nil => rw [encode_eq_flatMap, List.flatMap_nil, chars, List.map_nil]
  | cons c text ih => rw [chars_encode_cons, ih, List.map_cons]

/-- What was written as bytes is read as the same text. -/
theorem decode?_encode (text : List Char) : decode? (encode text) = some text := by
  rw [decode?, chars_encode]
  induction text with
  | nil => rfl
  | cons c text ih => rw [List.map_cons, List.mapM_cons, ih]; rfl

/-! ## ASCII characters in any bytes -/

-- The value of a piece is at least what its first byte gives it, moved up, and at least what the
-- restriction of its second byte guarantees: one of the two keeps it out of the ASCII range.
theorem continued_cases (missing : Nat) {low high : UInt8} (hlow : 0x80 ≤ low) (hhigh : high ≤ 0xBF)
    (value width : Nat) (rest : Bytes) :
    ∃ k, (continued missing low high value width rest).width = width + k ∧
      (∀ b ∈ rest.take k, 0x80 ≤ b) ∧
      ∀ c, (continued missing low high value width rest).char = some c →
        ∃ n, value * 64 ^ missing ≤ n ∧
          (0 < missing → (low.toNat - 128) * 64 ^ (missing - 1) ≤ n) ∧ c = Char.ofNat n := by
  induction missing generalizing low high value width rest with
  | zero =>
      refine ⟨0, rfl, by simp, fun c hc => ⟨value, by simp, by simp, ?_⟩⟩
      exact (Option.some.inj hc).symm
  | succ missing ih =>
      cases rest with
      | nil => exact ⟨0, rfl, by simp, fun c hc => nomatch hc⟩
      | cons b rest =>
          by_cases hb : low ≤ b ∧ b ≤ high
          · obtain ⟨k, hwidth, htail, hchar⟩ :=
              ih (by decide : (0x80 : UInt8) ≤ 0x80) (by decide : (0xBF : UInt8) ≤ 0xBF)
                (value * 64 + b.toNat % 64) (width + 1) rest
            simp only [UInt8.le_iff_toNat_le, UInt8.reduceToNat] at hlow hhigh hb
            rw [continued, if_pos (by simpa only [UInt8.le_iff_toNat_le] using hb)]
            refine ⟨k + 1, by rw [hwidth]; omega, ?_, fun c hc => ?_⟩
            · rw [List.take_succ_cons, List.forall_mem_cons]
              exact ⟨by simp only [UInt8.le_iff_toNat_le, UInt8.reduceToNat]; omega, htail⟩
            · obtain ⟨n, hvalue, -, rfl⟩ := hchar c hc
              refine ⟨n, ?_, fun _ => ?_, rfl⟩
              · calc value * 64 ^ (missing + 1) = value * 64 * 64 ^ missing := by
                      rw [Nat.pow_succ', Nat.mul_assoc]
                  _ ≤ (value * 64 + b.toNat % 64) * 64 ^ missing :=
                      Nat.mul_le_mul_right _ (Nat.le_add_right _ _)
                  _ ≤ n := hvalue
              · calc (low.toNat - 128) * 64 ^ missing
                    ≤ (value * 64 + b.toNat % 64) * 64 ^ missing :=
                      Nat.mul_le_mul_right _ (by omega)
                  _ ≤ n := hvalue
          · rw [continued, if_neg hb]
            exact ⟨0, rfl, by simp, fun c hc => nomatch hc⟩

/-- What is not in the range of ASCII, however much of a piece there is. -/
def IsBeyond (p : Piece) (rest : Bytes) : Prop :=
  ∃ k, p.width = k + 1 ∧ (∀ b ∈ rest.take k, 0x80 ≤ b) ∧
    ∀ c, p.char = some c → ∃ n, 128 ≤ n ∧ c = Char.ofNat n

theorem isBeyond_broken (rest : Bytes) : IsBeyond ⟨none, 1⟩ rest :=
  ⟨0, rfl, by simp, fun _ hc => nomatch hc⟩

theorem isBeyond_continued {missing value : Nat} {low high : UInt8} (hlow : 0x80 ≤ low)
    (hhigh : high ≤ 0xBF) (hpos : 0 < missing)
    (hleast : 128 ≤ value * 64 ^ missing ∨ 128 ≤ (low.toNat - 128) * 64 ^ (missing - 1))
    (rest : Bytes) : IsBeyond (continued missing low high value 1 rest) rest := by
  obtain ⟨k, hwidth, htail, hchar⟩ := continued_cases missing hlow hhigh value 1 rest
  refine ⟨k, by rw [hwidth, Nat.add_comm], htail, fun c hc => ?_⟩
  obtain ⟨n, hvalue, hsecond, rfl⟩ := hchar c hc
  refine ⟨n, ?_, rfl⟩
  rcases hleast with hleast | hleast
  · exact Nat.le_trans hleast hvalue
  · exact Nat.le_trans hleast (hsecond hpos)

/-- A piece is one ASCII byte, or it holds none and stands for no ASCII character. -/
theorem piece_cases (lead : UInt8) (rest : Bytes) :
    lead < 0x80 ∧ piece lead rest = ⟨some (Char.ofNat lead.toNat), 1⟩ ∨
      0x80 ≤ lead ∧ IsBeyond (piece lead rest) rest := by
  by_cases hone : lead < 0x80
  · exact .inl ⟨hone, by rw [piece, if_pos hone]⟩
  refine .inr ⟨UInt8.not_lt.mp hone, ?_⟩
  rw [piece, if_neg hone]
  by_cases hlead : lead < 0xC2
  · rw [if_pos hlead]
    exact isBeyond_broken rest
  rw [if_neg hlead]
  by_cases htwo : lead < 0xE0
  · rw [if_pos htwo]
    refine isBeyond_continued (by decide) (by decide) (by decide) (.inl ?_) rest
    simp only [UInt8.lt_iff_toNat_lt, UInt8.reduceToNat] at hlead htwo
    omega
  rw [if_neg htwo]
  by_cases hthree : lead < 0xF0
  · rw [if_pos hthree]
    refine isBeyond_continued (by split <;> decide) (by split <;> decide) (by decide) ?_ rest
    split
    · exact .inr (by decide)
    next hne =>
      refine .inl ?_
      simp only [UInt8.lt_iff_toNat_lt, UInt8.reduceToNat, ← UInt8.toNat_inj] at htwo hthree hne
      omega
  rw [if_neg hthree]
  by_cases hfour : lead < 0xF5
  · rw [if_pos hfour]
    refine isBeyond_continued (by split <;> decide) (by split <;> decide) (by decide) ?_ rest
    split
    · exact .inr (by decide)
    next hne =>
      refine .inl ?_
      simp only [UInt8.lt_iff_toNat_lt, UInt8.reduceToNat, ← UInt8.toNat_inj] at hthree hfour hne
      omega
  · rw [if_neg hfour]
    exact isBeyond_broken rest

theorem toNat_ofNat_of_ascii {b : UInt8} (hascii : b < 0x80) :
    (Char.ofNat b.toNat).toNat = b.toNat := by
  rw [UInt8.lt_iff_toNat_lt] at hascii
  rw [Char.toNat_ofNat, if_pos (.inl (Nat.lt_trans hascii (by decide)))]

/-- A code point beyond ASCII stands for another character, even where it stands for none and is
taken for NUL. -/
theorem ofNat_ne_of_le {b : UInt8} (hpos : 0 < b) (hascii : b < 0x80) {n : Nat} (hn : 128 ≤ n) :
    Char.ofNat b.toNat ≠ Char.ofNat n := by
  intro heq
  have hnat := congrArg Char.toNat heq
  rw [toNat_ofNat_of_ascii hascii, Char.toNat_ofNat] at hnat
  simp only [UInt8.lt_iff_toNat_lt, UInt8.reduceToNat] at hpos hascii
  split at hnat <;> omega

theorem ofNat_inj_of_ascii {b c : UInt8} (hb : b < 0x80) (hc : c < 0x80) :
    Char.ofNat b.toNat = Char.ofNat c.toNat ↔ b = c := by
  refine ⟨fun heq => ?_, fun heq => by rw [heq]⟩
  have hnat := congrArg Char.toNat heq
  rwa [toNat_ofNat_of_ascii hb, toNat_ofNat_of_ascii hc, UInt8.toNat_inj] at hnat

/-- An ASCII character other than NUL stands in a text exactly if its byte stands in the bytes. -/
theorem mem_decodeLossy_iff {b : UInt8} (hpos : 0 < b) (hascii : b < 0x80) (bytes : Bytes) :
    Char.ofNat b.toNat ∈ decodeLossy bytes ↔ b ∈ bytes := by
  rw [decodeLossy]
  fun_induction chars bytes with
  | case1 => simp
  | case2 lead rest ih =>
      rw [List.map_cons, List.mem_cons, ih]
      rcases piece_cases lead rest with ⟨hlead, hpiece⟩ | ⟨hlead, k, hwidth, htail, hchar⟩
      · rw [hpiece, Option.getD_some, ofNat_inj_of_ascii hascii hlead, List.mem_cons]
        rfl
      · have hne : b ≠ lead := by
          rintro rfl
          exact absurd hascii (UInt8.not_lt.mpr hlead)
        have hhead : Char.ofNat b.toNat ≠ (piece lead rest).char.getD (Char.ofNat 0xFFFD) := by
          cases hc : (piece lead rest).char with
          | none => exact ofNat_ne_of_le hpos hascii (by decide)
          | some c =>
              obtain ⟨n, hn, rfl⟩ := hchar c hc
              exact ofNat_ne_of_le hpos hascii hn
        have htake : b ∉ rest.take k := fun hb => absurd hascii (UInt8.not_lt.mpr (htail b hb))
        have hrest : b ∈ rest ↔ b ∈ rest.take k ∨ b ∈ rest.drop k := by
          rw [← List.mem_append, List.take_append_drop]
        rw [hwidth, Nat.add_sub_cancel, List.mem_cons, or_iff_right hhead, or_iff_right hne, hrest,
          or_iff_right htake]

end KeyValueServer.Utf8
