import HzResearch.PlainText

/-!
# Unicode

Texts are sequences of Unicode characters, which Lean has as `Char` together with their standard
UTF-8 form. A Java string holds the UTF-16 form of a text, in which a character beyond the basic
multilingual plane is a pair of surrogates. The encoder writes each surrogate on its own, in three
bytes; the standard writes the character in four. So the encoder's form of a text is the standard
one exactly where the text stays within the plane (`encode_utf16_eq_iff`).

On the standard form both decoders read a text up to its first character beyond the plane. There
the plain one gives up (`plainText_beyond`), and the scalar loop decodes the first three of the four
bytes to a unit that is no surrogate (`scalarDecode_beyond`).
-/

namespace HzResearch

namespace Utf8

/-! ## The forms of a text -/

/-- A character of the basic multilingual plane. -/
def IsBmp (c : Char) : Prop := c.toNat ≤ 0xFFFF

instance (c : Char) : Decidable (IsBmp c) := inferInstanceAs (Decidable (_ ≤ _))

/-- The UTF-16 form of a character. -/
def utf16Char (c : Char) : List CodeUnit :=
  if IsBmp c then [BitVec.ofNat 16 c.toNat]
  else
    [BitVec.ofNat 16 (0xD800 + (c.toNat - 0x10000) / 0x400),
      BitVec.ofNat 16 (0xDC00 + (c.toNat - 0x10000) % 0x400)]

/-- The UTF-16 form of a text. -/
def utf16 (text : List Char) : List CodeUnit := text.flatMap utf16Char

/-- The standard UTF-8 form of a character. -/
def utf8Char (c : Char) : List Byte := (String.utf8EncodeChar c).map UInt8.toBitVec

/-- The standard UTF-8 form of a text. -/
def utf8 (text : List Char) : List Byte := text.flatMap utf8Char

/-! ## Characters -/

/-- What the marks of a character add to the bits they stand beside. -/
theorem mark_eq : ∀ x : Byte, (x.toNat < 0x20 → 0xC0#8 ||| x = BitVec.ofNat 8 (x.toNat + 0xC0)) ∧
    (x.toNat < 0x10 → 0xE0#8 ||| x = BitVec.ofNat 8 (x.toNat + 0xE0)) ∧
    0x80#8 ||| (x &&& 0x3F) = BitVec.ofNat 8 (x.toNat % 0x40 + 0x80) := by
  decide +kernel

/-- The low bits of a code unit that is moved right. -/
theorem toNat_moved {n : ℕ} (h : n < 2 ^ 16) (k : ℕ) :
    ((BitVec.ofNat 16 n >>> k).setWidth 8 : Byte).toNat = n / 2 ^ k % 256 := by
  rw [BitVec.toNat_setWidth, BitVec.toNat_ushiftRight, BitVec.toNat_ofNat, Nat.mod_eq_of_lt h,
    Nat.shiftRight_eq_div_pow]

/-- The bytes of the encoder in numbers. -/
theorem encodeUnit_ofNat {n : ℕ} (h : n < 2 ^ 16) :
    encodeUnit (BitVec.ofNat 16 n) =
      if n ≤ 0x7F then [BitVec.ofNat 8 n]
      else if n ≤ 0x7FF then
        [BitVec.ofNat 8 (n / 64 % 0x20 + 0xC0), BitVec.ofNat 8 (n % 0x40 + 0x80)]
      else
        [BitVec.ofNat 8 (n / 4096 % 0x10 + 0xE0), BitVec.ofNat 8 (n / 64 % 0x40 + 0x80),
          BitVec.ofNat 8 (n % 0x40 + 0x80)] := by
  have hle : ∀ m : CodeUnit, BitVec.ofNat 16 n ≤ m ↔ n ≤ m.toNat := by
    intro m
    rw [BitVec.le_def, BitVec.toNat_ofNat, Nat.mod_eq_of_lt h]
  have h7F : BitVec.ofNat 16 n ≤ 0x7F ↔ n ≤ 0x7F := hle 0x7F
  have h7FF : BitVec.ofNat 16 n ≤ 0x7FF ↔ n ≤ 0x7FF := hle 0x7FF
  have hone : (BitVec.ofNat 16 n).setWidth 8 = (BitVec.ofNat 8 n : Byte) := by
    apply BitVec.eq_of_toNat_eq
    rw [BitVec.toNat_setWidth, BitVec.toNat_ofNat, BitVec.toNat_ofNat]
    omega
  have h6 := toNat_moved h 6
  have h12 := toNat_moved h 12
  rw [encodeUnit, hone]
  simp only [h7F, h7FF]
  split
  case isTrue => rfl
  case isFalse =>
    split
    case isTrue =>
      rw [(mark_eq _).1 (by omega), (mark_eq _).2.2, h6, BitVec.toNat_ofNat]
      congr 3
      · omega
      · omega
    case isFalse =>
      rw [(mark_eq _).2.1 (by omega), (mark_eq _).2.2, (mark_eq _).2.2, h6, h12, BitVec.toNat_ofNat]
      congr 3
      · omega
      · congr 1
        omega
      · congr 2
        omega

/-- The bytes of the standard in numbers. -/
theorem utf8Char_eq (c : Char) :
    utf8Char c =
      if c.toNat ≤ 0x7F then [BitVec.ofNat 8 c.toNat]
      else if c.toNat ≤ 0x7FF then
        [BitVec.ofNat 8 (c.toNat / 64 % 0x20 + 0xC0), BitVec.ofNat 8 (c.toNat % 0x40 + 0x80)]
      else if c.toNat ≤ 0xFFFF then
        [BitVec.ofNat 8 (c.toNat / 4096 % 0x10 + 0xE0), BitVec.ofNat 8 (c.toNat / 64 % 0x40 + 0x80),
          BitVec.ofNat 8 (c.toNat % 0x40 + 0x80)]
      else
        [BitVec.ofNat 8 (c.toNat / 262144 % 0x08 + 0xF0),
          BitVec.ofNat 8 (c.toNat / 4096 % 0x40 + 0x80),
          BitVec.ofNat 8 (c.toNat / 64 % 0x40 + 0x80), BitVec.ofNat 8 (c.toNat % 0x40 + 0x80)] := by
  simp only [utf8Char, String.utf8EncodeChar, apply_ite (List.map UInt8.toBitVec)]
  rfl

/-- Within the plane the encoder's bytes are those of the standard. -/
theorem encodeUnit_bmp {c : Char} (h : IsBmp c) :
    encodeUnit (BitVec.ofNat 16 c.toNat) = utf8Char c := by
  have hle : c.toNat ≤ 0xFFFF := h
  rw [encodeUnit_ofNat (by omega), utf8Char_eq, if_pos hle]

/-- A character beyond the plane takes four bytes, and the first of them is no lead. -/
theorem utf8Char_beyond {c : Char} (h : ¬ IsBmp c) :
    ∃ l m k j : Byte, utf8Char c = [l, m, k, j] ∧ 0xF0 ≤ l ∧ l ≤ 0xF7 := by
  have hlt : 0xFFFF < c.toNat := Nat.lt_of_not_le h
  rw [utf8Char_eq, if_neg (by omega), if_neg (by omega), if_neg (by omega)]
  refine ⟨_, _, _, _, rfl, ?_, ?_⟩
  · bv_omega
  · bv_omega

theorem utf16Char_bmp {c : Char} (h : IsBmp c) : utf16Char c = [BitVec.ofNat 16 c.toNat] := if_pos h

/-- A character beyond the plane is a high surrogate and a low one. -/
theorem utf16Char_beyond {c : Char} (h : ¬ IsBmp c) :
    ∃ hi lo : CodeUnit, utf16Char c = [hi, lo] ∧ 0xD800 ≤ hi ∧ 0x7FF < lo := by
  have hlt : 0xFFFF < c.toNat := Nat.lt_of_not_le h
  have hvalid : c.toNat < 0xD800 ∨ 0xDFFF < c.toNat ∧ c.toNat < 0x110000 := c.valid
  refine ⟨_, _, if_neg h, ?_, ?_⟩
  · bv_omega
  · bv_omega

theorem encode_utf16Char_bmp {c : Char} (h : IsBmp c) : encode (utf16Char c) = utf8Char c := by
  rw [utf16Char_bmp h, encode_cons, encode_nil, List.append_nil, encodeUnit_bmp h]

/-- Beyond the plane the encoder takes six bytes. -/
theorem length_encode_utf16Char_beyond {c : Char} (h : ¬ IsBmp c) :
    (encode (utf16Char c)).length = 6 := by
  obtain ⟨hi, lo, hc, hhi, hlo⟩ := utf16Char_beyond h
  have hthree : ∀ u : CodeUnit, 0x7FF < u → (encodeUnit u).length = 3 := by
    intro u hu
    rw [encodeUnit, if_neg (by bv_omega), if_neg (by bv_omega)]
    rfl
  rw [hc, encode_cons, encode_cons, encode_nil, List.length_append, List.length_append,
    hthree hi (by bv_omega), hthree lo hlo]
  rfl

/-! ## Texts -/

theorem utf16_cons (c : Char) (text : List Char) :
    utf16 (c :: text) = utf16Char c ++ utf16 text := rfl

theorem utf8_cons (c : Char) (text : List Char) : utf8 (c :: text) = utf8Char c ++ utf8 text := rfl

theorem utf16_append (front back : List Char) :
    utf16 (front ++ back) = utf16 front ++ utf16 back := List.flatMap_append

theorem utf8_append (front back : List Char) : utf8 (front ++ back) = utf8 front ++ utf8 back :=
  List.flatMap_append

/-- A text stays within the plane, or has a first character beyond it. -/
theorem bmp_or_beyond (text : List Char) :
    (∀ c ∈ text, IsBmp c) ∨ ∃ front c back, text = front ++ c :: back ∧
      (∀ c ∈ front, IsBmp c) ∧ ¬ IsBmp c := by
  induction text with
  | nil => exact .inl fun c hc => absurd hc List.not_mem_nil
  | cons c text ih =>
    by_cases hc : IsBmp c
    swap
    · exact .inr ⟨[], c, text, rfl, fun c hc => absurd hc List.not_mem_nil, hc⟩
    rcases ih with hall | ⟨front, d, back, rfl, hfront, hd⟩
    · exact .inl (List.forall_mem_cons.2 ⟨hc, hall⟩)
    · exact .inr ⟨c :: front, d, back, rfl, List.forall_mem_cons.2 ⟨hc, hfront⟩, hd⟩

theorem utf16_beyond {c : Char} (h : ¬ IsBmp c) (front back : List Char) :
    ∃ hi lo : CodeUnit, utf16 (front ++ c :: back) = utf16 front ++ hi :: lo :: utf16 back ∧
      0xD800 ≤ hi := by
  obtain ⟨hi, lo, hc, hhi, -⟩ := utf16Char_beyond h
  exact ⟨hi, lo, by rw [utf16_append, utf16_cons, hc]; rfl, hhi⟩

theorem encode_utf16_bmp {text : List Char} (h : ∀ c ∈ text, IsBmp c) :
    encode (utf16 text) = utf8 text := by
  induction text with
  | nil => rfl
  | cons c text ih =>
    rw [List.forall_mem_cons] at h
    rw [utf16_cons, encode_append, encode_utf16Char_bmp h.1, ih h.2, utf8_cons]

/-- The standard form is never longer, and shorter where the text leaves the plane. -/
theorem length_utf8_le (text : List Char) : (utf8 text).length ≤ (encode (utf16 text)).length ∧
    ((utf8 text).length = (encode (utf16 text)).length → ∀ c ∈ text, IsBmp c) := by
  induction text with
  | nil => exact ⟨le_refl 0, fun _ c hc => absurd hc List.not_mem_nil⟩
  | cons c text ih =>
    rw [utf16_cons, encode_append, utf8_cons, List.length_append, List.length_append]
    by_cases hc : IsBmp c
    · rw [encode_utf16Char_bmp hc]
      exact ⟨by omega, fun h => List.forall_mem_cons.2 ⟨hc, ih.2 (by omega)⟩⟩
    · obtain ⟨l, m, k, j, hbytes, -⟩ := utf8Char_beyond hc
      have hfour : (utf8Char c).length = 4 := by rw [hbytes]; rfl
      rw [length_encode_utf16Char_beyond hc]
      exact ⟨by omega, fun h => by omega⟩

/-- The encoder writes the standard form of a text if and only if it stays within the plane. -/
theorem encode_utf16_eq_iff (text : List Char) :
    encode (utf16 text) = utf8 text ↔ ∀ c ∈ text, IsBmp c :=
  ⟨fun h => (length_utf8_le text).2 (congrArg List.length h).symm, encode_utf16_bmp⟩

/-- Within the plane the standard form spells the text. -/
theorem spells_utf8 {text : List Char} (h : ∀ c ∈ text, IsBmp c) :
    Spells (utf8 text) (utf16 text) := by
  rw [← encode_utf16_bmp h]
  exact spells_encode (utf16 text)

/-! ## The decoders beyond the plane -/

/-- Bytes that begin no character stop the plain decoder, if it is to read on. -/
theorem plainText_stuck {bs : List Byte} {us : List CodeUnit} (h : Spells bs us) {rest : List Byte}
    {x : Throwable} (hx : nextChar rest = .error x) :
    ∀ {n : ℕ}, us.length < n → plainText n (bs ++ rest) = .error x := by
  induction h with
  | nil =>
    intro n hn
    obtain ⟨n, rfl⟩ := Nat.exists_eq_succ_of_ne_zero (Nat.ne_of_gt hn)
    exact plainText_error hx
  | one ha _ ih =>
    intro n hn
    obtain ⟨n, rfl⟩ := Nat.exists_eq_succ_of_ne_zero (Nat.ne_of_gt (Nat.zero_lt_of_lt hn))
    exact plainText_cons_error (nextChar_one ha _) (ih (Nat.lt_of_succ_lt_succ hn))
  | two hl _ _ ih =>
    intro n hn
    have h1 := hl.1
    obtain ⟨n, rfl⟩ := Nat.exists_eq_succ_of_ne_zero (Nat.ne_of_gt (Nat.zero_lt_of_lt hn))
    exact plainText_cons_error (k := 2) (nextChar_two (by bv_omega) hl.2 _ _)
      (ih (Nat.lt_of_succ_lt_succ hn))
  | three hl _ _ _ ih =>
    intro n hn
    obtain ⟨n, rfl⟩ := Nat.exists_eq_succ_of_ne_zero (Nat.ne_of_gt (Nat.zero_lt_of_lt hn))
    exact plainText_cons_error (k := 3) (nextChar_three hl.1 hl.2 _ _ _)
      (ih (Nat.lt_of_succ_lt_succ hn))

/-- The plain decoder gives up at the first character beyond the plane. -/
theorem plainText_beyond {front : List Char} {c : Char} (hfront : ∀ c ∈ front, IsBmp c)
    (hc : ¬ IsBmp c) (back : List Char) (tail : List Byte) {n : ℕ} (hn : (utf16 front).length < n) :
    plainText n (utf8 (front ++ c :: back) ++ tail) = .error .UTFDataFormatException := by
  obtain ⟨l, m, k, j, hbytes, hl, -⟩ := utf8Char_beyond hc
  rw [utf8_append, utf8_cons, List.append_assoc, List.append_assoc, hbytes]
  refine plainText_stuck (spells_utf8 hfront) ?_ hn
  rw [List.cons_append, nextChar.eq_def]
  exact (if_neg (by bv_omega)).trans ((if_neg (by bv_omega)).trans (if_neg (by bv_omega)))

/-- The unit of four bytes that are read as three. -/
theorem threeUnit_lt {l : Byte} (hl : 0xF0 ≤ l) (hl' : l ≤ 0xF7) (m k : Byte) :
    threeUnit l m k < 0x8000 := by
  have hbit : ∀ l : Byte, 0xF0 ≤ l → l ≤ 0xF7 → l.getLsbD 3 = false := by decide +kernel
  have hmsb : (threeUnit l m k).msb = false := by
    rw [BitVec.msb_eq_getLsbD_last]
    simpa [threeUnit] using hbit l hl hl'
  rw [BitVec.msb_eq_false_iff_two_mul_lt] at hmsb
  bv_omega

/-- What the scalar loop decodes is no front of a text with a character beyond the plane: it makes a
unit of that character that is no surrogate. -/
theorem scalarDecode_beyond {front : List Char} {c : Char} (hfront : ∀ c ∈ front, IsBmp c)
    (hc : ¬ IsBmp c) (back : List Char) (tail : List Byte) {n : ℕ} (hn : (utf16 front).length < n) :
    ¬ (scalarDecode n (utf8 (front ++ c :: back) ++ tail)).units <+:
      utf16 (front ++ c :: back) := by
  obtain ⟨l, m, k, j, hbytes, hl, hl'⟩ := utf8Char_beyond hc
  obtain ⟨hi, lo, hunits, hhi⟩ := utf16_beyond hc front back
  obtain ⟨i, hroom⟩ : ∃ i, n - (utf16 front).length = i + 1 :=
    ⟨n - (utf16 front).length - 1, by omega⟩
  have hthree := scalarDecode_three (b := l) (by bv_omega) i m k (j :: (utf8 back ++ tail))
  have hread : (scalarDecode n (utf8 (front ++ c :: back) ++ tail)).units =
      utf16 front ++ threeUnit l m k :: (scalarDecode i (j :: (utf8 back ++ tail))).units := by
    rw [utf8_append, utf8_cons, List.append_assoc, List.append_assoc, hbytes,
      scalarDecode_spelled (spells_utf8 hfront) _ _ (Nat.le_of_lt hn), hroom, List.cons_append,
      List.cons_append, List.cons_append, List.cons_append, List.nil_append, hthree]
    rfl
  intro hbegins
  rw [hread, hunits, List.prefix_append_right_inj, List.cons_prefix_cons] at hbegins
  have hlt := threeUnit_lt hl hl' m k
  rw [hbegins.1] at hlt
  bv_omega

end Utf8

end HzResearch
