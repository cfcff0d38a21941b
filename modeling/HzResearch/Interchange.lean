import HzResearch.NativeReader
import HzResearch.Unicode

/-!
# Strings for other programs

Outside of the two classes UTF-8 means the standard form. `writeUTF` writes it, behind the length in
units, exactly for texts of the basic multilingual plane (`toByteArray_standard`). On strings in the
standard form the two readers agree for such texts only (`readers_standard`): at a character beyond
the plane `readUTF` throws, while `readUTFJNI` returns some other string. The vector loop leaves the
block with such a character to the scalar loop, as its comment says, but the scalar loop does not
know characters of four bytes either.
-/

namespace HzResearch

open Java Utf8

namespace Native

open Simd

/-! ## The native decoder -/

/-- A block with a lead of four bytes is left to the scalar loop. -/
theorem rejected_of_lead {chunk : Vec} {l : Byte} (hmem : l ∈ bytes chunk) (hl : 0xF0 ≤ l) :
    mm_movemask_epi8 chunk ≠ 0 ∧ accepts chunk = false := by
  refine ⟨fun hzero => ?_, ?_⟩
  · have := ascii_of_movemask hzero l hmem
    bv_omega
  obtain ⟨i, rfl⟩ := List.mem_ofFn.mp hmem
  have hlane : ∀ b : Byte, 0xF0 ≤ b →
      (laneMask ((0xf0 - 1 - 0x80 : Byte).slt (b + 0x80))).msb = true := by
    decide +kernel
  have hcond : mm_movemask_epi8 (cond4 chunk) ≠ 0 := by
    intro hzero
    have hclear := (movemask_eq_zero_iff _).mp hzero i
    exact absurd (hclear.symm.trans (hlane _ hl)) Bool.false_ne_true
  rw [accepts, passes, decide_eq_false hcond]
  rfl

/-- In front of a lead of four bytes the vector loop decodes characters only. -/
theorem blocksSpell_of_lead {l : Byte} (hl : 0xF0 ≤ l) (rest : List Byte) {n : ℕ} {bs : List Byte}
    {us : List CodeUnit} (hsp : Spells bs us) : BlocksSpell n (bs ++ l :: rest) := by
  induction hm : bs.length using Nat.strong_induction_on generalizing n bs us with
  | _ m ih =>
    by_cases hshort : 16 ≤ n ∧ 16 ≤ (bs ++ l :: rest).length
    swap
    · exact .short hshort
    have hblock := bytes_block hshort.2
    rcases Nat.lt_or_ge bs.length 16 with hlt | h16
    · -- the lead is in the block
      have hmem : l ∈ bytes (block (bs ++ l :: rest)) := by
        obtain ⟨k, hk⟩ : ∃ k, 16 - bs.length = k + 1 := ⟨15 - bs.length, by omega⟩
        rw [hblock, List.take_append, hk, List.take_succ_cons]
        exact List.mem_append_right _ List.mem_cons_self
      obtain ⟨hascii, hacc⟩ := rejected_of_lead hmem hl
      exact .rejected hascii hacc
    have htake : ∀ k, k ≤ 16 → (bs ++ l :: rest).take k = bs.take k := fun k hk =>
      List.take_append_of_le_length (by omega)
    have hdrop : ∀ k, k ≤ bs.length → (bs ++ l :: rest).drop k = bs.drop k ++ l :: rest :=
      fun k hk => List.drop_append_of_le_length hk
    rw [htake 16 (le_refl 16)] at hblock
    by_cases hascii : mm_movemask_epi8 (block (bs ++ l :: rest)) = 0
    · have hall := ascii_of_movemask hascii
      rw [hblock] at hall
      refine .ascii hascii ?_
      rw [hdrop 16 h16]
      exact ih _ (by rw [List.length_drop]; omega) (hsp.drop_ascii 16 h16 hall).2 rfl
    cases hacc : accepts (block (bs ++ l :: rest)) with
    | false => exact .rejected hascii hacc
    | true =>
      obtain ⟨bs₁, bs₂, us₁, us₂, rfl, rfl, h₁, h₂, hcut⟩ := hsp.cut 16 h16
      have hadv := src_adv_of_spells h₁ hcut hblock
      have hpos := src_adv_cases (block (bs₁ ++ bs₂ ++ l :: rest))
      rw [List.length_append] at hm
      have hspells : Spells ((bs₁ ++ bs₂ ++ l :: rest).take
          (src_adv (block (bs₁ ++ bs₂ ++ l :: rest))).toNat) us₁ := by
        rw [htake _ (by omega), hadv, Int.toNat_natCast, List.take_left' rfl]
        exact h₁
      refine .decoded hascii hacc hspells ?_
      rw [hadv, Int.toNat_natCast, hdrop _ (by simp), List.drop_left' rfl]
      exact ih bs₂.length (by omega) h₂ rfl

/-- From a text in the standard form, into an array of its length, the decoder makes this text if
and only if it stays within the plane. -/
theorem utf8BytesToArray_standard {source : List Byte} {target : List CodeUnit} {off : ℤ}
    (h0 : 0 ≤ off) (h1 : off ≤ source.length) {text : List Char} {tail : List Byte}
    (hdrop : source.drop off.toNat = utf8 text ++ tail) (ht : target.length = (utf16 text).length) :
    ∃ d, utf8BytesToArray source target off = .ok d ∧ d.target.length = target.length ∧
      ((∀ c ∈ text, IsBmp c) → d.value = (utf8 text).length ∧ d.target = utf16 text) ∧
      (¬ (∀ c ∈ text, IsBmp c) → d.target ≠ utf16 text) := by
  rcases bmp_or_beyond text with hbmp | ⟨front, c, back, rfl, hfront, hc⟩
  · obtain ⟨d, hd, hvalue, htake, hsize⟩ :=
      utf8BytesToArray_spelled h0 h1 hdrop (spells_utf8 hbmp) (.inl ht.symm)
    rw [List.take_of_length_le (by omega)] at htake
    exact ⟨d, hd, hsize, fun _ => ⟨hvalue, htake⟩, fun h => absurd hbmp h⟩
  · obtain ⟨hi, lo, hunits, -⟩ := utf16_beyond hc front back
    have hmany : (utf16 front).length < target.length := by
      rw [ht, hunits, List.length_append, List.length_cons]
      omega
    have hblocks : BlocksSpell target.length (source.drop off.toNat) := by
      obtain ⟨l, m, k, j, hbytes, hl, -⟩ := utf8Char_beyond hc
      rw [hdrop, utf8_append, utf8_cons, hbytes, List.append_assoc]
      exact blocksSpell_of_lead hl _ (spells_utf8 hfront)
    obtain ⟨d, hd, hy⟩ := utf8BytesToArray_yields h0 h1 hblocks
    refine ⟨d, hd, hy.size, fun h => absurd (h c (by simp)) hc, fun _ heq => ?_⟩
    -- what is decoded would be a front of the text
    refine scalarDecode_beyond hfront hc back tail hmany ?_
    have hfront' : d.target.take d.count.toNat =
        (scalarDecode target.length (source.drop off.toNat)).units := hy.front
    rw [← hdrop, ← hfront', heq]
    exact List.take_prefix _ _

end Native

/-! ## The writer -/

/-- A string in the standard form, behind its length in units. -/
def standardBytes (bits : Bits) (e : Bool) (text : List Char) : List Byte :=
  bits.int.layout e (BitVec.ofInt 32 (lengthOrNull (some (utf16 text)))) ++ utf8 text

section

variable {α β : Type} {f g : α → List β}

theorem length_flatMap_le (h : ∀ a, (g a).length ≤ (f a).length) (l : List α) :
    (l.flatMap g).length ≤ (l.flatMap f).length := by
  induction l with
  | nil => exact le_refl 0
  | cons a l ih =>
    have := h a
    rw [List.flatMap_cons, List.flatMap_cons, List.length_append, List.length_append]
    omega

/-- Where no part of one sequence is longer than its counterpart, the sequences agree only if all
the parts do. -/
theorem flatMap_eq_iff (h : ∀ a, (g a).length ≤ (f a).length) (l : List α) :
    l.flatMap f = l.flatMap g ↔ ∀ a ∈ l, f a = g a := by
  refine ⟨fun heq => ?_, List.flatMap_congr⟩
  induction l with
  | nil => exact fun a ha => absurd ha List.not_mem_nil
  | cons a l ih =>
    rw [List.flatMap_cons, List.flatMap_cons] at heq
    have hlen := congrArg List.length heq
    rw [List.length_append, List.length_append] at hlen
    have hhead := h a
    have htail := length_flatMap_le h l
    obtain ⟨hfront, hback⟩ := List.append_inj heq (by omega)
    exact List.forall_mem_cons.2 ⟨hfront, ih hback⟩

end

namespace ByteArrayObjectDataOutput

open ByteArrayObjectDataInput (utfBytes toByteArray_writeUTF)

/-- **The writer writes strings in the standard form** if and only if all of them stay within the
basic multilingual plane. -/
theorem toByteArray_standard (bits : Bits) {size : ℤ} (h0 : 0 ≤ size) (h : size ≤ MAX_VALUE)
    (order : ByteOrder) (texts : List (List Char)) {w : ByteArrayObjectDataOutput}
    (hok : forEach (writeUTF bits) (texts.map fun text => some (utf16 text)) (new size order) =
      .ok () w) :
    toByteArray w = .ok (texts.flatMap (standardBytes bits (order == .BIG_ENDIAN))) w ↔
      ∀ text ∈ texts, ∀ c ∈ text, IsBmp c := by
  have hbytes := (toByteArray_writeUTF h0 h order hok).1
  rw [List.flatMap_map] at hbytes
  have hle : ∀ text, (standardBytes bits (order == .BIG_ENDIAN) text).length ≤
      (utfBytes bits (order == .BIG_ENDIAN) (some (utf16 text))).length := by
    intro text
    rw [standardBytes, utfBytes, List.length_append, List.length_append]
    exact Nat.add_le_add_left (length_utf8_le text).1 _
  have hone : ∀ text, utfBytes bits (order == .BIG_ENDIAN) (some (utf16 text)) =
      standardBytes bits (order == .BIG_ENDIAN) text ↔ ∀ c ∈ text, IsBmp c := by
    intro text
    rw [← encode_utf16_eq_iff, utfBytes, standardBytes, Option.getD_some,
      List.append_cancel_left_eq]
  rw [hbytes]
  simp only [EStateM.Result.ok.injEq, and_true, flatMap_eq_iff hle, hone]

/-- A letter and a smiley. -/
theorem toByteArray_standard_smiley :
    toByteArray
        ⟨20, some [0, 0, 0, 1, 0x41, 0, 0, 0, 2, 0xED, 0xA0, 0xBD, 0xED, 0xB8, 0x80, 0, 0, 0, 0, 0],
          15, true, 6⟩ =
      .ok ([['A'], ['😀']].flatMap (standardBytes Bits.standard true))
        ⟨20, some [0, 0, 0, 1, 0x41, 0, 0, 0, 2, 0xED, 0xA0, 0xBD, 0xED, 0xB8, 0x80, 0, 0, 0, 0, 0],
          15, true, 6⟩ ↔
    ∀ text ∈ [['A'], ['😀']], ∀ c ∈ text, IsBmp c :=
  toByteArray_standard Bits.standard (by decide : (0 : ℤ) ≤ 20) (by decide) .BIG_ENDIAN
    [['A'], ['😀']] rfl

end ByteArrayObjectDataOutput

namespace ByteArrayObjectDataInput

variable {s : ByteArrayObjectDataInput} {bits : Bits} {text : List Char} {tail : List Byte}

/-! ## The readers -/

theorem length_standardBytes (bits : Bits) (e : Bool) (text : List Char) :
    (standardBytes bits e text).length = 4 + (utf8 text).length := by
  rw [standardBytes, List.length_append, bits.int.length_layout]

/-- The readers behind the length. -/
theorem InBounds.readInt_standard (h : InBounds s) (hlen : (utf16 text).length ≤ MAX_VALUE)
    (hrest : s.rest = standardBytes bits s.bigEndian text ++ tail) :
    ∃ v : BitVec 32, v.toInt = (utf16 text).length ∧ readInt bits s = .ok v (s.moved (4 : ℕ)) ∧
      InBounds (s.moved (4 : ℕ)) ∧ (s.moved (4 : ℕ)).rest = utf8 text ++ tail := by
  rw [standardBytes, List.append_assoc] at hrest
  have hv : (BitVec.ofInt 32 (lengthOrNull (some (utf16 text)))).toInt = (utf16 text).length :=
    toInt_ofInt lengthOrNull_ge hlen
  exact ⟨_, hv, h.readInt_length hrest⟩

/-- `readUTF` reads texts of the plane, and refuses all others. -/
theorem InBounds.readUTF_standard (h : InBounds s) (hlen : (utf16 text).length ≤ MAX_VALUE)
    (hrest : s.rest = standardBytes bits s.bigEndian text ++ tail) :
    ((∀ c ∈ text, IsBmp c) → ∃ s', readUTF bits s = .ok (some (utf16 text)) s' ∧
      s'.pos = s.pos + (standardBytes bits s.bigEndian text).length) ∧
    (¬ (∀ c ∈ text, IsBmp c) →
      ∃ s', readUTF bits s = .error (.throws .UTFDataFormatException) s') := by
  obtain ⟨v, hv, hrun, hin, hrest'⟩ := h.readInt_standard hlen hrest
  have hn : v.toInt.toNat = (utf16 text).length := by omega
  rcases bmp_or_beyond text with hbmp | ⟨front, c, back, rfl, hfront, hc⟩
  · refine ⟨fun _ => ?_, fun hnot => absurd hbmp hnot⟩
    obtain ⟨s', hread, hpast⟩ := readUTF_ok hrun hin (by omega)
      (by rw [hrest', hn]; exact plainText_spelled (spells_utf8 hbmp) tail)
    refine ⟨s', hread, ?_⟩
    rw [hpast.pos_eq, moved_pos, length_standardBytes]
    omega
  · refine ⟨fun hall => absurd (hall c (by simp)) hc, fun _ => ?_⟩
    obtain ⟨hi, lo, hunits, -⟩ := utf16_beyond hc front back
    refine readUTF_error hrun hin (by omega) ?_
    rw [hrest', hn]
    refine plainText_beyond hfront hc back tail ?_
    rw [hunits, List.length_append, List.length_cons]
    omega

/-- `readUTFJNI` reads texts of the plane, and makes other strings of all others. -/
theorem InBounds.readUTFJNI_standard (h : InBounds s) (hlen : (utf16 text).length ≤ MAX_VALUE)
    (hrest : s.rest = standardBytes bits s.bigEndian text ++ tail)
    (hcap : s.capacity ≤ (utf16 text).length) :
    ∃ us s', readUTFJNI bits s = .ok (some us) s' ∧
      ((∀ c ∈ text, IsBmp c) → us = utf16 text ∧
        s'.pos = s.pos + (standardBytes bits s.bigEndian text).length) ∧
      (¬ (∀ c ∈ text, IsBmp c) → us ≠ utf16 text) := by
  obtain ⟨v, hv, hrun, hin, hrest'⟩ := h.readInt_standard hlen hrest
  obtain ⟨buffer, hbuf, hbuffer⟩ :=
    ensureCharBuffer_ok (s := s.moved (4 : ℕ)) (n := (utf16 text).length) (Int.natCast_nonneg _)
  have hbuf' : buffer.length = (utf16 text).length :=
    hbuf.trans (Nat.max_eq_right hcap)
  have hroom : 4 ≤ s.rest.length := by
    rw [hrest, List.length_append, length_standardBytes]
    omega
  have hle : (s.moved (4 : ℕ)).pos ≤ s.bytes.length := by
    rw [← h.size_eq_length]
    exact hin.pos_le
  obtain ⟨d, hcall, hsize, hbmp, hbeyond⟩ :=
    Native.utf8BytesToArray_standard hin.pos_nonneg hle hrest' hbuf'
  rw [← hv] at hbuffer
  rcases readUTFJNI_run hrun hin (data_eq_of_moved hroom) (by rw [hv, NULL_ARRAY_LENGTH]; omega)
    hbuffer with ⟨f, hfault, -⟩ | ⟨d', hcall', hstring⟩
  · exact absurd (hfault.symm.trans hcall) (by simp)
  · obtain rfl : d' = d := Except.ok.inj (hcall'.symm.trans hcall)
    have hstring' : newString v.toInt ((s.moved (4 : ℕ)).decoded d') =
        .ok (some d'.target) ((s.moved (4 : ℕ)).decoded d') := by
      rw [hv, newString_run (s := (s.moved (4 : ℕ)).decoded d') rfl (by omega) (by omega),
        List.take_of_length_le (by omega)]
    refine ⟨d'.target, _, hstring.trans hstring', fun h => ⟨(hbmp h).2, ?_⟩, hbeyond⟩
    change s.pos + (4 : ℕ) + d'.value = _
    rw [(hbmp h).1, length_standardBytes]
    omega

/-- **Strings in the standard form** are read by both readers if they stay within the plane. Of all
others `readUTF` throws `UTFDataFormatException`, while `readUTFJNI` returns a string, but not the
one that was sent. -/
theorem readers_standard (bits : Bits) (h : InBounds s) (hlen : (utf16 text).length ≤ MAX_VALUE)
    (hrest : s.rest = standardBytes bits s.bigEndian text ++ tail)
    (hcap : s.capacity ≤ (utf16 text).length) :
    ((∀ c ∈ text, IsBmp c) → ∃ s' s'', readUTF bits s = .ok (some (utf16 text)) s' ∧
      readUTFJNI bits s = .ok (some (utf16 text)) s'' ∧
      s'.pos = s.pos + (standardBytes bits s.bigEndian text).length ∧
      s''.pos = s.pos + (standardBytes bits s.bigEndian text).length) ∧
    (¬ (∀ c ∈ text, IsBmp c) → ∃ us s' s'',
      readUTF bits s = .error (.throws .UTFDataFormatException) s' ∧
      readUTFJNI bits s = .ok (some us) s'' ∧ us ≠ utf16 text) := by
  obtain ⟨hplain, hrefused⟩ := h.readUTF_standard hlen hrest
  obtain ⟨us, s'', hnative, hsame, hother⟩ := h.readUTFJNI_standard hlen hrest hcap
  refine ⟨fun hbmp => ?_, fun hbeyond => ?_⟩
  · obtain ⟨s', hread, hpos⟩ := hplain hbmp
    obtain ⟨rfl, hpos'⟩ := hsame hbmp
    exact ⟨s', s'', hread, hnative, hpos, hpos'⟩
  · obtain ⟨s', hread⟩ := hrefused hbeyond
    exact ⟨us, s', s'', hread, hnative, hother hbeyond⟩

/-- A letter and a smiley. -/
theorem readers_standard_smiley :
    ∃ us s' s'',
      readUTF Bits.standard (new (some [0, 0, 0, 3, 0x41, 0xF0, 0x9F, 0x98, 0x80]) 0 .BIG_ENDIAN) =
        .error (.throws .UTFDataFormatException) s' ∧
      readUTFJNI Bits.standard
          (new (some [0, 0, 0, 3, 0x41, 0xF0, 0x9F, 0x98, 0x80]) 0 .BIG_ENDIAN) =
        .ok (some us) s'' ∧ us ≠ [0x41, 0xD83D, 0xDE00] :=
  (@readers_standard _ ['A', '😀'] [] Bits.standard (inBounds_new (by decide) .BIG_ENDIAN)
    (by decide) rfl (by decide)).2 fun h => absurd (h '😀' (by simp)) (by decide)

end ByteArrayObjectDataInput

end HzResearch
