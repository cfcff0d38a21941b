import HzResearch.NativeReader
import HzResearch.ScalarRefinement

/-!
# Strings into an array of the caller

`inflateUTF` stores the string at the cursor at the front of `dst` and stops behind it
(`inflateUTF_inflates`). `inflateUTFJNI` hands the decoder `charBuffer` where it should
hand it `dst`: it never stores into `dst`, and decodes as many units as the buffer of
earlier calls happens to have. `inflates_iff` says when that goes unnoticed.
-/

namespace HzResearch

open Java Utf8

namespace ByteArrayObjectDataInput

variable {s : ByteArrayObjectDataInput} {bits : Bits} {us dst : List CodeUnit} {tail : List Byte}

/-- The string is stored at the front of `dst`, the rest of `dst` is kept, and the cursor moves
behind the string. -/
def Inflates (m : Java (ByteArrayObjectDataInput × List CodeUnit) Unit)
    (s : ByteArrayObjectDataInput) (dst us : List CodeUnit) : Prop :=
  ∃ t, m (s, dst) = .ok () (t, us ++ dst.drop us.length) ∧
    t.pos = s.pos + (4 + (encode us).length)

/-- The length of a string that is there. -/
theorem InBounds.readInt_string (h : InBounds s) (hlen : us.length ≤ MAX_VALUE)
    (hrest : s.rest = utfBytes bits s.bigEndian (some us) ++ tail) :
    ∃ v : BitVec 32, v.toInt = us.length ∧ readInt bits s = .ok v (s.moved (4 : ℕ)) ∧
      InBounds (s.moved (4 : ℕ)) ∧ (s.moved (4 : ℕ)).rest = encode us ++ tail := by
  rw [utfBytes, List.append_assoc] at hrest
  have hv : (BitVec.ofInt 32 (lengthOrNull (some us))).toInt = us.length :=
    toInt_ofInt lengthOrNull_ge hlen
  exact ⟨_, hv, h.readInt_length hrest⟩

/-- `inflateUTF` stores the string at the front of `dst` and moves behind it, whatever the buffer
for characters. -/
theorem inflateUTF_run (h : InBounds s) (hlen : us.length ≤ MAX_VALUE)
    (hrest : s.rest = utfBytes bits s.bigEndian (some us) ++ tail)
    (hroom : us.length ≤ dst.length) :
    inflateUTF bits (s, dst) =
      .ok () (s.moved ((4 : ℕ) + (encode us).length), us ++ dst.drop us.length) := by
  obtain ⟨v, hv, hrun, hin, hrest'⟩ := h.readInt_string hlen hrest
  have htext := plainText_spelled (spells_encode us) tail
  rw [← hrest'] at htext
  have hloop := (inflateChars_decodes bits hin).run_ok us.length dst (n := 0) (i := 0)
    (Nat.zero_le _) (by omega) htext
  have hplace : ((s.moved (4 : ℕ)).moved ((0 : ℕ) : ℤ), dst) = (s.moved (4 : ℕ), dst) := by
    rw [moved_moved, Nat.cast_zero, Int.add_zero]
  have hsplice : splice dst 0 us = us ++ dst.drop us.length := by
    rw [splice, List.take_zero, List.nil_append, Nat.zero_add]
  rw [hplace, Nat.zero_add, hsplice, moved_moved] at hloop
  rw [inflateUTF, bind_ok (beside_ok hrun dst), hv,
    if_neg (by rw [NULL_ARRAY_LENGTH]; omega), bind_ok (get_run _), if_neg (by simp only; omega),
    Int.toNat_natCast, List.range_eq_range']
  exact hloop

/-- **`inflateUTF` inflates**, whatever the buffer for characters. -/
theorem inflateUTF_inflates (h : InBounds s) (hlen : us.length ≤ MAX_VALUE)
    (hrest : s.rest = utfBytes bits s.bigEndian (some us) ++ tail)
    (hroom : us.length ≤ dst.length) : Inflates (inflateUTF bits) s dst us :=
  ⟨_, inflateUTF_run h hlen hrest hroom, rfl⟩

/-- `inflateUTFJNI` leaves `dst` as it is and moves by what the decoder returns for `charBuffer`. -/
theorem inflateUTFJNI_run (h : InBounds s) (hlen : us.length ≤ MAX_VALUE)
    (hrest : s.rest = utfBytes bits s.bigEndian (some us) ++ tail)
    (hroom : us.length ≤ dst.length) :
    (∃ t, inflateUTFJNI bits (s, dst) = .error .fault t ∧
      ∀ buffer, s.charBuffer = some buffer →
        ∃ f, Native.utf8BytesToArray s.bytes buffer (s.pos + 4) = .error f) ∨
    ∃ buffer d, s.charBuffer = some buffer ∧
      Native.utf8BytesToArray s.bytes buffer (s.pos + 4) = .ok d ∧
      inflateUTFJNI bits (s, dst) = .ok () ((s.moved (4 : ℕ)).decoded d, dst) := by
  obtain ⟨v, hv, hrun, hin, hrest'⟩ := h.readInt_string hlen hrest
  have hfour : 4 ≤ s.rest.length := by
    rw [hrest, utfBytes, List.length_append, List.length_append, bits.int.length_layout]
    omega
  have hd := data_eq_of_moved hfour
  have hcall : inflateUTFJNI bits (s, dst) = (do
      let read ← beside utf8BytesToArray
      beside (advance read)) (s.moved (4 : ℕ), dst) := by
    rw [inflateUTFJNI, bind_ok (beside_ok hrun dst), hv,
      if_neg (by rw [NULL_ARRAY_LENGTH]; omega), bind_ok (get_run _), if_neg (by simp only; omega)]
  rcases hb : s.charBuffer with _ | buffer
  · -- the decoder is handed null
    have hnull : utf8BytesToArray (s.moved (4 : ℕ)) = .error .fault (s.moved (4 : ℕ)) := by
      have hb' : (s.moved (4 : ℕ)).charBuffer = none := hb
      simp only [utf8BytesToArray, hd, hb']
    exact .inl ⟨_, hcall.trans (bind_error (beside_error hnull dst)), by simp⟩
  have hb' : (s.moved (4 : ℕ)).charBuffer = some buffer := hb
  rcases hin.decode_run hd hb' with ⟨f, hnative, hfault⟩ | ⟨d, hnative, hok, hadvance⟩
  · refine .inl ⟨_, hcall.trans (bind_error (beside_error hfault dst)), ?_⟩
    rintro buffer' hbuffer
    cases hbuffer
    exact ⟨f, hnative⟩
  · refine .inr ⟨buffer, d, rfl, hnative, ?_⟩
    rw [hcall, bind_ok (beside_ok hok dst), beside_ok hadvance dst]

/-- A buffer with fewer units than the string makes the decoder stop before its end. -/
theorem encode_take_lt {n : ℕ} (hn : n < us.length) :
    (encode (us.take n)).length < (encode us).length := by
  have hsplit := congrArg List.length (encode_append (us.take n) (us.drop n))
  have hle := length_le_encode (us.drop n)
  rw [List.take_append_drop, List.length_append] at hsplit
  rw [List.length_drop] at hle
  omega

/-- **When `inflateUTFJNI` is a drop-in**: behind a string that `writeUTF` has written, `inflateUTF`
inflates it into every array with room for it. `inflateUTFJNI` does so if and only if the string
stands in the array already, and the buffer for characters is as long as the string, or longer
with nothing behind the string. -/
theorem inflates_iff (bits : Bits) (us dst : List CodeUnit) (tail : List Byte) (h : InBounds s)
    (hlen : us.length ≤ MAX_VALUE)
    (hrest : s.rest = utfBytes bits s.bigEndian (some us) ++ tail)
    (hroom : us.length ≤ dst.length) :
    Inflates (inflateUTF bits) s dst us ∧
    (Inflates (inflateUTFJNI bits) s dst us ↔ dst.take us.length = us ∧
      ∃ buffer, s.charBuffer = some buffer ∧
        (us.length = buffer.length ∨ us.length ≤ buffer.length ∧ tail = [])) := by
  refine ⟨inflateUTF_inflates h hlen hrest hroom, ?_⟩
  obtain ⟨v, -, -, hin, hrest'⟩ := h.readInt_string hlen hrest
  have h0 : 0 ≤ s.pos + 4 := hin.pos_nonneg
  have h1 : s.pos + 4 ≤ s.bytes.length := by
    rw [← h.size_eq_length]
    exact hin.pos_le
  have hfront : dst = us ++ dst.drop us.length ↔ dst.take us.length = us := by
    constructor
    · intro heq
      rw [heq, List.take_left' rfl]
    · intro htake
      have hsplit := List.take_append_drop us.length dst
      rw [htake] at hsplit
      exact hsplit.symm
  constructor
  -- `dst` never changes, and `pos` ends behind the string only if the decoder stops there
  · rintro ⟨t, ht, hpos⟩
    rcases inflateUTFJNI_run h hlen hrest hroom with ⟨t', hfault, -⟩ | ⟨buffer, d, hb, hcall, hrun⟩
    · rw [hfault] at ht
      cases ht
    obtain ⟨hstate, hdst⟩ := Prod.mk.inj (EStateM.Result.ok.inj (hrun.symm.trans ht)).2
    have hvalue : d.value = (encode us).length := by
      rw [← hstate] at hpos
      change s.pos + (4 : ℕ) + d.value = _ at hpos
      omega
    refine ⟨hfront.mp hdst, buffer, hb, ?_⟩
    rcases Nat.lt_trichotomy us.length buffer.length with hlong | heq | hshort
    · refine .inr ⟨hlong.le, ?_⟩
      by_contra htail
      -- with room left the decoder goes on behind the string
      have hpast := Native.reads_past h0 h1 hrest' (spells_encode us) htail hlong hcall
      omega
    · exact .inl heq
    · -- the decoder stops when the buffer is full
      have hsplit : encode us ++ tail =
          encode (us.take buffer.length) ++ (encode (us.drop buffer.length) ++ tail) := by
        rw [← List.append_assoc, ← encode_append, List.take_append_drop]
      obtain ⟨d', hcall', hvalue', -⟩ := Native.utf8BytesToArray_spelled h0 h1
        (hrest'.trans hsplit) (spells_encode _) (.inl (List.length_take_of_le hshort.le))
      rw [hcall] at hcall'
      cases hcall'
      have := encode_take_lt hshort
      omega
  -- the decoder stops behind the string, and `dst` holds it already
  · rintro ⟨htake, buffer, hb, hfit⟩
    obtain ⟨d, hcall, hvalue, -⟩ :=
      Native.utf8BytesToArray_spelled h0 h1 hrest' (spells_encode us) hfit
    rcases inflateUTFJNI_run h hlen hrest hroom with
      ⟨t', -, hfault⟩ | ⟨buffer', d', hb', hcall', hrun⟩
    · obtain ⟨f, hf⟩ := hfault buffer hb
      rw [hcall] at hf
      cases hf
    · rw [hb] at hb'
      cases hb'
      rw [hcall] at hcall'
      cases hcall'
      refine ⟨(s.moved (4 : ℕ)).decoded d, ?_, ?_⟩
      · rw [← hfront.mpr htake]
        exact hrun
      · change s.pos + (4 : ℕ) + d.value = _
        omega

/-- A string of two, after a string of two, into an array that holds it already. -/
theorem inflates_again :
    Inflates (inflateUTF Bits.standard)
        { new (some [0, 0, 0, 2, 0x61, 0x62, 0x63]) 0 .BIG_ENDIAN with charBuffer := some [7, 7] }
        [0x61, 0x62, 0x63] [0x61, 0x62] ∧
      Inflates (inflateUTFJNI Bits.standard)
        { new (some [0, 0, 0, 2, 0x61, 0x62, 0x63]) 0 .BIG_ENDIAN with charBuffer := some [7, 7] }
        [0x61, 0x62, 0x63] [0x61, 0x62] := by
  have h : InBounds { new (some [0, 0, 0, 2, 0x61, 0x62, 0x63]) 0 .BIG_ENDIAN with
      charBuffer := some [7, 7] } := ⟨rfl, by decide, by decide, by decide⟩
  have hboth := inflates_iff Bits.standard [0x61, 0x62] [0x61, 0x62, 0x63] [0x63] h (by decide)
    (by decide) (by decide)
  exact ⟨hboth.1, hboth.2.2 ⟨rfl, [7, 7], rfl, .inl rfl⟩⟩

/-- A reader that has read a string of one character before: the array keeps its zero. -/
theorem not_inflates_buffer :
    ∃ s, readUTF Bits.standard
        (new (some [0, 0, 0, 1, 0x62, 0, 0, 0, 1, 0x61]) 0 .BIG_ENDIAN) = .ok (some [0x62]) s ∧
      Inflates (inflateUTF Bits.standard) s [0] [0x61] ∧
      ¬ Inflates (inflateUTFJNI Bits.standard) s [0] [0x61] := by
  refine ⟨⟨some [0, 0, 0, 1, 0x62, 0, 0, 0, 1, 0x61], 10, 5, 0, some [0x62], true⟩, rfl,
    ⟨⟨some [0, 0, 0, 1, 0x62, 0, 0, 0, 1, 0x61], 10, 10, 0, some [0x62], true⟩, rfl, rfl⟩, ?_⟩
  rintro ⟨t, ht, -⟩
  have hrun : inflateUTFJNI Bits.standard
      (⟨some [0, 0, 0, 1, 0x62, 0, 0, 0, 1, 0x61], 10, 5, 0, some [0x62], true⟩, [0]) =
        .ok () (⟨some [0, 0, 0, 1, 0x62, 0, 0, 0, 1, 0x61], 10, 10, 0, some [0x61], true⟩, [0]) :=
    rfl
  rw [hrun] at ht
  cases ht

end ByteArrayObjectDataInput

end HzResearch
