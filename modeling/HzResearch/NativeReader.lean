import HzResearch.DecoderResults
import HzResearch.ReadExtent
import HzResearch.Stream

/-!
# The native string reader

`readUTFJNI` lets the decoder fill `charBuffer`, of which `charCount` characters are the
string, and takes the value returned for the number of bytes read. Both go wrong:

* `readsBack_iff` — strings written by `writeUTF` come back, each read stopping behind
  its string, exactly if no string but the last is shorter than an earlier one: a buffer
  that is too long makes the decoder read on into the next string.
* `failsToo_iff` — where `readUTF` rejects the characters, `readUTFJNI` does not throw:
  the `-1` of the decoder moves `pos` and is not looked at otherwise. It never moves
  `pos` backwards.

`readUTFJNI_run` says what one call does, in terms of the decoder.
-/

namespace HzResearch

open Java Utf8

namespace ByteArrayObjectDataInput

variable {s s' : ByteArrayObjectDataInput} {bits : Bits} {v : BitVec 32}

/-! ## One call -/

/-- `readUTFJNI` of null. -/
theorem readUTFJNI_null (hrun : readInt bits s = .ok v s') (hv : v.toInt = NULL_ARRAY_LENGTH) :
    readUTFJNI bits s = .ok none s' := by
  rw [readUTFJNI, bind_ok hrun, if_pos hv]
  rfl

/-- The reader after a call of the decoder. -/
def decoded (s : ByteArrayObjectDataInput) (d : Native.Decoded) : ByteArrayObjectDataInput :=
  { s with pos := s.pos + d.value, charBuffer := some d.target }

/-- The decoder is called with a buffer: it faults, or `pos` moves by the value it returns. -/
theorem InBounds.decode_run (h : InBounds s) (hd : s.data = some s.bytes) {buffer : List CodeUnit}
    (hb : s.charBuffer = some buffer) :
    (∃ f, Native.utf8BytesToArray s.bytes buffer s.pos = .error f ∧
      utf8BytesToArray s = .error .fault s) ∨
    ∃ d, Native.utf8BytesToArray s.bytes buffer s.pos = .ok d ∧
      utf8BytesToArray s = .ok d.value { s with charBuffer := some d.target } ∧
      advance d.value { s with charBuffer := some d.target } = .ok () (s.decoded d) := by
  rcases hcall : Native.utf8BytesToArray s.bytes buffer s.pos with f | d
  · refine .inl ⟨f, rfl, ?_⟩
    simp only [utf8BytesToArray, hd, hb, hcall]
  · refine .inr ⟨d, rfl, by simp only [utf8BytesToArray, hd, hb, hcall], ?_⟩
    have hmax := h.size_le
    have h0 := h.pos_nonneg
    have hsize := h.size_eq_length
    have hle := h.pos_le
    have hbounds := Native.value_bounds (by omega) hcall
    change EStateM.Result.ok () { s with
      pos := jint (s.pos + d.value), charBuffer := some d.target } = _
    rw [jint_of_range (by omega) (by omega)]
    rfl

/-- Behind a length and with a buffer, `readUTFJNI` runs into the fault of the decoder, or makes a
string of what the decoder has left in the buffer. -/
theorem readUTFJNI_run (hrun : readInt bits s = .ok v s') (h : InBounds s')
    (hd : s'.data = some s'.bytes) (hv : v.toInt ≠ NULL_ARRAY_LENGTH) {buffer : List CodeUnit}
    (hbuffer : ensureCharBuffer v.toInt s' = .ok () { s' with charBuffer := some buffer }) :
    (∃ f, Native.utf8BytesToArray s'.bytes buffer s'.pos = .error f ∧
      readUTFJNI bits s = .error .fault { s' with charBuffer := some buffer }) ∨
    ∃ d, Native.utf8BytesToArray s'.bytes buffer s'.pos = .ok d ∧
      readUTFJNI bits s = newString v.toInt (s'.decoded d) := by
  have hin : InBounds { s' with charBuffer := some buffer } :=
    ⟨h.size_eq, h.size_le, h.pos_nonneg, h.pos_le⟩
  rw [readUTFJNI, bind_ok hrun, if_neg hv, bind_ok hbuffer]
  rcases hin.decode_run hd rfl with ⟨f, hcall, hfault⟩ | ⟨d, hcall, hnative, hadvance⟩
  · exact .inl ⟨f, hcall, bind_error hfault⟩
  · exact .inr ⟨d, hcall, by rw [bind_ok hnative, bind_ok hadvance]; rfl⟩

/-- A length that is there. -/
theorem InBounds.readInt_length (h : InBounds s) {tail : List Byte}
    (hrest : s.rest = bits.int.layout s.bigEndian v ++ tail) :
    readInt bits s = .ok v (s.moved (4 : ℕ)) ∧ InBounds (s.moved (4 : ℕ)) ∧
      (s.moved (4 : ℕ)).rest = tail := by
  have hlen := bits.int.length_layout s.bigEndian v
  obtain ⟨u, hu, hrun⟩ := h.readInt_ok bits
    (by rw [hrest, List.length_append]; omega)
  rw [hrest, List.take_left' hlen] at hu
  obtain rfl := bits.int.layout_injective s.bigEndian hu
  refine ⟨hrun, h.moved (by omega) ?_, ?_⟩
  · rw [hrest, List.length_append]
    omega
  · rw [h.rest_moved, hrest, List.drop_left' hlen]

/-- Where bytes have been read there is data. -/
theorem data_eq_of_moved (hroom : 4 ≤ s.rest.length) : (s.moved (4 : ℕ)).data = some s.bytes :=
  data_eq_of_rest (s := s) (by rw [← List.length_pos_iff]; omega)

/-! ## Strings one after the other -/

/-- `readUTFJNI` returns these strings, stops behind each of them, and at the end of the data behind
the last. -/
def ReadsBack (bits : Bits) : List (Option (List CodeUnit)) → ByteArrayObjectDataInput → Prop
  | [], s => s.pos = s.size
  | str :: strings, s => ∃ s', readUTFJNI bits s = .ok str s' ∧
      s'.pos = s.pos + (utfBytes bits s.bigEndian str).length ∧ ReadsBack bits strings s'

/-- The lengths of the strings that are not null. -/
def lengths (strings : List (Option (List CodeUnit))) : List ℕ :=
  strings.filterMap (Option.map List.length)

@[simp] theorem lengths_none (strings : List (Option (List CodeUnit))) :
    lengths (none :: strings) = lengths strings := rfl

@[simp] theorem lengths_some (us : List CodeUnit) (strings : List (Option (List CodeUnit))) :
    lengths (some us :: strings) = us.length :: lengths strings := rfl

variable {us : List CodeUnit} {tail : List Byte} {str : Option (List CodeUnit)}

/-- What comes back of a null string. -/
theorem readUTFJNI_none (h : InBounds s) (hrest : s.rest = utfBytes bits s.bigEndian none ++ tail) :
    readUTFJNI bits s = .ok none (s.moved (4 : ℕ)) ∧ InBounds (s.moved (4 : ℕ)) ∧
      (s.moved (4 : ℕ)).rest = tail ∧ (utfBytes bits s.bigEndian none).length = 4 := by
  have hbytes : utfBytes bits s.bigEndian none =
      bits.int.layout s.bigEndian (BitVec.ofInt 32 (-1)) := by
    rw [utfBytes, Option.getD_none, encode_nil, List.append_nil]
    rfl
  rw [hbytes] at hrest ⊢
  obtain ⟨hrun, hin, htail⟩ := h.readInt_length hrest
  exact ⟨readUTFJNI_null hrun (by decide), hin, htail, bits.int.length_layout _ _⟩

/-- What the decoder is called with for a string that is not null. -/
theorem readUTFJNI_some (h : InBounds s) (hlen : us.length ≤ MAX_VALUE)
    (hrest : s.rest = utfBytes bits s.bigEndian (some us) ++ tail) :
    ∃ buffer : List CodeUnit, buffer.length = max s.capacity us.length ∧
      InBounds (s.moved (4 : ℕ)) ∧ (s.moved (4 : ℕ)).rest = encode us ++ tail ∧
      (utfBytes bits s.bigEndian (some us)).length = 4 + (encode us).length ∧
      ((∃ f s', Native.utf8BytesToArray s.bytes buffer (s.moved (4 : ℕ)).pos = .error f ∧
          readUTFJNI bits s = .error .fault s') ∨
        ∃ d, Native.utf8BytesToArray s.bytes buffer (s.moved (4 : ℕ)).pos = .ok d ∧
          readUTFJNI bits s =
            .ok (some (d.target.take us.length)) ((s.moved (4 : ℕ)).decoded d)) := by
  have hv : (BitVec.ofInt 32 (lengthOrNull (some us))).toInt = us.length :=
    toInt_ofInt lengthOrNull_ge hlen
  have hbytes : (utfBytes bits s.bigEndian (some us)).length = 4 + (encode us).length := by
    rw [utfBytes, List.length_append, bits.int.length_layout, Option.getD_some]
  have hroom : 4 ≤ s.rest.length := by
    rw [hrest, List.length_append]
    omega
  rw [utfBytes, List.append_assoc] at hrest
  obtain ⟨hrun, hin, htail⟩ := h.readInt_length hrest
  obtain ⟨buffer, hbuf, hbuffer⟩ :=
    ensureCharBuffer_ok (s := s.moved (4 : ℕ)) (n := us.length) (by omega)
  rw [← hv] at hbuffer
  refine ⟨buffer, hbuf, hin, htail, hbytes, ?_⟩
  rcases readUTFJNI_run hrun hin (data_eq_of_moved hroom) (by rw [hv, NULL_ARRAY_LENGTH]; omega)
    hbuffer with ⟨f, hcall, hfault⟩ | ⟨d, hcall, hstring⟩
  · exact .inl ⟨f, _, hcall, hfault⟩
  · refine .inr ⟨d, hcall, ?_⟩
    have hsize := Native.length_target hcall
    rw [hstring, hv, newString_run (s := (s.moved (4 : ℕ)).decoded d) rfl (by omega)
      (by omega), Int.toNat_natCast]

/-- A string comes back if the buffer is no longer than it is, or nothing follows. -/
theorem readUTFJNI_fits (h : InBounds s) (hlen : us.length ≤ MAX_VALUE)
    (hrest : s.rest = utfBytes bits s.bigEndian (some us) ++ tail)
    (hfit : s.capacity ≤ us.length ∨ tail = []) :
    ∃ s', readUTFJNI bits s = .ok (some us) s' ∧
      Past s (utfBytes bits s.bigEndian (some us)).length s' ∧
        s'.capacity = max s.capacity us.length := by
  obtain ⟨buffer, hbuf, hin, hrest', hbytes, hrun⟩ := readUTFJNI_some h hlen hrest
  have hle : (s.moved (4 : ℕ)).pos ≤ s.bytes.length := by
    rw [← h.size_eq_length]
    exact hin.pos_le
  have hfit' : us.length = buffer.length ∨ us.length ≤ buffer.length ∧ tail = [] :=
    hfit.imp (fun hcap => by omega) fun hnil => ⟨by omega, hnil⟩
  obtain ⟨d, hcall, hvalue, hfront, hsize⟩ :=
    Native.utf8BytesToArray_spelled hin.pos_nonneg hle hrest' (spells_encode us) hfit'
  rcases hrun with ⟨f, s', hfault, -⟩ | ⟨d', hcall', hrun⟩
  · rw [hfault] at hcall
    cases hcall
  · obtain rfl : d' = d := Except.ok.inj (hcall'.symm.trans hcall)
    rw [hfront] at hrun
    refine ⟨_, hrun, ⟨rfl, rfl, rfl, ?_⟩, hsize.trans hbuf⟩
    change s.pos + (4 : ℕ) + d'.value = _
    rw [hvalue, hbytes]
    omega

/-- A buffer that is longer than the string makes the decoder read on. -/
theorem readUTFJNI_overruns (h : InBounds s) (hlen : us.length ≤ MAX_VALUE)
    (hrest : s.rest = utfBytes bits s.bigEndian (some us) ++ tail) (hlong : us.length < s.capacity)
    (htail : tail ≠ []) (hrun : readUTFJNI bits s = .ok str s') :
    s'.pos ≠ s.pos + (utfBytes bits s.bigEndian (some us)).length := by
  obtain ⟨buffer, hbuf, hin, hrest', hbytes, hcases⟩ := readUTFJNI_some h hlen hrest
  have hle : (s.moved (4 : ℕ)).pos ≤ s.bytes.length := by
    rw [← h.size_eq_length]
    exact hin.pos_le
  rcases hcases with ⟨f, s', -, hfault⟩ | ⟨d, hcall, hrun'⟩
  · rw [hrun] at hfault
    cases hfault
  · rw [hrun] at hrun'
    cases hrun'
    have hlong' : us.length < buffer.length := by omega
    have hpast :=
      Native.reads_past hin.pos_nonneg hle hrest' (spells_encode us) htail hlong' hcall
    change s.pos + (4 : ℕ) + d.value ≠ _
    omega

/-- **Reading strings back**, from any reader. -/
theorem readsBack_iff_pairwise (strings : List (Option (List CodeUnit))) :
    ∀ {s : ByteArrayObjectDataInput}, InBounds s →
      s.rest = strings.flatMap (utfBytes bits s.bigEndian) →
        (∀ str ∈ strings, lengthOrNull str ≤ MAX_VALUE) →
          (ReadsBack bits strings s ↔
            (s.capacity :: lengths strings.dropLast).Pairwise (· ≤ ·)) := by
  induction strings with
  | nil =>
    intro s h hrest _
    have hleft := h.length_rest
    rw [hrest, List.flatMap_nil, List.length_nil] at hleft
    refine iff_of_true ?_ (List.pairwise_singleton _ _)
    change s.pos = s.size
    omega
  | cons str strings ih =>
    intro s h hrest hlen
    have hlen' : ∀ str ∈ strings, lengthOrNull str ≤ MAX_VALUE :=
      fun t ht => hlen t (List.mem_cons_of_mem str ht)
    rw [List.flatMap_cons] at hrest
    rcases str with _ | us
    · -- null takes four bytes and leaves the buffer alone
      obtain ⟨hrun, hin, htail, hbytes⟩ := readUTFJNI_none h hrest
      have hlengths : lengths (none :: strings).dropLast = lengths strings.dropLast := by
        rcases strings with _ | ⟨next, strings⟩
        · rfl
        · rw [List.dropLast_cons_cons, lengths_none]
      rw [hlengths]
      refine Iff.trans ⟨?_, fun hback => ⟨_, hrun, by rw [hbytes]; rfl, hback⟩⟩ (ih hin htail hlen')
      rintro ⟨s', hrun', -, hback⟩
      rw [hrun] at hrun'
      cases hrun'
      exact hback
    · have hus : (us.length : ℤ) ≤ MAX_VALUE := hlen (some us) List.mem_cons_self
      by_cases hfit : s.capacity ≤ us.length ∨ strings = []
      -- the string fills the buffer, or nothing follows it
      · obtain ⟨s', hrun, hpast, hcap⟩ := readUTFJNI_fits h hus hrest
          (hfit.imp_right fun hnil => by rw [hnil]; rfl)
        obtain ⟨hin, htail⟩ := hpast.inBounds_of_append h hrest
        rw [← hpast.bigEndian_eq] at htail
        have hback : ReadsBack bits (some us :: strings) s ↔ ReadsBack bits strings s' := by
          refine ⟨?_, fun hback => ⟨s', hrun, hpast.pos_eq, hback⟩⟩
          rintro ⟨t, hrun', -, hback⟩
          rw [hrun] at hrun'
          cases hrun'
          exact hback
        rw [hback, ih hin htail hlen', hcap]
        rcases strings with _ | ⟨next, strings⟩
        · exact iff_of_true (List.pairwise_singleton _ _) (List.pairwise_singleton _ _)
        · have hle : s.capacity ≤ us.length := hfit.resolve_right (List.cons_ne_nil _ _)
          rw [List.dropLast_cons_cons, lengths_some, List.pairwise_cons_cons_iff_of_trans,
            Nat.max_eq_right hle]
          exact ⟨fun hp => ⟨hle, hp⟩, And.right⟩
      -- the buffer is longer than the string, and the decoder runs into the next one
      · obtain ⟨hlong, hne⟩ := not_or.1 hfit
        refine iff_of_false ?_ ?_
        · rintro ⟨s', hrun, hpos, -⟩
          refine readUTFJNI_overruns h hus hrest (by omega) ?_ hrun hpos
          obtain ⟨next, strings, rfl⟩ := List.exists_cons_of_ne_nil hne
          rw [List.flatMap_cons]
          exact List.append_ne_nil_of_left_ne_nil (utfBytes_ne_nil next) _
        · obtain ⟨next, strings, rfl⟩ := List.exists_cons_of_ne_nil hne
          rw [List.dropLast_cons_cons, lengths_some, List.pairwise_cons_cons_iff_of_trans]
          exact fun hp => hlong hp.1

/-! ## Strings that `writeUTF` has written -/

open ByteArrayObjectDataOutput (writeUTF writeUTF_writes toByteArray utfChunks flat)

/-- The bytes of strings that are written one after the other. -/
theorem toByteArray_writeUTF {size : ℤ} (h0 : 0 ≤ size) (h : size ≤ MAX_VALUE) (order : ByteOrder)
    {strings : List (Option (List CodeUnit))} {w : ByteArrayObjectDataOutput}
    (hok : forEach (writeUTF bits) strings (ByteArrayObjectDataOutput.new size order) = .ok () w) :
    toByteArray w = .ok (strings.flatMap (utfBytes bits (order == .BIG_ENDIAN))) w ∧
      (strings.flatMap (utfBytes bits (order == .BIG_ENDIAN))).length ≤ MAX_VALUE := by
  have hflat : flat (strings.flatMap (utfChunks bits (order == .BIG_ENDIAN))) =
      strings.flatMap (utfBytes bits (order == .BIG_ENDIAN)) := by
    rw [ByteArrayObjectDataOutput.flat_flatMap]
    simp only [flat_utfChunks]
  rw [← hflat]
  exact (ByteArrayObjectDataOutput.Writes.forEach writeUTF_writes strings).toByteArray_new h0 h hok

/-- **Round trip through the native reader**: strings written by `writeUTF` are read back by
`readUTFJNI`, each call stopping at the end of its string, if and only if no string but the last is
shorter than one before it. -/
theorem readsBack_iff (bits : Bits) {size : ℤ} (h0 : 0 ≤ size) (h : size ≤ MAX_VALUE)
    (order : ByteOrder) (strings : List (Option (List CodeUnit))) {w : ByteArrayObjectDataOutput}
    {data : List Byte}
    (hok : forEach (writeUTF bits) strings (ByteArrayObjectDataOutput.new size order) = .ok () w)
    (hdata : toByteArray w = .ok data w) :
    ReadsBack bits strings (new (some data) 0 order) ↔
      (lengths strings.dropLast).Pairwise (· ≤ ·) := by
  obtain ⟨hbytes, hmax⟩ := toByteArray_writeUTF h0 h order hok
  obtain rfl : data = _ := (EStateM.Result.ok.inj (hdata.symm.trans hbytes)).1
  have hlen : ∀ str ∈ strings, lengthOrNull str ≤ MAX_VALUE := by
    intro str hstr
    have hsub : (utfBytes bits (order == .BIG_ENDIAN) str).length ≤
        (strings.flatMap (utfBytes bits (order == .BIG_ENDIAN))).length :=
      (List.sublist_flatten_of_mem (List.mem_map_of_mem hstr)).length_le
    have hstr' : lengthOrNull str ≤ (utfBytes bits (order == .BIG_ENDIAN) str).length :=
      lengthOrNull_le_utfBytes str
    omega
  rw [readsBack_iff_pairwise strings (inBounds_new hmax order) rfl hlen, List.pairwise_cons]
  exact and_iff_right fun n _ => Nat.zero_le n

/-- A null string between two that grow. -/
theorem readsBack_growing :
    ReadsBack Bits.standard [some [0x61], none, some [0x62, 0x63]]
      (new (some [0, 0, 0, 1, 0x61, 0xFF, 0xFF, 0xFF, 0xFF, 0, 0, 0, 2, 0x62, 0x63])
        0 .BIG_ENDIAN) := by
  have hone : writeUTF Bits.standard (some [0x61]) (ByteArrayObjectDataOutput.new 19 .BIG_ENDIAN) =
      .ok () ⟨19, some ([0, 0, 0, 1, 0x61] ++ List.replicate 14 0), 5, true, 3⟩ := rfl
  have hnull : writeUTF Bits.standard none
        ⟨19, some ([0, 0, 0, 1, 0x61] ++ List.replicate 14 0), 5, true, 3⟩ =
      .ok () ⟨19, some ([0, 0, 0, 1, 0x61, 0xFF, 0xFF, 0xFF, 0xFF] ++ List.replicate 10 0), 9, true,
        3⟩ := rfl
  have htwo : writeUTF Bits.standard (some [0x62, 0x63])
        ⟨19, some ([0, 0, 0, 1, 0x61, 0xFF, 0xFF, 0xFF, 0xFF] ++ List.replicate 10 0), 9, true,
          3⟩ =
      .ok () ⟨19, some [0, 0, 0, 1, 0x61, 0xFF, 0xFF, 0xFF, 0xFF, 0, 0, 0, 2, 0x62, 0x63, 0, 0, 0,
        0], 15, true, 6⟩ := rfl
  have hok : forEach (writeUTF Bits.standard) [some [0x61], none, some [0x62, 0x63]]
      (ByteArrayObjectDataOutput.new 19 .BIG_ENDIAN) = .ok () ⟨19, some [0, 0, 0, 1, 0x61, 0xFF,
        0xFF, 0xFF, 0xFF, 0, 0, 0, 2, 0x62, 0x63, 0, 0, 0, 0], 15, true, 6⟩ :=
    (bind_ok hone).trans ((bind_ok hnull).trans (bind_ok htwo))
  exact (readsBack_iff Bits.standard (by decide) (by decide) .BIG_ENDIAN _ hok rfl).2 (by decide)

/-- A shorter string behind a longer one, with null behind it. -/
theorem not_readsBack_shorter :
    ∃ w data, forEach (writeUTF Bits.standard) [some [0x61, 0x62], some [0x63], none]
        (ByteArrayObjectDataOutput.new 32 .BIG_ENDIAN) = .ok () w ∧
      toByteArray w = .ok data w ∧
        ¬ ReadsBack Bits.standard [some [0x61, 0x62], some [0x63], none]
          (new (some data) 0 .BIG_ENDIAN) := by
  have htwo : writeUTF Bits.standard (some [0x61, 0x62])
        (ByteArrayObjectDataOutput.new 32 .BIG_ENDIAN) =
      .ok () ⟨32, some ([0, 0, 0, 2, 0x61, 0x62] ++ List.replicate 26 0), 6, true, 6⟩ := rfl
  have hone : writeUTF Bits.standard (some [0x63])
        ⟨32, some ([0, 0, 0, 2, 0x61, 0x62] ++ List.replicate 26 0), 6, true, 6⟩ =
      .ok () ⟨32, some ([0, 0, 0, 2, 0x61, 0x62, 0, 0, 0, 1, 0x63] ++ List.replicate 21 0), 11,
        true, 6⟩ := rfl
  have hnull : writeUTF Bits.standard none
        ⟨32, some ([0, 0, 0, 2, 0x61, 0x62, 0, 0, 0, 1, 0x63] ++ List.replicate 21 0), 11, true,
          6⟩ =
      .ok () ⟨32, some ([0, 0, 0, 2, 0x61, 0x62, 0, 0, 0, 1, 0x63, 0xFF, 0xFF, 0xFF, 0xFF] ++
        List.replicate 17 0), 15, true, 6⟩ := rfl
  refine ⟨_, [0, 0, 0, 2, 0x61, 0x62, 0, 0, 0, 1, 0x63, 0xFF, 0xFF, 0xFF, 0xFF],
    (bind_ok htwo).trans ((bind_ok hone).trans (bind_ok hnull)), rfl, ?_⟩
  rw [readsBack_iff_pairwise _ (inBounds_new (by decide) .BIG_ENDIAN) (by decide) (by decide)]
  decide

/-! ## Strings that `readUTF` rejects -/

/-- What `readUTF` throws for the characters of a string. -/
def RejectsText : Throwable → Prop
  | .EOFException _ | .UTFDataFormatException => True
  | _ => False

/-- `readUTFJNI` throws where `readUTF` rejects the characters, and never moves `pos` backwards. -/
def FailsToo (bits : Bits) (s : ByteArrayObjectDataInput) : Prop :=
  (∀ x s', readUTF bits s = .error (.throws x) s' → RejectsText x →
    ∃ y s'', readUTFJNI bits s = .error (.throws y) s'') ∧
  s.pos ≤ (after (readUTFJNI bits) s).pos

/-- A length that is not negative has that many characters behind it. -/
def Intact (bits : Bits) (s : ByteArrayObjectDataInput) : Prop :=
  ∀ v payload, s.rest = bits.int.layout s.bigEndian v ++ payload → 0 ≤ v.toInt →
    ∃ text, plainText v.toInt.toNat payload = .ok text

/-- Being intact, in terms of the one length that is there. -/
theorem intact_iff {payload : List Byte}
    (hrest : s.rest = bits.int.layout s.bigEndian v ++ payload) :
    Intact bits s ↔ (0 ≤ v.toInt → ∃ text, plainText v.toInt.toNat payload = .ok text) := by
  refine ⟨fun hi => hi v payload hrest, fun hi u payload' hu h0 => ?_⟩
  rw [hrest] at hu
  obtain ⟨hlayout, rfl⟩ := List.append_inj hu
    (by rw [bits.int.length_layout, bits.int.length_layout])
  obtain rfl := bits.int.layout_injective s.bigEndian hlayout
  exact hi h0

theorem rejectsText_of_plainText {n : ℕ} {bs : List Byte} {x : Throwable}
    (h : plainText n bs = .error x) : RejectsText x := by
  rcases plainText_throws h with rfl | rfl <;> exact trivial

/-- A buffer is there, or the length is negative. -/
theorem ensureCharBuffer_cases (n : ℤ) (s : ByteArrayObjectDataInput) :
    ensureCharBuffer n s = .error (.throws .NegativeArraySizeException) s ∨
      ∃ buffer, ensureCharBuffer n s = .ok () { s with charBuffer := some buffer } := by
  by_cases h0 : 0 ≤ n
  · obtain ⟨buffer, -, hrun⟩ := ensureCharBuffer_ok (s := s) h0
    exact .inr ⟨buffer, hrun⟩
  · rcases hb : s.charBuffer with _ | buffer
    · exact .inl (ensureCharBuffer_negative hb (by omega))
    · refine .inr ⟨buffer, ?_⟩
      rw [ensureCharBuffer_room ⟨buffer, hb, by omega⟩, ← hb]

theorem newString_negative {buffer : List CodeUnit} {n : ℤ} (hb : s.charBuffer = some buffer)
    (hn : n < 0) : newString n s = .error (.throws .StringIndexOutOfBoundsException) s := by
  rw [newString, bind_ok (get_run s)]
  simp only [hb]
  rw [if_pos (.inl hn)]
  rfl

/-- `newString` changes nothing. -/
theorem after_newString (n : ℤ) (s : ByteArrayObjectDataInput) : after (newString n) s = s := by
  rw [newString, after, bind_ok (get_run s)]
  rcases hb : s.charBuffer with _ | buffer
  · rfl
  · simp only
    by_cases hn : n < 0 ∨ n > buffer.length
    · rw [if_pos hn]
      rfl
    · rw [if_neg hn]
      rfl

/-- What `readUTF` throws for a negative length has nothing to do with characters. -/
theorem readUTF_negative (hrun : readInt bits s = .ok v s') (hv : v.toInt < 0) {x : Throwable}
    {t : ByteArrayObjectDataInput} (hx : readUTF bits s = .error (.throws x) t) :
    ¬ RejectsText x := by
  by_cases hnull : v.toInt = NULL_ARRAY_LENGTH
  · rw [readUTF_null hrun hnull] at hx
    cases hx
  rw [readUTF, bind_ok hrun, if_neg hnull] at hx
  rcases ensureCharBuffer_cases v.toInt s' with herr | ⟨buffer, hok⟩
  · rw [bind_error herr] at hx
    cases hx
    exact id
  · -- the loop has no turn
    have hloop : forEach (readChars bits) (List.range v.toInt.toNat) =
        (pure () : In Unit) := by
      rw [Int.toNat_of_nonpos hv.le]
      rfl
    rw [bind_ok hok, hloop, bind_ok (pure_run () _), newString_negative rfl hv] at hx
    cases hx
    exact id

/-- Behind a length `readUTFJNI` steps back by one byte at most. -/
theorem pos_le_readUTFJNI (hrun : readInt bits s = .ok v s') (h : InBounds s')
    (hd : s'.data = some s'.bytes) : s'.pos ≤ (after (readUTFJNI bits) s).pos + 1 := by
  by_cases hnull : v.toInt = NULL_ARRAY_LENGTH
  · rw [after_ok (readUTFJNI_null hrun hnull)]
    omega
  rcases ensureCharBuffer_cases v.toInt s' with herr | ⟨buffer, hok⟩
  · have hfail : readUTFJNI bits s = .error (.throws .NegativeArraySizeException) s' := by
      rw [readUTFJNI, bind_ok hrun, if_neg hnull, bind_error herr]
    rw [after_error hfail]
    omega
  · rcases readUTFJNI_run hrun h hd hnull hok with ⟨f, -, hfault⟩ | ⟨d, hcall, hstring⟩
    · rw [after_error hfault]
      change s'.pos ≤ s'.pos + 1
      omega
    · have hle := h.pos_le
      rw [h.size_eq_length] at hle
      have hbounds := Native.value_bounds hle hcall
      have hafter : after (readUTFJNI bits) s = s'.decoded d := by
        rw [after, hstring]
        exact after_newString v.toInt (s'.decoded d)
      rw [hafter]
      change s'.pos ≤ s'.pos + d.value + 1
      omega

/-- Behind a length that is not negative `readUTFJNI` returns a string, unless the decoder stores
outside the array. -/
theorem readUTFJNI_returns (hrun : readInt bits s = .ok v s') (h : InBounds s')
    (hd : s'.data = some s'.bytes) (hv : 0 ≤ v.toInt) :
    (∃ t, readUTFJNI bits s = .error .fault t) ∨ ∃ str t, readUTFJNI bits s = .ok str t := by
  obtain ⟨buffer, hbuf, hok⟩ := ensureCharBuffer_ok (s := s') hv
  rcases readUTFJNI_run hrun h hd (by rw [NULL_ARRAY_LENGTH]; omega) hok with
    ⟨f, -, hfault⟩ | ⟨d, hcall, hstring⟩
  · exact .inl ⟨_, hfault⟩
  · have hsize := Native.length_target hcall
    refine .inr ⟨_, _, hstring.trans (newString_run (s := s'.decoded d) rfl hv ?_)⟩
    omega

/-- **Failing where `readUTF` fails**: at any position of any data and with any buffer, `readUTFJNI`
throws where `readUTF` rejects the characters if and only if there is nothing to reject: a length
that is there and is not negative has all of its characters behind it. It never moves `pos`
backwards. -/
theorem failsToo_iff (bits : Bits) {s : ByteArrayObjectDataInput} (h : InBounds s) :
    FailsToo bits s ↔ Intact bits s := by
  by_cases hroom : 4 ≤ s.rest.length
  · obtain ⟨v, hv, -⟩ := h.readInt_ok bits hroom
    have hrest : s.rest = bits.int.layout s.bigEndian v ++ s.rest.drop 4 := by
      rw [hv, List.take_append_drop]
    obtain ⟨hrun, hin, htail⟩ := h.readInt_length hrest
    have hd := data_eq_of_moved hroom
    have hpos : s.pos ≤ (after (readUTFJNI bits) s).pos := by
      have := pos_le_readUTFJNI hrun hin hd
      rw [moved_pos] at this
      omega
    rw [intact_iff hrest]
    by_cases h0 : 0 ≤ v.toInt
    · rcases htext : plainText v.toInt.toNat (s.rest.drop 4) with x | ⟨us, k⟩
      · -- `readUTF` throws, `readUTFJNI` does not
        rw [← htail] at htext
        obtain ⟨t, hthrows⟩ := readUTF_error hrun hin h0 htext
        refine iff_of_false (fun hfails => ?_) fun hi => ?_
        · obtain ⟨y, t', hy⟩ := hfails.1 x t hthrows (rejectsText_of_plainText htext)
          rcases readUTFJNI_returns hrun hin hd h0 with ⟨t, hfault⟩ | ⟨str, t, hok⟩
          · rw [hfault] at hy
            cases hy
          · rw [hok] at hy
            cases hy
        · obtain ⟨text, htext'⟩ := hi h0
          cases htext'
      · rw [← htail] at htext
        obtain ⟨t, hok, -⟩ := readUTF_ok hrun hin h0 htext
        refine iff_of_true ⟨fun x s' hx => ?_, hpos⟩ fun _ => ⟨_, rfl⟩
        rw [hok] at hx
        cases hx
    · refine iff_of_true ⟨fun x s' hx hr => ?_, hpos⟩ fun h0' => absurd h0' h0
      exact absurd hr (readUTF_negative hrun (by omega) hx)
  · -- the length is cut off, for both of them
    have hlen := bits.int.length_layout s.bigEndian
    obtain ⟨message, hrun⟩ := h.readFixed_eof bits.int (n := INT_SIZE_IN_BYTES) rfl (by omega)
      s.bigEndian
    have hint : readInt bits s = .error (.throws (.EOFException message)) s := hrun
    have hjni : readUTFJNI bits s = .error (.throws (.EOFException message)) s := bind_error hint
    refine iff_of_true ⟨fun x s' _ _ => ⟨_, _, hjni⟩, by rw [after_error hjni]⟩ ?_
    intro v payload hrest
    rw [hrest, List.length_append, hlen] at hroom
    omega

/-- Two characters that are there, with a byte left. -/
theorem failsToo_whole :
    FailsToo Bits.standard (new (some [0, 0, 0, 2, 0x41, 0xC3, 0xA9, 0x80]) 0 .BIG_ENDIAN) := by
  have hrest : (new (some [0, 0, 0, 2, 0x41, 0xC3, 0xA9, 0x80]) 0 .BIG_ENDIAN).rest =
      Bits.standard.int.layout true 2 ++ [0x41, 0xC3, 0xA9, 0x80] := rfl
  exact (failsToo_iff Bits.standard (inBounds_new (by decide) .BIG_ENDIAN)).2
    ((intact_iff hrest).2 fun _ => ⟨_, rfl⟩)

/-- Two characters, of which one is there. -/
theorem not_failsToo_truncated :
    ¬ FailsToo Bits.standard (new (some [0, 0, 0, 2, 0x41]) 0 .BIG_ENDIAN) := by
  intro hfails
  have hin : InBounds (new (some [0, 0, 0, 2, 0x41]) 0 .BIG_ENDIAN) :=
    inBounds_new (by decide) .BIG_ENDIAN
  have hrest : (new (some [0, 0, 0, 2, 0x41]) 0 .BIG_ENDIAN).rest =
      Bits.standard.int.layout true 2 ++ [0x41] := rfl
  obtain ⟨hrun, hin', htail⟩ := hin.readInt_length hrest
  have htext : plainText (2 : BitVec 32).toInt.toNat [0x41] = .error (.EOFException none) := rfl
  rw [← htail] at htext
  obtain ⟨t, hthrows⟩ := readUTF_error hrun hin' (by decide) htext
  obtain ⟨y, t', hy⟩ := hfails.1 _ t hthrows trivial
  rcases readUTFJNI_returns hrun hin' rfl (by decide) with ⟨t, hfault⟩ | ⟨str, t, hok⟩
  · rw [hfault] at hy
    cases hy
  · rw [hok] at hy
    cases hy

end ByteArrayObjectDataInput

end HzResearch
