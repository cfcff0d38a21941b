import HzResearch.Cursor

/-!
# Moving by many bytes

`skipBytes` and the bulk reads cut what they are asked for to what is left, with the
test `pos + n > size` on `int`s. Below the wrap of the sum they are exact:
`skipBytes_run`, `InBounds.readRange_run`. From the wrap on the test passes, and the
next check refuses: `position` an index that has become negative, `System.arraycopy` a
range behind the data. `moves_iff` puts the two together.

`readFully` tells the end of the data from the `-1` of a bulk read. A bulk read returns
`-1` only when nothing is left, so a request for more than is left is answered with what
is left, and `readByteArray` and `readData` return it with zeros behind it: `fillsOrEOF_iff`.
-/

namespace HzResearch

open Java

namespace ByteArrayObjectDataInput

variable {s : ByteArrayObjectDataInput} {bits : Bits} {b : List Byte} {off n : ℤ}

/-! ## Skipping -/

/-- The reader after `position(newPos)`. -/
def positioned (s : ByteArrayObjectDataInput) (newPos : ℤ) : ByteArrayObjectDataInput :=
  { s with pos := newPos, mark := if s.mark > newPos then -1 else s.mark }

theorem position_ok (h0 : 0 ≤ n) (hn : n ≤ s.size) : position n s = .ok () (s.positioned n) := by
  rw [position, bind_ok (get_run s), if_neg (by omega), positioned]
  split <;> rfl

theorem position_error (h : n < 0) :
    position n s = .error (.throws (.IllegalArgumentException none)) s := by
  rw [position, bind_ok (get_run s), if_pos (.inr h)]
  rfl

/-- What a request for `n` bytes is cut to. -/
def clamp (s : ByteArrayObjectDataInput) (n : ℤ) : ℤ := max 0 (min n (s.size - s.pos))

/-- `skipBytes(n)` returns `max(0, min(n, size - pos))` and the cursor moves by it; of the other
fields only the mark may change. -/
def SkipsExactly (s : ByteArrayObjectDataInput) (n : ℤ) : Prop :=
  ∃ mark, skipBytes n s = .ok (s.clamp n) { s.moved (s.clamp n) with mark := mark }

/-- A request for nothing. -/
theorem InBounds.skipsExactly_of_nonpos (h : InBounds s) (hn : n ≤ 0) : SkipsExactly s n := by
  have hle := h.pos_le
  have hclamp : s.clamp n = 0 := by
    rw [clamp]
    omega
  refine ⟨s.mark, ?_⟩
  rw [hclamp, ByteArrayObjectDataInput.moved, Int.add_zero, skipBytes, if_pos hn]
  rfl

theorem InBounds.skipBytes_run (h : InBounds s) (h0 : 0 < n) (hn : s.pos + n ≤ MAX_VALUE) :
    skipBytes n s = .ok (s.clamp n) (s.positioned (s.pos + s.clamp n)) := by
  have hpos := h.pos_nonneg
  have hle := h.pos_le
  have hmax := h.size_le
  have hcut : (if jint (s.pos + n) > s.size then jint (s.size - s.pos) else n) = s.clamp n := by
    rw [jint_of_range (by omega) hn, jint_of_range (x := s.size - s.pos) (by omega) (by omega)]
    rw [clamp]
    split <;> omega
  have hto : 0 ≤ s.pos + s.clamp n ∧ s.pos + s.clamp n ≤ s.size := by
    rw [clamp]
    omega
  rw [skipBytes, if_neg (by omega), bind_ok (get_run s)]
  simp only [hcut]
  rw [jint_of_range (by omega) (by omega), bind_ok (position_ok hto.1 hto.2)]
  rfl

/-- From the wrap on `position` refuses. -/
theorem InBounds.skipBytes_wraps (h : InBounds s) (hle : n ≤ MAX_VALUE)
    (hn : MAX_VALUE < s.pos + n) :
    skipBytes n s = .error (.throws (.IllegalArgumentException none)) s := by
  have hpos := h.pos_nonneg
  have hin := h.pos_le
  have hmax := h.size_le
  have hneg : jint (s.pos + n) < 0 := by
    rw [jint_wrap hn (by omega)]
    unfold MAX_VALUE at *
    omega
  rw [skipBytes, if_neg (by omega), bind_ok (get_run s), if_neg (by omega)]
  exact bind_error (position_error hneg)

theorem InBounds.skipsExactly_iff (h : InBounds s) (hle : n ≤ MAX_VALUE) :
    SkipsExactly s n ↔ n ≤ 0 ∨ s.pos + n ≤ MAX_VALUE := by
  constructor
  · rintro ⟨mark, hrun⟩
    by_contra hn
    rw [h.skipBytes_wraps hle (by omega)] at hrun
    cases hrun
  · intro hn
    by_cases h0 : n ≤ 0
    · exact h.skipsExactly_of_nonpos h0
    · exact ⟨_, h.skipBytes_run (by omega) (by omega)⟩

/-! ## Bulk reads -/

/-- The range of `len` elements from `off` on lies in the Java array `b`. -/
structure InArray (b : List Byte) (off len : ℤ) : Prop where
  /-- `off` is not negative -/
  off_nonneg : 0 ≤ off
  /-- `len` is not negative -/
  len_nonneg : 0 ≤ len
  /-- the range ends inside `b` -/
  le_length : off + len ≤ b.length
  /-- `b` is a Java array -/
  length_le : b.length ≤ MAX_VALUE

/-- The test of `read(b, off, len)` lets such a range pass. -/
theorem InArray.room (hr : InArray b off n) : n ≤ jint (b.length - off) := by
  have h0 := hr.off_nonneg
  have hn := hr.len_nonneg
  have hle := hr.le_length
  have hmax := hr.length_le
  rw [jint_of_range (by omega) (by omega)]
  omega

/-- `read(b, off, len)` returns `-1` at the end of the data, and otherwise copies the next
`min(len, size - pos)` bytes and moves the cursor by as many. -/
def ReadsExactly (s : ByteArrayObjectDataInput) (b : List Byte) (off len : ℤ) : Prop :=
  if s.pos = s.size then readRange (some b) off len s = .ok (-1, b) s
  else readRange (some b) off len s =
    .ok (min len (s.size - s.pos),
        splice b off.toNat (s.rest.take (min len (s.size - s.pos)).toNat))
      (s.moved (min len (s.size - s.pos)))

theorem InBounds.rest_eq_nil_iff (h : InBounds s) : s.rest = [] ↔ s.pos = s.size := by
  have hlen := h.length_rest
  rw [← List.length_eq_zero_iff]
  omega

/-- A bulk read that passes the end of the `int`s. -/
theorem InBounds.readRange_far (h : InBounds s) (hr : InArray b off n) (h0 : 0 < n)
    (hrest : s.rest ≠ []) (hsum : MAX_VALUE < s.pos + n) :
    readRange (some b) off n s = .error (.throws .ArrayIndexOutOfBoundsException) s := by
  have hne := mt h.rest_eq_nil_iff.2 hrest
  have hle := h.pos_le
  exact readRange_wraps h ⟨b, rfl, hr.off_nonneg, h0, hr.room, by omega, hsum⟩

theorem InBounds.readsExactly_iff (h : InBounds s) (hr : InArray b off n) (h0 : 0 < n) :
    ReadsExactly s b off n ↔ s.pos = s.size ∨ s.pos + n ≤ MAX_VALUE := by
  have hlen := h.length_rest
  by_cases hend : s.pos = s.size
  · rw [ReadsExactly, if_pos hend]
    refine iff_of_true ?_ (.inl hend)
    exact h.readRange_end hr.off_nonneg h0 hr.room (h.rest_eq_nil_iff.2 hend)
  have hrest := mt h.rest_eq_nil_iff.1 hend
  rw [ReadsExactly, if_neg hend, or_iff_right hend]
  constructor
  · intro hrun
    by_contra hsum
    rw [h.readRange_far hr h0 hrest (by omega)] at hrun
    cases hrun
  · intro hsum
    obtain ⟨k, hk, hrun⟩ := h.readRange_run hr.off_nonneg h0 hr.le_length hr.room hrest hsum
    rw [hlen] at hk
    rw [hrun, ← hk, Int.toNat_natCast]

/-- **When the cursor moves exactly**: in its bounds a reader skips and reads in bulk as far as it
should, for every `int`, `long` and range of an array, if and only if the sum of `pos` and the
request does not wrap, or nothing is asked for or left. `skip` never goes wrong by itself. -/
theorem moves_iff (h : InBounds s) :
    (∀ n : BitVec 32, SkipsExactly s n.toInt ↔ n.toInt ≤ 0 ∨ s.pos + n.toInt ≤ MAX_VALUE) ∧
    (∀ n : BitVec 64, skip n.toInt s = .ok 0 s ∨ skip n.toInt s = skipBytes n.toInt s) ∧
    (∀ (b : List Byte) (off len : BitVec 32), InArray b off.toInt len.toInt → 0 < len.toInt →
      (ReadsExactly s b off.toInt len.toInt ↔
        s.pos = s.size ∨ s.pos + len.toInt ≤ MAX_VALUE)) := by
  refine ⟨fun n => ?_, fun n => ?_, fun b off len hr h0 => h.readsExactly_iff hr h0⟩
  · have hlt := BitVec.toInt_lt (x := n)
    exact h.skipsExactly_iff (by rw [MAX_VALUE]; omega)
  · rw [skip]
    split
    · exact .inl rfl
    · exact .inr rfl

/-- A reader in the middle of its data. -/
theorem moves_middle :
    SkipsExactly (new (some [1, 2, 3, 4]) 2 .BIG_ENDIAN) 7 ∧
      ReadsExactly (new (some [1, 2, 3, 4]) 2 .BIG_ENDIAN) [0, 0, 0, 0] 1 3 := by
  have h : InBounds (new (some [1, 2, 3, 4]) 2 .BIG_ENDIAN) :=
    ⟨rfl, by decide, by decide, by decide⟩
  exact ⟨((moves_iff h).1 7).2 (.inr (by decide)),
    ((moves_iff h).2.2 [0, 0, 0, 0] 1 3 ⟨by decide, by decide, by decide, by decide⟩
      (by decide)).2 (.inr (by decide))⟩

/-- A request to skip everything, behind the first byte. -/
theorem not_skipsExactly_everything :
    ¬ SkipsExactly (new (some [1, 2]) 1 .BIG_ENDIAN) MAX_VALUE := by
  rintro ⟨mark, hrun⟩
  have hthrows : skipBytes MAX_VALUE (new (some [1, 2]) 1 .BIG_ENDIAN) =
      .error (.throws (.IllegalArgumentException none)) (new (some [1, 2]) 1 .BIG_ENDIAN) := rfl
  rw [hthrows] at hrun
  cases hrun

/-! ## All or `EOFException` -/

/-- The method throws `EOFException`. -/
def ThrowsEOF {α : Type} (m : In α) (s : ByteArrayObjectDataInput) : Prop :=
  ∃ message, Throws m s (.EOFException message)

/-- `m` fills the `n` elements of `b` from `off` on with the next `n` bytes and moves the cursor
by `n`, or throws `EOFException` if fewer remain. -/
def FillsOrEOF (s : ByteArrayObjectDataInput) (m : In (List Byte)) (b : List Byte) (off n : ℤ) :
    Prop :=
  if n ≤ s.rest.length then
    m s = .ok (splice b off.toNat (s.rest.take n.toNat)) (s.moved n)
  else ThrowsEOF m s

theorem readFully_eq (b : List Byte) :
    readFully (some b) = readFullyRange (some b) 0 b.length := rfl

theorem readFullyRange_ok {s' : ByteArrayObjectDataInput} {r : Option (List Byte)} {k : ℤ}
    {l : List Byte} (hrun : readRange r off n s = .ok (k, l) s') (hk : k ≠ -1) :
    readFullyRange r off n s = .ok l s' := by
  rw [readFullyRange, bind_ok hrun]
  exact congrFun (if_neg hk) s'

theorem readFullyRange_eof {s' : ByteArrayObjectDataInput} {r : Option (List Byte)}
    {l : List Byte} (hrun : readRange r off n s = .ok (-1, l) s') :
    ThrowsEOF (readFullyRange r off n) s := by
  refine ⟨some "End of stream reached", s', ?_⟩
  rw [readFullyRange, bind_ok hrun]
  rfl

theorem ThrowsEOF.not_ok {α : Type} {m : In α} {a : α} {s' : ByteArrayObjectDataInput}
    (h : ThrowsEOF m s) (hrun : m s = .ok a s') : False := by
  obtain ⟨message, t, ht⟩ := h
  rw [hrun] at ht
  cases ht

/-- A bulk read for as many bytes as there are. -/
theorem InBounds.readFullyRange_run (h : InBounds s) (hr : InArray b off n)
    (hn : n ≤ s.rest.length) : readFullyRange (some b) off n s =
      .ok (splice b off.toNat (s.rest.take n.toNat)) (s.moved n) := by
  have hlen := h.length_rest
  have hmax := h.size_le
  have hle := hr.le_length
  rcases Int.lt_or_eq_of_le hr.len_nonneg with h0 | rfl
  · have hrest : s.rest ≠ [] := by
      rw [← List.length_pos_iff]
      omega
    obtain ⟨k, hk, hrun⟩ := h.readRange_run hr.off_nonneg h0 hle hr.room hrest (by omega)
    have hkn : (k : ℤ) = n := by omega
    rw [readFullyRange_ok hrun (by omega), ← hkn, Int.toNat_natCast]
  · rw [readFullyRange_ok (readRange_zero hr.off_nonneg hr.room) (by decide)]
    rw [Int.toNat_zero, List.take_zero, splice_nil,
      ByteArrayObjectDataInput.moved, Int.add_zero]

/-- A bulk read for more than there is, while something is left, does not throw
`EOFException`: it returns less, or `System.arraycopy` refuses. -/
theorem InBounds.readFullyRange_short (h : InBounds s) (hr : InArray b off n)
    (hn : s.rest.length < n) (hrest : s.rest ≠ []) :
    ¬ ThrowsEOF (readFullyRange (some b) off n) s := by
  intro heof
  rcases le_or_gt (s.pos + n) MAX_VALUE with hsum | hsum
  · obtain ⟨k, hk, hrun⟩ :=
      h.readRange_run hr.off_nonneg (by omega) hr.le_length hr.room hrest hsum
    exact heof.not_ok (readFullyRange_ok hrun (by omega))
  · obtain ⟨message, t, ht⟩ := heof
    have hrun := h.readRange_far hr (by omega) hrest hsum
    rw [readFullyRange, bind_error hrun] at ht
    cases ht

theorem InBounds.fillsOrEOF_readFullyRange (h : InBounds s) (hr : InArray b off n) :
    FillsOrEOF s (readFullyRange (some b) off n) b off n ↔ (s.rest.length < n → s.rest = []) := by
  rw [FillsOrEOF]
  split
  case isTrue hn => exact iff_of_true (h.readFullyRange_run hr hn) fun hlt => absurd hlt (by omega)
  case isFalse hn =>
    have hlt : s.rest.length < n := by omega
    refine ⟨fun heof _ => ?_, fun hend => ?_⟩
    · by_contra hrest
      exact h.readFullyRange_short hr hlt hrest heof
    · exact readFullyRange_eof (h.readRange_end hr.off_nonneg (by omega) hr.room (hend hlt))

/-! ## Arrays behind their length -/

/-- A new array of `n` bytes. -/
theorem inArray_new (h0 : 0 ≤ n) (hmax : n ≤ MAX_VALUE) :
    InArray (List.replicate n.toNat 0) 0 n := by
  have hlen : ((List.replicate n.toNat (0 : Byte)).length : ℤ) = n := by
    rw [List.length_replicate]
    omega
  exact ⟨le_refl 0, h0, by omega, by omega⟩

variable (bits) in
/-- `readByteArray` behind its length. -/
theorem InBounds.readByteArray_run (h : InBounds s) {v : BitVec 32} {payload : List Byte}
    (hrest : s.rest = bits.int.layout s.bigEndian v ++ payload) (hv : 0 < v.toInt) :
    readByteArray bits s = (do
      let b ← readFullyRange (some (List.replicate v.toInt.toNat 0)) 0 v.toInt
      return some b : In (Option (List Byte))) (s.moved 4) ∧
    InBounds (s.moved 4) ∧ (s.moved 4).rest = payload := by
  have hlen : (bits.int.layout s.bigEndian v).length = 4 := bits.int.length_layout _ _
  have hfour : 4 ≤ s.rest.length := by
    rw [hrest, List.length_append]
    omega
  obtain ⟨v', hv', hrun⟩ := h.readFixed_ok bits.int (n := INT_SIZE_IN_BYTES) rfl (by decide)
    hfour s.bigEndian
  rw [hrest, List.take_left' hlen] at hv'
  cases bits.int.layout_injective _ hv'
  refine ⟨?_, h.moved (by decide) (by omega), ?_⟩
  · have hne : v.toInt ≠ NULL_ARRAY_LENGTH := by
      rw [NULL_ARRAY_LENGTH]
      omega
    have hlength : ((List.replicate v.toInt.toNat (0 : Byte)).length : ℤ) = v.toInt := by
      rw [List.length_replicate]
      omega
    rw [readByteArray, bind_ok ((readInt_eq bits s).trans hrun), if_neg hne, if_pos hv,
      readFully_eq, hlength]
    rfl
  · rw [show (4 : ℤ) = ((4 : ℕ) : ℤ) from rfl, h.rest_moved, hrest, List.drop_left' hlen]

/-- A length behind which fewer bytes are left. -/
theorem InBounds.readByteArray_eof (h : InBounds s) {v : BitVec 32} {payload : List Byte}
    (hrest : s.rest = bits.int.layout s.bigEndian v ++ payload) (hv : 0 < v.toInt)
    (hshort : payload.length < v.toInt) :
    ThrowsEOF (readByteArray bits) s ↔ payload = [] := by
  obtain ⟨hrun, hin, hpayload⟩ := h.readByteArray_run bits hrest hv
  have hlt := BitVec.toInt_lt (x := v)
  have hr : InArray (List.replicate v.toInt.toNat 0) 0 v.toInt :=
    inArray_new (by omega) (by rw [MAX_VALUE]; omega)
  constructor
  · rintro ⟨message, t, ht⟩
    rw [hrun] at ht
    by_contra hne
    refine hin.readFullyRange_short hr (by rw [hpayload]; exact hshort) (by rw [hpayload]; exact hne)
      ⟨message, ?_⟩
    rcases hm : readFullyRange (some (List.replicate v.toInt.toNat 0)) 0 v.toInt (s.moved 4) with
      ⟨l, t'⟩ | ⟨e, t'⟩
    · rw [bind_ok hm] at ht
      cases ht
    · rw [bind_error hm] at ht
      cases ht
      exact ⟨t, hm⟩
  · rintro rfl
    obtain ⟨message, t, ht⟩ := readFullyRange_eof
      (hin.readRange_end hr.off_nonneg hv hr.room hpayload)
    exact ⟨message, t, by rw [hrun]; exact bind_error ht⟩

/-- `readData` throws `EOFException` where `readByteArray` does, if the constructor of `HeapData`
throws none. -/
theorem throwsEOF_readData {δ : Type} {HeapData : List Byte → Except Throwable δ}
    (hdata : ∀ bytes message, HeapData bytes ≠ .error (.EOFException message)) :
    ThrowsEOF (readData bits HeapData) s ↔ ThrowsEOF (readByteArray bits) s := by
  rcases hm : readByteArray bits s with ⟨r, t⟩ | ⟨e, t⟩
  · refine iff_of_false ?_ fun heof => heof.not_ok hm
    rintro ⟨message, t', ht'⟩
    rw [readData, bind_ok hm] at ht'
    rcases r with _ | bytes
    · cases ht'
    · rcases hd : HeapData bytes with x | x
      · simp only [hd] at ht'
        exact hdata bytes message (by cases ht'; exact hd)
      · simp only [hd] at ht'
        cases ht'
  · have hd : readData bits HeapData s = .error e t := by
      rw [readData, bind_error hm]
    unfold ThrowsEOF Throws
    rw [hm, hd]
    simp

/-- **When bulk reads are all or `EOFException`**: in its bounds a reader fills the range asked for
or throws `EOFException`, and does so exactly when fewer bytes remain, if and only if it is not
asked for more than there is while there is something. -/
theorem fillsOrEOF_iff (bits : Bits) (h : InBounds s) {δ : Type}
    (HeapData : List Byte → Except Throwable δ)
    (hdata : ∀ bytes message, HeapData bytes ≠ .error (.EOFException message)) :
    (∀ b off n, InArray b off n → (FillsOrEOF s (readFullyRange (some b) off n) b off n ↔
      (s.rest.length < n → s.rest = []))) ∧
    (∀ b : List Byte, b.length ≤ MAX_VALUE → (FillsOrEOF s (readFully (some b)) b 0 b.length ↔
      (s.rest.length < b.length → s.rest = []))) ∧
    (∀ v payload, s.rest = bits.int.layout s.bigEndian v ++ payload → 0 < v.toInt →
      payload.length < v.toInt →
        (ThrowsEOF (readByteArray bits) s ↔ payload = []) ∧
        (ThrowsEOF (readData bits HeapData) s ↔ payload = [])) := by
  refine ⟨fun b off n hr => h.fillsOrEOF_readFullyRange hr, fun b hb => ?_,
    fun v payload hrest hv hshort => ⟨h.readByteArray_eof hrest hv hshort, ?_⟩⟩
  · have hr : InArray b 0 b.length := ⟨le_refl 0, by omega, by omega, hb⟩
    have hall := h.fillsOrEOF_readFullyRange hr
    rw [Nat.cast_lt] at hall
    exact hall
  · rw [throwsEOF_readData hdata]
    exact h.readByteArray_eof hrest hv hshort

/-- A range that is there, and a length at the end of the data. -/
theorem fillsOrEOF_end :
    FillsOrEOF (new (some [0, 0, 0, 5]) 0 .BIG_ENDIAN) (readFully (some [7, 7])) [7, 7] 0 2 ∧
      ThrowsEOF (readData Bits.standard (fun bytes => .ok bytes))
        (new (some [0, 0, 0, 5]) 0 .BIG_ENDIAN) := by
  have h : InBounds (new (some [0, 0, 0, 5]) 0 .BIG_ENDIAN) := inBounds_new (by decide) _
  have hall := fillsOrEOF_iff Bits.standard h (fun bytes => .ok bytes) (by simp)
  exact ⟨(hall.2.1 [7, 7] (by decide)).2 (fun hlt => absurd hlt (by decide)),
    (hall.2.2 5 [] (by decide) (by decide) (by decide)).2.2 rfl⟩

/-- One byte is left for two: it comes back with a zero behind it. -/
theorem not_fillsOrEOF_short :
    ¬ FillsOrEOF (new (some [1]) 0 .BIG_ENDIAN) (readFully (some [0, 0])) [0, 0] 0 2 := by
  have hrun : readFully (some [0, 0]) (new (some [1]) 0 .BIG_ENDIAN) =
      .ok [1, 0] (new (some [1]) 1 .BIG_ENDIAN) := rfl
  rw [FillsOrEOF, if_neg (by decide)]
  exact fun heof => heof.not_ok hrun

end ByteArrayObjectDataInput

end HzResearch
