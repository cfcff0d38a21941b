import HzResearch.DataInput

/-!
# The reader in its bounds

`InBounds` is the invariant of the cursor: `0 ≤ pos ≤ size` and `size` is the length of
`data`. In its bounds a reader is determined by the bytes that remain (`rest`), and the
primitives are equations about them: `read` takes the first byte, `readFixed` takes a
value if it is there and throws `EOFException` otherwise.
-/

namespace HzResearch

open Java

namespace ByteArrayObjectDataInput

variable {s : ByteArrayObjectDataInput} {b : Byte} {tail : List Byte} {bits : Bits}

/-! ## The invariant -/

/-- The cursor is inside the data. -/
structure InBounds (s : ByteArrayObjectDataInput) : Prop where
  /-- `size` is the length of `data` -/
  size_eq : s.size = lengthOf s.data
  /-- `data` is a Java array -/
  size_le : s.size ≤ MAX_VALUE
  /-- `pos` is not negative -/
  pos_nonneg : 0 ≤ s.pos
  /-- `pos` is at most `size` -/
  pos_le : s.pos ≤ s.size

/-- A reader at the start of its bytes. -/
theorem inBounds_new {data : List Byte} (h : data.length ≤ MAX_VALUE) (order : ByteOrder) :
    InBounds (new (some data) 0 order) := ⟨rfl, h, le_refl 0, Int.natCast_nonneg _⟩

/-- The bytes of `data`, none for null. -/
def bytes (s : ByteArrayObjectDataInput) : List Byte := s.data.getD []

/-- The bytes that remain. -/
def rest (s : ByteArrayObjectDataInput) : List Byte := s.bytes.drop s.pos.toNat

/-- The reader `n` bytes further. -/
def moved (s : ByteArrayObjectDataInput) (n : ℤ) : ByteArrayObjectDataInput :=
  { s with pos := s.pos + n }

@[simp] theorem moved_pos (n : ℤ) : (s.moved n).pos = s.pos + n := rfl

@[simp] theorem moved_size (n : ℤ) : (s.moved n).size = s.size := rfl

@[simp] theorem moved_bytes (n : ℤ) : (s.moved n).bytes = s.bytes := rfl

theorem lengthOf_eq (s : ByteArrayObjectDataInput) : lengthOf s.data = s.bytes.length := by
  rcases h : s.data with _ | d <;> simp [lengthOf, bytes, h]

theorem InBounds.size_eq_length (h : InBounds s) : s.size = s.bytes.length := by
  rw [h.size_eq, lengthOf_eq]

theorem InBounds.length_rest (h : InBounds s) : (s.rest.length : ℤ) = s.size - s.pos := by
  have h0 := h.pos_nonneg
  have hle := h.pos_le
  rw [h.size_eq_length] at hle ⊢
  rw [rest, List.length_drop]
  omega

/-- `available()` is the number of bytes that remain. -/
theorem InBounds.available_eq (h : InBounds s) : s.available = s.rest.length := by
  have h0 := h.pos_nonneg
  have hmax := h.size_le
  have hle := h.pos_le
  rw [h.length_rest, available, jint_of_range (by omega) (by omega)]

theorem InBounds.moved (h : InBounds s) {n : ℤ} (h0 : 0 ≤ n) (hn : n ≤ s.rest.length) :
    InBounds (s.moved n) := by
  have hpos := h.pos_nonneg
  have hlen := h.length_rest
  refine ⟨h.size_eq, h.size_le, ?_, ?_⟩ <;> simp only [moved_pos, moved_size] <;> omega

theorem InBounds.rest_moved (h : InBounds s) (n : ℕ) : (s.moved n).rest = s.rest.drop n := by
  have hpos := h.pos_nonneg
  rw [rest, rest, List.drop_drop, moved_pos, moved_bytes]
  congr 1
  omega

/-- A reader that has bytes left has data. -/
theorem data_eq_of_rest (hpos : s.rest ≠ []) : s.data = some s.bytes := by
  rcases hd : s.data with _ | d
  · have : s.bytes = [] := by rw [bytes, hd]; rfl
    rw [rest, this, List.drop_nil] at hpos
    exact absurd rfl hpos
  · rw [bytes, hd]
    rfl

theorem InBounds.advance_run (h : InBounds s) {n : ℤ} (h0 : 0 ≤ n) (hn : n ≤ s.rest.length) :
    advance n s = .ok () (s.moved n) := by
  have hpos := h.pos_nonneg
  have hmax := h.size_le
  have hlen := h.length_rest
  change EStateM.Result.ok () { s with pos := jint (s.pos + n) } = _
  rw [jint_of_range (by omega) (by omega)]
  rfl

/-! ## Single bytes -/

theorem dataAt_run (hd : s.data = some s.bytes) {i : ℤ} (h0 : 0 ≤ i)
    (hi : s.bytes[i.toNat]? = some b) : dataAt i s = .ok b s := by
  rw [dataAt, bind_ok (get_run s)]
  simp only [hd]
  rw [eval_ok (load_ok h0 hi)]

theorem InBounds.read_cons (h : InBounds s) (hrest : s.rest = b :: tail) :
    read s = .ok (b.toNat : ℤ) (s.moved 1) := by
  have hlen := h.length_rest
  rw [hrest, List.length_cons] at hlen
  have hb : s.bytes[s.pos.toNat]? = some b := by
    have := congrArg (fun l => l[0]?) hrest
    simpa [rest, List.getElem?_drop] using this
  have hadv := h.advance_run (n := 1) (by omega) (by rw [hrest, List.length_cons]; omega)
  have hd := data_eq_of_rest (s := s) (by rw [hrest]; exact List.cons_ne_nil b tail)
  rw [read, bind_ok (get_run s), if_pos (by omega), bind_ok hadv,
    bind_ok (dataAt_run (s := s.moved 1) hd h.pos_nonneg hb)]
  rfl

theorem InBounds.read_nil (h : InBounds s) (hrest : s.rest = []) : read s = .ok (-1) s := by
  have hlen := h.length_rest
  rw [hrest, List.length_nil] at hlen
  rw [read, bind_ok (get_run s), if_neg (by omega)]
  rfl

theorem InBounds.readByte_cons (h : InBounds s) (hrest : s.rest = b :: tail) :
    readByte s = .ok b (s.moved 1) := by
  rw [readByte, bind_ok (h.read_cons hrest), orEOF, if_neg (by omega), BitVec.ofInt_natCast,
    BitVec.ofNat_toNat, BitVec.setWidth_eq]
  rfl

theorem InBounds.readByte_nil (h : InBounds s) (hrest : s.rest = []) :
    readByte s = .error (.throws (.EOFException none)) s := by
  rw [readByte, bind_ok (h.read_nil hrest)]
  rfl

/-- A bulk read of no bytes. -/
theorem readRange_zero {l : List Byte} {off : ℤ} (hoff : 0 ≤ off)
    (hroom : 0 ≤ jint (l.length - off)) :
    readRange (some l) off 0 s = .ok (0, l) s := by
  rw [readRange]
  dsimp only
  rw [if_neg (by omega), if_pos rfl]
  rfl

/-- A bulk read at the end of the data. -/
theorem InBounds.readRange_end (h : InBounds s) {l : List Byte} {off len : ℤ} (hoff : 0 ≤ off)
    (h0 : 0 < len) (hroom : len ≤ jint (l.length - off)) (hrest : s.rest = []) :
    readRange (some l) off len s = .ok (-1, l) s := by
  have hlen := h.length_rest
  rw [hrest, List.length_nil] at hlen
  rw [readRange]
  dsimp only
  rw [if_neg (by omega), if_neg (by omega), bind_ok (get_run s), if_pos (by omega)]
  rfl

/-- A bulk read whose range lies in its array copies the bytes that remain, up to `len`. -/
theorem InBounds.readRange_run (h : InBounds s) {l : List Byte} {off len : ℤ} (hoff : 0 ≤ off)
    (h0 : 0 < len) (hroom : off + len ≤ l.length) (hroom' : len ≤ jint (l.length - off))
    (hrest : s.rest ≠ []) (hsum : s.pos + len ≤ MAX_VALUE) :
    ∃ n : ℕ, (n : ℤ) = min len s.rest.length ∧ readRange (some l) off len s =
      .ok (n, splice l off.toNat (s.rest.take n)) (s.moved n) := by
  have hpos := h.pos_nonneg
  have hmax := h.size_le
  have hlen := h.length_rest
  have hsize := h.size_eq_length
  have hleft := List.length_pos_iff.2 hrest
  obtain ⟨n, hn⟩ : ∃ n : ℕ, (n : ℤ) = min len s.rest.length :=
    ⟨(min len s.rest.length).toNat, by omega⟩
  have hcut : (if jint (s.pos + len) > s.size then jint (s.size - s.pos) else len) = n := by
    rw [jint_of_range (by omega) hsum, jint_of_range (x := s.size - s.pos) (by omega) (by omega)]
    split <;> omega
  have hcopy : arraycopy s.bytes s.pos l off n = .ok (splice l off.toNat (s.rest.take n)) :=
    arraycopy_ok hpos hoff (by omega) (by omega) (by omega)
  refine ⟨n, hn, ?_⟩
  rw [readRange]
  dsimp only
  rw [if_neg (by omega), if_neg (by omega), bind_ok (get_run s), if_neg (by omega)]
  simp only [hcut, data_eq_of_rest hrest]
  rw [bind_ok (eval_ok hcopy s), bind_ok (h.advance_run (n := n) (by omega) (by omega))]
  rfl

/-! ## Values of a fixed width -/

section Fixed

variable {w size : ℕ} (f : FixedWidth w size) {n : ℤ}

theorem checkAvailable_ok {position k : ℤ} (h0 : 0 ≤ position)
    (hk : k ≤ jint (s.size - position)) : checkAvailable position k s = .ok () s := by
  rw [checkAvailable, if_neg (by omega), bind_ok (get_run s), if_neg (by omega)]
  rfl

/-- The value is there. -/
theorem InBounds.readFixed_ok (h : InBounds s) (hn : n = size) (hsize : 0 < size)
    (hroom : size ≤ s.rest.length) (e : Bool) :
    ∃ v, f.layout e v = s.rest.take size ∧ readFixed f n e s = .ok v (s.moved n) := by
  have hlen := h.length_rest
  have hav := h.available_eq
  have h0 := h.pos_nonneg
  have hd := data_eq_of_rest (s := s) (by rw [← List.length_pos_iff]; omega)
  rw [available] at hav
  have hin : s.pos + size ≤ s.bytes.length := by
    rw [← h.size_eq_length]
    omega
  obtain ⟨v, hread, hlayout⟩ := f.read_in e h0 hin
  refine ⟨v, hlayout, ?_⟩
  have hat : readFixedAt f n s.pos e s = .ok v s := by
    rw [readFixedAt, bind_ok (checkAvailable_ok h0 (by omega)), bind_ok (get_run s)]
    simp only [hd]
    rw [eval_ok hread]
  rw [readFixed, bind_ok (get_run s), bind_ok hat,
    bind_ok (h.advance_run (n := n) (by omega) (by omega))]
  rfl

/-- The value is not there. -/
theorem InBounds.readFixed_eof (h : InBounds s) (hn : n = size) (hroom : s.rest.length < size)
    (e : Bool) : ∃ message, readFixed f n e s = .error (.throws (.EOFException message)) s := by
  have hav := h.available_eq
  have h0 := h.pos_nonneg
  rw [available] at hav
  refine ⟨some s!"Cannot read {n} bytes!", ?_⟩
  rw [readFixed, bind_ok (get_run s), readFixedAt, checkAvailable, if_neg (by omega)]
  refine bind_error (bind_error ?_)
  rw [bind_ok (get_run s), if_pos (by omega)]
  rfl

end Fixed

/-! ## The buffer for characters -/

/-- `charBuffer` has room for `n` characters. -/
def Room (n : ℤ) (s : ByteArrayObjectDataInput) : Prop :=
  ∃ buffer, s.charBuffer = some buffer ∧ n ≤ buffer.length

theorem Room.mono {n m : ℤ} (h : Room n s) (hm : m ≤ n) : Room m s := by
  obtain ⟨buffer, hb, hn⟩ := h
  exact ⟨buffer, hb, by omega⟩

/-- `ensureCharBuffer` with a buffer large enough. -/
theorem ensureCharBuffer_room {n : ℤ} (h : Room n s) : ensureCharBuffer n s = .ok () s := by
  obtain ⟨buffer, hb, hn⟩ := h
  rw [ensureCharBuffer, bind_ok (get_run s)]
  simp only [hb]
  rw [if_neg (by omega)]
  rfl

/-- `ensureCharBuffer` without one. -/
theorem ensureCharBuffer_new {n : ℤ} (h : ¬ Room n s) (h0 : 0 ≤ n) :
    ensureCharBuffer n s = .ok () { s with charBuffer := some (List.replicate n.toNat 0) } := by
  rw [ensureCharBuffer, bind_ok (get_run s)]
  rcases hb : s.charBuffer with _ | buffer
  · simp only
    rw [bind_ok (newArray_ok h0 s)]
    rfl
  · have hgt : n > buffer.length := by
      by_contra hle
      exact h ⟨buffer, hb, by omega⟩
    simp only
    rw [if_pos hgt, bind_ok (newArray_ok h0 s)]
    rfl

theorem ensureCharBuffer_negative {n : ℤ} (h : s.charBuffer = none) (h0 : n < 0) :
    ensureCharBuffer n s = .error (.throws .NegativeArraySizeException) s := by
  rw [ensureCharBuffer, bind_ok (get_run s)]
  simp only [h]
  rw [newArray, if_neg (by omega)]
  rfl

theorem storeChar_run (buffer : List CodeUnit) {i : ℤ} (hb : s.charBuffer = some buffer)
    (h0 : 0 ≤ i) (hi : i < buffer.length) (x : CodeUnit) :
    storeChar i x s = .ok () { s with charBuffer := some (splice buffer i.toNat [x]) } := by
  rw [storeChar, hb]
  simp only [store_ok h0 hi x]

theorem newString_run {buffer : List CodeUnit} {n : ℤ} (hb : s.charBuffer = some buffer)
    (h0 : 0 ≤ n) (hn : n ≤ buffer.length) :
    newString n s = .ok (some (buffer.take n.toNat)) s := by
  rw [newString, bind_ok (get_run s)]
  simp only [hb]
  rw [if_neg (by omega)]
  rfl

end ByteArrayObjectDataInput

end HzResearch
