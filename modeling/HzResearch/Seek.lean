import HzResearch.Append

/-!
# The writer as a seekable buffer

`position` moves `pos` anywhere inside the buffer, so bytes behind `pos` may be data. A
sequential write is `Undamaged` if it keeps every byte of the old buffer outside the
range it moves over. Growth copies the bytes below `pos` only; what it drops behind `pos`
is overwritten by a write that reserves exactly what it stores, but not by `writeUTF`,
which reserves three bytes for every character. `undamaged_iff` says when a write is
undamaged, for every writer that any calls can lead to (`Reachable`);
`Write.safe_of_not_hasStrings` that only strings can do damage.

Positional writes change the bytes of their own width (`WriteAt.run_inside`).
-/

namespace HzResearch

open Java Utf8

namespace ByteArrayObjectDataOutput

/-! ## Positional writes -/

/-- A call of a positional write, without the position. -/
inductive WriteAt : Type where
  | write (b : BitVec 32)
  | writeBoolean (v : Bool)
  | writeByte (v : BitVec 32)
  | writeChar (v : BitVec 32)
  | writeShort (v : BitVec 32) (byteOrder : Option ByteOrder)
  | writeInt (v : BitVec 32) (byteOrder : Option ByteOrder)
  | writeLong (v : BitVec 64) (byteOrder : Option ByteOrder)
  | writeFloat (v : BitVec 32) (byteOrder : Option ByteOrder)
  | writeDouble (v : BitVec 64) (byteOrder : Option ByteOrder)

section

variable (bits : Bits)

/-- The method called. -/
def WriteAt.run (position : ℤ) : WriteAt → Out Unit
  | .write b => writeAt position b
  | .writeBoolean v => writeBooleanAt position v
  | .writeByte v => writeByteAt position v
  | .writeChar v => writeCharAt bits position v
  | .writeShort v none => writeShortAt bits position v
  | .writeShort v (some o) => writeShortOrderAt bits position v o
  | .writeInt v none => writeIntAt bits position v
  | .writeInt v (some o) => writeIntOrderAt bits position v o
  | .writeLong v none => writeLongAt bits position v
  | .writeLong v (some o) => writeLongOrderAt bits position v o
  | .writeFloat v none => writeFloatAt bits position v
  | .writeFloat v (some o) => writeFloatOrderAt bits position v o
  | .writeDouble v none => writeDoubleAt bits position v
  | .writeDouble v (some o) => writeDoubleOrderAt bits position v o

/-- What a call stores. -/
def WriteAt.bytes (bigEndian : Bool) : WriteAt → List Byte
  | .write b | .writeByte b => [b.setWidth 8]
  | .writeBoolean v => [if v then 1 else 0]
  | .writeChar v => bits.char.layout bigEndian (v.setWidth 16)
  | .writeShort v o => bits.short.layout (inOrder bigEndian o) (v.setWidth 16)
  | .writeInt v o => bits.int.layout (inOrder bigEndian o) v
  | .writeLong v o => bits.long.layout (inOrder bigEndian o) v
  | .writeFloat v o => bits.int.layout (inOrder bigEndian o) (floatToIntBits v)
  | .writeDouble v o => bits.long.layout (inOrder bigEndian o) (doubleToLongBits v)

/-- The width of a call. -/
def WriteAt.width : WriteAt → ℤ
  | .write _ | .writeByte _ | .writeBoolean _ => 1
  | .writeChar _ => CHAR_SIZE_IN_BYTES
  | .writeShort _ _ => SHORT_SIZE_IN_BYTES
  | .writeInt _ _ | .writeFloat _ _ => INT_SIZE_IN_BYTES
  | .writeLong _ _ | .writeDouble _ _ => LONG_SIZE_IN_BYTES

end

variable {bits : Bits} {e : Bool} {w w' : ByteArrayObjectDataOutput} {b : List Byte}

theorem WriteAt.length_bytes (c : WriteAt) : ((c.bytes bits e).length : ℤ) = c.width := by
  cases c
  case writeChar v => exact congrArg Nat.cast (bits.char.length_layout e _)
  case writeShort v o => exact congrArg Nat.cast (bits.short.length_layout _ _)
  case writeInt v o => exact congrArg Nat.cast (bits.int.length_layout _ _)
  case writeLong v o => exact congrArg Nat.cast (bits.long.length_layout _ _)
  case writeFloat v o => exact congrArg Nat.cast (bits.int.length_layout _ _)
  case writeDouble v o => exact congrArg Nat.cast (bits.long.length_layout _ _)
  all_goals rfl

variable (bits) in
/-- A positional write is one store into the array. -/
theorem WriteAt.run_eq (c : WriteAt) (he : w.isBigEndian = e) :
    ∃ st : ℤ → Java (List Byte) Unit, Stores st () (c.bytes bits e) ∧
      ∀ position, c.run bits position w = onBuffer (st position) w := by
  subst he
  cases c with
  | write b => exact ⟨_, stores_store _, fun _ => rfl⟩
  | writeBoolean v =>
    cases v
    · exact ⟨_, stores_store _, fun _ => rfl⟩
    · exact ⟨_, stores_store _, fun _ => rfl⟩
  | writeByte v => exact ⟨_, stores_store _, fun _ => rfl⟩
  | writeChar v => exact ⟨_, stores_fixed _ _ _, fun _ => rfl⟩
  | writeShort v o => cases o <;> exact ⟨_, stores_fixed _ _ _, fun _ => rfl⟩
  | writeInt v o => cases o <;> exact ⟨_, stores_fixed _ _ _, fun _ => rfl⟩
  | writeLong v o => cases o <;> exact ⟨_, stores_fixed _ _ _, fun _ => rfl⟩
  | writeFloat v o => cases o <;> exact ⟨_, stores_fixed _ _ _, fun _ => rfl⟩
  | writeDouble v o => cases o <;> exact ⟨_, stores_fixed _ _ _, fun _ => rfl⟩

/-- In range a positional write overwrites its width, and nothing else. -/
theorem WriteAt.run_inside (c : WriteAt) {position : ℤ} (hb : w.buffer = some b)
    (h0 : 0 ≤ position) (h : position + c.width ≤ b.length) :
    c.run bits position w = .ok () { w with
      buffer := some (splice b position.toNat (c.bytes bits w.isBigEndian)) } := by
  obtain ⟨st, hst, hrun⟩ := c.run_eq bits (w := w) rfl
  rw [hrun, onBuffer_ok hb (hst.inside h0 (by rwa [c.length_bytes]))]

theorem WriteAt.keeps (c : WriteAt) (h : Sane w) (position : ℤ) :
    Keeps w (after (c.run bits position) w) := by
  obtain ⟨st, hst, hrun⟩ := c.run_eq bits (w := w) rfl
  have hrun := hrun position
  rcases hb : w.buffer with _ | b
  · rw [onBuffer_none hb] at hrun
    rw [after_error hrun]
    exact Keeps.refl h
  · have hlen := hst.length_eq b position
    -- the array keeps its length, also where the store fails
    have hsame : ∀ {b' : List Byte}, b'.length = b.length →
        Keeps w { w with buffer := some b' } := by
      intro b' hb'
      have hmax := h.length_le
      have hle := h.pos_le
      rw [bytes_some hb] at hmax hle
      refine ⟨⟨h.initialSize_nonneg, h.initialSize_le, h.pos_nonneg, ?_, ?_, fun hnone => by
        cases hnone⟩, rfl, rfl, le_refl _⟩
      · rw [bytes_some rfl, hb']
        exact hle
      · rw [bytes_some rfl, hb']
        exact hmax
    rcases hst' : st position b with ⟨u, b'⟩ | ⟨x, b'⟩
    · rw [onBuffer_ok hb hst'] at hrun
      rw [after_ok hst'] at hlen
      rw [after_ok hrun]
      exact hsame hlen
    · rw [onBuffer_error hb hst'] at hrun
      rw [after_error hst'] at hlen
      rw [after_error hrun]
      exact hsame hlen

/-! ## Reachable writers -/

/-- Anything that can be called. -/
inductive Op : Type where
  | call (c : Call)
  | writeAt (c : WriteAt) (position : BitVec 32)
  | position (newPos : BitVec 32)

/-- The method called. -/
def Op.run (bits : Bits) : Op → Out Unit
  | .call c => c.run bits
  | .writeAt c i => c.run bits i.toInt
  | .position newPos => ByteArrayObjectDataOutput.position newPos.toInt

/-- The writers that calls lead to, also where some of the calls throw. -/
inductive Reachable (bits : Bits) : ByteArrayObjectDataOutput → Prop
  /-- the constructor -/
  | new {size : ℤ} (h0 : 0 ≤ size) (h : size ≤ MAX_VALUE) (order : ByteOrder) :
    Reachable bits (new size order)
  /-- one more call -/
  | op {w : ByteArrayObjectDataOutput} (o : Op) : Reachable bits w →
    Reachable bits (after (o.run bits) w)

/-- `position` with a buffer. -/
theorem position_some (hb : w.buffer = some b) (newPos : ℤ) :
    position newPos w =
      if newPos > b.length ∨ newPos < 0 then .error (.throws (.IllegalArgumentException none)) w
      else .ok () { w with pos := newPos } := by
  obtain ⟨initialSize, buffer, pos, e, peak⟩ := w
  cases hb
  rw [position, bind_ok (get_run _)]
  split
  case isTrue hbad => exact congrFun (if_pos hbad) _
  case isFalse hin => exact congrFun (if_neg hin) _

/-- `position` without a buffer. -/
theorem position_none (hb : w.buffer = none) (newPos : ℤ) :
    position newPos w = .error (.throws .NullPointerException) w := by
  obtain ⟨initialSize, buffer, pos, e, peak⟩ := w
  cases hb
  rfl

theorem position_keeps (h : Sane w) (newPos : ℤ) : Keeps w (after (position newPos) w) := by
  rcases hb : w.buffer with _ | b
  · rw [after_error (position_none hb newPos)]
    exact Keeps.refl h
  · have hrun := position_some hb newPos
    have hmax := h.length_le
    split at hrun
    case isTrue =>
      rw [after_error hrun]
      exact Keeps.refl h
    case isFalse hin =>
      rw [after_ok hrun]
      refine ⟨⟨h.initialSize_nonneg, h.initialSize_le, ?_, ?_, hmax, fun hnone => ?_⟩, rfl, rfl,
        le_refl _⟩
      · simp only
        omega
      · rw [bytes_some (w := { w with pos := newPos }) hb]
        simp only
        omega
      · rw [hb] at hnone
        cases hnone

theorem Op.keeps (o : Op) (h : Sane w) : Keeps w (after (o.run bits) w) := by
  cases o with
  | call c => exact c.keeps bits h
  | writeAt c i => exact c.keeps h i.toInt
  | position newPos => exact position_keeps h newPos.toInt

/-- **The invariant of the writer.** -/
theorem Reachable.sane (h : Reachable bits w) : Sane w := by
  induction h with
  | new h0 h order => exact new_sane h0 h order
  | op o _ ih => exact (o.keeps ih).sane

/-! ## What a sequential write keeps -/

/-- The old bytes outside the range that `pos` has moved over are kept. -/
def Undamaged (w w' : ByteArrayObjectDataOutput) : Prop :=
  ∀ i : ℕ, i < w.bytes.length → ((i : ℤ) < w.pos ∨ w'.pos ≤ i) → w'.bytes[i]? = w.bytes[i]?

/-- From here on the buffer holds zeros. -/
def BlankFrom (w : ByteArrayObjectDataOutput) (q : ℤ) : Prop :=
  ∀ i : ℕ, q ≤ i → i < w.bytes.length → w.bytes[i]? = some 0

/-- Arrays and strings have at most `Integer.MAX_VALUE` elements. -/
def Write.Sized : Write → Prop
  | .writeRange xs _ _ | .writeAll xs | .writeByteArray xs | .writeData xs =>
    lengthOrNull xs ≤ MAX_VALUE
  | .writeBytes s | .writeChars s | .writeUTF s => lengthOrNull s ≤ MAX_VALUE
  | .writeBooleanArray xs => lengthOrNull xs ≤ MAX_VALUE
  | .writeCharArray xs | .writeShortArray xs => lengthOrNull xs ≤ MAX_VALUE
  | .writeIntArray xs | .writeFloatArray xs => lengthOrNull xs ≤ MAX_VALUE
  | .writeLongArray xs | .writeDoubleArray xs => lengthOrNull xs ≤ MAX_VALUE
  | .writeUTFArray xs => lengthOrNull xs ≤ MAX_VALUE ∧
    ∀ s ∈ xs.getD [], lengthOrNull s ≤ MAX_VALUE
  | _ => True

/-- The write cannot do damage: every reservation fits into the buffer, or only zeros stand behind
the bytes written. -/
def Write.Safe (bits : Bits) (c : Write) (w : ByteArrayObjectDataOutput) : Prop :=
  Roomy w.bytes.length w.pos (c.chunks bits w.isBigEndian) ∨
    BlankFrom w (w.pos + (c.encoding bits w.isBigEndian).length)

theorem length_le_of_lengthOrNull {α : Type} {xs : Option (List α)}
    (h : lengthOrNull xs ≤ MAX_VALUE) :
    ((xs.getD []).length : ℤ) ≤ MAX_VALUE := by
  rcases xs with _ | l
  · simp [MAX_VALUE]
  · exact h

/-! ## Reservations -/

/-- The call writes strings. -/
def Write.HasStrings : Write → Prop
  | .writeUTF _ | .writeUTFArray _ => True
  | _ => False

section Chunks

variable {P : Chunk → Prop} (hexact : ∀ bs : List Byte, (bs.length : ℤ) ≤ MAX_VALUE → P (.exact bs))

include hexact

theorem forall_byte (x : Byte) : P (.exact [x]) :=
  hexact _ (by simp [MAX_VALUE])

theorem forall_layout {k size : ℕ} (f : FixedWidth k size) (hsize : size ≤ 8) (e : Bool)
    (v : BitVec k) : P (.exact (f.layout e v)) := by
  refine hexact _ ?_
  rw [f.length_layout, MAX_VALUE]
  omega

theorem forall_arrayChunks {α : Type} {f : α → List Chunk} (xs : Option (List α))
    (hf : ∀ x ∈ xs.getD [], ∀ c ∈ f x, P c) : ∀ c ∈ arrayChunks bits e f xs, P c := by
  intro c hc
  rcases List.mem_cons.1 hc with rfl | hc
  · exact forall_layout hexact bits.int (by decide) _ _
  · obtain ⟨x, hx, hc⟩ := List.mem_flatMap.1 hc
    exact hf x hx c hc

theorem forall_byteArrayChunks {xs : Option (List Byte)} (h : lengthOrNull xs ≤ MAX_VALUE) :
    ∀ c ∈ byteArrayChunks bits e xs, P c := by
  intro c hc
  rcases List.mem_cons.1 hc with rfl | hc
  · exact forall_layout hexact bits.int (by decide) _ _
  · split at hc
    · cases hc
    · rw [List.mem_singleton.1 hc]
      exact hexact _ (length_le_of_lengthOrNull h)

theorem forall_utfChunks (hutf : ∀ s : List CodeUnit, P ⟨jint (s.length * 3), encode s⟩)
    (s : Option (List CodeUnit)) : ∀ c ∈ utfChunks bits e s, P c := by
  intro c hc
  rcases List.mem_cons.1 hc with rfl | hc
  · exact forall_layout hexact bits.int (by decide) _ _
  · split at hc
    · cases hc
    · rw [List.mem_singleton.1 hc]
      exact hutf _

/-- What holds of a reservation of exactly the bytes stored, and of the reservations for
characters, holds of every chunk of a call. -/
theorem Write.forall_chunks (c : Write) (h : c.Sized)
    (hchars : ∀ s : List CodeUnit,
      P ⟨jint (s.length * CHAR_SIZE_IN_BYTES), s.flatMap (bits.char.layout e)⟩)
    (hutf : c.HasStrings → ∀ s : List CodeUnit, P ⟨jint (s.length * 3), encode s⟩) :
    ∀ ch ∈ c.chunks bits e, P ch := by
  have hone : ∀ {c : Chunk}, P c → ∀ ch ∈ [c], P ch := by
    intro c hc ch hch
    rwa [List.mem_singleton.1 hch]
  have hbyte := forall_byte hexact
  cases c with
  | write b => exact hone (hbyte _)
  | writeRange b off len =>
    intro ch hch
    rw [Write.chunks] at hch
    split at hch
    · cases hch
    · have hlen := BitVec.toInt_lt (x := len)
      have htake := List.length_take_le len.toInt.toNat ((b.getD []).drop off.toInt.toNat)
      rw [List.mem_singleton.1 hch]
      refine hexact _ ?_
      rw [MAX_VALUE]
      omega
  | writeAll b =>
    intro ch hch
    rw [Write.chunks] at hch
    split at hch
    · cases hch
    · rw [List.mem_singleton.1 hch]
      exact hexact _ (length_le_of_lengthOrNull h)
  | writeBoolean v => exact hone (hbyte _)
  | writeByte v => exact hone (hbyte _)
  | writeZeroBytes count =>
    intro ch hch
    rw [List.eq_of_mem_replicate hch]
    exact hbyte _
  | writeBytes s =>
    refine hone (hexact _ ?_)
    rw [List.length_map]
    exact length_le_of_lengthOrNull h
  | writeChar v => exact hone (forall_layout hexact bits.char (by decide) _ _)
  | writeChars s => exact hone (hchars _)
  | writeShort v o => exact hone (forall_layout hexact bits.short (by decide) _ _)
  | writeInt v o => exact hone (forall_layout hexact bits.int (by decide) _ _)
  | writeLong v o => exact hone (forall_layout hexact bits.long (by decide) _ _)
  | writeFloat v o => exact hone (forall_layout hexact bits.int (by decide) _ _)
  | writeDouble v o => exact hone (forall_layout hexact bits.long (by decide) _ _)
  | writeUTF s => exact forall_utfChunks hexact (hutf trivial) s
  | writeByteArray xs => exact forall_byteArrayChunks hexact h
  | writeBooleanArray xs => exact forall_arrayChunks hexact xs fun x _ => hone (hbyte _)
  | writeCharArray xs =>
    exact forall_arrayChunks hexact xs fun x _ =>
      hone (forall_layout hexact bits.char (by decide) _ _)
  | writeShortArray xs =>
    exact forall_arrayChunks hexact xs fun x _ =>
      hone (forall_layout hexact bits.short (by decide) _ _)
  | writeIntArray xs =>
    exact forall_arrayChunks hexact xs fun x _ =>
      hone (forall_layout hexact bits.int (by decide) _ _)
  | writeLongArray xs =>
    exact forall_arrayChunks hexact xs fun x _ =>
      hone (forall_layout hexact bits.long (by decide) _ _)
  | writeFloatArray xs =>
    exact forall_arrayChunks hexact xs fun x _ =>
      hone (forall_layout hexact bits.int (by decide) _ _)
  | writeDoubleArray xs =>
    exact forall_arrayChunks hexact xs fun x _ =>
      hone (forall_layout hexact bits.long (by decide) _ _)
  | writeUTFArray xs =>
    exact forall_arrayChunks hexact xs fun s _ => forall_utfChunks hexact (hutf trivial) s
  | writeData xs => exact forall_byteArrayChunks hexact h

end Chunks

theorem room_jint_le (x : ℤ) (bs : List Byte) : (Chunk.mk (jint x) bs).room ≤ MAX_VALUE := jint_le x

/-- No call reserves more than an array can hold. -/
theorem Write.room_le (c : Write) (h : c.Sized) : ∀ ch ∈ c.chunks bits e, ch.room ≤ MAX_VALUE :=
  c.forall_chunks (fun _ hbs => hbs) h (fun _ => room_jint_le _ _) fun _ _ => room_jint_le _ _

/-- A call that writes no strings reserves no more than it stores. -/
theorem Write.room_le_length (c : Write) (h : c.Sized) (hs : ¬ c.HasStrings) :
    ∀ ch ∈ c.chunks bits e, ch.room ≤ ch.bytes.length := by
  refine c.forall_chunks (fun _ _ => le_refl _) h (fun s => ?_) fun h => absurd h hs
  have hlen : (s.flatMap (bits.char.layout e)).length = s.length * 2 := by
    rw [List.length_flatMap]
    simp [bits.char.length_layout]
  have := jint_le_self (x := s.length * CHAR_SIZE_IN_BYTES) (by rw [CHAR_SIZE_IN_BYTES]; omega)
  simp only [hlen]
  unfold CHAR_SIZE_IN_BYTES at *
  omega

/-! ## When a write does damage -/

/-- What chunks keep, in terms of single bytes. -/
theorem Wrote.undamaged_iff_roomy {cs : List Chunk} (h : Wrote w cs w') (h0 : 0 ≤ w.pos)
    (hcs : ∀ c ∈ cs, c.room ≤ MAX_VALUE) :
    Undamaged w w' ↔ Roomy w.bytes.length w.pos cs ∨ BlankFrom w w'.pos := by
  have hpos := h.pos_eq
  have hbelow : ∀ i : ℕ, i < w.bytes.length → (i : ℤ) < w.pos → w'.bytes[i]? = w.bytes[i]? := by
    intro i hi hlt
    have htake := congrArg (fun l => l[i]?) h.front
    simp only [List.getElem?_take, if_pos (show i < w'.pos.toNat by omega)] at htake
    rw [htake, List.getElem?_append_left (by rw [List.length_take]; omega), List.getElem?_take,
      if_pos (by omega)]
  by_cases hroomy : Roomy w.bytes.length w.pos cs
  · refine iff_of_true (fun i hi hout => ?_) (.inl hroomy)
    rcases hout with hlt | hge
    · exact hbelow i hi hlt
    · exact (h.kept hroomy).2 i (by omega)
  · obtain ⟨-, hlen, hzero⟩ := h.wiped hroomy
    have hlen := hlen hcs
    -- behind `pos` the buffer now holds zeros, up to its old length at least
    have hblank : ∀ i : ℕ, w'.pos ≤ i → i < w.bytes.length → w'.bytes[i]? = some 0 := by
      intro i hi hlt
      have hz := hzero i (by omega)
      rw [List.getD_eq_getElem?_getD, List.getElem?_eq_getElem (by omega)] at hz
      rw [List.getElem?_eq_getElem (by omega)]
      exact congrArg some hz
    constructor
    · intro hun
      refine .inr fun i hi hlt => ?_
      rw [← hun i hlt (.inr hi), hblank i hi hlt]
    · rintro (hr | hz) i hi (hlt | hge)
      · exact absurd hr hroomy
      · exact absurd hr hroomy
      · exact hbelow i hi hlt
      · rw [hblank i hge hi, hz i hge hi]

/-- A write that returns has written its chunks. -/
theorem Write.wrote {c : Write} (h : Sane w) (hrun : c.run bits w = .ok () w') :
    Wrote w (c.chunks bits w.isBigEndian) w' := by
  by_cases hacc : c.Accepted
  · rcases (c.writes bits hacc).run h rfl with ⟨w₁, hrun', hw⟩ | ⟨x, w₁, hrun', -⟩
    · rw [hrun] at hrun'
      cases hrun'
      exact hw
    · rw [hrun] at hrun'
      cases hrun'
  · obtain ⟨x, w₁, hrun', -⟩ := c.rejected bits hacc h
    rw [hrun] at hrun'
    cases hrun'

/-- **When a sequential write is undamaged**: in every reachable writer a write that returns keeps
the old bytes outside the range it has moved over if and only if every reservation it makes fits
into the buffer or only zeros stood behind that range. A positional write inside the buffer changes
the bytes of its own width only, and `pos` not at all. -/
theorem undamaged_iff (bits : Bits) (h : Reachable bits w) :
    (∀ (c : Write) (w' : ByteArrayObjectDataOutput), c.Sized → c.run bits w = .ok () w' →
      (Undamaged w w' ↔ c.Safe bits w)) ∧
    ∀ (c : WriteAt) (position : ℤ), 0 ≤ position → position + c.width ≤ w.bytes.length →
      w.buffer ≠ none → ∃ w', c.run bits position w = .ok () w' ∧ w'.pos = w.pos ∧
        w'.bytes.length = w.bytes.length ∧ ∀ i : ℕ, (i : ℤ) < position ∨ position + c.width ≤ i →
          w'.bytes[i]? = w.bytes[i]? := by
  constructor
  · intro c w' hsized hrun
    have hw := Write.wrote h.sane hrun
    rw [hw.undamaged_iff_roomy h.sane.pos_nonneg (c.room_le hsized), Write.Safe, hw.pos_eq]
    rfl
  · intro c position h0 hin hne
    obtain ⟨b, hb⟩ := Option.ne_none_iff_exists'.1 hne
    rw [bytes_some hb] at hin
    have hlen : ((c.bytes bits w.isBigEndian).length : ℤ) = c.width := c.length_bytes
    refine ⟨_, c.run_inside hb h0 hin, rfl, ?_, fun i hi => ?_⟩
    · rw [bytes_some hb, bytes_some rfl, length_splice (by omega)]
    · rw [bytes_some hb, bytes_some rfl, getElem?_splice_of_not_mem (by omega) (by omega)]

/-- Eight bytes are written and `pos` goes back to the first. -/
def rewound : ByteArrayObjectDataOutput :=
  after (Op.run Bits.standard (.position 0))
    (after (Op.run Bits.standard (.call (.write (.writeLong 0x0102030405060708 none))))
      (new 8 .BIG_ENDIAN))

theorem reachable_rewound : Reachable Bits.standard rewound :=
  .op _ (.op _ (.new (by decide) (by decide) _))

/-- Both parts, on the rewound writer. -/
theorem undamaged_rewound :
    Undamaged rewound (after (Write.run Bits.standard (.writeShort 9 none)) rewound) ∧
      ∃ w', WriteAt.run Bits.standard 4 (.writeShort 9 none) rewound = .ok () w' ∧
        w'.pos = 0 ∧ w'.bytes[7]? = some 8 := by
  obtain ⟨hseq, hat⟩ := undamaged_iff Bits.standard reachable_rewound
  refine ⟨(hseq (.writeShort 9 none) _ trivial rfl).2 (.inl (by decide)), ?_⟩
  obtain ⟨w', hrun, hpos, -, hkept⟩ :=
    hat (.writeShort 9 none) 4 (by decide) (by decide) (Option.some_ne_none _)
  exact ⟨w', hrun, hpos, (hkept 7 (.inr (by decide))).trans rfl⟩

/-- Two characters reserve six bytes where four are left: the buffer grows, and the bytes behind
the two characters are gone. -/
theorem writeUTF_damages :
    Reachable Bits.standard rewound ∧ ∃ w',
      Write.run Bits.standard (.writeUTF (some [0x61, 0x61])) rewound = .ok () w' ∧
        ¬ Undamaged rewound w' := by
  refine ⟨reachable_rewound, _, rfl, fun h => ?_⟩
  have hlost := h 6 (by decide) (.inr (by decide))
  revert hlost
  decide

/-- Chunks that reserve no more than they store fit, or reach the end of the buffer. -/
theorem roomy_or_of_exact {cs : List Chunk} (h : ∀ c ∈ cs, c.room ≤ c.bytes.length)
    (length pos : ℤ) : Roomy length pos cs ∨ length < pos + (flat cs).length := by
  induction cs generalizing pos with
  | nil => exact .inl trivial
  | cons c cs ih =>
    have hc := h c List.mem_cons_self
    rw [flat_cons, List.length_append, Int.natCast_add]
    by_cases hroom : c.room ≤ length - pos
    · rcases ih (fun c hc => h c (List.mem_cons_of_mem _ hc)) (pos + c.bytes.length) with hr | hlt
      · exact .inl ⟨hroom, hr⟩
      · exact .inr (by omega)
    · exact .inr (by omega)

/-- **Only strings do damage.** -/
theorem Write.safe_of_not_hasStrings {c : Write} (h : c.Sized) (hs : ¬ c.HasStrings) :
    c.Safe bits w := by
  rcases roomy_or_of_exact (c.room_le_length h hs) w.bytes.length w.pos with hr | hlt
  · exact .inl hr
  · refine .inr fun i hi hin => ?_
    rw [Write.encoding] at hi
    omega

end ByteArrayObjectDataOutput

end HzResearch
