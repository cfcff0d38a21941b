import HzResearch.Chunks

/-!
# The sequential writes

`Write` lists the sequential writes of the class, with their arguments, and
`Write.chunks` what each of them reserves and stores. `Write.writes` connects the two:
a call whose arguments are accepted is made of these chunks. The others, null
references and ranges outside the array, are rejected without storing anything
(`Write.rejected`).
-/

namespace HzResearch

open Java Utf8

namespace ByteArrayObjectDataOutput

/-- A call of a sequential write. `int` arguments and the bits of `float` and `double` arguments are
bit vectors; a `byteOrder` is present in the variants that take one. -/
inductive Write : Type where
  | write (b : BitVec 32)
  | writeRange (b : Option (List Byte)) (off len : BitVec 32)
  | writeAll (b : Option (List Byte))
  | writeBoolean (v : Bool)
  | writeByte (v : BitVec 32)
  | writeZeroBytes (count : BitVec 32)
  | writeBytes (s : Option (List CodeUnit))
  | writeChar (v : BitVec 32)
  | writeChars (s : Option (List CodeUnit))
  | writeShort (v : BitVec 32) (byteOrder : Option ByteOrder)
  | writeInt (v : BitVec 32) (byteOrder : Option ByteOrder)
  | writeLong (v : BitVec 64) (byteOrder : Option ByteOrder)
  | writeFloat (v : BitVec 32) (byteOrder : Option ByteOrder)
  | writeDouble (v : BitVec 64) (byteOrder : Option ByteOrder)
  | writeUTF (str : Option (List CodeUnit))
  | writeByteArray (bytes : Option (List Byte))
  | writeBooleanArray (booleans : Option (List Bool))
  | writeCharArray (chars : Option (List CodeUnit))
  | writeShortArray (shorts : Option (List (BitVec 16)))
  | writeIntArray (ints : Option (List (BitVec 32)))
  | writeLongArray (longs : Option (List (BitVec 64)))
  | writeFloatArray (floats : Option (List (BitVec 32)))
  | writeDoubleArray (doubles : Option (List (BitVec 64)))
  | writeUTFArray (strings : Option (List (Option (List CodeUnit))))
  | writeData (payload : Option (List Byte))

variable (bits : Bits)

/-- The method called. -/
def Write.run : Write → Out Unit
  | .write b => ByteArrayObjectDataOutput.write b
  | .writeRange b off len => ByteArrayObjectDataOutput.writeRange b off.toInt len.toInt
  | .writeAll b => ByteArrayObjectDataOutput.writeAll b
  | .writeBoolean v => ByteArrayObjectDataOutput.writeBoolean v
  | .writeByte v => ByteArrayObjectDataOutput.writeByte v
  | .writeZeroBytes count => ByteArrayObjectDataOutput.writeZeroBytes count.toInt
  | .writeBytes s => ByteArrayObjectDataOutput.writeBytes s
  | .writeChar v => ByteArrayObjectDataOutput.writeChar bits v
  | .writeChars s => ByteArrayObjectDataOutput.writeChars bits s
  | .writeShort v none => ByteArrayObjectDataOutput.writeShort bits v
  | .writeShort v (some o) => writeShortOrder bits v o
  | .writeInt v none => ByteArrayObjectDataOutput.writeInt bits v
  | .writeInt v (some o) => writeIntOrder bits v o
  | .writeLong v none => ByteArrayObjectDataOutput.writeLong bits v
  | .writeLong v (some o) => writeLongOrder bits v o
  | .writeFloat v none => ByteArrayObjectDataOutput.writeFloat bits v
  | .writeFloat v (some o) => writeFloatOrder bits v o
  | .writeDouble v none => ByteArrayObjectDataOutput.writeDouble bits v
  | .writeDouble v (some o) => writeDoubleOrder bits v o
  | .writeUTF str => ByteArrayObjectDataOutput.writeUTF bits str
  | .writeByteArray bytes => ByteArrayObjectDataOutput.writeByteArray bits bytes
  | .writeBooleanArray booleans => ByteArrayObjectDataOutput.writeBooleanArray bits booleans
  | .writeCharArray chars => ByteArrayObjectDataOutput.writeCharArray bits chars
  | .writeShortArray shorts => ByteArrayObjectDataOutput.writeShortArray bits shorts
  | .writeIntArray ints => ByteArrayObjectDataOutput.writeIntArray bits ints
  | .writeLongArray longs => ByteArrayObjectDataOutput.writeLongArray bits longs
  | .writeFloatArray floats => ByteArrayObjectDataOutput.writeFloatArray bits floats
  | .writeDoubleArray doubles => ByteArrayObjectDataOutput.writeDoubleArray bits doubles
  | .writeUTFArray strings => ByteArrayObjectDataOutput.writeUTFArray bits strings
  | .writeData payload => ByteArrayObjectDataOutput.writeData bits payload

/-! ## Chunks -/

section Chunks

variable (bigEndian : Bool)

/-- The order that applies: the argument, or else that of the stream. -/
def inOrder (byteOrder : Option ByteOrder) : Bool := byteOrder.elim bigEndian (· == .BIG_ENDIAN)

/-- A length prefix. -/
def lengthChunk (len : ℤ) : Chunk := .exact (bits.int.layout bigEndian (BitVec.ofInt 32 len))

/-- The chunks of an array with these elements. -/
def arrayChunks {α : Type} (f : α → List Chunk) (xs : Option (List α)) : List Chunk :=
  lengthChunk bits bigEndian (lengthOrNull xs) :: (xs.getD []).flatMap f

/-- The chunks of a `byte[]`. -/
def byteArrayChunks (bytes : Option (List Byte)) : List Chunk :=
  lengthChunk bits bigEndian (lengthOrNull bytes) ::
    if bytes.getD [] = [] then [] else [.exact (bytes.getD [])]

/-- The chunks of a `String`: three bytes are reserved for every character. -/
def utfChunks (str : Option (List CodeUnit)) : List Chunk :=
  lengthChunk bits bigEndian (lengthOrNull str) ::
    if str.getD [] = [] then [] else [⟨jint ((str.getD []).length * 3), encode (str.getD [])⟩]

/-- What a call reserves and stores, in a stream of this endianness. -/
def Write.chunks : Write → List Chunk
  | .write b | .writeByte b => [.exact [b.setWidth 8]]
  | .writeRange b off len =>
    if len.toInt = 0 then []
    else [.exact (((b.getD []).drop off.toInt.toNat).take len.toInt.toNat)]
  | .writeAll b => if b.getD [] = [] then [] else [.exact (b.getD [])]
  | .writeBoolean v => [.exact [if v then 1 else 0]]
  | .writeZeroBytes count => List.replicate count.toInt.toNat (.exact [0])
  | .writeBytes s => [.exact ((s.getD []).map (BitVec.setWidth 8))]
  | .writeChar v => [.exact (bits.char.layout bigEndian (v.setWidth 16))]
  | .writeChars s =>
    [⟨jint ((s.getD []).length * CHAR_SIZE_IN_BYTES), (s.getD []).flatMap (bits.char.layout bigEndian)⟩]
  | .writeShort v o => [.exact (bits.short.layout (inOrder bigEndian o) (v.setWidth 16))]
  | .writeInt v o => [.exact (bits.int.layout (inOrder bigEndian o) v)]
  | .writeLong v o => [.exact (bits.long.layout (inOrder bigEndian o) v)]
  | .writeFloat v o => [.exact (bits.int.layout (inOrder bigEndian o) (floatToIntBits v))]
  | .writeDouble v o => [.exact (bits.long.layout (inOrder bigEndian o) (doubleToLongBits v))]
  | .writeUTF str => utfChunks bits bigEndian str
  | .writeByteArray bytes | .writeData bytes => byteArrayChunks bits bigEndian bytes
  | .writeBooleanArray xs => arrayChunks bits bigEndian (fun v => [.exact [if v then 1 else 0]]) xs
  | .writeCharArray xs => arrayChunks bits bigEndian (fun c => [.exact (bits.char.layout bigEndian c)]) xs
  | .writeShortArray xs => arrayChunks bits bigEndian (fun s => [.exact (bits.short.layout bigEndian s)]) xs
  | .writeIntArray xs => arrayChunks bits bigEndian (fun v => [.exact (bits.int.layout bigEndian v)]) xs
  | .writeLongArray xs => arrayChunks bits bigEndian (fun v => [.exact (bits.long.layout bigEndian v)]) xs
  | .writeFloatArray xs =>
    arrayChunks bits bigEndian (fun v => [.exact (bits.int.layout bigEndian (floatToIntBits v))]) xs
  | .writeDoubleArray xs =>
    arrayChunks bits bigEndian (fun v => [.exact (bits.long.layout bigEndian (doubleToLongBits v))]) xs
  | .writeUTFArray xs => arrayChunks bits bigEndian (utfChunks bits bigEndian) xs

end Chunks

/-! ## Calls are made of chunks -/

variable {bits} {e : Bool}

theorem write_writes (b : BitVec 32) : Writes e (write b) [.exact [b.setWidth 8]] :=
  Writes.exact rfl (put_fills _) (.inl (List.cons_ne_nil _ _))

theorem writeBoolean_writes (v : Bool) :
    Writes e (writeBoolean v) [.exact [if v then 1 else 0]] := by
  cases v
  · exact write_writes 0
  · exact write_writes 1

theorem writeFixed_writes {k size : ℕ} (f : FixedWidth k size) {n : ℤ} (hn : n = size)
    (hsize : 0 < size) (v : BitVec k) (e' : Bool) :
    Writes e (writeFixed f n v e') [.exact (f.layout e' v)] := by
  have hlen := f.length_layout e' v
  refine Writes.exact (by omega) (Fills.of_stores (stores_fixed f v e') (n := fun _ => n)
    (by omega) fun w _ => rfl) (.inl ?_)
  rw [← List.length_pos_iff]
  omega

theorem writeInt_writes (v : BitVec 32) :
    Writes e (writeInt bits v) [.exact (bits.int.layout e v)] :=
  .order (f := fun e => writeFixed bits.int INT_SIZE_IN_BYTES v e)
    (writeFixed_writes _ rfl (by decide) v e)

theorem writeLong_writes (v : BitVec 64) :
    Writes e (writeLong bits v) [.exact (bits.long.layout e v)] :=
  .order (f := fun e => writeFixed bits.long LONG_SIZE_IN_BYTES v e)
    (writeFixed_writes _ rfl (by decide) v e)

variable (bits) in
theorem writeShort_writes (v : BitVec 32) :
    Writes e (writeShort bits v) [.exact (bits.short.layout e (v.setWidth 16))] :=
  .order (f := fun e => writeFixed bits.short SHORT_SIZE_IN_BYTES (v.setWidth 16) e)
    (writeFixed_writes _ rfl (by decide) _ e)

variable (bits) in
theorem writeChar_writes (v : BitVec 32) :
    Writes e (writeChar bits v) [.exact (bits.char.layout e (v.setWidth 16))] :=
  .order (f := fun e => writeFixed bits.char CHAR_SIZE_IN_BYTES (v.setWidth 16) e)
    (writeFixed_writes _ rfl (by decide) _ e)

theorem writeDouble_writes (v : BitVec 64) :
    Writes e (writeDouble bits v) [.exact (bits.long.layout e (doubleToLongBits v))] :=
  writeLong_writes _

theorem writeFloat_writes (v : BitVec 32) :
    Writes e (writeFloat bits v) [.exact (bits.int.layout e (floatToIntBits v))] :=
  writeInt_writes _

/-- A copy that succeeds is in range. -/
theorem copy_eq_ok {l b b' : List Byte} {off len i : ℤ} {u : Unit}
    (h : (do
      let buffer ← get
      let buffer ← eval (arraycopy l off buffer i len)
      set buffer : Java (List Byte) Unit) b = .ok u b') :
    0 ≤ off ∧ 0 ≤ i ∧ 0 ≤ len ∧ off + len ≤ l.length ∧ i + len ≤ b.length ∧
      b' = splice b i.toNat ((l.drop off.toNat).take len.toNat) := by
  obtain ⟨b₁, b₂, hget, h⟩ := bind_eq_ok h
  cases hget
  obtain ⟨b₃, b₄, heval, hset⟩ := bind_eq_ok h
  cases hset
  exact arraycopy_eq_ok (eval_eq_ok heval).1

/-- A copy that is out of range leaves the array as it is. -/
theorem copy_error {l b : List Byte} {off len i : ℤ} {x : Throwable}
    (h : arraycopy l off b i len = .error x) :
    (do
      let buffer ← get
      let buffer ← eval (arraycopy l off buffer i len)
      set buffer : Java (List Byte) Unit) b = .error (.throws x) b := by
  rw [bind_ok (get_run b), h]
  rfl

/-- The copy of a range. -/
theorem stores_range {l : List Byte} {off len : ℤ} (hoff : 0 ≤ off) (hlen : 0 ≤ len)
    (hin : off + len ≤ l.length) :
    Stores (fun i => (do
      let buffer ← get
      let buffer ← eval (arraycopy l off buffer i len)
      set buffer : Java (List Byte) Unit)) () ((l.drop off.toNat).take len.toNat) where
  inside := by
    intro b i h0 h
    rw [bind_ok (get_run b), bind_ok (eval_ok (arraycopy_ok hoff h0 hlen hin ?_) b)]
    · rfl
    · rw [List.length_take, List.length_drop] at h
      omega
  outside := by
    intro b b' i a' h
    obtain ⟨-, h0, -, -, hi, -⟩ := copy_eq_ok h
    rw [List.length_take, List.length_drop]
    exact ⟨h0, by omega⟩
  length_eq := by
    intro b i
    rcases hcopy : arraycopy l off b i len with x | b'
    · rw [after_error (copy_error hcopy)]
    · have hrun : (do
          let buffer ← get
          let buffer ← eval (arraycopy l off buffer i len)
          set buffer : Java (List Byte) Unit) b = .ok () b' := by
        rw [bind_ok (get_run b), hcopy]
        rfl
      obtain ⟨-, h0, -, hl, hb, heq⟩ := copy_eq_ok hrun
      rw [after_ok hrun, heq]
      refine length_splice ?_
      rw [List.length_take, List.length_drop]
      omega

theorem writeRange_writes {l : List Byte} {off len : ℤ} (hoff : 0 ≤ off) (hlen : 0 ≤ len)
    (hin : off + len ≤ l.length) :
    Writes e (writeRange (some l) off len)
      (if len = 0 then [] else [.exact ((l.drop off.toNat).take len.toNat)]) := by
  have hle := jint_le_self (x := off + len) (by omega)
  unfold writeRange
  rw [if_neg (by omega)]
  simp only
  rw [if_neg (by omega)]
  have hbytes : ((l.drop off.toNat).take len.toNat).length = len.toNat := by
    rw [List.length_take, List.length_drop]
    omega
  split
  case isTrue h => exact .nothing
  case isFalse h =>
    refine Writes.exact (by omega) (Fills.of_stores (stores_range hoff hlen hin) (n := fun _ => len)
      (by omega) fun w _ => rfl) (.inl ?_)
    rw [← List.length_pos_iff]
    omega

theorem writeAll_writes (l : List Byte) :
    Writes e (writeAll (some l)) (if l = [] then [] else [.exact l]) := by
  have h := writeRange_writes (e := e) (l := l) (le_refl 0) (Int.natCast_nonneg l.length) (by omega)
  rw [Int.toNat_zero, List.drop_zero, Int.toNat_natCast, List.take_length] at h
  rcases l with _ | ⟨x, xs⟩
  · exact h
  · rw [if_neg (List.cons_ne_nil x xs)]
    rwa [if_neg (by rw [List.length_cons]; omega)] at h

theorem writeZeroBytes_writes (count : ℤ) :
    Writes e (writeZeroBytes count) (List.replicate count.toNat (.exact [0])) := by
  have h := Writes.forEach (e := e) (f := fun _ : ℕ => write 0) (g := fun _ => [.exact [0]])
    (fun _ => write_writes 0) (List.range count.toNat)
  have hcs : (List.range count.toNat).flatMap (fun _ => [Chunk.exact [0]]) =
      List.replicate count.toNat (.exact [0]) := by
    rw [← List.map_eq_flatMap, List.map_const', List.length_range]
  rwa [hcs] at h

theorem writeBytes_writes (s : List CodeUnit) :
    Writes e (writeBytes (some s)) [.exact (s.map (BitVec.setWidth 8))] := by
  have hfills := Fills.forEach (e := e) (f := fun c : CodeUnit => put (c.setWidth 8))
    (g := fun c => [c.setWidth 8]) (fun c => put_fills _) s
  rw [← List.map_eq_flatMap] at hfills
  refine Writes.exact (by simp) hfills ?_
  rcases s with _ | ⟨c, s⟩
  · exact .inr fun w _ _ _ => .inl ⟨rfl, rfl⟩
  · exact .inl (by simp)

theorem writeChars_writes (s : List CodeUnit) :
    Writes e (writeChars bits (some s))
      [⟨jint (s.length * CHAR_SIZE_IN_BYTES), s.flatMap (bits.char.layout e)⟩] := by
  have hlen : (s.flatMap (bits.char.layout e)).length = s.length * 2 := by
    rw [List.length_flatMap]
    simp [bits.char.length_layout]
  have hst : ∀ c : CodeUnit, Stores (fun i => bits.char.write i ((c.setWidth 32).setWidth 16) e) ()
      (bits.char.layout e c) := by
    intro c
    have hc : ((c.setWidth 32).setWidth 16 : CodeUnit) = c := by bv_omega
    rw [hc]
    exact stores_fixed _ _ _
  have hrun : ∀ (c : CodeUnit) (w : ByteArrayObjectDataOutput), w.isBigEndian = e →
      (do writeCharAt bits (← get).pos (c.setWidth 32); advance CHAR_SIZE_IN_BYTES : Out Unit) w =
        (do onBuffer (bits.char.write w.pos ((c.setWidth 32).setWidth 16) e)
            advance CHAR_SIZE_IN_BYTES) w := by
    intro c w he
    rw [← he]
    rfl
  refine Writes.chunk (reserves_capacity ?_) (Fills.forEach (fun c => Fills.of_stores (hst c)
    (n := fun _ => CHAR_SIZE_IN_BYTES) ?_ (hrun c)) s) (.inr (Refuses.forEach (fun c => ?_)
      (fun c => Refuses.of_stores (hst c) (n := fun _ => CHAR_SIZE_IN_BYTES) ?_ (hrun c)) s))
  · rw [hlen, CHAR_SIZE_IN_BYTES]
    omega
  · rw [bits.char.length_layout]
    rfl
  all_goals
    rw [← List.length_pos_iff, bits.char.length_layout]
    decide

variable (bits) in
/-- A length, and what follows if it is positive. -/
theorem withLength_writes {α : Type} (m : List α → Out Unit) (cs : List α → List Chunk)
    (xs : Option (List α)) (hnil : cs [] = []) (hm : ∀ l, l ≠ [] → Writes e (m l) (cs l)) :
    Writes e (do
      writeInt bits (BitVec.ofInt 32 (lengthOrNull xs))
      if lengthOrNull xs > 0 then m (xs.getD []))
      (lengthChunk bits e (lengthOrNull xs) :: cs (xs.getD [])) := by
  refine Writes.append (writeInt_writes _) ?_
  rcases xs with _ | _ | ⟨x, l⟩
  · rw [Option.getD_none, hnil]
    exact .nothing
  · rw [Option.getD_some, hnil]
    exact .nothing
  · have hpos : lengthOrNull (some (x :: l)) > 0 := by
      simp [lengthOrNull]
    rw [if_pos hpos]
    exact hm _ (List.cons_ne_nil x l)

theorem writeArray_writes {α : Type} {f : α → Out Unit} {g : α → List Chunk}
    (hf : ∀ a, Writes e (f a) (g a)) (xs : Option (List α)) :
    Writes e (writeArray bits f xs) (arrayChunks bits e g xs) :=
  withLength_writes bits (Java.forEach f) (List.flatMap g) xs rfl fun l _ => Writes.forEach hf l

theorem writeByteArray_writes (bytes : Option (List Byte)) :
    Writes e (writeByteArray bits bytes) (byteArrayChunks bits e bytes) := by
  rcases bytes with _ | l
  · exact withLength_writes bits (fun l => writeAll (some l))
      (fun l => if l = [] then [] else [.exact l]) none (if_pos rfl) fun l _ => writeAll_writes l
  · exact withLength_writes bits (fun l => writeAll (some l))
      (fun l => if l = [] then [] else [.exact l]) (some l) (if_pos rfl) fun l _ => writeAll_writes l

theorem writeUTF_writes (str : Option (List CodeUnit)) :
    Writes e (writeUTF bits str) (utfChunks bits e str) := by
  have hrun : ∀ (c : CodeUnit) (w : ByteArrayObjectDataOutput), w.isBigEndian = e →
      (do let n ← onBuffer (bits.writeUtf8Char (← get).pos c); advance n : Out Unit) w =
        (do let n ← onBuffer (bits.writeUtf8Char w.pos c); advance n) w := fun c w _ => rfl
  have hne : ∀ c : CodeUnit, encodeUnit c ≠ [] := by
    intro c
    have := (length_encodeUnit c).1
    rw [← List.length_pos_iff]
    omega
  have hchars : ∀ s : List CodeUnit, s ≠ [] →
      Writes e (do
        ensureAvailable (← capacity (s.length * 3))
        forEach (fun c => do
          let n ← onBuffer (bits.writeUtf8Char (← get).pos c)
          advance n) s) [⟨jint (s.length * 3), encode s⟩] := by
    intro s _
    refine Writes.chunk (reserves_capacity ?_) (Fills.forEach (fun c => Fills.of_stores
      (stores_utf8Char bits c) (n := fun n => n) rfl (hrun c)) s) (.inr (Refuses.forEach hne
        (fun c => Refuses.of_stores (stores_utf8Char bits c) (n := fun n => n) (hne c) (hrun c)) s))
    have hle := length_encode_le s
    rw [encode] at hle ⊢
    omega
  have h := withLength_writes bits (fun s => (do
      ensureAvailable (← capacity (s.length * 3))
      forEach (fun c => do
        let n ← onBuffer (bits.writeUtf8Char (← get).pos c)
        advance n) s)) (fun s => if s = [] then [] else [⟨jint (s.length * 3), encode s⟩]) str
      (if_pos rfl) fun s hs => by rw [if_neg hs]; exact hchars s hs
  rcases str with _ | s <;> exact h

/-! ## Accepted arguments -/

/-- The arguments are accepted: what is dereferenced is not null, and a range lies in its array. -/
def Write.Accepted : Write → Prop
  | .writeRange (some l) off len =>
    0 ≤ off.toInt ∧ 0 ≤ len.toInt ∧ off.toInt + len.toInt ≤ l.length
  | .writeRange none _ _ | .writeAll none | .writeBytes none | .writeChars none => False
  | _ => True

instance : DecidablePred Write.Accepted := fun c => by
  cases c
  case writeRange b off len =>
    cases b
    · exact .isFalse id
    · exact inferInstanceAs (Decidable (_ ∧ _ ∧ _))
  case writeAll b => cases b; exacts [.isFalse id, .isTrue trivial]
  case writeBytes s => cases s; exacts [.isFalse id, .isTrue trivial]
  case writeChars s => cases s; exacts [.isFalse id, .isTrue trivial]
  all_goals exact .isTrue trivial

variable (bits) in
/-- **Every call with accepted arguments is made of its chunks.** -/
theorem Write.writes (c : Write) (h : c.Accepted) : Writes e (c.run bits) (c.chunks bits e) := by
  cases c with
  | write b => exact write_writes b
  | writeRange b off len =>
    cases b with
    | none => exact h.elim
    | some l => exact writeRange_writes h.1 h.2.1 h.2.2
  | writeAll b =>
    cases b with
    | none => exact h.elim
    | some l => exact writeAll_writes l
  | writeBoolean v => exact writeBoolean_writes v
  | writeByte v => exact write_writes v
  | writeZeroBytes count => exact writeZeroBytes_writes count.toInt
  | writeBytes s =>
    cases s with
    | none => exact h.elim
    | some l => exact writeBytes_writes l
  | writeChar v => exact writeChar_writes bits v
  | writeChars s =>
    cases s with
    | none => exact h.elim
    | some l => exact writeChars_writes l
  | writeShort v o =>
    cases o with
    | none => exact writeShort_writes bits v
    | some o => exact writeFixed_writes bits.short rfl (by decide) _ _
  | writeInt v o =>
    cases o with
    | none => exact writeInt_writes v
    | some o => exact writeFixed_writes bits.int rfl (by decide) _ _
  | writeLong v o =>
    cases o with
    | none => exact writeLong_writes v
    | some o => exact writeFixed_writes bits.long rfl (by decide) _ _
  | writeFloat v o =>
    cases o with
    | none => exact writeFloat_writes v
    | some o => exact writeFixed_writes bits.int rfl (by decide) _ _
  | writeDouble v o =>
    cases o with
    | none => exact writeDouble_writes v
    | some o => exact writeFixed_writes bits.long rfl (by decide) _ _
  | writeUTF str => exact writeUTF_writes str
  | writeByteArray bytes => exact writeByteArray_writes bytes
  | writeBooleanArray xs => exact writeArray_writes writeBoolean_writes xs
  | writeCharArray xs =>
    refine writeArray_writes (fun c => ?_) xs
    have hc : ((c.setWidth 32).setWidth 16 : CodeUnit) = c := by bv_omega
    have hw := writeChar_writes bits (e := e) (c.setWidth 32)
    rwa [hc] at hw
  | writeShortArray xs =>
    refine writeArray_writes (fun v => ?_) xs
    have hv : (v.signExtend 32).setWidth 16 = v := by
      ext i hi
      simp [BitVec.getLsbD_signExtend, hi]
      omega
    have hw := writeShort_writes bits (e := e) (v.signExtend 32)
    rwa [hv] at hw
  | writeIntArray xs => exact writeArray_writes writeInt_writes xs
  | writeLongArray xs => exact writeArray_writes writeLong_writes xs
  | writeFloatArray xs => exact writeArray_writes writeFloat_writes xs
  | writeDoubleArray xs => exact writeArray_writes writeDouble_writes xs
  | writeUTFArray xs => exact writeArray_writes writeUTF_writes xs
  | writeData payload => exact writeByteArray_writes payload

/-- The writer after a call that was rejected: nothing is stored. -/
structure Spared (w w' : ByteArrayObjectDataOutput) : Prop where
  /-- what every method keeps -/
  keeps : Keeps w w'
  /-- `pos` stays -/
  pos_eq : w'.pos = w.pos
  /-- the bytes below `pos` stay -/
  front : w'.bytes.take w.pos.toNat = w.bytes.take w.pos.toNat
  /-- `pos` stays inside the buffer -/
  pos_le : w.pos ≤ w.bytes.length → w.pos ≤ w'.bytes.length

variable {w w' : ByteArrayObjectDataOutput}

theorem Spared.refl (h : Sane w) : Spared w w := ⟨Keeps.refl h, rfl, rfl, id⟩

/-- `ensureAvailable` stores nothing. -/
theorem ensureAvailable_spared (h : Sane w) (len : ℤ) :
    ∃ w', Spared w w' ∧ (ensureAvailable len w = .ok () w' ∨
      ∃ x, ensureAvailable len w = .error (.throws x) w') := by
  rcases ensureAvailable_spec h len with
    ⟨-, hrun⟩ | ⟨-, peak, hpeak, -, ⟨hfits, hcap, hrun⟩ | ⟨-, hrun⟩⟩
  · exact ⟨w, Spared.refl h, .inl hrun⟩
  · have hmax := newCapacity_le h len
    have hlen := length_regrown h hfits hcap peak
    have hkeeps : Keeps w (w.regrown (w.newCapacity len) peak) :=
      keeps_backed (b := (w.regrown _ peak).bytes) h hpeak (by omega) (by omega)
    exact ⟨_, ⟨hkeeps, rfl, take_regrown h hfits _ peak, fun _ => by omega⟩, .inl hrun⟩
  · exact ⟨_, ⟨keeps_peak h hpeak, rfl, rfl, id⟩, .inr ⟨_, hrun⟩⟩

/-- Where room is reserved there is a buffer. -/
theorem ensureAvailable_buffer (h : Sane w) {len : ℤ} (h0 : 0 < len)
    (hrun : ensureAvailable len w = .ok () w') : ∃ b, w'.buffer = some b := by
  rcases ensureAvailable_spec h len with
    ⟨hleft, hrun'⟩ | ⟨-, peak, -, -, ⟨-, -, hrun'⟩ | ⟨-, hrun'⟩⟩
  · rw [hrun] at hrun'
    cases hrun'
    rcases hb : w.buffer with _ | b
    · rw [available_eq h, bytes_none hb, h.pos_null hb] at hleft
      simp at hleft
      omega
    · exact ⟨b, rfl⟩
  · rw [hrun] at hrun'
    cases hrun'
    exact ⟨_, rfl⟩
  · rw [hrun] at hrun'
    cases hrun'

/-- Where the sum in the guard of `write(b, off, len)` wraps, room is reserved and the copy fails.
-/
theorem writeRange_wrapped {l b : List Byte} {off len : ℤ} {w₁ : ByteArrayObjectDataOutput}
    (hoff : 0 ≤ off) (h0 : 0 < len) (hguard : jint (off + len) ≤ l.length)
    (hout : (l.length : ℤ) < off + len) (hrun : ensureAvailable len w = .ok () w₁)
    (hb : w₁.buffer = some b) :
    writeRange (some l) off len w = .error (.throws .ArrayIndexOutOfBoundsException) w₁ := by
  have hcopy : arraycopy l off b w₁.pos len = .error .ArrayIndexOutOfBoundsException := by
    rw [arraycopy, if_neg]
    rintro ⟨-, -, -, hle, -⟩
    omega
  have hw₁ : ({ w₁ with buffer := some b } : ByteArrayObjectDataOutput) = w₁ := by
    rw [← hb]
  rw [writeRange, if_neg (by omega), if_neg (by omega), if_neg (by omega), bind_ok hrun,
    bind_ok (get_run w₁), bind_error (onBuffer_error hb (copy_error hcopy)), hw₁]

/-- Where the guard lets a range pass, an exception of the reservation is the outcome. -/
theorem writeRange_unreserved {l : List Byte} {off len : ℤ} {x : Stop}
    {w₁ : ByteArrayObjectDataOutput} (hoff : 0 ≤ off) (h0 : 0 < len)
    (hguard : jint (off + len) ≤ l.length) (hrun : ensureAvailable len w = .error x w₁) :
    writeRange (some l) off len w = .error x w₁ := by
  rw [writeRange, if_neg (by omega), if_neg (by omega), if_neg (by omega), bind_error hrun]

/-- A range that the guard does not let pass. -/
theorem writeRange_guarded {l : List Byte} {off len : ℤ}
    (hguard : off < 0 ∨ len < 0 ∨ (l.length : ℤ) < jint (off + len))
    (w : ByteArrayObjectDataOutput) :
    writeRange (some l) off len w = .error (.throws .IndexOutOfBoundsException) w := by
  rw [writeRange]
  split
  case isTrue => rfl
  case isFalse hneg =>
    rw [if_pos (by omega)]
    rfl

/-- A range outside its array is rejected. -/
theorem writeRange_rejected (h : Sane w) {b : Option (List Byte)} {off len : ℤ}
    (hoff : off ≤ MAX_VALUE)
    (hn : ¬ ∃ l, b = some l ∧ 0 ≤ off ∧ 0 ≤ len ∧ off + len ≤ l.length) :
    ∃ x w', writeRange b off len w = .error (.throws x) w' ∧ Spared w w' := by
  rcases b with _ | l
  · unfold writeRange
    split
    case isTrue => exact ⟨_, w, rfl, Spared.refl h⟩
    case isFalse => exact ⟨_, w, rfl, Spared.refl h⟩
  by_cases hguard : off < 0 ∨ len < 0 ∨ (l.length : ℤ) < jint (off + len)
  · exact ⟨_, w, writeRange_guarded hguard w, Spared.refl h⟩
  have hout : (l.length : ℤ) < off + len := by
    by_contra hle
    exact hn ⟨l, rfl, by omega, by omega, by omega⟩
  have h0 : 0 < len := by
    -- without wrapping the sum is `off`
    by_contra hle
    have hsum : jint (off + len) = off := by
      rw [jint_of_range (by omega) (by omega)]
      omega
    omega
  obtain ⟨w₁, hspared, hrun | ⟨x, hrun⟩⟩ := ensureAvailable_spared h len
  · obtain ⟨b, hb⟩ := ensureAvailable_buffer h h0 hrun
    exact ⟨_, w₁, writeRange_wrapped (by omega) h0 (by omega) hout hrun hb, hspared⟩
  · exact ⟨x, w₁, writeRange_unreserved (by omega) h0 (by omega) hrun, hspared⟩

variable (bits) in
/-- **A call whose arguments are not accepted throws and stores nothing.** -/
theorem Write.rejected (c : Write) (hn : ¬ c.Accepted) (h : Sane w) :
    ∃ x w', c.run bits w = .error (.throws x) w' ∧ Spared w w' := by
  cases c with
  | writeRange b off len =>
    refine writeRange_rejected h ?_ ?_
    · have := BitVec.toInt_lt (x := off)
      rw [MAX_VALUE]
      omega
    · rintro ⟨l, rfl, hin⟩
      exact hn hin
  | writeAll b =>
    cases b with
    | none => exact ⟨_, w, rfl, Spared.refl h⟩
    | some l => exact absurd trivial hn
  | writeBytes s =>
    cases s with
    | none => exact ⟨_, w, rfl, Spared.refl h⟩
    | some l => exact absurd trivial hn
  | writeChars s =>
    cases s with
    | none => exact ⟨_, w, rfl, Spared.refl h⟩
    | some l => exact absurd trivial hn
  | _ => exact absurd trivial hn

end ByteArrayObjectDataOutput

end HzResearch
