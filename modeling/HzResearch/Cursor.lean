import HzResearch.ReaderSpec

/-!
# The cursor of the reader along runs

The invariant `InBounds` is kept by every operation of the reader but one: `reset`
copies the mark back, and the mark may be `-1`, the value `position` leaves when it
moves before the mark, or lie behind a smaller array that `init` has brought since.
Inside the bounds no relative read indexes `data` outside its bounds, but for bulk
reads that go so far that `pos + len` wraps: the test against `size` then passes and
`System.arraycopy` refuses.

`Tame` says of a method that it keeps the invariant and never indexes an array outside
its bounds; it is closed under sequencing and loops. `holds_iff` is the result about
runs: the invariant holds in all states of a run, and no relative read is out of
bounds, exactly if every `reset` finds the mark inside the data and no bulk read
wraps.
-/

namespace HzResearch

open Java

namespace ByteArrayObjectDataInput

variable {α β : Type} {s s' s'' : ByteArrayObjectDataInput} {bits : Bits}

/-! ## Methods that keep the invariant -/

/-- What every method but the ones that move the mark or replace the data keeps. -/
structure Steps (s s' : ByteArrayObjectDataInput) : Prop where
  /-- the same data -/
  data_eq : s'.data = s.data
  /-- the same size -/
  size_eq : s'.size = s.size
  /-- the cursor stays in its bounds -/
  inBounds : InBounds s → InBounds s'
  /-- the buffer for characters does not shrink -/
  room : ∀ n, Room n s → Room n s'

theorem Steps.refl (s : ByteArrayObjectDataInput) : Steps s s := ⟨rfl, rfl, id, fun _ => id⟩

theorem Steps.trans (h : Steps s s') (h' : Steps s' s'') : Steps s s'' :=
  ⟨h'.data_eq.trans h.data_eq, h'.size_eq.trans h.size_eq, h'.inBounds ∘ h.inBounds,
    fun n => h'.room n ∘ h.room n⟩

theorem steps_moved {n : ℤ} (h0 : 0 ≤ n) (hn : n ≤ s.rest.length) : Steps s (s.moved n) :=
  ⟨rfl, rfl, fun h => h.moved h0 hn, fun _ => id⟩

/-- A property that every such method keeps. -/
def Stable (P : ByteArrayObjectDataInput → Prop) : Prop := ∀ s s', Steps s s' → P s → P s'

theorem stable_true : Stable fun _ => True := fun _ _ _ => id

theorem stable_room (n : ℤ) : Stable (Room n) := fun _ _ h => h.room n

/-- From `s` the method keeps what methods keep and indexes no array outside its bounds. -/
def TameAt (s : ByteArrayObjectDataInput) (m : In α) : Prop :=
  Steps s (after m s) ∧ ¬ Throws m s .ArrayIndexOutOfBoundsException

/-- From inside the bounds, if `P` holds there, the method is tame. -/
def Tame (P : ByteArrayObjectDataInput → Prop) (m : In α) : Prop :=
  ∀ s, InBounds s → P s → TameAt s m

theorem not_throws_ok {m : In α} {a : α} (h : m s = .ok a s') (x : Throwable) :
    ¬ Throws m s x := by
  rintro ⟨s'', h'⟩
  rw [h] at h'
  cases h'

theorem not_throws_of_ne {m : In α} {x y : Throwable} (h : m s = .error (.throws x) s')
    (hne : x ≠ y) : ¬ Throws m s y := by
  rintro ⟨s'', h'⟩
  rw [h] at h'
  cases h'
  exact hne rfl

theorem TameAt.of_ok {t : ByteArrayObjectDataInput} {m : In α} {a : α} (h : m s = .ok a t)
    (hs : Steps s t) : TameAt s m := by
  rw [TameAt, after_ok h]
  exact ⟨hs, not_throws_ok h _⟩

theorem TameAt.of_error {t : ByteArrayObjectDataInput} {m : In α} {x : Throwable}
    (h : m s = .error (.throws x) t) (hs : Steps s t)
    (hx : x ≠ .ArrayIndexOutOfBoundsException) : TameAt s m := by
  rw [TameAt, after_error h]
  exact ⟨hs, not_throws_of_ne h hx⟩

/-- In a sequence the second method starts from what the first has returned. -/
theorem TameAt.bind {m : In α} {f : α → In β} (hm : TameAt s m)
    (hf : ∀ a s', Steps s s' → m s = .ok a s' → TameAt s' (f a)) : TameAt s (m >>= f) := by
  obtain ⟨hsteps, hthrows⟩ := hm
  rcases hrun : m s with ⟨a, s'⟩ | ⟨x, s'⟩
  · rw [after_ok hrun] at hsteps
    obtain ⟨hsteps', hthrows'⟩ := hf a s' hsteps hrun
    have heq := bind_ok (f := f) hrun
    refine ⟨?_, ?_⟩
    · rw [after, heq]
      exact hsteps.trans hsteps'
    · rintro ⟨t, ht⟩
      rw [heq] at ht
      exact hthrows' ⟨t, ht⟩
  · rw [after_error hrun] at hsteps
    have heq := bind_error (f := f) hrun
    refine ⟨?_, ?_⟩
    · rw [after_error heq]
      exact hsteps
    · rintro ⟨t, ht⟩
      rw [heq] at ht
      cases ht
      exact hthrows ⟨s', hrun⟩

section Tame

variable {P : ByteArrayObjectDataInput → Prop} (hP : Stable P)

/-- The methods that return. -/
theorem Tame.of_ok {m : In α}
    (h : ∀ s, InBounds s → P s → ∃ a s', m s = .ok a s' ∧ Steps s s') : Tame P m := by
  intro s hs hp
  obtain ⟨a, s', hrun, hsteps⟩ := h s hs hp
  exact .of_ok hrun hsteps

theorem Tame.pure (a : α) : Tame P (Pure.pure a : In α) :=
  .of_ok fun s _ _ => ⟨a, s, rfl, Steps.refl s⟩

theorem Tame.get : Tame P (MonadState.get : In ByteArrayObjectDataInput) :=
  .of_ok fun s _ _ => ⟨s, s, rfl, Steps.refl s⟩

theorem Tame.raise {x : Throwable} (hx : x ≠ .ArrayIndexOutOfBoundsException) :
    Tame P (Java.raise x : In α) :=
  fun s _ _ => .of_error rfl (Steps.refl s) hx

include hP in
theorem Tame.bind {m : In α} {f : α → In β} (hm : Tame P m) (hf : ∀ a, Tame P (f a)) :
    Tame P (m >>= f) :=
  fun s hs hp => (hm s hs hp).bind fun a s' h _ => hf a s' (h.inBounds hs) (hP _ _ h hp)

include hP in
theorem Tame.forEach {f : α → In Unit} (xs : List α) (hf : ∀ a ∈ xs, Tame P (f a)) :
    Tame P (forEach f xs) := by
  induction xs with
  | nil => exact .pure ()
  | cons x xs ih =>
    exact (hf x List.mem_cons_self).bind hP fun _ =>
      ih fun a ha => hf a (List.mem_cons_of_mem x ha)

include hP in
theorem Tame.times {m : In α} (hm : Tame P m) (n : ℕ) : Tame P (times m n) := by
  induction n with
  | zero => exact .pure []
  | succ n ih => exact hm.bind hP fun x => ih.bind hP fun xs => .pure (x :: xs)

/-! ## The reads -/

theorem read_tame : Tame P read := by
  refine .of_ok fun s hs _ => ?_
  rcases hrest : s.rest with _ | ⟨b, tail⟩
  · exact ⟨_, s, hs.read_nil hrest, Steps.refl s⟩
  · refine ⟨_, _, hs.read_cons hrest, steps_moved (by omega) ?_⟩
    rw [hrest, List.length_cons]
    omega

include hP in
theorem readByte_tame : Tame P readByte := by
  refine read_tame.bind hP fun ch => ?_
  rw [orEOF]
  split
  · exact .raise (by simp)
  · exact .pure _

include hP in
theorem readBoolean_tame : Tame P readBoolean := by
  refine read_tame.bind hP fun ch => ?_
  split
  · exact .raise (by simp)
  · exact .pure _

theorem readFixed_tame {w size : ℕ} (f : FixedWidth w size) {n : ℤ} (hn : n = size)
    (hsize : 0 < size) (e : Bool) : Tame P (readFixed f n e) := by
  intro s hs _
  by_cases hroom : size ≤ s.rest.length
  · obtain ⟨v, -, hrun⟩ := hs.readFixed_ok f hn hsize hroom e
    exact .of_ok hrun (steps_moved (by omega) (by omega))
  · obtain ⟨message, hrun⟩ := hs.readFixed_eof f hn (by omega) e
    exact .of_error hrun (Steps.refl s) (by simp)

include hP in
/-- A read in the order of the stream. -/
theorem order_tame {m : Bool → In α} (hm : ∀ e, Tame P (m e)) :
    Tame P (do m (← MonadState.get).bigEndian) :=
  Tame.get.bind hP fun s => hm s.bigEndian

include hP in
theorem readInt_tame : Tame P (readInt bits) :=
  order_tame hP fun e => readFixed_tame bits.int rfl (by decide) e

include hP in
theorem readArray_tame {m : In α} (hm : Tame P m) : Tame P (readArray bits m) := by
  refine (readInt_tame hP).bind hP fun len => ?_
  dsimp only
  split
  · exact .pure _
  · split
    · exact (hm.times hP _).bind hP fun values => .pure _
    · exact .pure _

theorem ensureCharBuffer_tame (n : ℤ) : Tame P (ensureCharBuffer n) := by
  intro s hs _
  by_cases hroom : Room n s
  · exact .of_ok (ensureCharBuffer_room hroom) (Steps.refl s)
  rcases lt_or_ge n 0 with hneg | h0
  · rcases hb : s.charBuffer with _ | buffer
    · have hrun := ensureCharBuffer_negative hb hneg
      exact .of_error hrun (Steps.refl s) (by simp)
    · exact absurd ⟨buffer, hb, by omega⟩ hroom
  · have hrun := ensureCharBuffer_new hroom h0
    refine .of_ok hrun ⟨rfl, rfl, fun h => ⟨h.size_eq, h.size_le, h.pos_nonneg, h.pos_le⟩, ?_⟩
    intro m hm
    refine ⟨_, rfl, ?_⟩
    have hmn : m ≤ n := by
      by_contra hlt
      exact hroom (hm.mono (by omega))
    rw [List.length_replicate]
    omega

/-- Afterwards there is room. -/
theorem ensureCharBuffer_eq_ok {n : ℤ} {u : Unit} (h : ensureCharBuffer n s = .ok u s') :
    Room n s' := by
  by_cases hroom : Room n s
  · rw [ensureCharBuffer_room hroom] at h
    cases h
    exact hroom
  rcases lt_or_ge n 0 with hneg | h0
  · rcases hb : s.charBuffer with _ | buffer
    · rw [ensureCharBuffer_negative hb hneg] at h
      cases h
    · exact absurd ⟨buffer, hb, by omega⟩ hroom
  · rw [ensureCharBuffer_new hroom h0] at h
    cases h
    exact ⟨_, rfl, by rw [List.length_replicate]; omega⟩

theorem newString_tame (n : ℤ) : Tame P (newString n) := by
  intro s hs _
  have hrun : ∃ r, newString n s = r ∧ (r = .ok (some ((s.charBuffer.getD []).take n.toNat)) s ∨
      r = .error (.throws .NullPointerException) s ∨
      r = .error (.throws .StringIndexOutOfBoundsException) s) := by
    refine ⟨_, rfl, ?_⟩
    rw [newString, bind_ok (get_run s)]
    rcases s.charBuffer with _ | buffer
    · exact .inr (.inl rfl)
    · simp only
      split
      · exact .inr (.inr rfl)
      · exact .inl rfl
  obtain ⟨r, hrun, rfl | rfl | rfl⟩ := hrun
  · exact .of_ok hrun (Steps.refl s)
  · exact .of_error hrun (Steps.refl s) (by simp)
  · exact .of_error hrun (Steps.refl s) (by simp)

/-- Inside the buffer a character is stored. -/
theorem storeChar_tame {n i : ℤ} (h0 : 0 ≤ i) (hi : i < n) (x : CodeUnit) :
    Tame (Room n) (storeChar i x) := by
  refine .of_ok fun s hs hroom => ?_
  obtain ⟨buffer, hb, hn⟩ := hroom
  refine ⟨_, _, storeChar_run _ hb h0 (by omega) x, rfl, rfl,
    fun h => ⟨h.size_eq, h.size_le, h.pos_nonneg, h.pos_le⟩, ?_⟩
  rintro m ⟨buffer', hb', hm⟩
  rw [hb] at hb'
  cases hb'
  exact ⟨_, rfl, by rw [length_splice (by simp; omega)]; exact hm⟩

include hP in
/-- `Bits.readUtf8Char` on a byte that is negative as a `byte`. -/
theorem readUtf8Char_tame {b : Byte} (hb : b.toInt < 0) :
    Tame P (bits.readUtf8Char readByte b) := by
  have h80 : 0x80 ≤ b := by
    rw [BitVec.toInt_neg_iff] at hb
    bv_omega
  by_cases h2 : 0xC0 ≤ b ∧ b ≤ 0xDF
  · rw [bits.readUtf8Char_two _ h2.1 h2.2]
    exact (readByte_tame hP).bind hP fun k => .pure _
  by_cases h3 : 0xE0 ≤ b ∧ b ≤ 0xEF
  · rw [bits.readUtf8Char_three _ h3.1 h3.2]
    exact (readByte_tame hP).bind hP fun m => (readByte_tame hP).bind hP fun k => .pure _
  · rw [bits.readUtf8Char_other _ h80 (by bv_omega)]
    exact .raise (by simp)

theorem readChars_tame {n : ℤ} {i : ℕ} (hi : i < n) : Tame (Room n) (readChars bits i) := by
  have hP := stable_room n
  refine (readByte_tame hP).bind hP fun b => ?_
  split
  case isTrue hneg =>
    exact (readUtf8Char_tame hP hneg).bind hP fun x => storeChar_tame (by omega) hi x
  case isFalse hneg => exact storeChar_tame (by omega) hi _

include hP in
theorem readUTF_tame : Tame P (readUTF bits) := by
  refine (readInt_tame hP).bind hP fun len => ?_
  dsimp only
  split
  · exact .pure _
  · intro s hs hp
    refine (ensureCharBuffer_tame len.toInt s hs hp).bind fun u s' hsteps hrun => ?_
    -- from here on the buffer has room for the characters announced
    have hroom := ensureCharBuffer_eq_ok hrun
    have hS := stable_room len.toInt
    refine Tame.bind hS (.forEach hS _ fun i hi => ?_) (fun _ => newString_tame _) s'
      (hsteps.inBounds hs) hroom
    rw [List.mem_range] at hi
    exact readChars_tame (by omega)

/-! ## Moving the cursor -/

theorem position_tame (newPos : ℤ) : Tame P (position newPos) := by
  intro s hs _
  by_cases hbad : newPos > s.size ∨ newPos < 0
  · refine .of_error (x := .IllegalArgumentException none) ?_ (Steps.refl s) (by simp)
    rw [position, bind_ok (get_run s), if_pos hbad]
    rfl
  · have hin : ∀ mark : ℤ, Steps s { s with pos := newPos, mark } := fun mark =>
      ⟨rfl, rfl, fun h => ⟨h.size_eq, h.size_le, by simp only; omega, by simp only; omega⟩,
        fun _ => id⟩
    by_cases hm : s.mark > newPos
    · refine .of_ok (a := ()) ?_ (hin (-1))
      rw [position, bind_ok (get_run s), if_neg hbad, if_pos hm]
      rfl
    · refine .of_ok (a := ()) ?_ (hin s.mark)
      rw [position, bind_ok (get_run s), if_neg hbad, if_neg hm]
      rfl

theorem setMark_tame : Tame P setMark :=
  .of_ok fun s _ _ => ⟨(), { s with mark := s.pos }, rfl, rfl, rfl,
    fun h => ⟨h.size_eq, h.size_le, h.pos_nonneg, h.pos_le⟩, fun _ => id⟩

include hP in
theorem skipBytes_tame (n : ℤ) : Tame P (skipBytes n) := by
  rw [skipBytes]
  split
  · exact .pure _
  · exact Tame.get.bind hP fun s => (position_tame _).bind hP fun _ => .pure _

include hP in
theorem skip_tame (n : ℤ) : Tame P (skip n) := by
  unfold skip
  split
  · exact .pure _
  · exact skipBytes_tame hP n

end Tame

/-! ## Bulk reads -/

/-- The range of a bulk read lies in its array, there are bytes to read, and `pos + len` wraps. -/
def Wraps (s : ByteArrayObjectDataInput) (b : Option (List Byte)) (off len : ℤ) : Prop :=
  ∃ l, b = some l ∧ 0 ≤ off ∧ 0 < len ∧ len ≤ jint (l.length - off) ∧ s.pos < s.size ∧
    MAX_VALUE < s.pos + len

/-- A bulk read is tame, unless it wraps. -/
theorem readRange_tameAt (h : InBounds s) {b : Option (List Byte)} {off len : ℤ}
    (hoff : off ≤ MAX_VALUE) (hw : ¬ Wraps s b off len) : TameAt s (readRange b off len) := by
  have h0 := h.pos_nonneg
  have hlen := h.length_rest
  rcases b with _ | l
  · exact .of_error (t := s) rfl (Steps.refl s) (by simp)
  by_cases hbad : off < 0 ∨ len < 0 ∨ len > jint (l.length - off)
  · refine .of_error (t := s) (x := .IndexOutOfBoundsException) ?_ (Steps.refl s) (by simp)
    exact congrFun (if_pos hbad) s
  by_cases hz : len = 0
  · exact .of_ok (t := s) (congrFun ((if_neg hbad).trans (if_pos hz)) s) (Steps.refl s)
  by_cases hend : s.rest = []
  · exact .of_ok (h.readRange_end (by omega) (by omega) (by omega) hend) (Steps.refl s)
  have hroom : off + len ≤ l.length := by
    by_contra hgt
    rcases lt_or_ge (l.length - off : ℤ) 0 with hneg | hpos
    · rw [jint_of_range (by unfold MAX_VALUE at hoff; omega) (by omega)] at hbad
      omega
    · have := jint_le_self hpos
      omega
  have hleft := List.length_pos_iff.2 hend
  have hsum : s.pos + len ≤ MAX_VALUE := by
    by_contra hgt
    exact hw ⟨l, rfl, by omega, by omega, by omega, by omega, by omega⟩
  obtain ⟨n, hn, hrun⟩ := h.readRange_run (by omega) (by omega) hroom (by omega) hend hsum
  exact .of_ok hrun (steps_moved (by omega) (by omega))

/-- A bulk read that wraps indexes the data outside its bounds. -/
theorem readRange_wraps (h : InBounds s) {b : Option (List Byte)} {off len : ℤ}
    (hw : Wraps s b off len) :
    readRange b off len s = .error (.throws .ArrayIndexOutOfBoundsException) s := by
  obtain ⟨l, rfl, hoff, hlen, hroom, hleft, hbig⟩ := hw
  have h0 := h.pos_nonneg
  have hmax := h.size_le
  have hrest := h.length_rest
  have hle := jint_le (l.length - off)
  rw [readRange]
  dsimp only
  have hd := data_eq_of_rest (s := s) (by rw [← List.length_pos_iff]; omega)
  have hwrap : ¬ jint (s.pos + len) > s.size := by
    rw [jint_wrap hbig (by omega)]
    unfold MAX_VALUE at *
    omega
  have hcopy : arraycopy s.bytes s.pos l off len = .error .ArrayIndexOutOfBoundsException := by
    rw [arraycopy, if_neg]
    rintro ⟨-, -, -, hin, -⟩
    rw [← h.size_eq_length] at hin
    omega
  rw [if_neg (by omega), if_neg (by omega), bind_ok (get_run s), if_neg (by omega)]
  simp only [hd, if_neg hwrap, hcopy]
  rfl

theorem readAll_tameAt (h : InBounds s) {b : Option (List Byte)}
    (hw : ¬ Wraps s b 0 (lengthOf b)) : TameAt s (readAll b) := by
  rcases b with _ | l
  · exact .of_error (t := s) rfl (Steps.refl s) (by simp)
  · change TameAt s (readRange (some l) 0 l.length)
    exact readRange_tameAt h (by decide) hw

/-- The end of `readFully`. -/
theorem fully_tameAt {m : In (ℤ × List Byte)} (hm : TameAt s m) :
    TameAt s (do
      let (n, b) ← m
      if n = -1 then raise (.EOFException (some "End of stream reached")) else return b) := by
  refine hm.bind fun r s' _ _ => ?_
  split
  split
  · exact .of_error (t := s') rfl (Steps.refl s') (by simp)
  · exact .of_ok (t := s') rfl (Steps.refl s')

/-! ## Runs -/

/-- A call of an operation of the reader, with the variants that take a `ByteOrder` and those that
read at a position. -/
inductive Op : Type where
  | init (data : Option (List Byte)) (offset : BitVec 32)
  | clear
  | mark
  | reset
  | position (newPos : BitVec 32)
  | skip (n : BitVec 64)
  | skipBytes (n : BitVec 32)
  | read
  | readRange (b : Option (List Byte)) (off len : BitVec 32)
  | readAll (b : Option (List Byte))
  | readFullyRange (b : Option (List Byte)) (off len : BitVec 32)
  | readFully (b : Option (List Byte))
  | readBoolean
  | readByte
  | readUnsignedByte
  | readChar
  | readShort (byteOrder : Option ByteOrder)
  | readUnsignedShort
  | readInt (byteOrder : Option ByteOrder)
  | readLong (byteOrder : Option ByteOrder)
  | readFloat (byteOrder : Option ByteOrder)
  | readDouble (byteOrder : Option ByteOrder)
  | readBooleanArray
  | readByteArray
  | readCharArray
  | readShortArray
  | readIntArray
  | readLongArray
  | readFloatArray
  | readDoubleArray
  | readUTF
  | readUTFArray
  | readAt (position : BitVec 32)
  | readBooleanAt (position : BitVec 32)
  | readByteAt (position : BitVec 32)
  | readCharAt (position : BitVec 32)
  | readShortAt (position : BitVec 32) (byteOrder : Option ByteOrder)
  | readIntAt (position : BitVec 32) (byteOrder : Option ByteOrder)
  | readLongAt (position : BitVec 32) (byteOrder : Option ByteOrder)
  | readFloatAt (position : BitVec 32) (byteOrder : Option ByteOrder)
  | readDoubleAt (position : BitVec 32) (byteOrder : Option ByteOrder)

/-- What a call returns; a bulk read also returns the contents of the array of its caller. -/
def Op.Reply : Op → Type
  | .init _ _ | .clear | .mark | .reset | .position _ => Unit
  | .skip _ | .skipBytes _ | .read | .readAt _ => ℤ
  | .readRange _ _ _ | .readAll _ => ℤ × List Byte
  | .readFullyRange _ _ _ | .readFully _ => List Byte
  | .readBoolean | .readBooleanAt _ => Bool
  | .readByte | .readByteAt _ => Byte
  | .readChar | .readCharAt _ => CodeUnit
  | .readShort _ | .readShortAt _ _ => BitVec 16
  | .readUnsignedByte | .readUnsignedShort => BitVec 32
  | .readInt _ | .readIntAt _ _ | .readFloat _ | .readFloatAt _ _ => BitVec 32
  | .readLong _ | .readLongAt _ _ | .readDouble _ | .readDoubleAt _ _ => BitVec 64
  | .readBooleanArray => Option (List Bool)
  | .readByteArray => Option (List Byte)
  | .readCharArray => Option (List CodeUnit)
  | .readShortArray => Option (List (BitVec 16))
  | .readIntArray | .readFloatArray => Option (List (BitVec 32))
  | .readLongArray | .readDoubleArray => Option (List (BitVec 64))
  | .readUTF => Option (List CodeUnit)
  | .readUTFArray => Option (List (Option (List CodeUnit)))

/-- A method, its value dropped. -/
def void (m : In α) : In Unit := do
  let _ ← m
  return

section Run

variable (bits : Bits) (UTF_BUFFER_SIZE : ℤ)

/-- The method called, with its value. -/
def Op.call : (op : Op) → In op.Reply
  | .init data offset => ByteArrayObjectDataInput.init data offset.toInt
  | .clear => ByteArrayObjectDataInput.clear UTF_BUFFER_SIZE
  | .mark => setMark
  | .reset => ByteArrayObjectDataInput.reset
  | .position newPos => ByteArrayObjectDataInput.position newPos.toInt
  | .skip n => ByteArrayObjectDataInput.skip n.toInt
  | .skipBytes n => ByteArrayObjectDataInput.skipBytes n.toInt
  | .read => ByteArrayObjectDataInput.read
  | .readRange b off len => ByteArrayObjectDataInput.readRange b off.toInt len.toInt
  | .readAll b => ByteArrayObjectDataInput.readAll b
  | .readFullyRange b off len => ByteArrayObjectDataInput.readFullyRange b off.toInt len.toInt
  | .readFully b => ByteArrayObjectDataInput.readFully b
  | .readBoolean => ByteArrayObjectDataInput.readBoolean
  | .readByte => ByteArrayObjectDataInput.readByte
  | .readUnsignedByte => ByteArrayObjectDataInput.readUnsignedByte
  | .readChar => ByteArrayObjectDataInput.readChar bits
  | .readShort none => ByteArrayObjectDataInput.readShort bits
  | .readShort (some o) => readShortOrder bits o
  | .readUnsignedShort => ByteArrayObjectDataInput.readUnsignedShort bits
  | .readInt none => ByteArrayObjectDataInput.readInt bits
  | .readInt (some o) => readIntOrder bits o
  | .readLong none => ByteArrayObjectDataInput.readLong bits
  | .readLong (some o) => readLongOrder bits o
  | .readFloat none => ByteArrayObjectDataInput.readFloat bits
  | .readFloat (some o) => readFloatOrder bits o
  | .readDouble none => ByteArrayObjectDataInput.readDouble bits
  | .readDouble (some o) => readDoubleOrder bits o
  | .readBooleanArray => ByteArrayObjectDataInput.readBooleanArray bits
  | .readByteArray => ByteArrayObjectDataInput.readByteArray bits
  | .readCharArray => ByteArrayObjectDataInput.readCharArray bits
  | .readShortArray => ByteArrayObjectDataInput.readShortArray bits
  | .readIntArray => ByteArrayObjectDataInput.readIntArray bits
  | .readLongArray => ByteArrayObjectDataInput.readLongArray bits
  | .readFloatArray => ByteArrayObjectDataInput.readFloatArray bits
  | .readDoubleArray => ByteArrayObjectDataInput.readDoubleArray bits
  | .readUTF => ByteArrayObjectDataInput.readUTF bits
  | .readUTFArray => ByteArrayObjectDataInput.readUTFArray bits
  | .readAt i => ByteArrayObjectDataInput.readAt i.toInt
  | .readBooleanAt i => ByteArrayObjectDataInput.readBooleanAt i.toInt
  | .readByteAt i => ByteArrayObjectDataInput.readByteAt i.toInt
  | .readCharAt i => ByteArrayObjectDataInput.readCharAt bits i.toInt
  | .readShortAt i none => ByteArrayObjectDataInput.readShortAt bits i.toInt
  | .readShortAt i (some o) => readShortOrderAt bits i.toInt o
  | .readIntAt i none => ByteArrayObjectDataInput.readIntAt bits i.toInt
  | .readIntAt i (some o) => readIntOrderAt bits i.toInt o
  | .readLongAt i none => ByteArrayObjectDataInput.readLongAt bits i.toInt
  | .readLongAt i (some o) => readLongOrderAt bits i.toInt o
  | .readFloatAt i none => ByteArrayObjectDataInput.readFloatAt bits i.toInt
  | .readFloatAt i (some o) => readFloatOrderAt bits i.toInt o
  | .readDoubleAt i none => ByteArrayObjectDataInput.readDoubleAt bits i.toInt
  | .readDoubleAt i (some o) => readDoubleOrderAt bits i.toInt o

/-- The same without its value. -/
def Op.run (op : Op) : In Unit := void (op.call bits UTF_BUFFER_SIZE)

/-- `init` is called with an offset inside its array, which is a Java array. -/
def Op.Permitted : Op → Prop
  | .init data offset =>
    0 ≤ offset.toInt ∧ offset.toInt ≤ lengthOf data ∧ lengthOf data ≤ MAX_VALUE
  | _ => True

/-- The call does not read at a position of its own. -/
def Op.Relative : Op → Prop
  | .readAt _ | .readBooleanAt _ | .readByteAt _ | .readCharAt _ | .readShortAt _ _
  | .readIntAt _ _ | .readLongAt _ _ | .readFloatAt _ _ | .readDoubleAt _ _ => False
  | _ => True

/-- `reset` finds the mark inside the data, and a bulk read does not wrap. -/
def Op.Careful (s : ByteArrayObjectDataInput) : Op → Prop
  | .reset => 0 ≤ s.mark ∧ s.mark ≤ s.size
  | .readRange b off len | .readFullyRange b off len => ¬ Wraps s b off.toInt len.toInt
  | .readAll b | .readFully b => ¬ Wraps s b 0 (lengthOf b)
  | .readByteArray => ∀ v, bits.int.layout s.bigEndian v = s.rest.take 4 → 0 < v.toInt →
    s.pos + 4 < s.size → s.pos + 4 + v.toInt ≤ MAX_VALUE
  | _ => True

/-- The cursor is inside the data and `available()` is not negative. -/
def Inside (s : ByteArrayObjectDataInput) : Prop :=
  s.size = lengthOf s.data ∧ 0 ≤ s.pos ∧ s.pos ≤ s.size ∧ 0 ≤ s.available

/-- In all states of the run, in which the caller catches what is thrown, the cursor is inside the
data, and no relative operation indexes an array outside its bounds. -/
def Holds : List Op → ByteArrayObjectDataInput → Prop
  | [], s => Inside s
  | op :: ops, s =>
    Inside s ∧
      (op.Relative → ¬ Throws (op.run bits UTF_BUFFER_SIZE) s .ArrayIndexOutOfBoundsException) ∧
        Holds ops (after (op.run bits UTF_BUFFER_SIZE) s)

/-- All operations of the run are careful. -/
def Careful : List Op → ByteArrayObjectDataInput → Prop
  | [], _ => True
  | op :: ops, s => op.Careful bits s ∧ Careful ops (after (op.run bits UTF_BUFFER_SIZE) s)

end Run

/-! ## Single operations -/

theorem InBounds.inside (h : InBounds s) : Inside s := by
  refine ⟨h.size_eq, h.pos_nonneg, h.pos_le, ?_⟩
  rw [h.available_eq]
  omega

theorem TameAt.void {m : In α} (h : TameAt s m) : TameAt s (void m) :=
  h.bind fun _ s' _ _ => .of_ok (t := s') rfl (Steps.refl s')

theorem after_void (m : In α) (s : ByteArrayObjectDataInput) : after (void m) s = after m s := by
  rw [void, after_bind]
  rcases hm : m s with ⟨a, s'⟩ | ⟨e, s'⟩
  · rw [after_ok hm]
    rfl
  · rw [after_error hm]

theorem throws_void {m : In α} {x : Throwable} : Throws (void m) s x ↔ Throws m s x := by
  constructor
  · rintro ⟨s', h⟩
    rcases hm : m s with ⟨a, t⟩ | ⟨e, t⟩
    · rw [void, bind_ok hm] at h
      cases h
    · rw [void, bind_error hm] at h
      cases h
      exact ⟨s', hm⟩
  · rintro ⟨s', h⟩
    exact ⟨s', bind_error h⟩

/-- The method leaves the reader as it is. -/
def Still (m : In α) : Prop := ∀ s, after m s = s

theorem still_iff_moves {m : In α} : Still m ↔ Moves (fun s t => t = s) m := Iff.rfl

theorem Still.pure (a : α) : Still (Pure.pure a : In α) :=
  still_iff_moves.2 (Moves.pure (fun _ => rfl) a)

theorem Still.get : Still (MonadState.get : In ByteArrayObjectDataInput) := fun _ => rfl

theorem Still.raise (x : Throwable) : Still (Java.raise x : In α) :=
  still_iff_moves.2 (Moves.raise (α := α) (R := fun s t => t = s) (fun _ => rfl) x)

theorem Still.bind {m : In α} {f : α → In β} (hm : Still m) (hf : ∀ a, Still (f a)) :
    Still (m >>= f) :=
  still_iff_moves.2 (Moves.bind (fun _ _ _ hst htu => htu.trans hst) hm hf)

theorem Still.eval (x : Except Throwable α) : Still (Java.eval x : In α) := by
  cases x with
  | ok a => exact .pure a
  | error e => exact .raise e

theorem dataAt_still (i : ℤ) : Still (dataAt i) := by
  refine Still.get.bind fun s => ?_
  split
  · exact .raise _
  · exact .eval _

theorem readAt_still (position : ℤ) : Still (readAt position) := by
  refine Still.get.bind fun s => ?_
  split
  · exact (dataAt_still position).bind fun b => .pure _
  · exact .pure _

theorem readByteAt_still (position : ℤ) : Still (readByteAt position) := by
  refine (readAt_still position).bind fun ch => ?_
  rw [orEOF]
  split
  · exact .raise _
  · exact .pure _

theorem readBooleanAt_still (position : ℤ) : Still (readBooleanAt position) := by
  refine (readAt_still position).bind fun ch => ?_
  split
  · exact .raise _
  · exact .pure _

theorem readFixedAt_still {w size : ℕ} (f : FixedWidth w size) (n position : ℤ) (e : Bool) :
    Still (readFixedAt f n position e) := by
  refine Still.bind ?_ fun _ => Still.get.bind fun s => ?_
  · rw [checkAvailable]
    split
    · exact .raise _
    · refine Still.get.bind fun s => ?_
      split
      · exact .raise _
      · exact .pure _
  · split
    · exact .raise _
    · exact .eval _

theorem orderAt_still {m : Bool → In α} (hm : ∀ e, Still (m e)) :
    Still (do m (← MonadState.get).bigEndian) := Still.get.bind fun s => hm s.bigEndian

variable {UTF_BUFFER_SIZE : ℤ}

/-- An operation is careful and goes well, or it is not and does not. -/
def Settled (bits : Bits) (UTF_BUFFER_SIZE : ℤ) (s : ByteArrayObjectDataInput) (op : Op) : Prop :=
  (op.Careful bits s ∧ InBounds (after (op.run bits UTF_BUFFER_SIZE) s) ∧
    (op.Relative → ¬ Throws (op.run bits UTF_BUFFER_SIZE) s .ArrayIndexOutOfBoundsException)) ∨
  (¬ op.Careful bits s ∧ (¬ Inside (after (op.run bits UTF_BUFFER_SIZE) s) ∨
    op.Relative ∧ Throws (op.run bits UTF_BUFFER_SIZE) s .ArrayIndexOutOfBoundsException))

theorem Settled.of_tameAt {op : Op} (h : InBounds s) (hc : op.Careful bits s)
    (ht : TameAt s (op.run bits UTF_BUFFER_SIZE)) : Settled bits UTF_BUFFER_SIZE s op :=
  .inl ⟨hc, ht.1.inBounds h, fun _ => ht.2⟩

theorem Settled.of_tame {op : Op} (h : InBounds s) (hc : op.Careful bits s) {m : In α}
    (hm : Tame (fun _ => True) m) (hrun : op.run bits UTF_BUFFER_SIZE = void m) :
    Settled bits UTF_BUFFER_SIZE s op :=
  .of_tameAt h hc (by rw [hrun]; exact (hm s h trivial).void)

theorem Settled.of_still {op : Op} (h : InBounds s) (hc : op.Careful bits s) (hr : ¬ op.Relative)
    {m : In α} (hm : Still m) (hrun : op.run bits UTF_BUFFER_SIZE = void m) :
    Settled bits UTF_BUFFER_SIZE s op := by
  refine .inl ⟨hc, ?_, fun hrel => absurd hrel hr⟩
  have hs : after (void m) s = s := (hm.bind fun _ => .pure ()) s
  rw [hrun, hs]
  exact h

/-- A bulk read is careful if it does not wrap. -/
theorem Settled.of_bulk {op : Op} (h : InBounds s) {m : In α} {b : Option (List Byte)}
    {off len : ℤ} (hc : op.Careful bits s ↔ ¬ Wraps s b off len) (hr : op.Relative)
    (hrun : op.run bits UTF_BUFFER_SIZE = void m) (hm : ¬ Wraps s b off len → TameAt s m)
    (hbad : Wraps s b off len → Throws m s .ArrayIndexOutOfBoundsException) :
    Settled bits UTF_BUFFER_SIZE s op := by
  by_cases hw : Wraps s b off len
  · obtain ⟨s', hs'⟩ := hbad hw
    refine .inr ⟨fun hcare => (hc.1 hcare) hw, .inr ⟨hr, ?_⟩⟩
    rw [hrun]
    exact throws_void.2 ⟨s', hs'⟩
  · exact .of_tameAt h (hc.2 hw) (by rw [hrun]; exact (hm hw).void)

/-- `clear` without a buffer for characters. -/
theorem clear_none (n : ℤ) (hb : s.charBuffer = none) :
    clear n s = .ok () ⟨none, 0, 0, 0, none, s.bigEndian⟩ := by
  obtain ⟨data, size, pos, mark, charBuffer, bigEndian⟩ := s
  cases hb
  rfl

/-- `clear` with one, for the capacity it asks for. -/
theorem clear_some (n : ℤ) {buffer : List CodeUnit} (hb : s.charBuffer = some buffer) :
    clear n s =
      if buffer.length > jint (n * 8) then
        if 0 ≤ jint (n * 8) then
          .ok () ⟨none, 0, 0, 0, some (List.replicate (jint (n * 8)).toNat 0), s.bigEndian⟩
        else .error (.throws .NegativeArraySizeException) ⟨none, 0, 0, 0, some buffer, s.bigEndian⟩
      else .ok () ⟨none, 0, 0, 0, some buffer, s.bigEndian⟩ := by
  obtain ⟨data, size, pos, mark, charBuffer, bigEndian⟩ := s
  cases hb
  change (if buffer.length > jint (n * 8) then _ else _ : In Unit) _ = _
  split
  case isTrue hbig =>
    by_cases h0 : 0 ≤ jint (n * 8)
    · rw [bind_ok (newArray_ok h0 _), if_pos h0]
      rfl
    · rw [newArray, if_neg h0, if_neg h0]
      rfl
  case isFalse hbig => rfl

/-- `clear` leaves an empty reader, with a buffer for characters if it had one, and throws only if
the capacity that it asks for is negative. -/
theorem clear_cases (n : ℤ) (s : ByteArrayObjectDataInput) :
    ∃ charBuffer, (charBuffer = none ↔ s.charBuffer = none) ∧
      (clear n s = .ok () ⟨none, 0, 0, 0, charBuffer, s.bigEndian⟩ ∨
        jint (n * 8) < 0 ∧ clear n s = .error (.throws .NegativeArraySizeException)
          ⟨none, 0, 0, 0, charBuffer, s.bigEndian⟩) := by
  rcases hb : s.charBuffer with _ | buffer
  · exact ⟨none, Iff.rfl, .inl (clear_none n hb)⟩
  · have hrun := clear_some n hb
    split at hrun
    case isFalse => exact ⟨_, by simp, .inl hrun⟩
    case isTrue =>
      split at hrun
      case isTrue => exact ⟨_, by simp, .inl hrun⟩
      case isFalse hneg => exact ⟨_, by simp, .inr ⟨by omega, hrun⟩⟩

theorem clear_run (n : ℤ) (s : ByteArrayObjectDataInput) : InBounds (after (clear n) s) ∧
    ¬ Throws (clear n) s .ArrayIndexOutOfBoundsException := by
  obtain ⟨charBuffer, -, hrun | ⟨-, hrun⟩⟩ := clear_cases n s
  · rw [after_ok hrun]
    exact ⟨⟨rfl, by simp [MAX_VALUE], le_refl 0, le_refl 0⟩, not_throws_ok hrun _⟩
  · rw [after_error hrun]
    exact ⟨⟨rfl, by simp [MAX_VALUE], le_refl 0, le_refl 0⟩, not_throws_of_ne hrun (by simp)⟩

theorem readAll_wraps (h : InBounds s) {b : Option (List Byte)} (hw : Wraps s b 0 (lengthOf b)) :
    readAll b s = .error (.throws .ArrayIndexOutOfBoundsException) s := by
  rcases b with _ | l
  · obtain ⟨l, hl, -⟩ := hw
    cases hl
  · change readRange (some l) 0 l.length s = _
    exact readRange_wraps h hw

theorem readInt_eq (bits : Bits) (s : ByteArrayObjectDataInput) :
    readInt bits s = readFixed bits.int INT_SIZE_IN_BYTES s.bigEndian s := rfl

theorem readByteArray_tameAt (h : InBounds s)
    (hc : ∀ v, bits.int.layout s.bigEndian v = s.rest.take 4 → 0 < v.toInt → s.pos + 4 < s.size →
      s.pos + 4 + v.toInt ≤ MAX_VALUE) : TameAt s (readByteArray bits) := by
  have hP := stable_true
  by_cases hroom : 4 ≤ s.rest.length
  swap
  · obtain ⟨message, hrun⟩ := h.readFixed_eof bits.int (n := INT_SIZE_IN_BYTES) rfl (by omega)
      s.bigEndian
    exact TameAt.of_error (bind_error ((readInt_eq bits s).trans hrun)) (Steps.refl s) (by simp)
  obtain ⟨v, hv, hrun⟩ := h.readFixed_ok bits.int (n := INT_SIZE_IN_BYTES) rfl (by decide) hroom
    s.bigEndian
  have hin : (4 : ℤ) ≤ s.rest.length := by omega
  refine (TameAt.of_ok ((readInt_eq bits s).trans hrun) (steps_moved (by decide) hin)).bind
    fun v' s' hsteps hv' => ?_
  rw [readInt_eq, hrun] at hv'
  cases hv'
  dsimp only
  split
  case isTrue => exact .of_ok (t := s.moved 4) rfl (Steps.refl _)
  case isFalse =>
  split
  case isFalse => exact .of_ok (t := s.moved 4) rfl (Steps.refl _)
  case isTrue hpos =>
  refine (fully_tameAt (readAll_tameAt (hsteps.inBounds h) ?_)).bind
    fun b s' _ _ => .of_ok (t := s') rfl (Steps.refl s')
  rintro ⟨l, hl, -, hlen, -, hleft, hbig⟩
  have hlength : lengthOf (some (List.replicate v.toInt.toNat (0 : Byte))) = v.toInt := by
    change ((List.replicate v.toInt.toNat (0 : Byte)).length : ℤ) = _
    rw [List.length_replicate]
    omega
  rw [hlength] at hbig
  have := hc v hv hpos hleft
  simp only [moved_pos, INT_SIZE_IN_BYTES] at hbig
  omega

theorem readByteArray_wraps (h : InBounds s) {v : BitVec 32}
    (hv : bits.int.layout s.bigEndian v = s.rest.take 4) (hpos : 0 < v.toInt)
    (hleft : s.pos + 4 < s.size) (hbig : MAX_VALUE < s.pos + 4 + v.toInt) :
    Throws (readByteArray bits) s .ArrayIndexOutOfBoundsException := by
  have hlen := h.length_rest
  obtain ⟨v', hv', hrun⟩ := h.readFixed_ok bits.int (n := INT_SIZE_IN_BYTES) rfl (by decide)
    (by omega) s.bigEndian
  cases bits.int.layout_injective _ (hv.trans hv'.symm)
  have hin : InBounds (s.moved 4) := h.moved (by decide) (by omega)
  have hlt := BitVec.toInt_lt (x := v)
  have hlength : ((List.replicate v.toInt.toNat (0 : Byte)).length : ℤ) = v.toInt := by
    rw [List.length_replicate]
    omega
  have hw : Wraps (s.moved 4) (some (List.replicate v.toInt.toNat 0)) 0
      (lengthOf (some (List.replicate v.toInt.toNat 0))) := by
    refine ⟨_, rfl, le_refl 0, ?_, ?_, hleft, ?_⟩
    · change (0 : ℤ) < (List.replicate v.toInt.toNat (0 : Byte)).length
      omega
    · change ((List.replicate v.toInt.toNat (0 : Byte)).length : ℤ) ≤ _
      rw [hlength, Int.sub_zero, jint_of_range (by omega) (by rw [MAX_VALUE]; omega)]
    · change MAX_VALUE < s.pos + 4 + (List.replicate v.toInt.toNat (0 : Byte)).length
      omega
  have hne : v.toInt ≠ NULL_ARRAY_LENGTH := by
    rw [NULL_ARRAY_LENGTH]
    omega
  refine ⟨s.moved 4, ?_⟩
  rw [readByteArray, bind_ok ((readInt_eq bits s).trans hrun), if_neg hne, if_pos hpos]
  exact bind_error (bind_error (readAll_wraps hin hw))

/-- **Every permitted operation is settled.** -/
theorem Op.settled (bits : Bits) (UTF_BUFFER_SIZE : ℤ) (op : Op) (h : InBounds s)
    (hp : op.Permitted) : Settled bits UTF_BUFFER_SIZE s op := by
  have hP := stable_true
  have htoInt : ∀ x : BitVec 32, x.toInt ≤ MAX_VALUE := by
    intro x
    have := BitVec.toInt_lt (x := x)
    rw [MAX_VALUE]
    omega
  have hfixed : ∀ {w size : ℕ} (f : FixedWidth w size) {n : ℤ}, n = size → 0 < size → ∀ e,
      Tame (fun _ => True) (readFixed f n e) := fun f _ hn hsize e => readFixed_tame f hn hsize e
  cases op with
  | init data offset =>
    refine .inl ⟨trivial, ⟨rfl, hp.2.2, hp.1, hp.2.1⟩, fun _ => not_throws_ok rfl _⟩
  | clear =>
    obtain ⟨hin, hok⟩ := clear_run UTF_BUFFER_SIZE s
    rw [← after_void] at hin
    exact .inl ⟨trivial, hin, fun _ hthrows => hok (throws_void.1 hthrows)⟩
  | mark => exact .of_tame h trivial setMark_tame rfl
  | reset =>
    by_cases hc : 0 ≤ s.mark ∧ s.mark ≤ s.size
    · exact .inl ⟨hc, ⟨h.size_eq, h.size_le, hc.1, hc.2⟩, fun _ => not_throws_ok rfl _⟩
    · exact .inr ⟨hc, .inl fun hin => hc ⟨hin.2.1, hin.2.2.1⟩⟩
  | position newPos => exact .of_tame h trivial (position_tame _) rfl
  | skip n => exact .of_tame h trivial (skip_tame hP _) rfl
  | skipBytes n => exact .of_tame h trivial (skipBytes_tame hP _) rfl
  | read => exact .of_tame h trivial read_tame rfl
  | readRange b off len =>
    exact .of_bulk h Iff.rfl trivial rfl (readRange_tameAt h (htoInt off))
      fun hw => ⟨s, readRange_wraps h hw⟩
  | readAll b =>
    exact .of_bulk h Iff.rfl trivial rfl (readAll_tameAt h) fun hw => ⟨s, readAll_wraps h hw⟩
  | readFullyRange b off len =>
    exact .of_bulk h Iff.rfl trivial rfl
      (fun hw => fully_tameAt (readRange_tameAt h (htoInt off) hw))
      fun hw => ⟨s, bind_error (readRange_wraps h hw)⟩
  | readFully b =>
    exact .of_bulk h Iff.rfl trivial rfl (fun hw => fully_tameAt (readAll_tameAt h hw))
      fun hw => ⟨s, bind_error (readAll_wraps h hw)⟩
  | readBoolean => exact .of_tame h trivial (readBoolean_tame hP) rfl
  | readByte => exact .of_tame h trivial (readByte_tame hP) rfl
  | readUnsignedByte =>
    exact .of_tame h trivial ((readByte_tame hP).bind hP fun _ => .pure _) rfl
  | readChar => exact .of_tame h trivial (order_tame hP (hfixed bits.char rfl (by decide))) rfl
  | readShort o =>
    cases o with
    | none => exact .of_tame h trivial (order_tame hP (hfixed bits.short rfl (by decide))) rfl
    | some o => exact .of_tame h trivial (hfixed bits.short rfl (by decide) _) rfl
  | readUnsignedShort =>
    exact .of_tame h trivial
      ((order_tame hP (hfixed bits.short rfl (by decide))).bind hP fun _ => .pure _) rfl
  | readInt o | readFloat o =>
    cases o with
    | none => exact .of_tame h trivial (order_tame hP (hfixed bits.int rfl (by decide))) rfl
    | some o => exact .of_tame h trivial (hfixed bits.int rfl (by decide) _) rfl
  | readLong o | readDouble o =>
    cases o with
    | none => exact .of_tame h trivial (order_tame hP (hfixed bits.long rfl (by decide))) rfl
    | some o => exact .of_tame h trivial (hfixed bits.long rfl (by decide) _) rfl
  | readBooleanArray => exact .of_tame h trivial (readArray_tame hP (readBoolean_tame hP)) rfl
  | readByteArray =>
    by_cases hc : Op.Careful bits s .readByteArray
    · exact .of_tameAt h hc (readByteArray_tameAt h hc).void
    · refine .inr ⟨hc, .inr ⟨trivial, ?_⟩⟩
      rw [Op.Careful] at hc
      push Not at hc
      obtain ⟨v, hv, hpos, hleft, hbig⟩ := hc
      exact throws_void.2 (readByteArray_wraps h hv hpos hleft hbig)
  | readCharArray =>
    exact .of_tame h trivial
      (readArray_tame hP (order_tame hP (hfixed bits.char rfl (by decide)))) rfl
  | readShortArray =>
    exact .of_tame h trivial
      (readArray_tame hP (order_tame hP (hfixed bits.short rfl (by decide)))) rfl
  | readIntArray | readFloatArray =>
    exact .of_tame h trivial
      (readArray_tame hP (order_tame hP (hfixed bits.int rfl (by decide)))) rfl
  | readLongArray | readDoubleArray =>
    exact .of_tame h trivial
      (readArray_tame hP (order_tame hP (hfixed bits.long rfl (by decide)))) rfl
  | readUTF => exact .of_tame h trivial (readUTF_tame hP) rfl
  | readUTFArray => exact .of_tame h trivial (readArray_tame hP (readUTF_tame hP)) rfl
  | readAt i => exact .of_still h trivial id (readAt_still _) rfl
  | readBooleanAt i => exact .of_still h trivial id (readBooleanAt_still _) rfl
  | readByteAt i => exact .of_still h trivial id (readByteAt_still _) rfl
  | readCharAt i =>
    exact .of_still h trivial id (orderAt_still fun e => readFixedAt_still bits.char _ _ e) rfl
  | readShortAt i o =>
    cases o with
    | none =>
      exact .of_still h trivial id (orderAt_still fun e => readFixedAt_still bits.short _ _ e) rfl
    | some o => exact .of_still h trivial id (readFixedAt_still bits.short _ _ _) rfl
  | readIntAt i o | readFloatAt i o =>
    cases o with
    | none =>
      exact .of_still h trivial id (orderAt_still fun e => readFixedAt_still bits.int _ _ e) rfl
    | some o => exact .of_still h trivial id (readFixedAt_still bits.int _ _ _) rfl
  | readLongAt i o | readDoubleAt i o =>
    cases o with
    | none =>
      exact .of_still h trivial id (orderAt_still fun e => readFixedAt_still bits.long _ _ e) rfl
    | some o => exact .of_still h trivial id (readFixedAt_still bits.long _ _ _) rfl

/-! ## Runs are settled -/

theorem Holds.inside {ops : List Op} (h : Holds bits UTF_BUFFER_SIZE ops s) : Inside s := by
  cases ops with
  | nil => exact h
  | cons op ops => exact h.1

/-- A run, from any reader in its bounds. -/
theorem holds_iff_careful (ops : List Op) (hp : ∀ op ∈ ops, op.Permitted) :
    ∀ {s : ByteArrayObjectDataInput}, InBounds s →
      (Holds bits UTF_BUFFER_SIZE ops s ↔ Careful bits UTF_BUFFER_SIZE ops s) := by
  induction ops with
  | nil => exact fun h => iff_of_true h.inside trivial
  | cons op ops ih =>
    intro s h
    have hops : ∀ op ∈ ops, op.Permitted := fun op hop => hp op (List.mem_cons_of_mem _ hop)
    rcases op.settled bits UTF_BUFFER_SIZE h (hp op List.mem_cons_self) with
      ⟨hc, hin, hok⟩ | ⟨hc, hbad⟩
    · rw [Holds, Careful, ih hops hin]
      exact ⟨fun hr => ⟨hc, hr.2.2⟩, fun hr => ⟨h.inside, hok, hr.2⟩⟩
    · refine iff_of_false (fun hr => ?_) fun hr => hc hr.1
      rcases hbad with hout | ⟨hrel, hthrows⟩
      · exact hout hr.2.2.inside
      · exact hr.2.1 hrel hthrows

/-- **When the cursor stays inside the data**: from a reader over any array, in a run of permitted
operations, some of which may throw, the cursor is inside the data in every state and no relative
operation indexes an array outside its bounds if and only if every `reset` finds the mark inside
the data and no bulk read wraps. -/
theorem holds_iff (bits : Bits) (UTF_BUFFER_SIZE : ℤ) {data : Option (List Byte)} {offset : ℤ}
    (hdata : lengthOf data ≤ MAX_VALUE) (h0 : 0 ≤ offset) (h1 : offset ≤ lengthOf data)
    (order : ByteOrder) (ops : List Op) (hp : ∀ op ∈ ops, op.Permitted) :
    Holds bits UTF_BUFFER_SIZE ops (new data offset order) ↔
      Careful bits UTF_BUFFER_SIZE ops (new data offset order) :=
  holds_iff_careful ops hp ⟨rfl, hdata, h0, h1⟩

/-- Back to a mark that has stayed valid. -/
theorem holds_marked :
    Holds Bits.standard 1024 [.mark, .readShort none, .reset, .readInt none, .read]
      (new (some [1, 2, 3, 4]) 0 .BIG_ENDIAN) :=
  (holds_iff Bits.standard 1024 (by decide) (le_refl 0) (by decide) .BIG_ENDIAN
    [.mark, .readShort none, .reset, .readInt none, .read] (by simp [Op.Permitted])).2
    ⟨trivial, trivial, ⟨by decide, by decide⟩, trivial, trivial, trivial⟩

/-- Moving before the mark sets it to `-1`, and `reset` goes there. -/
theorem not_holds_reset :
    ¬ Holds Bits.standard 1024 [.readShort none, .mark, .position 1, .reset]
      (new (some [1, 2, 3, 4]) 0 .BIG_ENDIAN) := by
  intro h
  have hpos := h.2.2.2.2.2.2.2.2.2.1
  revert hpos
  decide

end ByteArrayObjectDataInput

end HzResearch
