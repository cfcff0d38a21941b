import HzResearch.Sessions

/-!
# Readers that are used again

`replies` is all that the caller of a reader gets to see: what each of its calls returns or throws.

`replies_reused` says that a reader that is cleared and given an array replies from then on as a
new reader of that array does, whatever it has read before. `replies_reset` says the same of a
reader that has gone back to its mark: reading ahead leaves no trace, and neither do the exceptions
that the reads have thrown. The buffer for characters, which a new reader does not have, shows in
one thing only, the exception for a string of negative length (`Exchange.Matches`).
-/

namespace HzResearch

open Java

namespace ByteArrayObjectDataInput

variable {α β : Type} {s t u : ByteArrayObjectDataInput} {bits : Bits} {UTF_BUFFER_SIZE : ℤ}

/-! ## Calls with their replies -/

/-- A call and how it ends. -/
abbrev Exchange : Type := Σ op : Op, Except Stop op.Reply

/-- The call reads strings. -/
def Op.ReadsStrings : Op → Prop
  | .readUTF | .readUTFArray => True
  | _ => False

/-- Two readers end a call alike, but for a string of negative length, which the one on the left
refuses by the exception of a reader with a buffer. -/
inductive Exchange.Matches : Exchange → Exchange → Prop where
  | same (x : Exchange) : Matches x x
  | refused {op : Op} (h : op.ReadsStrings) :
      Matches ⟨op, .error (.throws .StringIndexOutOfBoundsException)⟩
        ⟨op, .error (.throws .NegativeArraySizeException)⟩

section Calls

variable (bits : Bits) (UTF_BUFFER_SIZE : ℤ)

/-- What the caller of a run sees, who catches what is thrown and goes on. -/
def replies : List Op → ByteArrayObjectDataInput → List Exchange
  | [], _ => []
  | op :: ops, s =>
    ⟨op, outcome (op.call bits UTF_BUFFER_SIZE) s⟩ ::
      replies ops (after (op.call bits UTF_BUFFER_SIZE) s)

/-- The reader after such a run. -/
def afterAll : List Op → ByteArrayObjectDataInput → ByteArrayObjectDataInput
  | [], s => s
  | op :: ops, s => afterAll ops (after (op.call bits UTF_BUFFER_SIZE) s)

end Calls

/-- What matches both ways is the same. -/
theorem Exchange.Matches.antisymm {x y : Exchange} (h : Matches x y) (h' : Matches y x) :
    x = y := by
  cases h with
  | same => rfl
  | refused hop => cases h'

theorem eq_of_matches {xs ys : List Exchange} (h : List.Forall₂ Exchange.Matches xs ys)
    (h' : List.Forall₂ Exchange.Matches ys xs) : xs = ys := by
  induction h with
  | nil => rfl
  | cons hx _ ih =>
    cases h' with
    | cons hx' hxs' => rw [hx.antisymm hx', ih hxs']

/-! ## Twins reply alike -/

theorem after_clear (n : ℤ) (s : ByteArrayObjectDataInput) : ∃ charBuffer,
    (charBuffer = none ↔ s.charBuffer = none) ∧
      after (clear n) s = ⟨none, 0, 0, 0, charBuffer, s.bigEndian⟩ := by
  obtain ⟨charBuffer, hbuffer, hrun | ⟨-, hrun⟩⟩ := clear_cases n s
  · exact ⟨charBuffer, hbuffer, after_ok hrun⟩
  · exact ⟨charBuffer, hbuffer, after_error hrun⟩

theorem clear_twin {n : ℤ} (hn : 0 ≤ jint (n * 8)) : Lockstep (Twin Buffered) (clear n) := by
  have hclear : ∀ s : ByteArrayObjectDataInput, outcome (clear n) s = .ok () := by
    intro s
    obtain ⟨c, -, hrun | ⟨hneg, -⟩⟩ := clear_cases n s
    · exact outcome_ok hrun
    · omega
  intro s t h
  obtain ⟨c, hc, hs⟩ := after_clear n s
  obtain ⟨c', hc', ht⟩ := after_clear n t
  rw [hclear, hclear, hs, ht]
  exact ⟨rfl, rfl, rfl, rfl, rfl, h.bigEndian_eq, fun hnone => hc'.2 (h.buffers (hc.1 hnone))⟩

/-- **Every call on twins ends alike**, unless it reads strings. -/
theorem Op.call_twin (bits : Bits) (hn : 0 ≤ jint (UTF_BUFFER_SIZE * 8)) {op : Op}
    (hop : ¬ op.ReadsStrings) :
    Lockstep (Twin Buffered) (op.call bits UTF_BUFFER_SIZE) := by
  cases op with
  | init data offset => exact init_twin _ _
  | clear => exact clear_twin hn
  | mark => exact setMark_twin
  | reset => exact reset_twin
  | position newPos => exact position_twin _
  | skip n => exact skip_twin _
  | skipBytes n => exact skipBytes_twin _
  | read => exact read_twin
  | readRange b off len => exact readRange_twin b _ _
  | readAll b => exact readAll_twin b
  | readFullyRange b off len => exact readFullyRange_twin b _ _
  | readFully b => exact readFully_twin b
  | readBoolean => exact readBoolean_twin
  | readByte => exact readByte_twin
  | readUnsignedByte => exact readByte_twin.bind fun _ => .pure _
  | readChar => exact order_twin (readFixed_twin bits.char _)
  | readShort o =>
    cases o with
    | none => exact order_twin (readFixed_twin bits.short _)
    | some o => exact readFixed_twin bits.short _ _
  | readUnsignedShort => exact (order_twin (readFixed_twin bits.short _)).bind fun _ => .pure _
  | readInt o | readFloat o =>
    cases o with
    | none => exact readInt_twin
    | some o => exact readFixed_twin bits.int _ _
  | readLong o | readDouble o =>
    cases o with
    | none => exact order_twin (readFixed_twin bits.long _)
    | some o => exact readFixed_twin bits.long _ _
  | readBooleanArray => exact readArray_twin readBoolean_twin
  | readByteArray => exact readByteArray_twin
  | readCharArray => exact readArray_twin (order_twin (readFixed_twin bits.char _))
  | readShortArray => exact readArray_twin (order_twin (readFixed_twin bits.short _))
  | readIntArray => exact readArray_twin readInt_twin
  | readLongArray => exact readArray_twin (order_twin (readFixed_twin bits.long _))
  | readFloatArray => exact readArray_twin readInt_twin
  | readDoubleArray => exact readArray_twin (order_twin (readFixed_twin bits.long _))
  | readUTF | readUTFArray => exact absurd trivial hop
  | readAt i => exact readAt_lockstep onSameData_twin _
  | readBooleanAt i => exact readBooleanAt_twin _
  | readByteAt i => exact readByteAt_twin _
  | readCharAt i => exact order_twin (readFixedAt_lockstep onSameData_twin bits.char _ _)
  | readShortAt i o =>
    cases o with
    | none => exact order_twin (readFixedAt_lockstep onSameData_twin bits.short _ _)
    | some o => exact readFixedAt_lockstep onSameData_twin bits.short _ _ _
  | readIntAt i o | readFloatAt i o =>
    cases o with
    | none => exact order_twin (readFixedAt_lockstep onSameData_twin bits.int _ _)
    | some o => exact readFixedAt_lockstep onSameData_twin bits.int _ _ _
  | readLongAt i o | readDoubleAt i o =>
    cases o with
    | none => exact order_twin (readFixedAt_lockstep onSameData_twin bits.long _ _)
    | some o => exact readFixedAt_lockstep onSameData_twin bits.long _ _ _

/-- A call that reads strings, too, but for the exceptions that it throws. -/
theorem Op.call_upTo (bits : Bits) {op : Op} (hop : op.ReadsStrings) :
    LockstepUpTo Refused (Twin Buffered) (op.call bits UTF_BUFFER_SIZE) := by
  cases op with
  | readUTF => exact readUTF_upTo
  | readUTFArray => exact readArray_upTo readUTF_upTo
  | _ => exact absurd hop id

theorem Op.call_matches (bits : Bits) (hn : 0 ≤ jint (UTF_BUFFER_SIZE * 8)) (op : Op)
    (h : Twin Buffered s t) :
    Exchange.Matches ⟨op, outcome (op.call bits UTF_BUFFER_SIZE) s⟩
        ⟨op, outcome (op.call bits UTF_BUFFER_SIZE) t⟩ ∧
      Twin Buffered (after (op.call bits UTF_BUFFER_SIZE) s)
        (after (op.call bits UTF_BUFFER_SIZE) t) := by
  by_cases hop : op.ReadsStrings
  · obtain ⟨hends, htwin⟩ := op.call_upTo bits hop h
    refine ⟨?_, htwin⟩
    generalize outcome (op.call bits UTF_BUFFER_SIZE) s = x,
      outcome (op.call bits UTF_BUFFER_SIZE) t = y at hends
    cases hends with
    | ok a => exact .same _
    | error he =>
      cases he with
      | same => exact .same _
      | string => exact .refused hop
  · obtain ⟨hout, htwin⟩ := op.call_twin bits hn hop h
    rw [hout]
    exact ⟨.same _, htwin⟩

/-- Along a run. -/
theorem replies_twin (bits : Bits) (hn : 0 ≤ jint (UTF_BUFFER_SIZE * 8)) (ops : List Op) :
    ∀ {s t : ByteArrayObjectDataInput}, Twin Buffered s t →
      List.Forall₂ Exchange.Matches (replies bits UTF_BUFFER_SIZE ops s)
        (replies bits UTF_BUFFER_SIZE ops t) := by
  induction ops with
  | nil => exact fun _ => .nil
  | cons op ops ih =>
    intro s t h
    obtain ⟨hmatch, htwin⟩ := op.call_matches bits hn h
    exact .cons hmatch (ih htwin)

/-- A new reader in the order of another. -/
theorem new_bigEndian (data : Option (List Byte)) (offset : ℤ) (s : ByteArrayObjectDataInput) :
    (new data offset s.getByteOrder).bigEndian = s.bigEndian := by
  rw [getByteOrder]
  rcases s.bigEndian <;> rfl

/-- A cleared reader is a twin of a new reader of nothing, which has no buffer. -/
theorem cleared_twin (n : ℤ) (s : ByteArrayObjectDataInput) :
    Twin Buffered (after (clear n) s) (new none 0 s.getByteOrder) ∧
      (s.charBuffer = none → Twin Buffered (new none 0 s.getByteOrder) (after (clear n) s)) := by
  obtain ⟨c, hc, hs⟩ := after_clear n s
  have horder := new_bigEndian none 0 s
  rw [hs]
  exact ⟨⟨rfl, rfl, rfl, rfl, horder.symm, fun _ => rfl⟩,
    fun hnone => ⟨rfl, rfl, rfl, rfl, horder, fun _ => hc.2 hnone⟩⟩

/-- **A reader that is cleared is as good as new**: given an array it replies to all that follows
as a new reader of this array in the same order does, whatever has become of it before, but for the
exceptions of strings of negative length. If it has not got a buffer for characters, these are the
same, too. -/
theorem replies_reused (bits : Bits) (hn : 0 ≤ jint (UTF_BUFFER_SIZE * 8))
    (s : ByteArrayObjectDataInput) (data : Option (List Byte)) (offset : ℤ) (ops : List Op) :
    List.Forall₂ Exchange.Matches
        (replies bits UTF_BUFFER_SIZE ops
          (after (init data offset) (after (clear UTF_BUFFER_SIZE) s)))
        (replies bits UTF_BUFFER_SIZE ops (new data offset s.getByteOrder)) ∧
      (s.charBuffer = none →
        replies bits UTF_BUFFER_SIZE ops
            (after (init data offset) (after (clear UTF_BUFFER_SIZE) s)) =
          replies bits UTF_BUFFER_SIZE ops (new data offset s.getByteOrder)) := by
  obtain ⟨htwin, hback⟩ := cleared_twin UTF_BUFFER_SIZE s
  -- a reader of nothing that is given an array is a reader of it
  have hmatch := replies_twin bits hn ops (init_twin data offset htwin).2
  refine ⟨hmatch, fun hnone => eq_of_matches hmatch ?_⟩
  exact replies_twin bits hn ops (init_twin data offset (hback hnone)).2

/-- A reader that has read a string and has been closed, and one that has read a number. -/
theorem replies_reused_closed :
    List.Forall₂ Exchange.Matches
        (replies Bits.standard 1024 [.readUTF, .readUTF]
          (after (init (some [0xFF, 0xFF, 0xFF, 0xFE, 0, 0, 0, 1, 0x43]) 0) (after (clear 1024)
            (after close (after (readUTF Bits.standard)
              (new (some [0, 0, 0, 2, 0x41, 0x42]) 0 .BIG_ENDIAN))))))
        [⟨.readUTF, .error (.throws .NegativeArraySizeException)⟩,
          ⟨.readUTF, .ok (some [0x43])⟩] ∧
      replies Bits.standard 1024 [.readUTF]
          (after (init (some [0xFF, 0xFF, 0xFF, 0xFE]) 0) (after (clear 1024)
            (after (readInt Bits.standard) (new (some [0, 0, 0, 2]) 0 .BIG_ENDIAN)))) =
        [⟨.readUTF, .error (.throws .NegativeArraySizeException)⟩] :=
  ⟨(replies_reused Bits.standard (by decide) _ _ _ _).1,
    ((replies_reused Bits.standard (by decide) _ _ _ _).2 rfl).trans rfl⟩

/-! ## Reading ahead -/

/-- What reads do to a reader: they move forward inside its data. -/
structure Onward (s t : ByteArrayObjectDataInput) : Prop where
  /-- the same data -/
  data_eq : t.data = s.data
  /-- the same size -/
  size_eq : t.size = s.size
  /-- the same mark -/
  mark_eq : t.mark = s.mark
  /-- the same order -/
  bigEndian_eq : t.bigEndian = s.bigEndian
  /-- a buffer for characters is kept -/
  buffered : Buffered t.charBuffer s.charBuffer
  /-- the cursor moves forward and stays inside -/
  forward : InBounds s → InBounds t ∧ s.pos ≤ t.pos

theorem Onward.refl (s : ByteArrayObjectDataInput) : Onward s s :=
  ⟨rfl, rfl, rfl, rfl, id, fun h => ⟨h, le_refl _⟩⟩

theorem Onward.trans (h : Onward s t) (h' : Onward t u) : Onward s u where
  data_eq := h'.data_eq.trans h.data_eq
  size_eq := h'.size_eq.trans h.size_eq
  mark_eq := h'.mark_eq.trans h.mark_eq
  bigEndian_eq := h'.bigEndian_eq.trans h.bigEndian_eq
  buffered hnone := h.buffered (h'.buffered hnone)
  forward hs :=
    have ht := h.forward hs
    have hu := h'.forward ht.1
    ⟨hu.1, ht.2.trans hu.2⟩

/-- Another buffer for characters does not matter. -/
theorem onward_buffer (s : ByteArrayObjectDataInput) (buffer : List CodeUnit) :
    Onward s { s with charBuffer := some buffer } :=
  ⟨rfl, rfl, rfl, rfl, fun h => (by cases h),
    fun h => ⟨⟨h.size_eq, h.size_le, h.pos_nonneg, h.pos_le⟩, le_refl _⟩⟩

/-- Moving on by `n` places that are there. -/
theorem onward_advance {n : ℤ} (h : InBounds s → 0 ≤ n ∧ s.pos + n ≤ s.size) :
    Onward s { s with pos := jint (s.pos + n) } := by
  refine ⟨rfl, rfl, rfl, rfl, id, fun hs => ?_⟩
  obtain ⟨h0, hn⟩ := h hs
  have hpos := hs.pos_nonneg
  have hmax := hs.size_le
  have hj : jint (s.pos + n) = s.pos + n := jint_of_range (by omega) (by omega)
  have hle : s.pos ≤ jint (s.pos + n) := by omega
  exact ⟨⟨hs.size_eq, hs.size_le, hpos.trans hle, by rw [hj]; exact hn⟩, hle⟩

/-- The methods that only read. -/
abbrev Proceeds (m : In α) : Prop := Moves Onward m

theorem Proceeds.pure (a : α) : Proceeds (Pure.pure a : In α) := Moves.pure Onward.refl a

theorem Proceeds.get : Proceeds (MonadState.get : In ByteArrayObjectDataInput) := Onward.refl

theorem Proceeds.raise (e : Throwable) : Proceeds (Java.raise e : In α) := Moves.raise Onward.refl e

theorem Proceeds.bind {m : In α} {f : α → In β} (hm : Proceeds m) (hf : ∀ a, Proceeds (f a)) :
    Proceeds (m >>= f) :=
  Moves.bind (R := Onward) (fun _ _ _ h h' => h.trans h') hm hf

theorem Proceeds.of_still {m : In α} (h : Still m) : Proceeds m := fun s => by
  rw [h s]
  exact .refl s

theorem Proceeds.forEach {f : α → In Unit} (hf : ∀ a, Proceeds (f a)) (xs : List α) :
    Proceeds (forEach f xs) := by
  induction xs with
  | nil => exact .pure ()
  | cons x xs ih => exact (hf x).bind fun _ => ih

theorem Proceeds.times {m : In α} (hm : Proceeds m) (n : ℕ) : Proceeds (times m n) := by
  induction n with
  | zero => exact .pure []
  | succ n ih => exact hm.bind fun _ => ih.bind fun _ => .pure _

theorem read_proceeds : Proceeds read := by
  intro s
  rw [read, after_bind, get_run]
  dsimp only
  split
  case isFalse => exact .refl s
  case isTrue hlt =>
    have hadv : Onward s { s with pos := jint (s.pos + 1) } :=
      onward_advance fun _ => ⟨by decide, by omega⟩
    have hrest : Proceeds (do
        let b ← dataAt s.pos
        return (b.toNat : ℤ)) := .of_still ((dataAt_still _).bind fun _ => .pure _)
    exact hadv.trans (hrest _)

theorem readByte_proceeds : Proceeds readByte := by
  refine read_proceeds.bind fun ch => ?_
  rw [orEOF]
  split
  · exact .raise _
  · exact .pure _

theorem readBoolean_proceeds : Proceeds readBoolean := by
  refine read_proceeds.bind fun ch => ?_
  split
  · exact .raise _
  · exact .pure _

theorem readRange_proceeds (b : Option (List Byte)) (off len : ℤ) :
    Proceeds (readRange b off len) := by
  rcases b with _ | b
  · exact .raise _
  rw [readRange]
  dsimp only
  split
  · exact .raise _
  split
  · exact .pure _
  rename_i hbad hz
  intro s
  rw [after_bind, get_run]
  dsimp only
  split
  · exact .refl s
  rename_i hlt
  rcases hd : s.data with _ | data
  · exact .refl s
  dsimp only
  generalize hn : (if jint (s.pos + len) > s.size then jint (s.size - s.pos) else len) = n
  rcases hcopy : arraycopy data s.pos b off n with e | c
  · exact .refl s
  · rw [after_bind, eval_ok rfl s]
    dsimp only
    rw [after_bind]
    refine onward_advance fun h => ?_
    obtain ⟨-, -, h0, hin, -, -⟩ := arraycopy_eq_ok hcopy
    have hsize : s.size = data.length := by rw [h.size_eq, hd]; rfl
    omega

theorem readAll_proceeds (b : Option (List Byte)) : Proceeds (readAll b) := by
  rcases b with _ | b
  · exact .raise _
  · exact readRange_proceeds (some b) 0 b.length

theorem fully_proceeds {m : In (ℤ × List Byte)} (hm : Proceeds m) : Proceeds (do
    let (n, b) ← m
    if n = -1 then raise (.EOFException (some "End of stream reached")) else return b) := by
  refine hm.bind fun r => ?_
  dsimp only
  split
  · exact .raise _
  · exact .pure _

section Fixed

variable {w size : ℕ} (f : FixedWidth w size)

/-- `checkAvailable` lets through what is there. -/
theorem checkAvailable_eq_ok {position k : ℤ} {v : Unit}
    (h : checkAvailable position k s = .ok v t) :
    0 ≤ position ∧ k ≤ jint (s.size - position) := by
  rw [checkAvailable] at h
  split at h
  · cases h
  rw [bind_ok (get_run s)] at h
  split at h
  · cases h
  · omega

theorem readFixed_proceeds {n : ℤ} (hn : 0 ≤ n) (e : Bool) : Proceeds (readFixed f n e) := by
  intro s
  rw [readFixed, after_bind, get_run]
  dsimp only
  have hstill : after (readFixedAt f n s.pos e) s = s := readFixedAt_still f n s.pos e s
  rw [after_bind]
  rcases hat : readFixedAt f n s.pos e s with ⟨v, s'⟩ | ⟨x, s'⟩
  · rw [after_ok hat] at hstill
    subst hstill
    obtain ⟨v', s'', hcheck, -⟩ := bind_eq_ok hat
    obtain ⟨h0, hk⟩ := checkAvailable_eq_ok hcheck
    refine onward_advance fun h => ⟨hn, ?_⟩
    have hle := h.pos_le
    have := jint_le_self (x := s'.size - s'.pos) (by omega)
    omega
  · rw [after_error hat] at hstill
    subst hstill
    exact .refl s'

/-- A read in the order of the stream. -/
theorem order_proceeds {m : Bool → In α} (hm : ∀ e, Proceeds (m e)) :
    Proceeds (do m (← MonadState.get).bigEndian) := Proceeds.get.bind fun s => hm s.bigEndian

end Fixed

theorem readInt_proceeds : Proceeds (readInt bits) :=
  order_proceeds (readFixed_proceeds _ (by decide))

theorem readArray_proceeds {m : In α} (hm : Proceeds m) : Proceeds (readArray bits m) := by
  refine readInt_proceeds.bind fun v => ?_
  dsimp only
  split
  · exact .pure none
  split
  · exact (hm.times _).bind fun _ => .pure _
  · exact .pure _

theorem readByteArray_proceeds : Proceeds (readByteArray bits) := by
  refine readInt_proceeds.bind fun v => ?_
  dsimp only
  split
  · exact .pure none
  split
  · exact (fully_proceeds (readAll_proceeds _)).bind fun _ => .pure _
  · exact .pure _

theorem ensureCharBuffer_proceeds (n : ℤ) : Proceeds (ensureCharBuffer n) := by
  intro s
  by_cases hroom : Room n s
  · rw [after_ok (ensureCharBuffer_room hroom)]
    exact .refl s
  rcases lt_or_ge n 0 with hneg | h0
  · rcases hb : s.charBuffer with _ | buffer
    · rw [after_error (ensureCharBuffer_negative hb hneg)]
      exact .refl s
    · exact absurd ⟨buffer, hb, by omega⟩ hroom
  · rw [after_ok (ensureCharBuffer_new hroom h0)]
    exact onward_buffer s _

theorem storeChar_proceeds (i : ℤ) (c : CodeUnit) : Proceeds (storeChar i c) := by
  intro s
  rcases hb : s.charBuffer with _ | buffer
  · have hrun : storeChar i c s = .error (.throws .NullPointerException) s := by
      rw [storeChar, hb]
    rw [after_error hrun]
    exact .refl s
  · by_cases hi : 0 ≤ i ∧ i < buffer.length
    · rw [after_ok (storeChar_run buffer hb hi.1 hi.2 c)]
      exact onward_buffer s _
    · have hrun : storeChar i c s = .error (.throws .ArrayIndexOutOfBoundsException)
          { s with charBuffer := some buffer } := by
        rw [storeChar, hb]
        simp only [store_error hi c]
      rw [after_error hrun]
      exact onward_buffer s _

theorem newString_proceeds (n : ℤ) : Proceeds (newString n) := by
  refine Proceeds.get.bind fun s => ?_
  rcases s.charBuffer with _ | buffer
  · exact .raise _
  dsimp only
  split
  · exact .raise _
  · exact .pure _

/-- `Bits.readUtf8Char` on a byte that is negative as a `byte`. -/
theorem readUtf8Char_proceeds {b : Byte} (hb : b.toInt < 0) :
    Proceeds (bits.readUtf8Char readByte b) := by
  have h80 : 0x80 ≤ b := by
    rw [BitVec.toInt_neg_iff] at hb
    bv_omega
  by_cases h2 : 0xC0 ≤ b ∧ b ≤ 0xDF
  · rw [bits.readUtf8Char_two _ h2.1 h2.2]
    exact readByte_proceeds.bind fun k => .pure _
  by_cases h3 : 0xE0 ≤ b ∧ b ≤ 0xEF
  · rw [bits.readUtf8Char_three _ h3.1 h3.2]
    exact readByte_proceeds.bind fun m => readByte_proceeds.bind fun k => .pure _
  · rw [bits.readUtf8Char_other _ h80 (by bv_omega)]
    exact .raise _

theorem readUTF_proceeds : Proceeds (readUTF bits) := by
  refine readInt_proceeds.bind fun v => ?_
  dsimp only
  split
  · exact .pure none
  refine (ensureCharBuffer_proceeds _).bind fun _ => ?_
  refine Proceeds.bind (.forEach (fun i => ?_) _) fun _ => newString_proceeds _
  refine readByte_proceeds.bind fun b => ?_
  split
  case isTrue hneg => exact (readUtf8Char_proceeds hneg).bind fun c => storeChar_proceeds _ c
  case isFalse => exact storeChar_proceeds _ _

/-! ## Back at the mark -/

/-- The call does not bring other data, and neither sets the mark nor moves before it. -/
def Op.Ahead (mark : ℤ) : Op → Prop
  | .init _ _ | .clear | .mark => False
  | .position newPos => mark ≤ newPos.toInt
  | _ => True

/-- `t` is `s` with its mark where `s` stands and its cursor there or further on. -/
structure AheadOf (s t : ByteArrayObjectDataInput) : Prop where
  /-- the same data -/
  data_eq : t.data = s.data
  /-- the same size -/
  size_eq : t.size = s.size
  /-- the same order -/
  bigEndian_eq : t.bigEndian = s.bigEndian
  /-- a buffer for characters is kept -/
  buffered : Buffered t.charBuffer s.charBuffer
  /-- the mark -/
  mark_eq : t.mark = s.pos
  /-- the cursor is inside -/
  inBounds : InBounds t
  /-- it is not before the mark -/
  le_pos : s.pos ≤ t.pos

theorem AheadOf.onward (h : AheadOf s t) (h' : Onward t u) : AheadOf s u where
  data_eq := h'.data_eq.trans h.data_eq
  size_eq := h'.size_eq.trans h.size_eq
  bigEndian_eq := h'.bigEndian_eq.trans h.bigEndian_eq
  buffered hnone := h.buffered (h'.buffered hnone)
  mark_eq := h'.mark_eq.trans h.mark_eq
  inBounds := (h'.forward h.inBounds).1
  le_pos := h.le_pos.trans (h'.forward h.inBounds).2

theorem AheadOf.proceeds {m : In α} (h : AheadOf s t) (hm : Proceeds m) :
    AheadOf s (after m t) := h.onward (hm t)

/-- A position before the data is refused, and the mark stays if the new one is not before it. -/
theorem AheadOf.position (h : AheadOf s t) {newPos : ℤ} (hp : newPos < 0 ∨ s.pos ≤ newPos) :
    AheadOf s (after (ByteArrayObjectDataInput.position newPos) t) := by
  rw [ByteArrayObjectDataInput.position, after_bind, get_run]
  dsimp only
  split
  case isTrue => exact h
  case isFalse hin =>
    have h0 : 0 ≤ newPos := by omega
    have hsize : newPos ≤ t.size := by omega
    have hmark : ¬ t.mark > newPos := by
      rw [h.mark_eq]
      omega
    have hmoved : AheadOf s { t with pos := newPos } :=
      ⟨h.data_eq, h.size_eq, h.bigEndian_eq, h.buffered, h.mark_eq,
        ⟨h.inBounds.size_eq, h.inBounds.size_le, h0, hsize⟩, hp.resolve_left (by omega)⟩
    rw [after_bind, if_neg hmark]
    exact hmoved

theorem AheadOf.skipBytes (h : AheadOf s t) {n : ℤ} (hn : n ≤ MAX_VALUE) :
    AheadOf s (after (ByteArrayObjectDataInput.skipBytes n) t) := by
  rw [ByteArrayObjectDataInput.skipBytes]
  split
  case isTrue => exact h
  case isFalse hpos =>
    have h0 := h.inBounds.pos_nonneg
    have hle := h.inBounds.pos_le
    have hmax := h.inBounds.size_le
    have hahead := h.le_pos
    rw [after_bind, get_run]
    dsimp only
    generalize hskip : (if jint (t.pos + n) > t.size then jint (t.size - t.pos) else n) = skip
    have hp : jint (t.pos + skip) < 0 ∨ s.pos ≤ jint (t.pos + skip) := by
      unfold MAX_VALUE at hn hmax
      split at hskip
      case isTrue =>
        rw [jint_of_range (by omega) (by unfold MAX_VALUE; omega)] at hskip
        right
        rw [jint_of_range (by omega) (by unfold MAX_VALUE; omega)]
        omega
      case isFalse =>
        rcases lt_or_ge MAX_VALUE (t.pos + skip) with hbig | hsmall
        · left
          rw [jint_wrap hbig (by unfold MAX_VALUE; omega)]
          omega
        · right
          rw [jint_of_range (by omega) hsmall]
          omega
    have hmove := h.position hp
    rw [after_bind]
    rcases hrun : ByteArrayObjectDataInput.position (jint (t.pos + skip)) t with ⟨v, t'⟩ | ⟨e, t'⟩
    · rwa [after_ok hrun] at hmove
    · rwa [after_error hrun] at hmove

theorem AheadOf.skip (h : AheadOf s t) (n : ℤ) :
    AheadOf s (after (ByteArrayObjectDataInput.skip n) t) := by
  rw [ByteArrayObjectDataInput.skip]
  split
  · exact h
  · exact h.skipBytes (by omega)

/-- **One call ahead of the mark stays ahead of it.** -/
theorem AheadOf.call (h : AheadOf s t) (h0 : 0 ≤ s.pos) {op : Op} (hop : op.Ahead s.pos) :
    AheadOf s (after (op.call bits UTF_BUFFER_SIZE) t) := by
  cases op with
  | init | clear | mark => exact absurd hop id
  | reset =>
    have hle : t.mark ≤ t.size := h.mark_eq.trans_le (h.le_pos.trans h.inBounds.pos_le)
    have hnonneg : 0 ≤ t.mark := h0.trans_eq h.mark_eq.symm
    exact ⟨h.data_eq, h.size_eq, h.bigEndian_eq, h.buffered, h.mark_eq,
      ⟨h.inBounds.size_eq, h.inBounds.size_le, hnonneg, hle⟩, h.mark_eq.ge⟩
  | position newPos => exact h.position (.inr hop)
  | skip n => exact h.skip _
  | skipBytes n =>
    have := BitVec.toInt_lt (x := n)
    exact h.skipBytes (by unfold MAX_VALUE; omega)
  | read => exact h.proceeds read_proceeds
  | readRange b off len => exact h.proceeds (readRange_proceeds b _ _)
  | readAll b => exact h.proceeds (readAll_proceeds b)
  | readFullyRange b off len => exact h.proceeds (fully_proceeds (readRange_proceeds b _ _))
  | readFully b => exact h.proceeds (fully_proceeds (readAll_proceeds b))
  | readBoolean => exact h.proceeds readBoolean_proceeds
  | readByte => exact h.proceeds readByte_proceeds
  | readUnsignedByte => exact h.proceeds (readByte_proceeds.bind fun _ => .pure _)
  | readChar => exact h.proceeds (order_proceeds (readFixed_proceeds _ (by decide)))
  | readShort o =>
    cases o with
    | none => exact h.proceeds (order_proceeds (readFixed_proceeds _ (by decide)))
    | some o => exact h.proceeds (readFixed_proceeds _ (by decide) _)
  | readUnsignedShort =>
    exact h.proceeds ((order_proceeds (readFixed_proceeds _ (by decide))).bind fun _ => .pure _)
  | readInt o | readFloat o =>
    cases o with
    | none => exact h.proceeds readInt_proceeds
    | some o => exact h.proceeds (readFixed_proceeds _ (by decide) _)
  | readLong o | readDouble o =>
    cases o with
    | none => exact h.proceeds (order_proceeds (readFixed_proceeds _ (by decide)))
    | some o => exact h.proceeds (readFixed_proceeds _ (by decide) _)
  | readBooleanArray => exact h.proceeds (readArray_proceeds readBoolean_proceeds)
  | readByteArray => exact h.proceeds readByteArray_proceeds
  | readCharArray | readShortArray | readLongArray | readDoubleArray =>
    exact h.proceeds (readArray_proceeds (order_proceeds (readFixed_proceeds _ (by decide))))
  | readIntArray | readFloatArray => exact h.proceeds (readArray_proceeds readInt_proceeds)
  | readUTF => exact h.proceeds readUTF_proceeds
  | readUTFArray => exact h.proceeds (readArray_proceeds readUTF_proceeds)
  | readAt i => exact h.proceeds (.of_still (readAt_still _))
  | readBooleanAt i => exact h.proceeds (.of_still (readBooleanAt_still _))
  | readByteAt i => exact h.proceeds (.of_still (readByteAt_still _))
  | readCharAt i => exact h.proceeds (.of_still (orderAt_still (readFixedAt_still _ _ _)))
  | readShortAt i o | readIntAt i o | readLongAt i o | readFloatAt i o | readDoubleAt i o =>
    cases o with
    | none => exact h.proceeds (.of_still (orderAt_still (readFixedAt_still _ _ _)))
    | some o => exact h.proceeds (.of_still (readFixedAt_still _ _ _ _))

/-- Along a run. -/
theorem AheadOf.afterAll (h0 : 0 ≤ s.pos) {ops : List Op} (hops : ∀ op ∈ ops, op.Ahead s.pos) :
    ∀ {t : ByteArrayObjectDataInput}, AheadOf s t →
      AheadOf s (afterAll bits UTF_BUFFER_SIZE ops t) := by
  induction ops with
  | nil => exact id
  | cons op ops ih =>
    intro t h
    exact ih (fun op' hop' => hops op' (List.mem_cons_of_mem _ hop'))
      (h.call h0 (hops op List.mem_cons_self))

end ByteArrayObjectDataInput

end HzResearch
