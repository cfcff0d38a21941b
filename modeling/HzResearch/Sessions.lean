import HzResearch.Cursor
import HzResearch.Oblivious
import HzResearch.PlainText

/-!
# Readers that differ in their buffers for characters

A reader keeps its buffer for characters when it is cleared and given other data. No method shows
what is in it: on two readers that differ in that buffer only (`Twin`) every method ends alike and
leaves such readers behind, but for one thing. A string of negative length throws one exception if
there is a buffer and another if there is none (`Refused`), so that a reader with a buffer can be
told from one without by `readUTF` and by `readUTFArray`.
-/

namespace HzResearch

open Java

namespace ByteArrayObjectDataInput

variable {α β : Type} {s t s' t' : ByteArrayObjectDataInput} {bits : Bits} {m : In α}

/-! ## Readers that differ in their buffers for characters -/

/-- The readers differ at most in their buffers for characters, which `B` relates. -/
structure Twin (B : Option (List CodeUnit) → Option (List CodeUnit) → Prop)
    (s t : ByteArrayObjectDataInput) : Prop where
  /-- `data` -/
  data_eq : s.data = t.data
  /-- `size` -/
  size_eq : s.size = t.size
  /-- `pos` -/
  pos_eq : s.pos = t.pos
  /-- `mark` -/
  mark_eq : s.mark = t.mark
  /-- `bigEndian` -/
  bigEndian_eq : s.bigEndian = t.bigEndian
  /-- `charBuffer` -/
  buffers : B s.charBuffer t.charBuffer

variable {B B' : Option (List CodeUnit) → Option (List CodeUnit) → Prop}

/-- With other buffers. -/
theorem Twin.rebuffered (h : Twin B s t) {c c' : Option (List CodeUnit)} (hB : B' c c') :
    Twin B' { s with charBuffer := c } { t with charBuffer := c' } :=
  ⟨h.data_eq, h.size_eq, h.pos_eq, h.mark_eq, h.bigEndian_eq, hB⟩

theorem Twin.mono (h : Twin B s t) (hB : ∀ c c', B c c' → B' c c') : Twin B' s t :=
  ⟨h.data_eq, h.size_eq, h.pos_eq, h.mark_eq, h.bigEndian_eq, hB _ _ h.buffers⟩

/-- The reader on the left has a buffer if the one on the right has. -/
def Buffered (c c' : Option (List CodeUnit)) : Prop := c = none → c' = none

/-- Two given buffers. -/
def Only (b b' : List CodeUnit) (c c' : Option (List CodeUnit)) : Prop := c = some b ∧ c' = some b'

theorem Only.buffered {b b' : List CodeUnit} {c c' : Option (List CodeUnit)} (h : Only b b' c c') :
    Buffered c c' := by
  intro hc
  rw [h.1] at hc
  cases hc

/-! ## Methods that do not use the buffer -/

theorem orEOF_lockstep {R : ByteArrayObjectDataInput → ByteArrayObjectDataInput → Prop} (ch : ℤ) :
    Lockstep R (orEOF ch) := by
  rw [orEOF]
  split
  · exact .raise _
  · exact .pure _

/-- A relation of readers of the same data. -/
def OnSameData (R : ByteArrayObjectDataInput → ByteArrayObjectDataInput → Prop) : Prop :=
  ∀ s t, R s t → s.data = t.data ∧ s.size = t.size

theorem onSameData_twin : OnSameData (Twin B) := fun _ _ h => ⟨h.data_eq, h.size_eq⟩

section OnSameData

variable {R : ByteArrayObjectDataInput → ByteArrayObjectDataInput → Prop} (hR : OnSameData R)

include hR

theorem dataAt_lockstep (i : ℤ) : Lockstep R (dataAt i) := by
  refine .reads (fun s t h => by rw [(hR s t h).1]) fun s => ?_
  rcases s.data with _ | data
  · exact .raise _
  · exact .eval _

theorem readAt_lockstep (position : ℤ) : Lockstep R (readAt position) := by
  refine .reads (fun s t h => by rw [(hR s t h).2]) fun s => ?_
  split
  · exact (dataAt_lockstep hR _).bind fun _ => .pure _
  · exact .pure _

theorem readFixedAt_lockstep {w size : ℕ} (f : FixedWidth w size) (n position : ℤ) (e : Bool) :
    Lockstep R (readFixedAt f n position e) := by
  refine .bind ?_ fun _ => ?_
  · rw [checkAvailable]
    split
    · exact .raise _
    refine .reads (fun s t h => by rw [(hR s t h).2]) fun s => ?_
    split
    · exact .raise _
    · exact .pure _
  · refine .reads (fun s t h => by rw [(hR s t h).1]) fun s => ?_
    rcases s.data with _ | data
    · exact .raise _
    · exact .eval _

end OnSameData

theorem advance_twin (n : ℤ) : Lockstep (Twin B) (advance n) :=
  .modify fun _ _ h =>
    ⟨h.data_eq, h.size_eq, congrArg (fun pos => jint (pos + n)) h.pos_eq, h.mark_eq,
      h.bigEndian_eq, h.buffers⟩

theorem read_twin : Lockstep (Twin B) read := by
  refine .reads (fun s t h => by rw [h.size_eq, h.pos_eq]) fun s => ?_
  split
  · exact (advance_twin 1).bind fun _ => (dataAt_lockstep onSameData_twin _).bind fun _ => .pure _
  · exact .pure _

theorem readByte_twin : Lockstep (Twin B) readByte := read_twin.bind orEOF_lockstep

/-- `Bits.readUtf8Char` on a byte that is negative as a `byte`. -/
theorem readUtf8Char_twin {b : Byte} (hb : b.toInt < 0) :
    Lockstep (Twin B) (bits.readUtf8Char readByte b) := by
  have h80 : 0x80 ≤ b := by
    rw [BitVec.toInt_neg_iff] at hb
    bv_omega
  by_cases h2 : 0xC0 ≤ b ∧ b ≤ 0xDF
  · rw [bits.readUtf8Char_two _ h2.1 h2.2]
    exact readByte_twin.bind fun k => .pure _
  by_cases h3 : 0xE0 ≤ b ∧ b ≤ 0xEF
  · rw [bits.readUtf8Char_three _ h3.1 h3.2]
    exact readByte_twin.bind fun m => readByte_twin.bind fun k => .pure _
  · rw [bits.readUtf8Char_other _ h80 (by bv_omega)]
    exact .raise _

theorem nextUnit_twin : Lockstep (Twin B) (nextUnit bits) := by
  refine readByte_twin.bind fun b => ?_
  split
  case isTrue hneg => exact readUtf8Char_twin hneg
  case isFalse => exact .pure _

theorem init_twin (data : Option (List Byte)) (offset : ℤ) : Lockstep (Twin B) (init data offset) :=
  .modify fun _ _ h => ⟨rfl, rfl, rfl, h.mark_eq, h.bigEndian_eq, h.buffers⟩

theorem setMark_twin : Lockstep (Twin B) setMark :=
  .modify fun _ _ h => ⟨h.data_eq, h.size_eq, h.pos_eq, h.pos_eq, h.bigEndian_eq, h.buffers⟩

theorem reset_twin : Lockstep (Twin B) reset :=
  .modify fun _ _ h => ⟨h.data_eq, h.size_eq, h.mark_eq, h.mark_eq, h.bigEndian_eq, h.buffers⟩

theorem position_twin (newPos : ℤ) : Lockstep (Twin B) (position newPos) := by
  refine .reads (fun s t h => by rw [h.size_eq, h.mark_eq]) fun s => ?_
  split
  · exact .raise _
  · refine .bind (.modify fun _ _ h => ?_) fun _ => ?_
    · exact ⟨h.data_eq, h.size_eq, rfl, h.mark_eq, h.bigEndian_eq, h.buffers⟩
    split
    · exact .modify fun _ _ h => ⟨h.data_eq, h.size_eq, h.pos_eq, rfl, h.bigEndian_eq, h.buffers⟩
    · exact .pure _

theorem skipBytes_twin (n : ℤ) : Lockstep (Twin B) (skipBytes n) := by
  rw [skipBytes]
  split
  · exact .pure 0
  · refine .reads (fun s t h => by rw [h.size_eq, h.pos_eq]) fun s => ?_
    exact (position_twin _).bind fun _ => .pure _

theorem skip_twin (n : ℤ) : Lockstep (Twin B) (skip n) := by
  rw [skip]
  split
  · exact .pure 0
  · exact skipBytes_twin n

theorem readRange_twin (b : Option (List Byte)) (off len : ℤ) :
    Lockstep (Twin B) (readRange b off len) := by
  rcases b with _ | b
  · exact .raise _
  rw [readRange]
  dsimp only
  split
  · exact .raise _
  split
  · exact .pure _
  refine .reads (fun s t h => by rw [h.size_eq, h.pos_eq, h.data_eq]) fun s => ?_
  split
  · exact .pure _
  rcases s.data with _ | data
  · exact .raise _
  · exact (Lockstep.eval _).bind fun _ => (advance_twin _).bind fun _ => .pure _

theorem readAll_twin (b : Option (List Byte)) : Lockstep (Twin B) (readAll b) := by
  rcases b with _ | b
  · exact .raise _
  · exact readRange_twin (some b) 0 b.length

/-- The second half of the two variants of `readFully`. -/
theorem fully_twin {m : In (ℤ × List Byte)} (hm : Lockstep (Twin B) m) : Lockstep (Twin B) (do
    let (n, b) ← m
    if n = -1 then raise (.EOFException (some "End of stream reached")) else return b) := by
  refine hm.bind fun r => ?_
  dsimp only
  split
  · exact .raise _
  · exact .pure _

theorem readFully_twin (b : Option (List Byte)) : Lockstep (Twin B) (readFully b) :=
  fully_twin (readAll_twin b)

theorem readFullyRange_twin (b : Option (List Byte)) (off len : ℤ) :
    Lockstep (Twin B) (readFullyRange b off len) := fully_twin (readRange_twin b off len)

theorem readBoolean_twin : Lockstep (Twin B) readBoolean := by
  refine read_twin.bind fun ch => ?_
  split
  · exact .raise _
  · exact .pure _

theorem readByteAt_twin (position : ℤ) : Lockstep (Twin B) (readByteAt position) :=
  (readAt_lockstep onSameData_twin position).bind orEOF_lockstep

theorem readBooleanAt_twin (position : ℤ) : Lockstep (Twin B) (readBooleanAt position) := by
  refine (readAt_lockstep onSameData_twin position).bind fun ch => ?_
  split
  · exact .raise _
  · exact .pure _

section Fixed

variable {w size : ℕ} (f : FixedWidth w size)

theorem readFixed_twin (n : ℤ) (e : Bool) : Lockstep (Twin B) (readFixed f n e) := by
  refine .reads (fun s t h => by rw [h.pos_eq]) fun s => ?_
  exact (readFixedAt_lockstep onSameData_twin f n _ e).bind fun _ =>
    (advance_twin n).bind fun _ => .pure _

end Fixed

/-- A read in the order of the stream. -/
theorem order_twin {m : Bool → In α} (hm : ∀ e, Lockstep (Twin B) (m e)) :
    Lockstep (Twin B) (do m (← get).bigEndian) :=
  .reads (fun s t h => by rw [h.bigEndian_eq]) fun s => hm s.bigEndian

theorem readInt_twin : Lockstep (Twin B) (readInt bits) := order_twin (readFixed_twin _ _)

theorem readArray_twin (hm : Lockstep (Twin B) m) : Lockstep (Twin B) (readArray bits m) := by
  refine readInt_twin.bind fun v => ?_
  dsimp only
  split
  · exact .pure none
  split
  · exact (hm.times _).bind fun _ => .pure _
  · exact .pure _

theorem readByteArray_twin : Lockstep (Twin B) (readByteArray bits) := by
  refine readInt_twin.bind fun v => ?_
  dsimp only
  split
  · exact .pure none
  split
  · exact (readFully_twin _).bind fun _ => .pure _
  · exact .pure _

/-! ## Strings -/

/-- A string of negative length throws another exception where there is no buffer. -/
inductive Refused : Stop → Stop → Prop where
  | same (e : Stop) : Refused e e
  | string :
      Refused (.throws .StringIndexOutOfBoundsException) (.throws .NegativeArraySizeException)

variable (bits) in
/-- The loop of `readUTF` in two buffers that have room: it ends alike, and if it returns, they hold
the same characters up to the last one stored. -/
theorem readChars_twin (j : ℕ) : ∀ {i : ℕ} {b b' : List CodeUnit} {s t : ByteArrayObjectDataInput},
    Twin (Only b b') s t → i + j ≤ b.length → i + j ≤ b'.length → b.take i = b'.take i →
      (∃ s' t' c c', forEach (readChars bits) (List.range' i j) s = .ok () s' ∧
        forEach (readChars bits) (List.range' i j) t = .ok () t' ∧ Twin (Only c c') s' t' ∧
          c.length = b.length ∧ c'.length = b'.length ∧ c.take (i + j) = c'.take (i + j)) ∨
      ∃ e s' t' c c', forEach (readChars bits) (List.range' i j) s = .error e s' ∧
        forEach (readChars bits) (List.range' i j) t = .error e t' ∧ Twin (Only c c') s' t' := by
  induction j with
  | zero => exact fun h _ _ heq => .inl ⟨_, _, _, _, rfl, rfl, h, rfl, rfl, heq⟩
  | succ j ih =>
    intro i b b' s t h hb hb' heq
    have hunit : Lockstep (Twin (Only b b')) (nextUnit bits) := nextUnit_twin
    obtain ⟨hout, htwin⟩ := hunit h
    rw [List.range'_succ, forEach, readChars_eq]
    rcases ho : outcome (nextUnit bits) s with e | x
    · have hs := run_of_outcome_error ho
      have ht := run_of_outcome_error (hout ▸ ho)
      exact .inr ⟨e, _, _, _, _, bind_error (bind_error hs), bind_error (bind_error ht), htwin⟩
    · have hs := run_of_outcome_ok ho
      have ht := run_of_outcome_ok (hout ▸ ho)
      have hstore := storeChar_run b htwin.buffers.1 (i := i) (by omega) (by omega) x
      have hstore' := storeChar_run b' htwin.buffers.2 (i := i) (by omega) (by omega) x
      have hlen : (splice b i [x]).length = b.length :=
        length_splice (by rw [List.length_singleton]; omega)
      have hlen' : (splice b' i [x]).length = b'.length :=
        length_splice (by rw [List.length_singleton]; omega)
      have htake : (splice b i [x]).take (i + 1) = (splice b' i [x]).take (i + 1) := by
        have hend : (splice b i [x]).take (i + [x].length) = b.take i ++ [x] :=
          take_splice_end (by omega)
        have hend' : (splice b' i [x]).take (i + [x].length) = b'.take i ++ [x] :=
          take_splice_end (by omega)
        rw [List.length_singleton] at hend hend'
        rw [hend, hend', heq]
      have hnext : Twin (Only (splice b i [x]) (splice b' i [x]))
          { after (nextUnit bits) s with charBuffer := some (splice b i [x]) }
          { after (nextUnit bits) t with charBuffer := some (splice b' i [x]) } :=
        htwin.rebuffered ⟨rfl, rfl⟩
      rw [bind_ok ((bind_ok hs).trans hstore), bind_ok ((bind_ok ht).trans hstore')]
      rcases ih hnext (by omega) (by omega) htake with
        ⟨s', t', c, c', hrun, hrun', hover, hc, hc', hall⟩ | ⟨e, s', t', c, c', hrun, hrun', hlast⟩
      · refine .inl ⟨s', t', c, c', hrun, hrun', hover, hc.trans hlen, hc'.trans hlen', ?_⟩
        rw [Nat.add_assoc, Nat.add_comm 1 j] at hall
        exact hall
      · exact .inr ⟨e, s', t', c, c', hrun, hrun', hlast⟩

/-- `readUTF` behind its length. -/
def readText (bits : Bits) (charCount : ℤ) : In (Option (List CodeUnit)) := do
  ensureCharBuffer charCount
  forEach (readChars bits) (List.range charCount.toNat)
  newString charCount

/-- A negative length is refused by `new char[charCount]` if there is no buffer. -/
theorem readText_negative_none (bits : Bits) {n : ℤ} (hneg : n < 0) (hb : s.charBuffer = none) :
    readText bits n s = .error (.throws .NegativeArraySizeException) s :=
  bind_error (ensureCharBuffer_negative hb hneg)

/-- It is refused by `new String(charBuffer, 0, charCount)` if there is one. -/
theorem readText_negative_some (bits : Bits) {n : ℤ} (hneg : n < 0) {buffer : List CodeUnit}
    (hb : s.charBuffer = some buffer) :
    readText bits n s = .error (.throws .StringIndexOutOfBoundsException) s := by
  have hroom : Room n s := ⟨buffer, hb, by omega⟩
  have hzero : n.toNat = 0 := by omega
  have hloop : forEach (readChars bits) (List.range 0) s = .ok () s := rfl
  have hstring : newString n s = .error (.throws .StringIndexOutOfBoundsException) s := by
    rw [newString, bind_ok (get_run s), hb]
    exact congrFun (if_pos (.inl hneg)) s
  rw [readText, bind_ok (ensureCharBuffer_room hroom), hzero, bind_ok hloop, hstring]

/-- A string whose length is not negative is read alike, into either buffer. -/
theorem readText_twin {n : ℤ} (h0 : 0 ≤ n) :
    Lockstep (Twin Buffered) (readText bits n) := by
  intro s t h
  obtain ⟨b, hb, hs⟩ := ensureCharBuffer_ok (s := s) h0
  obtain ⟨b', hb', ht⟩ := ensureCharBuffer_ok (s := t) h0
  have hover : Twin (Only b b') { s with charBuffer := some b } { t with charBuffer := some b' } :=
    h.rebuffered ⟨rfl, rfl⟩
  rw [readText, outcome_congr (bind_ok hs), outcome_congr (bind_ok ht), after_congr (bind_ok hs),
    after_congr (bind_ok ht), List.range_eq_range']
  rcases readChars_twin bits n.toNat (i := 0) hover (by omega) (by omega) rfl with
    ⟨s', t', c, c', hrun, hrun', hend, hc, hc', hall⟩ | ⟨e, s', t', c, c', hrun, hrun', hend⟩
  · rw [Nat.zero_add] at hall
    have hstring := newString_run hend.buffers.1 h0 (by omega)
    have hstring' := newString_run hend.buffers.2 h0 (by omega)
    rw [outcome_ok ((bind_ok hrun).trans hstring), outcome_ok ((bind_ok hrun').trans hstring'),
      after_ok ((bind_ok hrun).trans hstring), after_ok ((bind_ok hrun').trans hstring'), hall]
    exact ⟨rfl, hend.mono fun _ _ => Only.buffered⟩
  · rw [outcome_error (bind_error hrun), outcome_error (bind_error hrun'),
      after_error (bind_error hrun), after_error (bind_error hrun')]
    exact ⟨rfl, hend.mono fun _ _ => Only.buffered⟩

/-- A string of any length, which is refused by one exception or the other. -/
theorem readText_upTo (n : ℤ) : LockstepUpTo Refused (Twin Buffered) (readText bits n) := by
  rcases lt_or_ge n 0 with hneg | h0
  swap
  · exact .of_lockstep Refused.same (readText_twin h0)
  intro s t h
  rcases ht : t.charBuffer with _ | buffer'
  · have hrun' := readText_negative_none bits hneg ht
    rw [outcome_error hrun', after_error hrun']
    rcases hs : s.charBuffer with _ | buffer
    · have hrun := readText_negative_none bits hneg hs
      rw [outcome_error hrun, after_error hrun]
      exact ⟨.error (.same _), h⟩
    · have hrun := readText_negative_some bits hneg hs
      rw [outcome_error hrun, after_error hrun]
      exact ⟨.error .string, h⟩
  · have hrun' := readText_negative_some bits hneg ht
    obtain ⟨buffer, hs⟩ : ∃ buffer, s.charBuffer = some buffer := by
      rw [← Option.ne_none_iff_exists']
      intro hnone
      rw [h.buffers hnone] at ht
      cases ht
    have hrun := readText_negative_some bits hneg hs
    rw [outcome_error hrun', after_error hrun', outcome_error hrun, after_error hrun]
    exact ⟨.error (.same _), h⟩

theorem readUTF_upTo : LockstepUpTo Refused (Twin Buffered) (readUTF bits) := by
  refine (LockstepUpTo.of_lockstep Refused.same readInt_twin).bind fun v => ?_
  dsimp only
  split
  · exact .pure none
  · exact readText_upTo v.toInt

/-- Arrays of values that may be refused. -/
theorem readArray_upTo (hm : LockstepUpTo Refused (Twin Buffered) m) :
    LockstepUpTo Refused (Twin Buffered) (readArray bits m) := by
  refine (LockstepUpTo.of_lockstep Refused.same readInt_twin).bind fun v => ?_
  dsimp only
  split
  · exact .pure none
  split
  · exact (hm.times _).bind fun _ => .pure _
  · exact .pure _

end ByteArrayObjectDataInput

end HzResearch
