import HzResearch.SequentialWrites

/-!
# The writer appends

A run of the writer is a list of sequential writes and calls of `clear` and `close`;
an exception is caught by the caller, who goes on. As long as no capacity expression
exceeds the `int` range, every call whose arguments are accepted returns, every other
one throws and stores nothing, and `toByteArray` is the concatenation of the encodings
of the accepted writes since the last `clear` or `close` (`toByteArray_runAll`).

The invariant is `Sane` together with `pos` inside the buffer: the bytes below `pos`
are what has been written.
-/

namespace HzResearch

open Java

namespace ByteArrayObjectDataOutput

/-- One call of a run. -/
inductive Call : Type where
  | write (c : Write)
  | clear
  | close

variable (bits : Bits)

/-- The method called. -/
def Call.run : Call → Out Unit
  | .write c => c.run bits
  | .clear => ByteArrayObjectDataOutput.clear
  | .close => ByteArrayObjectDataOutput.close

/-- The fields after these calls, some of which may have thrown. -/
def runAll : List Call → ByteArrayObjectDataOutput → ByteArrayObjectDataOutput
  | [], w => w
  | c :: cs, w => runAll cs (after (c.run bits) w)

/-- The bytes of a call. -/
def Write.encoding (bigEndian : Bool) (c : Write) : List Byte := flat (c.chunks bits bigEndian)

/-- The arguments are accepted. -/
def Call.Accepted : Call → Prop
  | .write c => c.Accepted
  | _ => True

/-- What stands in the stream after a call, given what stood there before. -/
def Call.contents (bigEndian : Bool) (acc : List Byte) : Call → List Byte
  | .write c => if c.Accepted then acc ++ c.encoding bits bigEndian else acc
  | .clear | .close => []

/-- What stands in the stream after these calls: the encodings since the last `clear` or `close`. -/
def contents (bigEndian : Bool) (acc : List Byte) (calls : List Call) : List Byte :=
  calls.foldl (Call.contents bits bigEndian) acc

/-- Every call returns whose arguments are accepted, and the others throw. -/
def Behaves : List Call → ByteArrayObjectDataOutput → Prop
  | [], _ => True
  | c :: cs, w =>
    (c.Accepted → ∃ w', c.run bits w = .ok () w') ∧
      (¬ c.Accepted → ∃ x w', c.run bits w = .error (.throws x) w') ∧
        Behaves cs (after (c.run bits) w)

variable {bits} {e : Bool} {w w' : ByteArrayObjectDataOutput} {b : List Byte}

/-- The bytes that have been written. -/
def written (w : ByteArrayObjectDataOutput) : List Byte := w.bytes.take w.pos.toNat

/-! ## Single calls -/

theorem new_sane {size : ℤ} (h0 : 0 ≤ size) (h : size ≤ MAX_VALUE) (order : ByteOrder) :
    Sane (new size order) where
  initialSize_nonneg := h0
  initialSize_le := h
  pos_nonneg := le_refl 0
  pos_le := by
    rw [bytes_some rfl]
    simp [new]
    omega
  length_le := by
    rw [bytes_some rfl, List.length_replicate, Int.toNat_of_nonneg h0]
    exact h
  pos_null hnone := by cases hnone

/-- `clear` without a buffer. -/
theorem clear_none (hb : w.buffer = none) : clear w = .ok () { w with pos := 0 } := by
  obtain ⟨initialSize, buffer, pos, e, peak⟩ := w
  cases hb
  rfl

/-- `clear` with a buffer, for the capacity it asks for. -/
theorem clear_some (hb : w.buffer = some b) :
    clear w =
      let peak := max w.peak (w.initialSize * 8)
      if b.length > jint (w.initialSize * 8) then
        if 0 ≤ jint (w.initialSize * 8) then
          .ok () { w with
            pos := 0, peak, buffer := some (List.replicate (jint (w.initialSize * 8)).toNat 0) }
        else .error (.throws .NegativeArraySizeException) { w with pos := 0, peak }
      else .ok () { w with pos := 0, peak } := by
  obtain ⟨initialSize, buffer, pos, e, peak⟩ := w
  cases hb
  change (if b.length > jint (initialSize * 8) then _ else _ : Out Unit) _ = _
  split
  case isTrue hbig =>
    by_cases h0 : 0 ≤ jint (initialSize * 8)
    · rw [bind_ok (newArray_ok h0 _), if_pos h0]
      rfl
    · rw [newArray, if_neg h0, if_neg h0]
      rfl
  case isFalse hbig => rfl

/-- `clear` drops everything written, and keeps a buffer that is not too large. -/
theorem clear_run (h : Sane w) :
    Keeps w (after clear w) ∧ (after clear w).pos = 0 ∧
      ((after clear w).peak ≤ MAX_VALUE → clear w = .ok () (after clear w)) := by
  have hkeeps : ∀ (buffer : Option (List Byte)) {peak : ℤ}, w.peak ≤ peak →
      ((buffer.getD []).length : ℤ) ≤ MAX_VALUE → Keeps w { w with pos := 0, buffer, peak } :=
    fun _ _ hpeak hlen => ⟨⟨h.initialSize_nonneg, h.initialSize_le, le_refl 0, by simp; omega, hlen,
      fun _ => rfl⟩, rfl, rfl, hpeak⟩
  have hlen := h.length_le
  rcases hb : w.buffer with _ | b
  · have hrun := clear_none hb
    rw [after_ok hrun]
    exact ⟨hkeeps w.buffer (le_refl _) hlen, rfl, fun _ => hrun⟩
  · rw [bytes_some hb] at hlen
    have hrun := clear_some hb
    simp only at hrun
    have hpeak : w.peak ≤ max w.peak (w.initialSize * 8) := le_max_left _ _
    have hsame := hkeeps (some b) hpeak hlen
    rw [← hb] at hsame
    split at hrun
    case isTrue hbig =>
      split at hrun
      case isTrue h0 =>
        rw [after_ok hrun]
        refine ⟨hkeeps (some _) hpeak ?_, rfl, fun _ => hrun⟩
        have := jint_le (w.initialSize * 8)
        rw [Option.getD_some, List.length_replicate]
        omega
      case isFalse h0 =>
        rw [after_error hrun]
        refine ⟨hsame, rfl, fun hle => absurd ?_ h0⟩
        have hinit := h.initialSize_nonneg
        rw [jint_of_range (by omega) ((le_max_right _ _).trans hle)]
        omega
    case isFalse hbig =>
      rw [after_ok hrun]
      exact ⟨hsame, rfl, fun _ => hrun⟩

theorem close_run (h : Sane w) : Keeps w { w with pos := 0, buffer := none } where
  sane :=
    { initialSize_nonneg := h.initialSize_nonneg
      initialSize_le := h.initialSize_le
      pos_nonneg := le_refl 0
      pos_le := by simp
      length_le := by simp [MAX_VALUE]
      pos_null := fun _ => rfl }
  initialSize_eq := rfl
  isBigEndian_eq := rfl
  peak_le := le_refl _

/-- `toByteArray` returns the bytes below `pos`. -/
theorem toByteArray_run (h : Sane w) (hin : w.pos ≤ w.bytes.length) :
    toByteArray w = .ok w.written w := by
  have h0 := h.pos_nonneg
  obtain ⟨initialSize, buffer, pos, e, peak⟩ := w
  rw [toByteArray]
  rw [bind_ok (get_run _)]
  rcases buffer with _ | b
  · simp [written, bytes]
    rfl
  · simp only at h0
    rw [bytes_some rfl] at hin
    simp only at hin ⊢
    split
    case isTrue hp =>
      subst hp
      rfl
    case isFalse hp =>
      have hcopy := arraycopy_front (b := b) h0 hin (le_refl pos)
      rw [bind_ok (newArray_ok h0 _), eval_ok hcopy]
      simp [written, bytes]

/-- What a fresh writer holds once a method has written its chunks. -/
theorem Writes.toByteArray_new {size : ℤ} {order : ByteOrder} {m : Out Unit} {cs : List Chunk}
    (hm : Writes (order == .BIG_ENDIAN) m cs) (h0 : 0 ≤ size) (h : size ≤ MAX_VALUE)
    (hok : m (new size order) = .ok () w) :
    toByteArray w = .ok (flat cs) w ∧ (flat cs).length ≤ MAX_VALUE := by
  rcases hm.run (new_sane h0 h order) rfl with ⟨w', hrun, hw⟩ | ⟨x, w', hrun, -⟩
  · rw [hok] at hrun
    cases hrun
    have hle := hw.pos_le (by simp [new])
    have hmax := hw.keeps.sane.length_le
    have hwritten : w.written = flat cs := hw.front
    refine ⟨by rw [toByteArray_run hw.keeps.sane hle, hwritten], ?_⟩
    rw [← hwritten, written, List.length_take]
    omega
  · rw [hok] at hrun
    cases hrun

/-! ## Runs -/

variable (bits) in
/-- Every call keeps what methods keep, however it ends. -/
theorem Call.keeps (c : Call) (h : Sane w) : Keeps w (after (c.run bits) w) := by
  cases c with
  | write c =>
    by_cases hacc : c.Accepted
    · rcases (c.writes bits hacc).run h rfl with ⟨w', hrun, hw⟩ | ⟨x, w', hrun, hk, -⟩
      · rw [Call.run, after_ok hrun]
        exact hw.keeps
      · rw [Call.run, after_error hrun]
        exact hk
    · obtain ⟨x, w', hrun, hs⟩ := c.rejected bits hacc h
      rw [Call.run, after_error hrun]
      exact hs.keeps
  | clear => exact (clear_run h).1
  | close => exact close_run h

/-- **One call**, if no capacity expression exceeds the `int` range. -/
theorem Call.step (c : Call) (h : Sane w) (hin : w.pos ≤ w.bytes.length) (he : w.isBigEndian = e)
    (hpeak : (after (c.run bits) w).peak ≤ MAX_VALUE) :
    (after (c.run bits) w).pos ≤ (after (c.run bits) w).bytes.length ∧
      (after (c.run bits) w).written = c.contents bits e w.written ∧
        (c.Accepted → ∃ w', c.run bits w = .ok () w') ∧
          (¬ c.Accepted → ∃ x w', c.run bits w = .error (.throws x) w') := by
  cases c with
  | write c =>
    change (after (c.run bits) w).peak ≤ MAX_VALUE at hpeak
    change (after (c.run bits) w).pos ≤ (after (c.run bits) w).bytes.length ∧
      (after (c.run bits) w).written = _ ∧ (c.Accepted → ∃ w', c.run bits w = .ok () w') ∧
        (¬ c.Accepted → ∃ x w', c.run bits w = .error (.throws x) w')
    by_cases hacc : c.Accepted
    · rcases (c.writes bits hacc).run h he with ⟨w', hrun, hw⟩ | ⟨x, w', hrun, -, hbad⟩
      · rw [after_ok hrun, Call.contents, if_pos hacc]
        exact ⟨hw.pos_le hin, hw.front, fun _ => ⟨w', hrun⟩, absurd hacc⟩
      · rw [after_error hrun] at hpeak
        have := hbad hpeak
        omega
    · obtain ⟨x, w', hrun, hs⟩ := c.rejected bits hacc h
      rw [after_error hrun, Call.contents, if_neg hacc, written, written, hs.pos_eq]
      exact ⟨hs.pos_le hin, hs.front, fun hn => absurd hn hacc, fun _ => ⟨x, w', hrun⟩⟩
  | clear =>
    obtain ⟨-, hpos, hok⟩ := clear_run h
    refine ⟨?_, ?_, fun _ => ⟨_, hok hpeak⟩, fun hn => absurd trivial hn⟩
    · rw [Call.run, hpos]
      omega
    · rw [Call.run, written, hpos]
      rfl
  | close => exact ⟨le_refl 0, rfl, fun _ => ⟨_, rfl⟩, fun hn => absurd trivial hn⟩

/-- Peaks do not fall along a run. -/
theorem peak_le_runAll (calls : List Call) : ∀ {w : ByteArrayObjectDataOutput}, Sane w →
    w.peak ≤ (runAll bits calls w).peak := by
  induction calls with
  | nil => exact fun _ => le_refl _
  | cons c calls ih =>
    intro w h
    have hk := c.keeps bits h
    exact hk.peak_le.trans (ih hk.sane)

/-- A run, from any writer. -/
theorem runAll_contents (calls : List Call) : ∀ {w : ByteArrayObjectDataOutput}, Sane w →
    w.pos ≤ w.bytes.length → w.isBigEndian = e → (runAll bits calls w).peak ≤ MAX_VALUE →
      Behaves bits calls w ∧ toByteArray (runAll bits calls w) =
        .ok (contents bits e w.written calls) (runAll bits calls w) := by
  induction calls with
  | nil => exact fun h hin _ _ => ⟨trivial, toByteArray_run h hin⟩
  | cons c calls ih =>
    intro w h hin he hpeak
    have hk := c.keeps bits h
    obtain ⟨hin', hwritten, hacc, hrej⟩ :=
      c.step h hin he ((peak_le_runAll calls hk.sane).trans hpeak)
    obtain ⟨hbehaves, hbytes⟩ := ih hk.sane hin' (hk.isBigEndian_eq.trans he) hpeak
    rw [hwritten] at hbytes
    exact ⟨⟨hacc, hrej, hbehaves⟩, hbytes⟩

/-- **Append semantics**: whatever the initial size, as long as no capacity expression exceeds the
`int` range every accepted call returns, and `toByteArray` is the concatenation of the encodings of
the writes since the last `clear` or `close`. -/
theorem toByteArray_runAll (bits : Bits) {size : ℤ} (h0 : 0 ≤ size) (h : size ≤ MAX_VALUE)
    (order : ByteOrder) (calls : List Call)
    (hpeak : (runAll bits calls (new size order)).peak ≤ MAX_VALUE) :
    Behaves bits calls (new size order) ∧
      toByteArray (runAll bits calls (new size order)) =
        .ok (contents bits (order == .BIG_ENDIAN) [] calls) (runAll bits calls (new size order)) :=
  runAll_contents calls (new_sane h0 h order) (by rw [bytes_some rfl]; simp [new]) rfl hpeak

/-- A writer without initial room, closed and used again. -/
theorem toByteArray_runAll_reused :
    toByteArray (runAll Bits.standard
        [.write (.writeInt 7 none), .close, .write (.writeUTF (some [0x41, 0xE9]))]
        (new 0 .BIG_ENDIAN)) =
      .ok [0, 0, 0, 2, 0x41, 0xC3, 0xA9] (runAll Bits.standard
        [.write (.writeInt 7 none), .close, .write (.writeUTF (some [0x41, 0xE9]))]
        (new 0 .BIG_ENDIAN)) :=
  (toByteArray_runAll Bits.standard (le_refl 0) (by decide) .BIG_ENDIAN
    [.write (.writeInt 7 none), .close, .write (.writeUTF (some [0x41, 0xE9]))] (by decide)).2

/-- A range outside its array is refused by the guard of `write(b, off, len)`, with no capacity
expression evaluated. -/
theorem writeRange_outside_throws :
    (after (Write.run Bits.standard (.writeRange (some []) 0 1)) (new 0 .BIG_ENDIAN)).peak
        ≤ MAX_VALUE ∧
      Throws (Write.run Bits.standard (.writeRange (some []) 0 1)) (new 0 .BIG_ENDIAN)
        .IndexOutOfBoundsException :=
  ⟨by decide, _, rfl⟩

end ByteArrayObjectDataOutput

end HzResearch
