import HzResearch.DataOutput

/-!
# Reserving room in the writer

The primitives of the writer as equations, and what `ensureAvailable` does to a
writer that is `Sane`: nothing, or a new buffer with the bytes below `pos` and zeros
behind them (`ensureAvailable_spec`).
-/

namespace HzResearch

open Java Utf8

namespace ByteArrayObjectDataOutput

variable {w w' : ByteArrayObjectDataOutput} {b b' : List Byte}

/-! ## Running the primitives -/

/-- The array `buffer`, empty for null. -/
def bytes (w : ByteArrayObjectDataOutput) : List Byte := w.buffer.getD []

@[simp] theorem bytes_some (h : w.buffer = some b) : w.bytes = b := by
  rw [bytes, h]
  rfl

@[simp] theorem bytes_none (h : w.buffer = none) : w.bytes = [] := by
  rw [bytes, h]
  rfl

theorem capacity_run (x : ℤ) (w : ByteArrayObjectDataOutput) :
    capacity x w = .ok (jint x) { w with peak := max w.peak x } := rfl

theorem advance_run (n : ℤ) (w : ByteArrayObjectDataOutput) :
    advance n w = .ok () { w with pos := w.pos + n } := rfl

theorem onBuffer_ok {α : Type} {m : Java (List Byte) α} {a : α} (h : w.buffer = some b)
    (hm : m b = .ok a b') : onBuffer m w = .ok a { w with buffer := some b' } := by
  rw [onBuffer, h]
  simp only [hm]

theorem onBuffer_error {α : Type} {m : Java (List Byte) α} {e : Stop} (h : w.buffer = some b)
    (hm : m b = .error e b') : onBuffer m w = .error e { w with buffer := some b' } := by
  rw [onBuffer, h]
  simp only [hm]

theorem onBuffer_none {α : Type} {m : Java (List Byte) α} (h : w.buffer = none) :
    onBuffer m w = .error (.throws .NullPointerException) w := by
  rw [onBuffer, h]

/-! ## Reserving room -/

/-- The capacity `ensureAvailable` asks for where the buffer is full. -/
def grownCapacity (b : List Byte) (len : ℤ) : ℤ :=
  max (jint (b.length * 2)) (jint (b.length + len))

/-- The capacity `ensureAvailable` asks for where there is no buffer. -/
def freshCapacity (initialSize len : ℤ) : ℤ :=
  if len > initialSize.tdiv 2 then jint (len * 2) else initialSize

/-- A buffer that is replaced grows: an expression that wraps is negative. -/
theorem length_lt_grownCapacity {len : ℤ} (hb : b.length ≤ MAX_VALUE) (h0 : 0 < len)
    (hlen : len ≤ MAX_VALUE) (h : 0 ≤ grownCapacity b len) : b.length < grownCapacity b len := by
  rw [grownCapacity] at h ⊢
  by_cases hsum : b.length + len ≤ MAX_VALUE
  · refine lt_max_of_lt_right ?_
    rw [jint_of_range (by omega) hsum]
    omega
  · -- the sum has wrapped, so twice the length has not
    have hwrap : jint (b.length + len) < 0 := by
      rw [jint_wrap (by omega) (by omega)]
      unfold MAX_VALUE at *
      omega
    refine lt_max_of_lt_left ?_
    by_cases hfit : (b.length * 2 : ℤ) ≤ MAX_VALUE
    · rw [jint_of_range (by omega) hfit]
      omega
    · rw [jint_wrap (x := b.length * 2) (by omega) (by omega)] at h
      unfold MAX_VALUE at *
      omega

/-- `ensureAvailable` with the capacity expressions in a record. -/
theorem ensureAvailable_run (len : ℤ) (w : ByteArrayObjectDataOutput) :
    ensureAvailable len w =
      if w.available < len then
        match w.buffer with
        | some b =>
          let peak := max (max w.peak (b.length * 2)) (b.length + len)
          if 0 ≤ grownCapacity b len then
            match arraycopy b 0 (List.replicate (grownCapacity b len).toNat 0) 0 w.pos with
            | .ok b' => .ok () { w with buffer := some b', peak }
            | .error e => .error (.throws e) { w with peak }
          else .error (.throws .NegativeArraySizeException) { w with peak }
        | none =>
          let peak := if len > w.initialSize.tdiv 2 then max w.peak (len * 2) else w.peak
          if 0 ≤ freshCapacity w.initialSize len then
            .ok () { w with
              buffer := some (List.replicate (freshCapacity w.initialSize len).toNat 0), peak }
          else .error (.throws .NegativeArraySizeException) { w with peak }
      else .ok () w := by
  obtain ⟨initialSize, buffer, pos, isBigEndian, peak⟩ := w
  rw [ensureAvailable]
  rw [bind_ok (get_run _)]
  split
  case isFalse => rfl
  case isTrue =>
    -- both branches end with an allocation
    have hnew : ∀ (cap : ℤ) (w : ByteArrayObjectDataOutput),
        (do
          let newBuffer ← newArray 0 cap
          modify fun w => { w with buffer := some newBuffer } : Out Unit) w =
        if 0 ≤ cap then .ok () { w with buffer := some (List.replicate cap.toNat 0) }
        else .error (.throws .NegativeArraySizeException) w := by
      intro cap w
      split
      case isTrue h0 => rw [bind_ok (newArray_ok h0 _)]; rfl
      case isFalse h0 => rw [newArray, if_neg h0]; rfl
    rcases buffer with _ | b
    · simp only [freshCapacity]
      by_cases hl : len > initialSize.tdiv 2
      · simp only [if_pos hl]
        rw [bind_ok (capacity_run _ _)]
        exact hnew _ _
      · simp only [if_neg hl]
        rw [bind_ok (pure_run _ _)]
        exact hnew _ _
    · simp only
      rw [bind_ok (capacity_run _ _), bind_ok (capacity_run _ _)]
      change (newArray 0 (grownCapacity b len) >>= _ : Out Unit) _ = _
      split
      case isTrue h0 =>
        rw [bind_ok (newArray_ok h0 _)]
        rcases arraycopy b 0 (List.replicate (grownCapacity b len).toNat 0) 0 pos with e | b' <;>
          rfl
      case isFalse h0 => rw [newArray, if_neg h0]; rfl

/-- What holds of every writer that methods have been called on, also where some of them threw. -/
structure Sane (w : ByteArrayObjectDataOutput) : Prop where
  /-- `initialSize` is not negative -/
  initialSize_nonneg : 0 ≤ w.initialSize
  /-- `initialSize` is an `int` -/
  initialSize_le : w.initialSize ≤ MAX_VALUE
  /-- `pos` is not negative -/
  pos_nonneg : 0 ≤ w.pos
  /-- `pos` is inside the buffer, or one further after `buffer[pos++]` has failed -/
  pos_le : w.pos ≤ w.bytes.length + 1
  /-- `buffer` is a Java array -/
  length_le : w.bytes.length ≤ MAX_VALUE
  /-- without a buffer nothing is written -/
  pos_null : w.buffer = none → w.pos = 0

theorem available_eq (h : Sane w) : w.available = w.bytes.length - w.pos := by
  have h0 := h.pos_nonneg
  have h1 := h.pos_le
  have h2 := h.length_le
  rcases hb : w.buffer with _ | b
  · rw [available, hb, bytes_none hb, h.pos_null hb]
    rfl
  · rw [bytes_some hb] at h1 h2 ⊢
    rw [available, hb]
    unfold MAX_VALUE at h2
    exact jint_of_range (by omega) (by rw [MAX_VALUE]; omega)

/-- A new buffer with the bytes below `pos` copied. -/
theorem arraycopy_front {cap pos : ℤ} (h0 : 0 ≤ pos) (hb : pos ≤ b.length) (hcap : pos ≤ cap) :
    arraycopy b 0 (List.replicate cap.toNat 0) 0 pos =
      .ok (b.take pos.toNat ++ List.replicate (cap - pos).toNat 0) := by
  have hlen : (b.take pos.toNat).length = pos.toNat := by
    rw [List.length_take]
    omega
  rw [arraycopy_ok (le_refl 0) (le_refl 0) h0 (by omega) (by rw [List.length_replicate]; omega)]
  simp only [splice, Int.toNat_zero, List.drop_zero, List.take_zero, List.nil_append, Nat.zero_add,
    hlen, List.drop_replicate]
  congr 3
  omega

/-- The copy into a new buffer fails behind the old one, or if the new one is too short. -/
theorem arraycopy_grown {cap pos : ℤ} (h0 : 0 ≤ cap) :
    arraycopy b 0 (List.replicate cap.toNat 0) 0 pos =
      if 0 ≤ pos ∧ pos ≤ b.length ∧ pos ≤ cap then
        .ok (b.take pos.toNat ++ List.replicate (cap - pos).toNat 0)
      else .error .ArrayIndexOutOfBoundsException := by
  split
  case isTrue h => exact arraycopy_front h.1 h.2.1 h.2.2
  case isFalse h =>
    rw [arraycopy, if_neg]
    rintro ⟨-, -, hpos, hle, hcap⟩
    rw [List.length_replicate] at hcap
    omega

theorem ensureAvailable_room {len : ℤ} (h : len ≤ w.available) :
    ensureAvailable len w = .ok () w := by
  rw [ensureAvailable_run, if_neg (by omega)]

/-- Without a buffer one is allocated. -/
theorem ensureAvailable_none {len : ℤ} (hb : w.buffer = none) (h : w.available < len) :
    ∃ peak, w.peak ≤ peak ∧
      (peak ≤ MAX_VALUE → 0 ≤ len → 0 ≤ w.initialSize →
        len ≤ freshCapacity w.initialSize len) ∧
      ensureAvailable len w =
        if 0 ≤ freshCapacity w.initialSize len then
          .ok () { w with
            buffer := some (List.replicate (freshCapacity w.initialSize len).toNat 0), peak }
        else .error (.throws .NegativeArraySizeException) { w with peak } := by
  refine ⟨if len > w.initialSize.tdiv 2 then max w.peak (len * 2) else w.peak,
    by split <;> omega, ?_, ?_⟩
  · intro hpeak hlen hinit
    have hhalf : w.initialSize.tdiv 2 = w.initialSize / 2 := Int.tdiv_eq_ediv_of_nonneg hinit
    rw [freshCapacity]
    split
    case isTrue hgt =>
      rw [if_pos hgt] at hpeak
      rw [jint_of_range (by omega) (by omega)]
      omega
    case isFalse hgt => omega
  · rw [ensureAvailable_run, if_pos h, hb]

/-- A full buffer is copied into a larger one. -/
theorem ensureAvailable_some {len : ℤ} (hb : w.buffer = some b) (h : w.available < len) :
    ∃ peak, w.peak ≤ peak ∧
      (peak ≤ MAX_VALUE → 0 ≤ len → b.length + len ≤ grownCapacity b len) ∧
      ensureAvailable len w =
        if 0 ≤ grownCapacity b len then
          if 0 ≤ w.pos ∧ w.pos ≤ b.length ∧ w.pos ≤ grownCapacity b len then
            .ok () { w with
              buffer := some (b.take w.pos.toNat ++
                List.replicate (grownCapacity b len - w.pos).toNat 0)
              peak }
          else .error (.throws .ArrayIndexOutOfBoundsException) { w with peak }
        else .error (.throws .NegativeArraySizeException) { w with peak } := by
  refine ⟨max (max w.peak (b.length * 2)) (b.length + len), by omega, ?_, ?_⟩
  · intro hpeak hlen
    have hsum : jint (b.length + len) = b.length + len := jint_of_range (by omega) (by omega)
    rw [← hsum]
    exact le_max_right _ _
  rw [ensureAvailable_run, if_pos h, hb]
  by_cases h0 : 0 ≤ grownCapacity b len
  · simp only [if_pos h0, arraycopy_grown h0]
    by_cases hcopy : 0 ≤ w.pos ∧ w.pos ≤ b.length ∧ w.pos ≤ grownCapacity b len
    · simp only [if_pos hcopy]
    · simp only [if_neg hcopy]
  · simp only [if_neg h0]

/-- The capacity `ensureAvailable` asks for. -/
def newCapacity (w : ByteArrayObjectDataOutput) (len : ℤ) : ℤ :=
  w.buffer.elim (freshCapacity w.initialSize len) (grownCapacity · len)

theorem newCapacity_some (hb : w.buffer = some b) (len : ℤ) :
    w.newCapacity len = grownCapacity b len := by
  rw [newCapacity, hb]
  rfl

theorem newCapacity_none (hb : w.buffer = none) (len : ℤ) :
    w.newCapacity len = freshCapacity w.initialSize len := by
  rw [newCapacity, hb]
  rfl

theorem newCapacity_le (h : Sane w) (len : ℤ) : w.newCapacity len ≤ MAX_VALUE := by
  rcases hb : w.buffer with _ | b
  · rw [newCapacity_none hb, freshCapacity]
    split
    · exact jint_le _
    · exact h.initialSize_le
  · rw [newCapacity_some hb]
    exact max_le (jint_le _) (jint_le _)

/-- The writer once its buffer is replaced by one of this length. -/
def regrown (w : ByteArrayObjectDataOutput) (cap peak : ℤ) : ByteArrayObjectDataOutput :=
  { w with
    buffer := some (w.bytes.take w.pos.toNat ++ List.replicate (cap - w.pos).toNat 0)
    peak }

section Regrown

variable {cap : ℤ} (h : Sane w) (hfits : w.pos ≤ w.bytes.length)

include h hfits

theorem length_take_pos : (w.bytes.take w.pos.toNat).length = w.pos.toNat := by
  have h0 := h.pos_nonneg
  rw [List.length_take]
  omega

theorem length_regrown (hcap : w.pos ≤ cap) (peak : ℤ) :
    ((w.regrown cap peak).bytes.length : ℤ) = cap := by
  have h0 := h.pos_nonneg
  rw [regrown, bytes_some rfl, List.length_append, length_take_pos h hfits, List.length_replicate]
  omega

theorem take_regrown (cap peak : ℤ) :
    (w.regrown cap peak).bytes.take w.pos.toNat = w.bytes.take w.pos.toNat := by
  rw [regrown, bytes_some rfl, List.take_left' (length_take_pos h hfits)]

/-- Behind `pos` the new buffer is blank. -/
theorem getD_regrown (cap peak : ℤ) {i : ℕ} (hi : w.pos.toNat ≤ i) :
    (w.regrown cap peak).bytes.getD i 0 = 0 := by
  have hpre := length_take_pos h hfits
  rw [regrown, bytes_some rfl, List.getD_eq_getElem?_getD, List.getElem?_append_right (by omega),
    List.getElem?_replicate]
  split <;> rfl

/-- A reservation does not shrink the buffer. -/
theorem length_le_newCapacity {len : ℤ} (hn : w.available < len) (hlen : len ≤ MAX_VALUE)
    (hcap : 0 ≤ w.newCapacity len) : w.bytes.length ≤ w.newCapacity len := by
  have hmax := h.length_le
  rw [available_eq h] at hn
  rcases hb : w.buffer with _ | b
  · rwa [bytes_none hb]
  · rw [newCapacity_some hb] at hcap ⊢
    rw [bytes_some hb] at hmax hn hfits ⊢
    exact (length_lt_grownCapacity hmax (by omega) hlen hcap).le

end Regrown

/-- What `ensureAvailable` throws: the copy into the new buffer fails, or there is none. -/
def refusal (w : ByteArrayObjectDataOutput) (len : ℤ) : Throwable :=
  if 0 ≤ w.newCapacity len then .ArrayIndexOutOfBoundsException else .NegativeArraySizeException

/-- **What `ensureAvailable` does**: nothing, or a new buffer with the bytes below `pos` and zeros
behind them, or an exception. As long as no capacity expression exceeds the `int` range the new
buffer has the room asked for. -/
theorem ensureAvailable_spec (h : Sane w) (len : ℤ) :
    (len ≤ w.available ∧ ensureAvailable len w = .ok () w) ∨
    (w.available < len ∧ ∃ peak, w.peak ≤ peak ∧
      (peak ≤ MAX_VALUE → 0 ≤ len → w.bytes.length + len ≤ w.newCapacity len) ∧
      ((w.pos ≤ w.bytes.length ∧ w.pos ≤ w.newCapacity len ∧
          ensureAvailable len w = .ok () (w.regrown (w.newCapacity len) peak)) ∨
        (¬ (w.pos ≤ w.bytes.length ∧ w.pos ≤ w.newCapacity len) ∧
          ensureAvailable len w = .error (.throws (w.refusal len)) { w with peak }))) := by
  rcases le_or_gt len w.available with havail | havail
  · exact .inl ⟨havail, ensureAvailable_room havail⟩
  refine .inr ⟨havail, ?_⟩
  have hpos := h.pos_nonneg
  have hinit := h.initialSize_nonneg
  rcases hb : w.buffer with _ | b
  -- without a buffer nothing is copied
  · have hp := h.pos_null hb
    obtain ⟨peak, hle, hroom, hrun⟩ := ensureAvailable_none hb havail
    simp only [regrown, refusal, newCapacity_none hb, bytes_none hb, hp]
    refine ⟨peak, hle, fun hpeak hlen => ?_, ?_⟩
    · have hfresh := hroom hpeak hlen hinit
      simpa using hfresh
    by_cases h0 : 0 ≤ freshCapacity w.initialSize len
    · rw [if_pos h0] at hrun
      refine .inl ⟨le_refl 0, h0, ?_⟩
      rw [Int.sub_zero, List.take_nil, List.nil_append, ← hp]
      exact hrun
    · rw [if_neg h0] at hrun ⊢
      refine .inr ⟨fun hcap => h0 hcap.2, ?_⟩
      rw [hrun, hp, hb]
  · obtain ⟨peak, hle, hroom, hrun⟩ := ensureAvailable_some hb havail
    simp only [regrown, refusal, newCapacity_some hb, bytes_some hb]
    refine ⟨peak, hle, hroom, ?_⟩
    by_cases h0 : 0 ≤ grownCapacity b len
    swap
    · rw [if_neg h0] at hrun ⊢
      exact .inr ⟨fun hcap => h0 (hpos.trans hcap.2), by rw [hrun, hb]⟩
    rw [if_pos h0] at hrun ⊢
    by_cases hfits : w.pos ≤ b.length ∧ w.pos ≤ grownCapacity b len
    · rw [if_pos ⟨hpos, hfits⟩] at hrun
      exact .inl ⟨hfits.1, hfits.2, hrun⟩
    · rw [if_neg fun hcopy => hfits hcopy.2] at hrun
      exact .inr ⟨hfits, by rw [hrun, hb]⟩

end ByteArrayObjectDataOutput

end HzResearch
