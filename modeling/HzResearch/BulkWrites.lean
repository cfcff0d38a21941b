import HzResearch.Capacity

/-!
# Rejected bulk writes

`write(b, off, len)` tests `off + len > b.length` on `int`s, where its sibling in the
reader subtracts. A sum that wraps is negative and passes; the copy fails later, but by
then `ensureAvailable` may have replaced the buffer, or thrown for want of one. A range
of `b`, on the other hand, can be refused room although its end is an `int`.

`allOrNothing_iff` says when the method does what it says: it stores a range of `b`, and
throws an `IndexOutOfBoundsException` that leaves `pos` and the buffer as they were for
anything else.
-/

namespace HzResearch

open Java

/-- The exceptions that are an `IndexOutOfBoundsException`. -/
def Throwable.IsIndexOutOfBounds : Throwable → Prop
  | .IndexOutOfBoundsException => True
  | .ArrayIndexOutOfBoundsException | .StringIndexOutOfBoundsException => True
  | _ => False

namespace ByteArrayObjectDataOutput

variable {w w' : ByteArrayObjectDataOutput} {l : List Byte} {off len : ℤ}

/-- The range of `len` bytes from `off` on lies in `l`. -/
def InRange (l : List Byte) (off len : ℤ) : Prop := 0 ≤ off ∧ 0 ≤ len ∧ off + len ≤ l.length

instance : Decidable (InRange l off len) := inferInstanceAs (Decidable (_ ∧ _ ∧ _))

/-- An `IndexOutOfBoundsException` is thrown, with `pos` and the buffer as they were. -/
def RejectsCleanly (m : Out Unit) (w : ByteArrayObjectDataOutput) : Prop :=
  ∃ x w', m w = .error (.throws x) w' ∧ x.IsIndexOutOfBounds ∧ w'.pos = w.pos ∧
    w'.buffer = w.buffer

/-- `write(b, off, len)` stores a range of `b` whose end is an `int`, and rejects everything that is
not a range of `b`. -/
structure AllOrNothing (w : ByteArrayObjectDataOutput) (l : List Byte) (off len : ℤ) : Prop where
  /-- success -/
  succeeds_iff : w.pos + len ≤ MAX_VALUE →
    ((∃ w', writeRange (some l) off len w = .ok () w') ↔ InRange l off len)
  /-- failure -/
  rejects : ¬ InRange l off len → RejectsCleanly (writeRange (some l) off len) w

/-! ## Ranges -/

/-- There is nothing to store, or the bytes fit into the buffer or into the one allocated. -/
def Fits (w : ByteArrayObjectDataOutput) (len : ℤ) : Prop :=
  len = 0 ∨ w.pos + len ≤ w.bytes.length ∨
    (w.pos ≤ w.bytes.length ∧ w.pos + len ≤ w.extent.grown len)

instance : Decidable (w.Fits len) := inferInstanceAs (Decidable (_ ∨ _ ∨ _))

/-- A range of `b` is stored exactly if it fits. -/
theorem InRange.writeRange_iff (hr : InRange l off len) (h : Sane w) (hlen : len ≤ MAX_VALUE) :
    (∃ w', writeRange (some l) off len w = .ok () w') ↔ w.Fits len := by
  have hn := hr.2.1
  have hbytes : (((l.drop off.toNat).take len.toNat).length : ℤ) = len := by
    obtain ⟨hoff, -, hin⟩ := hr
    rw [List.length_take, List.length_drop]
    omega
  have hwrites := writeRange_writes (e := w.isBigEndian) hr.1 hr.2.1 hr.2.2
  rw [(hwrites.takes (fun c hc => ?_) h rfl).iff, Fits]
  swap
  · split at hc
    · cases hc
    · rw [List.mem_singleton.1 hc]
      exact hbytes.trans_le hlen
  by_cases h0 : len = 0
  · rw [if_pos h0]
    exact iff_of_true trivial (.inl h0)
  -- one chunk of `len` bytes
  · rw [if_neg h0]
    simp only [Extent.HoldsAll, Chunk.exact, hbytes, and_true, Extent.Holds, extent_limit,
      extent_pos]
    split
    · omega
    · omega

/-! ## Everything else -/

theorem rejectsCleanly_iff {m : Out Unit} {x : Throwable} (hrun : m w = .error (.throws x) w') :
    RejectsCleanly m w ↔ x.IsIndexOutOfBounds ∧ w'.pos = w.pos ∧ w'.buffer = w.buffer := by
  constructor
  · rintro ⟨y, w'', hrun', hclean⟩
    rw [hrun] at hrun'
    cases hrun'
    exact hclean
  · exact fun hclean => ⟨x, w', hrun, hclean⟩

/-- A buffer that `ensureAvailable` allocates is not the one before. -/
theorem buffer_regrown_ne (h : Sane w) (h0 : 0 < len) (hlen : len ≤ MAX_VALUE)
    (hfits : w.pos ≤ w.bytes.length) (hcap : w.pos ≤ w.newCapacity len)
    (peak : ℤ) : (w.regrown (w.newCapacity len) peak).buffer ≠ w.buffer := by
  rcases hb : w.buffer with _ | b
  · exact Option.some_ne_none _
  · have hmax := h.length_le
    have hgrown := length_regrown h hfits hcap peak
    rw [bytes_some hb] at hmax
    intro heq
    have hlt := length_lt_grownCapacity hmax h0 hlen (by
      rw [← newCapacity_some hb]
      exact h.pos_nonneg.trans hcap)
    rw [bytes_some heq, newCapacity_some hb] at hgrown
    omega

/-- What slips through the guard leaves no trace: the room is left in the buffer, or `pos` is behind
it and there is memory for a new one, so that the copy of the growth fails. -/
def Undisturbed (w : ByteArrayObjectDataOutput) (len : ℤ) : Prop :=
  len ≤ w.bytes.length - w.pos ∨ ((w.bytes.length : ℤ) < w.pos ∧ 0 ≤ w.extent.grown len)

instance : Decidable (w.Undisturbed len) := inferInstanceAs (Decidable (_ ∨ _))

/-- A range whose end wraps. -/
theorem rejectsCleanly_wrapped (h : Sane w) (hoff : 0 ≤ off) (h0 : 0 < len) (hlen : len ≤ MAX_VALUE)
    (hguard : jint (off + len) ≤ l.length) (hout : (l.length : ℤ) < off + len) :
    RejectsCleanly (writeRange (some l) off len) w ↔ w.Undisturbed len := by
  rw [Undisturbed, ← available_eq h]
  rcases ensureAvailable_spec h len with
    ⟨hleft, hrun⟩ | ⟨hn, peak, -, -, ⟨hfits, hcap, hrun⟩ | ⟨hno, hrun⟩⟩
  -- nothing is allocated
  · obtain ⟨b, hb⟩ := ensureAvailable_buffer h h0 hrun
    rw [rejectsCleanly_iff (writeRange_wrapped hoff h0 hguard hout hrun hb)]
    exact iff_of_true ⟨trivial, rfl, rfl⟩ (.inl hleft)
  -- the buffer is replaced before the copy fails
  · obtain ⟨b, hb⟩ := ensureAvailable_buffer h h0 hrun
    rw [rejectsCleanly_iff (writeRange_wrapped hoff h0 hguard hout hrun hb)]
    refine iff_of_false ?_ (by omega)
    rintro ⟨-, -, hsame⟩
    exact buffer_regrown_ne h h0 hlen hfits hcap peak hsame
  -- the reservation itself throws
  · rw [rejectsCleanly_iff (writeRange_unreserved hoff h0 hguard hrun), refusal]
    have hgrown := (newCapacity_extent h hn hlen).le_iff (le_refl 0)
    split
    case isTrue hcap =>
      -- the copy of the growth, which needs a `pos` behind the buffer
      refine iff_of_true ⟨trivial, rfl, rfl⟩ (.inr ⟨?_, hgrown.1 hcap⟩)
      by_contra hle
      have hfits : w.pos ≤ w.bytes.length := by omega
      exact hno ⟨hfits, hfits.trans (length_le_newCapacity h hfits hn hlen hcap)⟩
    case isFalse hcap =>
      refine iff_of_false (fun hclean => hclean.1) ?_
      rintro (hleft | ⟨-, hpos⟩)
      · omega
      · exact hcap (hgrown.2 hpos)

/-- **When a bulk write is all or nothing**, in every reachable writer: a range of `b` whose end is
an `int` must fit; for anything else the end of the range must be an `int`, or what slips through
the guard must leave no trace. -/
theorem allOrNothing_iff (bits : Bits) (h : Reachable bits w) (hl : l.length ≤ MAX_VALUE)
    (off len : BitVec 32) :
    AllOrNothing w l off.toInt len.toInt ↔
      if InRange l off.toInt len.toInt then
        w.pos + len.toInt ≤ MAX_VALUE → w.Fits len.toInt
      else off.toInt + len.toInt ≤ MAX_VALUE ∨ w.Undisturbed len.toInt := by
  have hoff := BitVec.toInt_lt (x := off)
  have hlt := BitVec.toInt_lt (x := len)
  have hlen : len.toInt ≤ MAX_VALUE := by
    rw [MAX_VALUE]
    omega
  split
  case isTrue hr =>
    have hiff := hr.writeRange_iff h.sane hlen
    constructor
    · exact fun hall hmax => hiff.1 ((hall.succeeds_iff hmax).2 hr)
    · intro hfits
      exact ⟨fun hmax => iff_of_true (hiff.2 (hfits hmax)) hr, fun hn => absurd hr hn⟩
  case isFalse hr =>
    -- what is left is whether the exception is clean
    have hall : AllOrNothing w l off.toInt len.toInt ↔
        RejectsCleanly (writeRange (some l) off.toInt len.toInt) w := by
      refine ⟨fun hall => hall.rejects hr,
        fun hclean => ⟨fun _ => iff_of_false ?_ hr, fun _ => hclean⟩⟩
      rintro ⟨w', hrun⟩
      obtain ⟨x, w'', hrun', -⟩ := hclean
      rw [hrun] at hrun'
      cases hrun'
    rw [hall]
    by_cases hsum : off.toInt + len.toInt ≤ MAX_VALUE
    · have hguard : off.toInt < 0 ∨ len.toInt < 0 ∨
          (l.length : ℤ) < jint (off.toInt + len.toInt) := by
        by_contra hpass
        rw [jint_of_range (by omega) hsum] at hpass
        exact hr ⟨by omega, by omega, by omega⟩
      rw [rejectsCleanly_iff (writeRange_guarded hguard w)]
      exact iff_of_true ⟨trivial, rfl, rfl⟩ (.inl hsum)
    -- the sum is negative
    · have hguard : jint (off.toInt + len.toInt) ≤ l.length := by
        rw [jint_wrap (by omega) (by rw [MAX_VALUE]; omega), MAX_VALUE] at *
        omega
      rw [MAX_VALUE] at hsum hl
      rw [rejectsCleanly_wrapped h.sane (by omega) (by omega) hlen hguard (by omega),
        or_iff_right (by rwa [MAX_VALUE])]

/-- Two of three bytes, and three of them from the second on. -/
theorem allOrNothing_three :
    AllOrNothing (new 2 .BIG_ENDIAN) [1, 2, 3] (BitVec.toInt 1#32) (BitVec.toInt 2#32) ∧
      AllOrNothing (new 2 .BIG_ENDIAN) [1, 2, 3] (BitVec.toInt 1#32) (BitVec.toInt 3#32) := by
  have hnew : Reachable Bits.standard (new 2 .BIG_ENDIAN) := .new (by decide) (by decide) _
  exact ⟨(allOrNothing_iff Bits.standard hnew (by decide) 1 2).2 (by decide),
    (allOrNothing_iff Bits.standard hnew (by decide) 1 3).2 (by decide)⟩

/-- One byte from index 2^31 - 1 on slips through: the exception comes from the copy, after an
empty buffer has been replaced. -/
theorem not_allOrNothing_far :
    Reachable Bits.standard (new 0 .BIG_ENDIAN) ∧
      ¬ AllOrNothing (new 0 .BIG_ENDIAN) [1] (BitVec.toInt 0x7FFFFFFF#32) (BitVec.toInt 1#32) := by
  have hnew : Reachable Bits.standard (new 0 .BIG_ENDIAN) := .new (by decide) (by decide) _
  refine ⟨hnew, fun hall => ?_⟩
  have hclean := (rejectsCleanly_wrapped hnew.sane (by decide) (by decide) (by decide) (by decide)
    (by decide)).1 (hall.rejects (by decide))
  revert hclean
  decide

end ByteArrayObjectDataOutput

end HzResearch
