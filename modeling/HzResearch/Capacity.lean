import HzResearch.Seek

/-!
# Capacity arithmetic

Six `int` expressions of the writer decide sizes, and all of them can wrap. Where
`ensureAvailable` allocates, a wrapped expression is negative; where `writeUTF` reserves
three bytes for every character, and in `clear`, it can also be positive and too small.

Whether a method completes depends on three numbers, `initialSize`, the length of the
buffer and `pos`: its `Extent`. `Extent.HoldsAll` walks the chunks of a method over the
extent, and `capacity_iff` is the theorem that a write completes exactly where they are
all held; it also says when `ensureAvailable` and `clear` complete. `writeAll_wraps` is a
failure of every writer that has no buffer.
-/

namespace HzResearch

open Java Utf8

namespace ByteArrayObjectDataOutput

/-! ## Extents -/

/-- The numbers that decide which methods complete. -/
structure Extent where
  /-- `initialSize` -/
  initialSize : ℤ
  /-- the length of `buffer`, none for null -/
  length : Option ℤ
  /-- `pos` -/
  pos : ℤ

/-- The extent of a writer. -/
def extent (w : ByteArrayObjectDataOutput) : Extent :=
  ⟨w.initialSize, w.buffer.map fun b => (b.length : ℤ), w.pos⟩

/-- A length, or -1 for a value that exceeds the `int` range. -/
def lengthOrWrapped (x : ℤ) : ℤ := if x ≤ MAX_VALUE then x else -1

namespace Extent

/-- The end of the buffer. -/
def limit (x : Extent) : ℤ := x.length.getD 0

/-- The length of the buffer that is allocated where `room` is not left, or -1. -/
def grown (x : Extent) (room : ℤ) : ℤ :=
  match x.length with
  | some length => max (lengthOrWrapped (length * 2)) (lengthOrWrapped (length + room))
  | none => if room ≤ x.initialSize / 2 then x.initialSize else lengthOrWrapped (room * 2)

/-- `n` bytes can be stored after `room` is reserved: in the buffer as it is if the room is left
there, and otherwise in the one allocated. -/
def Holds (x : Extent) (room n : ℤ) : Prop :=
  if room ≤ x.limit - x.pos then n = 0 ∨ x.pos + n ≤ x.limit
  else x.pos ≤ x.limit ∧ x.pos + n ≤ x.grown room

/-- The extent once `n` bytes are stored after `room` is reserved. -/
def next (x : Extent) (room n : ℤ) : Extent where
  initialSize := x.initialSize
  length := if room ≤ x.limit - x.pos then x.length else some (x.grown room)
  pos := x.pos + n

/-- Every chunk can be stored, one after the other. -/
def HoldsAll : Extent → List Chunk → Prop
  | _, [] => True
  | x, c :: cs => x.Holds c.room c.bytes.length ∧ (x.next c.room c.bytes.length).HoldsAll cs

/-- The extent once these chunks are stored. -/
def nextAll : Extent → List Chunk → Extent
  | x, [] => x
  | x, c :: cs => (x.next c.room c.bytes.length).nextAll cs

instance (x : Extent) (room n : ℤ) : Decidable (x.Holds room n) :=
  inferInstanceAs (Decidable (if room ≤ x.limit - x.pos then _ else _))

instance : ∀ (x : Extent) (cs : List Chunk), Decidable (x.HoldsAll cs)
  | _, [] => .isTrue trivial
  | x, c :: cs =>
    have := instDecidableHoldsAll (x.next c.room c.bytes.length) cs
    inferInstanceAs (Decidable (x.Holds c.room c.bytes.length ∧ _))

theorem holdsAll_append (x : Extent) (cs cs' : List Chunk) :
    x.HoldsAll (cs ++ cs') ↔ x.HoldsAll cs ∧ (x.nextAll cs).HoldsAll cs' := by
  induction cs generalizing x with
  | nil => simp [HoldsAll, nextAll]
  | cons c cs ih => rw [List.cons_append, HoldsAll, HoldsAll, nextAll, ih, and_assoc]

theorem nextAll_append (x : Extent) (cs cs' : List Chunk) :
    x.nextAll (cs ++ cs') = (x.nextAll cs).nextAll cs' := by
  induction cs generalizing x with
  | nil => rfl
  | cons c cs ih => rw [List.cons_append, nextAll, nextAll, ih]

end Extent

variable {bits : Bits} {e : Bool} {w w' : ByteArrayObjectDataOutput} {b bs : List Byte}

@[simp] theorem extent_pos : w.extent.pos = w.pos := rfl

@[simp] theorem extent_length : w.extent.length = w.buffer.map fun b => (b.length : ℤ) := rfl

@[simp] theorem extent_limit : w.extent.limit = w.bytes.length := by
  rcases hb : w.buffer with _ | b
  · rw [Extent.limit, extent_length, hb, bytes_none hb]
    rfl
  · rw [Extent.limit, extent_length, hb, bytes_some hb]
    rfl

theorem available_extent (h : Sane w) : w.available = w.extent.limit - w.extent.pos := by
  rw [available_eq h, extent_limit, extent_pos]

theorem grown_none (hb : w.buffer = none) (room : ℤ) : w.extent.grown room =
    if room ≤ w.initialSize / 2 then w.initialSize else lengthOrWrapped (room * 2) := by
  rw [extent, hb]
  rfl

theorem grown_some (hb : w.buffer = some b) (room : ℤ) : w.extent.grown room =
    max (lengthOrWrapped (b.length * 2)) (lengthOrWrapped (b.length + room)) := by
  rw [extent, hb]
  rfl

/-- Equal, or both negative. -/
def SameLength (x y : ℤ) : Prop := x = y ∨ (x < 0 ∧ y < 0)

theorem SameLength.max {a b c d : ℤ} (h : SameLength a c) (h' : SameLength b d) :
    SameLength (max a b) (max c d) := by
  unfold SameLength at *
  omega

theorem SameLength.le_iff {x y n : ℤ} (h : SameLength x y) (h0 : 0 ≤ n) : n ≤ x ↔ n ≤ y := by
  unfold SameLength at h
  omega

theorem SameLength.eq {x y : ℤ} (h : SameLength x y) (h0 : 0 ≤ x) : x = y := by
  unfold SameLength at h
  omega

/-- An expression that exceeds the `int` range once wraps to a negative value. -/
theorem jint_lengthOrWrapped {x : ℤ} (h0 : 0 ≤ x) (h : x ≤ MAX_VALUE + MAX_VALUE) :
    SameLength (jint x) (lengthOrWrapped x) := by
  rw [lengthOrWrapped]
  split
  case isTrue hfit => exact .inl (jint_of_range (by omega) hfit)
  case isFalse hbig =>
    refine .inr ⟨?_, by decide⟩
    rw [jint_wrap (by omega) h]
    unfold MAX_VALUE at h
    omega

/-- The capacity asked for is the one of the extent, as far as either can be allocated. -/
theorem newCapacity_extent (h : Sane w) {room : ℤ} (hn : w.available < room)
    (hroom : room ≤ MAX_VALUE) : SameLength (w.newCapacity room) (w.extent.grown room) := by
  have hinit := h.initialSize_nonneg
  have hmax := h.length_le
  have hle := h.pos_le
  rw [available_eq h] at hn
  have hnonneg : 0 ≤ room := by omega
  rcases hb : w.buffer with _ | b
  · have hhalf : w.initialSize.tdiv 2 = w.initialSize / 2 := Int.tdiv_eq_ediv_of_nonneg hinit
    rw [newCapacity_none hb, freshCapacity, grown_none hb, hhalf]
    by_cases hle : room ≤ w.initialSize / 2
    · rw [if_neg (not_lt.2 hle), if_pos hle]
      exact .inl rfl
    · rw [if_pos (not_le.1 hle), if_neg hle]
      exact jint_lengthOrWrapped (by omega) (by omega)
  · rw [bytes_some hb] at hmax
    rw [newCapacity_some hb, grownCapacity, grown_some hb]
    exact (jint_lengthOrWrapped (by omega) (by omega)).max
      (jint_lengthOrWrapped (by omega) (by omega))

/-! ## Running chunks -/

/-- The method completes where these chunks are held, and leaves their extent. -/
structure Takes (w : ByteArrayObjectDataOutput) (cs : List Chunk) (m : Out Unit) : Prop where
  /-- all are held -/
  completes : w.extent.HoldsAll cs → ∃ w', m w = .ok () w' ∧ w'.extent = w.extent.nextAll cs
  /-- one is not -/
  fails : ¬ w.extent.HoldsAll cs → ∃ x w', m w = .error x w'

theorem Takes.iff {cs : List Chunk} {m : Out Unit} (h : Takes w cs m) :
    (∃ w', m w = .ok () w') ↔ w.extent.HoldsAll cs := by
  constructor
  · rintro ⟨w', hrun⟩
    by_contra hn
    obtain ⟨x, w'', hrun'⟩ := h.fails hn
    rw [hrun] at hrun'
    cases hrun'
  · intro hall
    obtain ⟨w', hrun, -⟩ := h.completes hall
    exact ⟨w', hrun⟩

section Chunk

variable {room : ℤ} {m : Out Unit}

theorem Takes.completed (hc : w.extent.Holds room bs.length) (hrun : m w = .ok () w')
    (hw' : w'.extent = w.extent.next room bs.length) : Takes w [⟨room, bs⟩] m where
  completes _ := ⟨w', hrun, hw'⟩
  fails hn := absurd ⟨hc, trivial⟩ hn

theorem Takes.failed {x : Stop} (hc : ¬ w.extent.Holds room bs.length)
    (hrun : m w = .error x w') : Takes w [⟨room, bs⟩] m where
  completes hall := absurd hall.1 hc
  fails _ := ⟨x, w', hrun⟩

theorem extent_filled (h0 : 0 ≤ w.pos) (hin : w.pos + bs.length ≤ b.length) :
    (filled w b bs).extent = ⟨w.initialSize, some (b.length : ℤ), w.pos + bs.length⟩ := by
  have hlen : (splice b w.pos.toNat bs).length = b.length := length_splice (by omega)
  rw [extent, filled, Option.map_some, hlen]

theorem holds_left (bs : List Byte) (hleft : room ≤ w.available) (h : Sane w) :
    w.extent.Holds room bs.length ↔ bs = [] ∨ w.pos + bs.length ≤ w.bytes.length := by
  rw [available_extent h] at hleft
  rw [Extent.Holds, if_pos hleft, extent_pos, extent_limit, Int.natCast_eq_zero,
    List.length_eq_zero_iff]

theorem next_left (hleft : room ≤ w.available) (h : Sane w) (n : ℤ) :
    w.extent.next room n = ⟨w.initialSize, w.extent.length, w.pos + n⟩ := by
  rw [available_extent h] at hleft
  rw [Extent.next, if_pos hleft]
  rfl

/-- A chunk whose room is left. -/
theorem takes_left (hm : Fills e m bs) (h0 : 0 < room ∨ Refuses e m bs) (h : Sane w)
    (he : w.isBigEndian = e) (hleft : room ≤ w.available) : Takes w [⟨room, bs⟩] m := by
  have hpos := h.pos_nonneg
  have hholds := holds_left bs hleft h
  have hnext := next_left hleft h bs.length
  by_cases hroom : w.buffer = none ∨ (w.bytes.length : ℤ) < w.pos
  · -- nothing can be stored here
    have hout : (w.bytes.length : ℤ) ≤ w.pos := by
      rcases hroom with hnone | hlt
      · rw [bytes_none hnone]
        exact hpos
      · exact hlt.le
    rw [available_eq h] at hleft
    rcases h0 with h0 | h0
    · omega
    rcases h0 w he h hroom with ⟨rfl, hok⟩ | ⟨hne, x, w', hx, -⟩
    · refine .completed (hholds.2 (.inl rfl)) hok ?_
      rw [hnext, List.length_nil]
      simp [extent]
    · refine .failed (fun hc => ?_) hx
      rcases hholds.1 hc with hnil | hin
      · exact hne hnil
      · have := List.length_pos_iff.2 hne
        omega
  · rcases hb : w.buffer with _ | b
    · exact absurd (.inl hb) hroom
    rw [bytes_some hb] at hroom hholds
    by_cases hin : w.pos + bs.length ≤ b.length
    · refine .completed (hholds.2 (.inr hin)) (hm.fills he hb hpos hin) ?_
      rw [hnext, extent_filled hpos hin, extent_length, hb, Option.map_some]
    · obtain ⟨x, w', hx, -⟩ := hm.fails he hb hpos (by omega) (by omega)
      refine .failed (fun hc => ?_) hx
      rcases hholds.1 hc with rfl | hin'
      · rw [List.length_nil] at hin
        omega
      · exact hin hin'

theorem holds_grown (bs : List Byte) (hn : w.available < room) (h : Sane w) :
    w.extent.Holds room bs.length ↔
      w.pos ≤ w.bytes.length ∧ w.pos + bs.length ≤ w.extent.grown room := by
  rw [available_extent h] at hn
  rw [Extent.Holds, if_neg (not_le.2 hn), extent_pos, extent_limit]

theorem next_grown (hn : w.available < room) (h : Sane w) (n : ℤ) :
    w.extent.next room n = ⟨w.initialSize, some (w.extent.grown room), w.pos + n⟩ := by
  rw [available_extent h] at hn
  rw [Extent.next, if_neg (not_le.2 hn)]
  rfl

/-- A chunk in the buffer that is allocated for it. -/
theorem takes_replaced {v : ByteArrayObjectDataOutput} (hm : Fills e m bs) (h : Sane w)
    (hn : w.available < room) (hfits : w.pos ≤ w.bytes.length)
    (hcap : w.pos ≤ w.extent.grown room) (hrun : ensureAvailable room w = .ok () v)
    (he : v.isBigEndian = e) (hb : v.buffer = some b) (hinit : v.initialSize = w.initialSize)
    (hpos : v.pos = w.pos) (hlen : (b.length : ℤ) = w.extent.grown room) :
    Takes w [⟨room, bs⟩] (do ensureAvailable room; m) := by
  have hholds := holds_grown bs hn h
  have h0 := h.pos_nonneg
  rw [← hpos, ← hlen] at hcap
  rw [← hpos] at h0
  by_cases hin : v.pos + bs.length ≤ b.length
  · refine .completed (hholds.2 ⟨hfits, ?_⟩) ((bind_ok hrun).trans (hm.fills he hb h0 hin)) ?_
    · rwa [← hpos, ← hlen]
    · rw [next_grown hn h, extent_filled h0 hin, hinit, hpos, hlen]
  · obtain ⟨x, w', hx, -⟩ := hm.fails he hb h0 hcap (not_le.1 hin)
    refine .failed (fun hc => hin ?_) ((bind_ok hrun).trans hx)
    rw [hpos, hlen]
    exact (hholds.1 hc).2

/-- A chunk whose room is not left. -/
theorem takes_grown (hm : Fills e m bs) (h : Sane w) (he : w.isBigEndian = e)
    (hn : w.available < room) (hroom : room ≤ MAX_VALUE) :
    Takes w [⟨room, bs⟩] (do ensureAvailable room; m) := by
  have h0 := h.pos_nonneg
  rcases ensureAvailable_spec h room with
    ⟨hleft, -⟩ | ⟨-, peak, -, -, ⟨hfits, hcap, hrun⟩ | ⟨hno, hrun⟩⟩
  · exact absurd hn (not_lt.2 hleft)
  · have hlen := length_regrown h hfits hcap peak
    rw [(newCapacity_extent h hn hroom).eq (h0.trans hcap)] at hrun hlen hcap
    exact takes_replaced hm h hn hfits hcap hrun he rfl rfl rfl hlen
  · refine .failed (fun hc => hno ?_) (bind_error hrun)
    obtain ⟨hfits, hin⟩ := (holds_grown bs hn h).1 hc
    have hle : w.pos ≤ w.extent.grown room := by omega
    exact ⟨hfits, ((newCapacity_extent h hn hroom).le_iff h0).2 hle⟩

/-- **One chunk.** -/
theorem takes_chunk {g : Out ℤ} {c : Chunk} (hg : Reserves g c) (hm : Fills e m c.bytes)
    (h0 : 0 < c.room ∨ Refuses e m c.bytes) (h : Sane w) (he : w.isBigEndian = e)
    (hroom : c.room ≤ MAX_VALUE) : Takes w [c] (do ensureAvailable (← g); m) := by
  obtain ⟨peak, hpeak, hrun, -⟩ := hg w
  have hsane := (keeps_peak h hpeak).sane
  have htakes : Takes { w with peak } [c] (do ensureAvailable c.room; m) := by
    by_cases hleft : c.room ≤ available { w with peak }
    · have hmore :
          (do ensureAvailable c.room; m : Out Unit) { w with peak } = m { w with peak } := by
        rcases ensureAvailable_spec hsane c.room with ⟨-, hensure⟩ | ⟨hn, -⟩
        · exact bind_ok hensure
        · exact absurd hleft (not_le.2 hn)
      obtain ⟨hok, hfail⟩ := takes_left hm h0 hsane he hleft
      exact ⟨by rwa [hmore], by rwa [hmore]⟩
    · exact takes_grown hm hsane he (not_le.1 hleft) hroom
  obtain ⟨hok, hfail⟩ := htakes
  exact ⟨fun hall => by rw [bind_ok hrun]; exact hok hall,
    fun hn => by rw [bind_ok hrun]; exact hfail hn⟩

end Chunk

/-- **A method that is made of chunks.** -/
theorem Writes.takes {m : Out Unit} {cs : List Chunk} (hm : Writes e m cs)
    (hcs : ∀ c ∈ cs, c.room ≤ MAX_VALUE) :
    ∀ {w : ByteArrayObjectDataOutput}, Sane w → w.isBigEndian = e → Takes w cs m := by
  induction hm with
  | nothing => exact fun h _ => ⟨fun _ => ⟨_, rfl, rfl⟩, fun hn => absurd trivial hn⟩
  | chunk hg hm h0 =>
    exact fun h he => takes_chunk hg hm h0 h he (hcs _ (List.mem_singleton_self _))
  | order hm ih =>
    intro w h he
    obtain ⟨hok, hfail⟩ := ih hcs h he
    rw [← he] at hok hfail
    exact ⟨hok, hfail⟩
  | @append m₁ m₂ cs₁ cs₂ hm hm' ih ih' =>
    intro w h he
    -- the second part starts from the extent that the first one leaves
    have hfirst := ih (fun c hc => hcs c (List.mem_append_left _ hc)) h he
    by_cases hall : w.extent.HoldsAll cs₁
    · obtain ⟨w', hrun, hextent⟩ := hfirst.completes hall
      have hw : Wrote w cs₁ w' := by
        rcases hm.run h he with ⟨w'', hrun', hw⟩ | ⟨x, w'', hrun', -⟩
        · rw [hrun] at hrun'
          cases hrun'
          exact hw
        · rw [hrun] at hrun'
          cases hrun'
      obtain ⟨hok, hfail⟩ := ih' (fun c hc => hcs c (List.mem_append_right _ hc)) hw.keeps.sane
        (hw.keeps.isBigEndian_eq.trans he)
      rw [hextent] at hok hfail
      constructor
      · intro hboth
        rw [bind_ok hrun, Extent.nextAll_append]
        exact hok ((Extent.holdsAll_append _ _ _).1 hboth).2
      · intro hn
        rw [bind_ok hrun]
        exact hfail fun hlast => hn ((Extent.holdsAll_append _ _ _).2 ⟨hall, hlast⟩)
    · obtain ⟨x, w', hrun⟩ := hfirst.fails hall
      exact ⟨fun hboth => absurd ((Extent.holdsAll_append _ _ _).1 hboth).1 hall,
        fun _ => ⟨x, w', bind_error hrun⟩⟩

/-! ## When a method completes -/

/-- `k` bytes are left, or they are once the buffer is replaced. -/
def Extent.Affords (x : Extent) (k : ℤ) : Prop :=
  k ≤ x.limit - x.pos ∨ (x.pos ≤ x.limit ∧ x.pos + k ≤ x.grown k)

theorem ensureAvailable_iff (h : Sane w) {k : ℤ} (hk : 0 ≤ k) (hmax : k ≤ MAX_VALUE) :
    (∃ w', ensureAvailable k w = .ok () w' ∧ k ≤ w'.available) ↔ w.extent.Affords k := by
  have h0 := h.pos_nonneg
  rw [Extent.Affords, ← available_extent h, extent_limit, extent_pos]
  rcases ensureAvailable_spec h k with
    ⟨hleft, hrun⟩ | ⟨hn, peak, hpeak, -, ⟨hfits, hcap, hrun⟩ | ⟨hno, hrun⟩⟩
  · exact iff_of_true ⟨w, hrun, hleft⟩ (.inl hleft)
  -- the buffer is replaced by one of the capacity asked for
  · have hle := newCapacity_le h k
    have hlen := length_regrown h hfits hcap peak
    have hkeeps : Keeps w (w.regrown (w.newCapacity k) peak) :=
      keeps_backed (b := (w.regrown (w.newCapacity k) peak).bytes) h hpeak (by omega) (by omega)
    have havail := available_eq hkeeps.sane
    have hpos : (w.regrown (w.newCapacity k) peak).pos = w.pos := rfl
    have hcapacity := (newCapacity_extent h hn hmax).eq (h0.trans hcap)
    constructor
    · rintro ⟨w', hrun', hk'⟩
      rw [hrun] at hrun'
      cases hrun'
      exact .inr ⟨hfits, by omega⟩
    · rintro (hleft | ⟨-, hroom⟩)
      · exact absurd hn (not_lt.2 hleft)
      · exact ⟨_, hrun, by omega⟩
  · refine iff_of_false ?_ ?_
    · rintro ⟨w', hrun', -⟩
      rw [hrun] at hrun'
      cases hrun'
    · rintro (hleft | ⟨hfits, hroom⟩)
      · exact absurd hn (not_lt.2 hleft)
      · have hle : w.pos ≤ w.extent.grown k := by omega
        exact hno ⟨hfits, ((newCapacity_extent h hn hmax).le_iff h0).2 hle⟩

/-- Eight times a length wraps to a negative value for half of the lengths. -/
theorem jint_mul_eight_nonneg (x : ℤ) : 0 ≤ jint (x * 8) ↔ x % 2 ^ 29 < 2 ^ 28 := by
  rw [jint, Int.bmod_def]
  omega

theorem clear_iff (w : ByteArrayObjectDataOutput) :
    (∃ w', clear w = .ok () w') ↔ w.buffer = none ∨ w.initialSize % 2 ^ 29 < 2 ^ 28 := by
  rw [← jint_mul_eight_nonneg]
  rcases hb : w.buffer with _ | b
  · exact iff_of_true ⟨_, clear_none hb⟩ (.inl rfl)
  · have hrun := clear_some hb
    simp only at hrun
    split at hrun
    case isTrue hbig =>
      split at hrun
      case isTrue h0 => exact iff_of_true ⟨_, hrun⟩ (.inr h0)
      case isFalse h0 =>
        refine iff_of_false ?_ ?_
        · rintro ⟨w', hrun'⟩
          rw [hrun] at hrun'
          cases hrun'
        · rintro (hnone | h0')
          · cases hnone
          · exact h0 h0'
    case isFalse hsmall =>
      have h0 : 0 ≤ jint (w.initialSize * 8) :=
        (Int.natCast_nonneg b.length).trans (not_lt.1 hsmall)
      exact iff_of_true ⟨_, hrun⟩ (.inr h0)

/-- **When the methods of a reachable writer complete**: a write completes if and only if its
arguments are accepted and its chunks are held; `ensureAvailable(k)` makes `k` bytes available if
and only if they are left or the buffer can be replaced; `clear()` completes if and only if there is
no buffer or eight times `initialSize` is not negative as an `int`. -/
theorem capacity_iff (bits : Bits) (h : Reachable bits w) :
    (∀ c : Write, c.Sized →
      ((∃ w', c.run bits w = .ok () w') ↔
        c.Accepted ∧ w.extent.HoldsAll (c.chunks bits w.isBigEndian))) ∧
    (∀ k : ℤ, 0 ≤ k → w.pos + k ≤ MAX_VALUE →
      ((∃ w', ensureAvailable k w = .ok () w' ∧ k ≤ w'.available) ↔ w.extent.Affords k)) ∧
    ((∃ w', clear w = .ok () w') ↔ w.buffer = none ∨ w.initialSize % 2 ^ 29 < 2 ^ 28) := by
  have h0 := h.sane.pos_nonneg
  refine ⟨fun c hsized => ?_, fun k hk hmax => ensureAvailable_iff h.sane hk (by omega),
    clear_iff w⟩
  by_cases hacc : c.Accepted
  · rw [((c.writes bits hacc).takes (c.room_le hsized) h.sane rfl).iff]
    exact (and_iff_right hacc).symm
  · refine iff_of_false ?_ fun hboth => hacc hboth.1
    rintro ⟨w', hrun⟩
    obtain ⟨x, w'', hrun', -⟩ := c.rejected bits hacc h.sane
    rw [hrun] at hrun'
    cases hrun'

/-- All three parts, on a new writer of eight bytes. -/
theorem capacity_eight :
    (∃ w', Write.run Bits.standard (.writeUTF (some [0x61, 0x62])) (new 8 .BIG_ENDIAN) =
      .ok () w') ∧
    (∃ w', ensureAvailable 100 (new 8 .BIG_ENDIAN) = .ok () w' ∧ 100 ≤ w'.available) ∧
    ∃ w', clear (new 8 .BIG_ENDIAN) = .ok () w' := by
  have hnew : Reachable Bits.standard (new 8 .BIG_ENDIAN) := .new (by decide) (by decide) _
  obtain ⟨hwrite, hensure, hclear⟩ := capacity_iff Bits.standard hnew
  have hsized : lengthOrNull (some ([0x61, 0x62] : List CodeUnit)) ≤ MAX_VALUE := by decide
  exact ⟨(hwrite (.writeUTF (some [0x61, 0x62])) hsized).2 ⟨trivial, by decide⟩,
    (hensure 100 (by decide) (by decide)).2 (.inr (by decide)), hclear.2 (.inr (by decide))⟩

/-- A sequential write whose output fits completes, `ensureAvailable` makes room that fits, and
`clear` completes. -/
def NeverWraps (bits : Bits) (w : ByteArrayObjectDataOutput) : Prop :=
  (∀ c : Write, c.Sized → c.Accepted →
    w.pos + (c.encoding bits w.isBigEndian).length ≤ MAX_VALUE → ∃ w', c.run bits w = .ok () w') ∧
  (∀ k : ℤ, 0 ≤ k → w.pos + k ≤ MAX_VALUE →
    ∃ w', ensureAvailable k w = .ok () w' ∧ k ≤ w'.available) ∧
  ∃ w', clear w = .ok () w'

theorem encoding_writeAll (l : List Byte) : Write.encoding bits e (.writeAll (some l)) = l := by
  rcases l with _ | ⟨x, l⟩
  · rfl
  · rw [Write.encoding, Write.chunks, Option.getD_some, if_neg (List.cons_ne_nil x l), flat_exact]

/-- Without a buffer 2^30 bytes cannot be written at once, whatever `initialSize` is: twice their
number is negative. -/
theorem writeAll_wraps (h : Sane w) (hb : w.buffer = none) {l : List Byte}
    (hlen : (2 ^ 30 : ℤ) ≤ l.length) (hmax : (l.length : ℤ) ≤ MAX_VALUE) :
    ¬ ∃ w', Write.run bits (.writeAll (some l)) w = .ok () w' := by
  have hinit := h.initialSize_le
  have hne : l ≠ [] := by
    rintro rfl
    rw [List.length_nil] at hlen
    omega
  -- half of `initialSize` is less than 2^30, so twice the number of bytes is asked for
  have hheld : ¬ w.extent.Holds l.length l.length := by
    rw [Extent.Holds, extent_limit, extent_pos, bytes_none hb, h.pos_null hb, List.length_nil,
      if_neg (by omega), grown_none hb, if_neg (by unfold MAX_VALUE at hinit; omega),
      lengthOrWrapped, if_neg (by rw [MAX_VALUE]; omega)]
    omega
  have hwrites : Writes w.isBigEndian (Write.run bits (.writeAll (some l))) _ :=
    Write.writes bits (.writeAll (some l)) trivial
  rw [(hwrites.takes (Write.room_le (.writeAll (some l)) hmax) h rfl).iff, Write.chunks,
    Option.getD_some, if_neg hne]
  exact fun hall => hheld hall.1

/-- A writer for 2^28 bytes cannot be cleared, since eight times that is negative; once it is
closed, 2^30 bytes cannot be written to it. -/
theorem not_neverWraps :
    (Reachable Bits.standard (new (2 ^ 28) .BIG_ENDIAN) ∧
      ¬ ∃ w', clear (new (2 ^ 28) .BIG_ENDIAN) = .ok () w') ∧
    Reachable Bits.standard (after close (new (2 ^ 28) .BIG_ENDIAN)) ∧
      ¬ NeverWraps Bits.standard (after close (new (2 ^ 28) .BIG_ENDIAN)) := by
  have hnew : Reachable Bits.standard (new (2 ^ 28) .BIG_ENDIAN) := .new (by decide) (by decide) _
  have hclosed : Reachable Bits.standard (after close (new (2 ^ 28) .BIG_ENDIAN)) :=
    .op (.call .close) hnew
  refine ⟨⟨hnew, ?_⟩, hclosed, fun h => ?_⟩
  · rw [clear_iff]
    rintro (hnone | hsmall)
    · cases hnone
    · revert hsmall
      decide
  · have hlen : ((List.replicate (2 ^ 30) (0 : Byte)).length : ℤ) = 2 ^ 30 := by
      rw [List.length_replicate]
      norm_num
    have hmax : ((List.replicate (2 ^ 30) (0 : Byte)).length : ℤ) ≤ MAX_VALUE := by
      rw [hlen]
      decide
    refine writeAll_wraps hclosed.sane rfl hlen.ge hmax (h.1 _ hmax trivial ?_)
    rw [encoding_writeAll]
    exact (zero_add _).trans_le hmax

end ByteArrayObjectDataOutput

end HzResearch
