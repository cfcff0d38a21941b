import HzResearch.Capacity
import Mathlib.Data.List.Infix

/-!
# How the array grows

What a call reserves is at most three times what it stores (`Chunk.Modest`), and an array
that is too short is doubled at least. The extents that writes lead to are therefore
`Tight`: the array is no longer than it was to begin with, or than six times what has been
written. As long as that is an `int` no capacity expression wraps, and

* `runAll_tight` — every proper call returns, and the array stays within this bound over
  whole runs of writes, `clear` and `close`;
* `replaced_le` — the array is replaced at most as often as its length can be doubled.

A range that is not inside its array may reserve what it does not store, if the guard of
`write(b, off, len)` wraps; such calls are not proper.
-/

namespace HzResearch

open Java Utf8

namespace ByteArrayObjectDataOutput

variable {bits : Bits} {e : Bool} {w w' : ByteArrayObjectDataOutput}

/-! ## Modest reservations -/

/-- Enough is reserved, and at most three times what is stored. -/
structure Chunk.Modest (c : Chunk) : Prop where
  /-- enough -/
  enough : c.bytes.length ≤ c.room
  /-- not too much -/
  room_le : c.room ≤ 3 * c.bytes.length

/-- A capacity expression that does not wrap. -/
theorem modest_jint {bs : List Byte} {x : ℤ} (h : bs.length ≤ x) (hx : x ≤ 3 * bs.length)
    (hmax : (3 * bs.length : ℤ) ≤ MAX_VALUE) : Chunk.Modest ⟨jint x, bs⟩ := by
  rw [jint_of_range (by omega) (hx.trans hmax)]
  exact ⟨h, hx⟩

variable (bits e) in
/-- Where three times what is stored is an `int`, calls reserve modestly. -/
theorem Write.modest (c : Write) (h : c.Sized) : ∀ ch ∈ c.chunks bits e,
    (3 * ch.bytes.length : ℤ) ≤ MAX_VALUE → ch.Modest := by
  have hexact : ∀ bs : List Byte, (Chunk.exact bs).Modest := by
    intro bs
    refine ⟨le_refl _, ?_⟩
    change (bs.length : ℤ) ≤ 3 * bs.length
    omega
  refine c.forall_chunks (fun bs _ _ => hexact bs) h (fun s => ?_) fun _ s => ?_
  · have hlen : (s.flatMap (bits.char.layout e)).length = s.length * 2 := by
      rw [List.length_flatMap]
      simp [bits.char.length_layout]
    exact modest_jint (by rw [hlen, CHAR_SIZE_IN_BYTES]; omega)
      (by rw [hlen, CHAR_SIZE_IN_BYTES]; omega)
  · have hle := length_encode_le s
    have hge := length_le_encode s
    exact modest_jint (show ((encode s).length : ℤ) ≤ _ by omega) (by simp only; omega)

/-! ## Tight extents -/

/-- The length is the same, or at least twice as large. -/
def Doubles (n m : ℤ) : Prop := m = n ∨ 2 * n ≤ m

theorem Doubles.trans {n m l : ℤ} (h0 : 0 ≤ n) (h : Doubles n m) (h' : Doubles m l) :
    Doubles n l := by
  unfold Doubles at *
  omega

namespace Extent

variable {k room n : ℤ} {x : Extent}

/-- The cursor is inside the buffer, which is no longer than `k`, or than six times what has been
written. -/
structure Tight (k : ℤ) (x : Extent) : Prop where
  /-- `initialSize` is not negative -/
  initialSize_nonneg : 0 ≤ x.initialSize
  /-- `initialSize` is within the bound -/
  initialSize_le : x.initialSize ≤ k
  /-- `pos` is not negative -/
  pos_nonneg : 0 ≤ x.pos
  /-- `pos` is inside the buffer -/
  pos_le : x.pos ≤ x.limit
  /-- the buffer is within the bound -/
  limit_le : x.limit ≤ max k (6 * x.pos)

theorem lengthOrWrapped_eq {y : ℤ} (h : y ≤ MAX_VALUE) : lengthOrWrapped y = y := if_pos h

/-- The buffer that is allocated has room, is within the bound, and is twice as long as the old one
at least. -/
theorem Tight.grown (hx : x.Tight k) (hleft : ¬ room ≤ x.limit - x.pos) (henough : n ≤ room)
    (hroom : room ≤ 3 * n) (hmax : 6 * (x.pos + n) ≤ MAX_VALUE) :
    x.pos + n ≤ x.grown room ∧ x.grown room ≤ max k (6 * (x.pos + n)) ∧
      2 * x.limit ≤ x.grown room := by
  obtain ⟨hinit0, hinit, h0, hpos, -⟩ := hx
  rw [Extent.limit] at hpos hleft ⊢
  rw [Extent.grown]
  rcases hlen : x.length with _ | length
  · rw [hlen, Option.getD_none] at hpos hleft
    simp only [Option.getD_none]
    split
    case isTrue hsmall => omega
    case isFalse hbig =>
      rw [lengthOrWrapped_eq (by omega)]
      omega
  · rw [hlen, Option.getD_some] at hpos hleft
    simp only [Option.getD_some]
    rw [lengthOrWrapped_eq (by omega), lengthOrWrapped_eq (by omega)]
    omega

/-- **One chunk** is stored, and leaves a tight extent. -/
theorem Tight.next (hx : x.Tight k) (henough : n ≤ room) (hroom : room ≤ 3 * n)
    (hmax : 6 * (x.pos + n) ≤ MAX_VALUE) :
    x.Holds room n ∧ (x.next room n).Tight k ∧ Doubles x.limit (x.next room n).limit := by
  have hgrown := @Tight.grown k room n x hx
  obtain ⟨hinit0, hinit, h0, hpos, hlimit⟩ := hx
  have hlimit' : (x.next room n).limit =
      if room ≤ x.limit - x.pos then x.limit else x.grown room := by
    rw [Extent.next, Extent.limit, Extent.limit]
    split <;> rfl
  by_cases hleft : room ≤ x.limit - x.pos
  · rw [if_pos hleft] at hlimit'
    refine ⟨by rw [Holds, if_pos hleft]; omega, ⟨hinit0, hinit, ?_, ?_, ?_⟩, .inl hlimit'⟩
    · change 0 ≤ x.pos + n
      omega
    · change x.pos + n ≤ (x.next room n).limit
      omega
    · change (x.next room n).limit ≤ max k (6 * (x.pos + n))
      omega
  · obtain ⟨hfits, hbound, hdouble⟩ := hgrown hleft henough hroom hmax
    rw [if_neg hleft] at hlimit'
    refine ⟨by rw [Holds, if_neg hleft]; exact ⟨hpos, hfits⟩, ⟨hinit0, hinit, ?_, ?_, ?_⟩,
      .inr (hlimit' ▸ hdouble)⟩
    · change 0 ≤ x.pos + n
      omega
    · change x.pos + n ≤ (x.next room n).limit
      exact hlimit' ▸ hfits
    · change (x.next room n).limit ≤ max k (6 * (x.pos + n))
      exact hlimit' ▸ hbound

/-- **Chunks one after the other.** -/
theorem Tight.nextAll {cs : List Chunk} : ∀ {x : Extent}, x.Tight k →
    (∀ c ∈ cs, (3 * c.bytes.length : ℤ) ≤ MAX_VALUE → c.Modest) →
      6 * (x.pos + (flat cs).length) ≤ MAX_VALUE →
        x.HoldsAll cs ∧ (x.nextAll cs).Tight k ∧ Doubles x.limit (x.nextAll cs).limit := by
  induction cs with
  | nil => exact fun hx _ _ => ⟨trivial, hx, .inl rfl⟩
  | cons c cs ih =>
    intro x hx hcs hmax
    have h0 := hx.pos_nonneg
    have hpos : (x.next c.room c.bytes.length).pos = x.pos + c.bytes.length := rfl
    rw [flat_cons, List.length_append] at hmax
    have hmodest := hcs c List.mem_cons_self (by omega)
    obtain ⟨hheld, htight, hdouble⟩ := hx.next hmodest.enough hmodest.room_le (by omega)
    obtain ⟨hall, htight', hdouble'⟩ :=
      ih htight (fun d hd => hcs d (List.mem_cons_of_mem c hd)) (by rw [hpos]; omega)
    exact ⟨⟨hheld, hall⟩, htight', hdouble.trans (h0.trans hx.pos_le) hdouble'⟩

end Extent

/-! ## One call -/

/-- A method that is made of chunks has written them if it returns. -/
theorem Writes.wrote {m : Out Unit} {cs : List Chunk} (hm : Writes e m cs) (h : Sane w)
    (he : w.isBigEndian = e) (hrun : m w = .ok () w') : Wrote w cs w' := by
  rcases hm.run h he with ⟨w'', hrun', hw⟩ | ⟨x, w'', hrun', -⟩
  · rw [hrun] at hrun'
    cases hrun'
    exact hw
  · rw [hrun] at hrun'
    cases hrun'

/-- What is written ends at `pos`. -/
theorem Extent.Tight.length_written {k : ℤ} (hx : w.extent.Tight k) :
    (w.written.length : ℤ) = w.pos := by
  have h0 := hx.pos_nonneg
  have hle := hx.pos_le
  rw [extent_limit] at hle
  rw [extent_pos] at h0 hle
  rw [written, List.length_take]
  omega

/-- **A method that is made of modest chunks** returns, if six times what is then written is an
`int`. -/
theorem Writes.fits {k : ℤ} {m : Out Unit} {cs : List Chunk} (hm : Writes w.isBigEndian m cs)
    (hcs : ∀ c ∈ cs, (3 * c.bytes.length : ℤ) ≤ MAX_VALUE → c.Modest) (h : Sane w)
    (hx : w.extent.Tight k) (hmax : 6 * ((w.written ++ flat cs).length : ℤ) ≤ MAX_VALUE) :
    ∃ w', m w = .ok () w' ∧ Wrote w cs w' ∧ w'.extent.Tight k ∧
      Doubles w.bytes.length w'.bytes.length := by
  have hpos := hx.length_written
  rw [List.length_append] at hmax
  obtain ⟨hall, htight, hdouble⟩ := hx.nextAll hcs (by rw [extent_pos, ← hpos]; omega)
  have hroom : ∀ c ∈ cs, c.room ≤ MAX_VALUE := by
    intro c hc
    have hle : c.bytes.length ≤ (flat cs).length :=
      (List.sublist_flatten_of_mem (List.mem_map_of_mem hc)).length_le
    have hroom := (hcs c hc (by omega)).room_le
    omega
  obtain ⟨w', hrun, hextent⟩ := (hm.takes hroom h rfl).completes hall
  rw [← hextent, extent_limit, extent_limit] at hdouble
  rw [← hextent] at htight
  exact ⟨w', hrun, hm.wrote h rfl hrun, htight, hdouble⟩

variable (bits) in
/-- **One write**, if six times what is then written is an `int`. -/
theorem Write.fits {k : ℤ} (c : Write) (hc : c.Sized ∧ c.Accepted) (h : Sane w)
    (hx : w.extent.Tight k)
    (hmax : 6 * ((w.written ++ c.encoding bits w.isBigEndian).length : ℤ) ≤ MAX_VALUE) :
    ∃ w', c.run bits w = .ok () w' ∧ Keeps w w' ∧ w'.extent.Tight k ∧
      w'.written = w.written ++ c.encoding bits w.isBigEndian ∧
        Doubles w.bytes.length w'.bytes.length := by
  obtain ⟨w', hrun, hw, htight, hdouble⟩ :=
    (c.writes bits hc.2).fits (c.modest bits w.isBigEndian hc.1) h hx hmax
  exact ⟨w', hrun, hw.keeps, htight, hw.front, hdouble⟩

/-- `clear` does not keep a buffer that is longer than eight times `initialSize`. -/
theorem length_clear (h0 : 0 ≤ w.initialSize) (hsize : 8 * w.initialSize ≤ MAX_VALUE)
    (hrun : clear w = .ok () w') : w'.bytes.length ≤ 8 * w.initialSize := by
  have height : jint (w.initialSize * 8) = w.initialSize * 8 :=
    jint_of_range (by omega) (by omega)
  rcases hb : w.buffer with _ | b
  · rw [clear_none hb] at hrun
    cases hrun
    rw [bytes_none (by exact hb), List.length_nil]
    omega
  · rw [clear_some hb, height] at hrun
    simp only at hrun
    split at hrun
    case isTrue hbig =>
      rw [if_pos (by omega)] at hrun
      cases hrun
      rw [bytes_some rfl, List.length_replicate]
      omega
    case isFalse hsmall =>
      cases hrun
      rw [bytes_some (by exact hb)]
      omega

/-- Java can make the call, and its arguments are accepted. -/
def Call.Proper : Call → Prop
  | .write c => c.Sized ∧ c.Accepted
  | .clear | .close => True

theorem Call.Proper.accepted {c : Call} (h : c.Proper) : c.Accepted := by
  cases c with
  | write c => exact h.2
  | clear => trivial
  | close => trivial

variable (bits) in
/-- **One call**, if six times what is then written is an `int`. -/
theorem Call.fits (c : Call) (hc : c.Proper) (h : Sane w)
    (hsize : 8 * w.initialSize ≤ MAX_VALUE) (hx : w.extent.Tight (8 * w.initialSize))
    (hmax : 6 * ((c.contents bits w.isBigEndian w.written).length : ℤ) ≤ MAX_VALUE) :
    ∃ w', c.run bits w = .ok () w' ∧ Keeps w w' ∧ w'.extent.Tight (8 * w.initialSize) ∧
      w'.written = c.contents bits w.isBigEndian w.written := by
  have h0 := h.initialSize_nonneg
  cases c with
  | write c =>
    rw [Call.contents, if_pos hc.2] at hmax ⊢
    obtain ⟨w', hrun, hkeeps, htight, hwritten, -⟩ := c.fits bits hc h hx hmax
    exact ⟨w', hrun, hkeeps, htight, hwritten⟩
  | clear =>
    -- eight times `initialSize` does not wrap
    obtain ⟨w', hrun⟩ := (clear_iff w).2 (.inr (by unfold MAX_VALUE at hsize; omega))
    have hclear := clear_run h
    rw [after_ok hrun] at hclear
    obtain ⟨hkeeps, hpos, -⟩ := hclear
    refine ⟨w', hrun, hkeeps, ⟨?_, ?_, ?_, ?_, ?_⟩, ?_⟩
    · exact hkeeps.sane.initialSize_nonneg
    · change w'.initialSize ≤ _
      rw [hkeeps.initialSize_eq]
      omega
    · exact hkeeps.sane.pos_nonneg
    · rw [extent_pos, extent_limit, hpos]
      exact Int.natCast_nonneg _
    · rw [extent_limit]
      exact (length_clear h0 hsize hrun).trans (le_max_left _ _)
    · rw [written, hpos]
      rfl
  | close =>
    refine ⟨_, rfl, close_run h, ⟨h0, ?_, le_refl 0, le_refl 0, ?_⟩, rfl⟩
    · change w.initialSize ≤ _
      omega
    · change (0 : ℤ) ≤ _
      omega

/-! ## Runs -/

variable (bits) in
/-- A run, from any writer. -/
theorem runAll_fits (calls : List Call) : ∀ {w : ByteArrayObjectDataOutput}, Sane w →
    8 * w.initialSize ≤ MAX_VALUE → w.extent.Tight (8 * w.initialSize) →
      (∀ c ∈ calls, c.Proper) → (∀ part, part <+: calls →
        6 * ((contents bits w.isBigEndian w.written part).length : ℤ) ≤ MAX_VALUE) →
          Behaves bits calls w ∧ Sane (runAll bits calls w) ∧
            (runAll bits calls w).extent.Tight (8 * w.initialSize) ∧
              (runAll bits calls w).written = contents bits w.isBigEndian w.written calls := by
  induction calls with
  | nil => exact fun h _ hx _ _ => ⟨trivial, h, hx, rfl⟩
  | cons c calls ih =>
    intro w h hsize hx hproper hmax
    have hc := hproper c List.mem_cons_self
    obtain ⟨w', hrun, hkeeps, htight, hwritten⟩ :=
      c.fits bits hc h hsize hx (hmax [c] (List.prefix_append [c] calls))
    rw [← hkeeps.initialSize_eq] at hsize htight
    obtain ⟨hbehaves, hsane, hlast, hcontents⟩ :=
      ih hkeeps.sane hsize htight (fun d hd => hproper d (List.mem_cons_of_mem c hd))
        fun part hpart => by
          rw [hkeeps.isBigEndian_eq, hwritten]
          exact hmax (c :: part) ((List.cons_prefix_cons).2 ⟨rfl, hpart⟩)
    rw [hkeeps.initialSize_eq] at hlast
    rw [hkeeps.isBigEndian_eq, hwritten] at hcontents
    rw [Behaves, runAll, after_ok hrun]
    exact ⟨⟨fun _ => ⟨w', hrun⟩, fun hn => absurd hc.accepted hn, hbehaves⟩, hsane, hlast,
      hcontents⟩

theorem tight_new {size k : ℤ} (h0 : 0 ≤ size) (hk : size ≤ k) (order : ByteOrder) :
    (new size order).extent.Tight k := by
  have hlimit : (new size order).extent.limit = size := by
    rw [extent_limit, new, bytes_some rfl, List.length_replicate]
    omega
  refine ⟨h0, hk, le_refl 0, ?_, ?_⟩
  · rw [hlimit]
    exact h0
  · rw [hlimit]
    exact hk.trans (le_max_left _ _)

/-- **The array is never too short, and never much too long**: as long as eight times the initial
size and six times what is written are `int`s, every proper call of a run returns, what is written
is the concatenation of the encodings, and the array is no longer than the larger of the two. -/
theorem runAll_tight (bits : Bits) {size : ℤ} (h0 : 0 ≤ size) (h : 8 * size ≤ MAX_VALUE)
    (order : ByteOrder) {calls : List Call} (hproper : ∀ c ∈ calls, c.Proper)
    (hmax : ∀ part, part <+: calls →
      6 * ((contents bits (order == .BIG_ENDIAN) [] part).length : ℤ) ≤ MAX_VALUE) :
    Behaves bits calls (new size order) ∧
      toByteArray (runAll bits calls (new size order)) =
        .ok (contents bits (order == .BIG_ENDIAN) [] calls) (runAll bits calls (new size order)) ∧
      (runAll bits calls (new size order)).bytes.length ≤
        max (8 * size) (6 * (contents bits (order == .BIG_ENDIAN) [] calls).length) := by
  obtain ⟨hbehaves, hsane, htight, hwritten⟩ := runAll_fits bits calls
    (new_sane h0 (by omega) order) h (tight_new h0 (show size ≤ 8 * size by omega) order) hproper
    hmax
  have hwritten' : (runAll bits calls (new size order)).written =
      contents bits (order == .BIG_ENDIAN) [] calls := hwritten
  have hpos := htight.length_written
  have hle := htight.limit_le
  rw [hwritten'] at hpos
  rw [extent_limit, extent_pos, ← hpos] at hle
  have hin := htight.pos_le
  rw [extent_limit, extent_pos] at hin
  refine ⟨hbehaves, ?_, hle⟩
  rw [toByteArray_run hsane hin]
  exact congrArg (EStateM.Result.ok · _) hwritten'

/-- A number, and a string after `clear`. -/
def restarting : List Call :=
  [.write (.writeInt 7 none), .clear, .write (.writeUTF (some [0x41, 0xE9]))]

theorem runAll_tight_restarting :
    Behaves Bits.standard restarting (new 1 .BIG_ENDIAN) ∧
      toByteArray (runAll Bits.standard restarting (new 1 .BIG_ENDIAN)) =
        .ok [0, 0, 0, 2, 0x41, 0xC3, 0xA9] (runAll Bits.standard restarting (new 1 .BIG_ENDIAN)) ∧
      (runAll Bits.standard restarting (new 1 .BIG_ENDIAN)).bytes.length ≤ max (8 : ℤ) (6 * 7) := by
  have hproper : ∀ c ∈ restarting, c.Proper := by
    simp [restarting, Call.Proper, Write.Sized, Write.Accepted, lengthOrNull, MAX_VALUE]
  have hmax : ∀ part ∈ restarting.inits,
      6 * ((contents Bits.standard true [] part).length : ℤ) ≤ MAX_VALUE := by
    decide
  exact runAll_tight Bits.standard (by decide) (by decide) .BIG_ENDIAN hproper
    fun part hpart => hmax part ((List.mem_inits part restarting).2 hpart)

/-! ## Replacements -/

/-- The number of writes that leave an array of another length. -/
def replaced (bits : Bits) : List Write → ByteArrayObjectDataOutput → ℕ
  | [], _ => 0
  | c :: cs, w =>
    replaced bits cs (after (c.run bits) w) +
      if (after (c.run bits) w).bytes.length = w.bytes.length then 0 else 1

variable (bits) in
/-- Writes one after the other, from any writer. -/
theorem replaced_le_of_tight {k : ℤ} (cs : List Write) : ∀ {w : ByteArrayObjectDataOutput},
    Sane w → w.extent.Tight k → (∀ c ∈ cs, c.Sized ∧ c.Accepted) →
      6 * ((w.written ++ cs.flatMap (Write.encoding bits w.isBigEndian)).length : ℤ) ≤ MAX_VALUE →
        ∃ w', runAll bits (cs.map .write) w = w' ∧ w'.extent.Tight k ∧
          w'.written = w.written ++ cs.flatMap (Write.encoding bits w.isBigEndian) ∧
            2 ^ replaced bits cs w * w.bytes.length ≤ w'.bytes.length ∧
              2 ^ (replaced bits cs w - 1) ≤ max 1 w'.bytes.length := by
  induction cs with
  | nil =>
    intro w _ hx _ _
    refine ⟨w, rfl, hx, (List.append_nil _).symm, ?_, le_max_left _ _⟩
    rw [replaced, Nat.pow_zero, Nat.one_mul]
  | cons c cs ih =>
    intro w h hx hcs hmax
    rw [List.flatMap_cons, ← List.append_assoc] at hmax
    obtain ⟨w', hrun, hkeeps, htight, hwritten, hdouble⟩ :=
      c.fits bits (hcs c List.mem_cons_self) h hx (by rw [List.length_append] at hmax; omega)
    rw [← hwritten, ← hkeeps.isBigEndian_eq] at hmax
    obtain ⟨w'', hlast, htight', hwritten', hle, hle'⟩ :=
      ih hkeeps.sane htight (fun d hd => hcs d (List.mem_cons_of_mem c hd)) hmax
    have hafter : after (c.run bits) w = w' := after_ok hrun
    refine ⟨w'', ?_, htight', ?_, ?_⟩
    · rw [← hlast, ← hafter]
      rfl
    · rw [hwritten', hwritten, hkeeps.isBigEndian_eq, List.flatMap_cons, List.append_assoc]
    · rw [replaced, hafter]
      split
      case isTrue hsame => exact ⟨by rwa [Nat.add_zero, ← hsame], hle'⟩
      case isFalse hother =>
        -- an array of another length is twice as long at least, and not empty
        have htwice : 2 * w.bytes.length ≤ w'.bytes.length := by
          rcases hdouble with hsame | htwice
          · exact absurd (Int.natCast_inj.1 hsame) hother
          · omega
        constructor
        · rw [Nat.pow_succ, Nat.mul_assoc]
          exact (Nat.mul_le_mul_left _ htwice).trans hle
        · rw [Nat.add_sub_cancel]
          have hone : 1 ≤ w'.bytes.length := by omega
          exact (Nat.le_mul_of_pos_right _ hone).trans (hle.trans (le_max_right _ _))

/-- **The array is replaced seldom**: with every replacement the initial size doubles, and it never
exceeds six times what has been written, if it does not do so to begin with. From an empty array on
that holds of the replacements behind the first. -/
theorem replaced_le (bits : Bits) {size : ℤ} (h0 : 0 ≤ size) (h : size ≤ MAX_VALUE)
    (order : ByteOrder) {cs : List Write} (hcs : ∀ c ∈ cs, c.Sized ∧ c.Accepted)
    (hmax : 6 * ((cs.flatMap (Write.encoding bits (order == .BIG_ENDIAN))).length : ℤ) ≤
      MAX_VALUE) :
    2 ^ replaced bits cs (new size order) * size ≤
        max size (6 * (cs.flatMap (Write.encoding bits (order == .BIG_ENDIAN))).length) ∧
      (size = 0 → 2 ^ (replaced bits cs (new size order) - 1) ≤
        max 1 (6 * (cs.flatMap (Write.encoding bits (order == .BIG_ENDIAN))).length)) := by
  obtain ⟨w, -, htight, hwritten, hle, hle'⟩ := replaced_le_of_tight bits cs
    (new_sane h0 h order) (tight_new h0 (le_refl size) order) hcs hmax
  have hpos := htight.length_written
  have hlimit := htight.limit_le
  have hwritten' : w.written = cs.flatMap (Write.encoding bits (order == .BIG_ENDIAN)) := hwritten
  have hnew : ((new size order).bytes.length : ℤ) = size := by
    rw [new, bytes_some rfl, List.length_replicate]
    omega
  rw [hwritten'] at hpos
  rw [extent_limit, extent_pos, ← hpos] at hlimit
  refine ⟨?_, fun hzero => hle'.trans ?_⟩
  · have hsize := (Int.ofNat_le.2 hle).trans hlimit
    rw [Int.natCast_mul, hnew] at hsize
    exact_mod_cast hsize
  · omega

/-- Two of three writes replace an array of two bytes, and all of them an empty one. -/
theorem replaced_le_three :
    replaced Bits.standard [.writeInt 1 none, .writeByte 2, .writeUTF (some [0x41, 0x42])]
        (new 2 .BIG_ENDIAN) = 2 ∧
      2 ^ replaced Bits.standard [.writeInt 1 none, .writeByte 2, .writeUTF (some [0x41, 0x42])]
        (new 2 .BIG_ENDIAN) * (2 : ℤ) ≤ max 2 (6 * 11) ∧
      2 ^ (replaced Bits.standard [.writeInt 1 none, .writeByte 2, .writeUTF (some [0x41, 0x42])]
        (new 0 .BIG_ENDIAN) - 1) ≤ max 1 (6 * 11) := by
  have hcs : ∀ c ∈ [Write.writeInt 1 none, .writeByte 2, .writeUTF (some [0x41, 0x42])],
      c.Sized ∧ c.Accepted := by
    simp [Write.Sized, Write.Accepted, lengthOrNull, MAX_VALUE]
  refine ⟨by decide, ?_, ?_⟩
  · exact (replaced_le Bits.standard (by decide) (by decide) .BIG_ENDIAN hcs (by decide)).1
  · exact (replaced_le Bits.standard (le_refl 0) (by decide) .BIG_ENDIAN hcs (by decide)).2 rfl

end ByteArrayObjectDataOutput

end HzResearch
