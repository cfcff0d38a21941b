import HzResearch.BulkReads
import HzResearch.InPlace
import HzResearch.NativeReader
import HzResearch.Sessions

/-!
# Going through a stream in any order

A caller that knows the layout of a stream reads its items in any order and as often as it likes:
the next one, another one after `position`, or one aside, without moving on. The abstract reader is
a list of items with a cursor (`browse`); `browse_returns` says that the reader refines it.

Any of the strings may be read by `readUTFJNI`, as long as no longer string has been read before
(`Fits`): the buffer for characters is then no longer than the string, and the native decoder stops
where it should. How long the buffer is at most is what `Widens` keeps track of.
-/

namespace HzResearch

open Java Utf8
open ByteArrayObjectDataInput (In Past InBounds utfBytes)

namespace ByteArrayObjectDataInput

variable {α β : Type} {s s' : ByteArrayObjectDataInput} {bits : Bits} {m : In α} {f : α → In β}
  {size : α → ℕ} {size' : β → ℕ}

/-! ## How long the buffer for characters gets -/

/-- If the method returns, the buffer is no longer than it was or than the value needs. -/
def Widens (size : α → ℕ) (m : In α) : Prop :=
  ∀ ⦃s s' : ByteArrayObjectDataInput⦄ ⦃a : α⦄, m s = .ok a s' →
    s'.capacity ≤ max s.capacity (size a)

theorem Widens.pure (size : α → ℕ) (a : α) : Widens size (Pure.pure a : In α) := by
  intro s s' b h
  cases h
  exact le_max_left _ _

theorem Widens.raise (size : α → ℕ) (e : Throwable) : Widens size (Java.raise e : In α) := by
  intro s s' a h
  cases h

theorem Widens.get (size : ByteArrayObjectDataInput → ℕ) :
    Widens size (MonadState.get : In ByteArrayObjectDataInput) := by
  intro s s' a h
  cases h
  exact le_max_left _ _

theorem Widens.eval (size : α → ℕ) (x : Except Throwable α) : Widens size (Java.eval x : In α) := by
  rcases x with e | a
  · exact .raise size e
  · exact .pure size a

/-- What the first method needs the value of the second needs, too. -/
theorem Widens.bind (hm : Widens size m) (hf : ∀ a, Widens size' (f a))
    (hsize : ∀ a s b s', f a s = .ok b s' → size a ≤ size' b) : Widens size' (m >>= f) := by
  intro s s'' b h
  obtain ⟨a, s', hrun, hrun'⟩ := bind_eq_ok h
  have h1 := hm hrun
  have h2 := hf a hrun'
  have h3 := hsize a s' b s'' hrun'
  omega

/-- A method that leaves the buffer alone comes first. -/
theorem Widens.after (hm : Widens (fun _ => 0) m) (hf : ∀ a, Widens size' (f a)) :
    Widens size' (m >>= f) := hm.bind hf fun _ _ _ _ _ => Nat.zero_le _

/-- The longest of some values. -/
def longest (size : α → ℕ) (xs : List α) : ℕ := (xs.map size).foldr max 0

theorem Widens.times (hm : Widens size m) (n : ℕ) : Widens (longest size) (times m n) := by
  induction n with
  | zero => exact .pure _ []
  | succ n ih =>
    refine hm.bind (fun x => ih.bind (fun xs => .pure _ (x :: xs)) ?_) ?_
    · intro xs s ys s' h
      cases h
      exact le_max_right _ _
    · intro x s ys s' h
      obtain ⟨xs, s'', -, h⟩ := bind_eq_ok h
      cases h
      exact le_max_left _ _

theorem longest_zero (xs : List α) : longest (fun _ => 0) xs = 0 := by
  induction xs with
  | nil => rfl
  | cons x xs ih =>
    change max 0 (longest (fun _ => 0) xs) = 0
    rw [ih, Nat.max_self]

theorem advance_widens (n : ℤ) : Widens (fun _ => 0) (advance n) := by
  intro s s' a h
  cases h
  exact le_max_left _ _

theorem read_widens : Widens (fun _ => 0) read := by
  refine (Widens.get fun _ => 0).after fun s => ?_
  split
  · refine (advance_widens 1).after fun _ => Widens.after ?_ fun b => .pure _ _
    refine (Widens.get fun _ => 0).after fun s => ?_
    split
    · exact .raise _ _
    · exact .eval _ _
  · exact .pure _ _

theorem readByte_widens : Widens (fun _ => 0) readByte := by
  refine read_widens.after fun ch => ?_
  rw [orEOF]
  split
  · exact .raise _ _
  · exact .pure _ _

theorem readBoolean_widens : Widens (fun _ => 0) readBoolean := by
  refine read_widens.after fun ch => ?_
  split
  · exact .raise _ _
  · exact .pure _ _

theorem readFixed_widens {w size : ℕ} (g : FixedWidth w size) (n : ℤ) (e : Bool) :
    Widens (fun _ => 0) (readFixed g n e) := by
  refine (Widens.get fun _ => 0).after fun s => Widens.after ?_ fun v => ?_
  · intro s' s'' v h
    have hstill : after (readFixedAt g n s.pos e) s' = s' := readFixedAt_still g n s.pos e s'
    rw [after_ok h] at hstill
    rw [hstill]
    exact le_max_left _ _
  · exact (advance_widens n).after fun _ => .pure _ _

/-- A read in the order of the stream. -/
theorem order_widens {m : Bool → In α} (hm : ∀ e, Widens (fun _ => 0) (m e)) :
    Widens (fun _ => 0) (do m (← MonadState.get).bigEndian) :=
  (Widens.get fun _ => 0).after fun s => hm s.bigEndian

theorem readInt_widens : Widens (fun _ => 0) (readInt bits) :=
  order_widens (readFixed_widens _ _)

/-- The longest element of an array. -/
theorem readArray_widens (hm : Widens size m) :
    Widens (fun xs => longest size (xs.getD [])) (readArray bits m) := by
  refine readInt_widens.after fun v => ?_
  dsimp only
  split
  · exact .pure _ none
  split
  · refine (hm.times _).bind (fun xs => .pure _ _) fun xs s ys s' h => ?_
    cases h
    exact le_refl _
  · exact .pure _ (some [])

/-- An array of values that do not need the buffer. -/
theorem readArray_widens_zero (hm : Widens (fun _ => 0) m) :
    Widens (fun _ => 0) (readArray bits m) := by
  intro s s' xs h
  have hlongest := readArray_widens hm h
  dsimp only at hlongest
  rwa [longest_zero] at hlongest

theorem readRange_widens (b : Option (List Byte)) (off len : ℤ) :
    Widens (fun _ => 0) (readRange b off len) := by
  rcases b with _ | b
  · exact .raise _ _
  rw [readRange]
  dsimp only
  split
  · exact .raise _ _
  split
  · exact .pure _ _
  refine (Widens.get fun _ => 0).after fun s => ?_
  split
  · exact .pure _ _
  split
  · exact .raise _ _
  · exact (Widens.eval (fun _ => 0) _).after fun b => (advance_widens _).after fun _ => .pure _ _

theorem readAll_widens (b : Option (List Byte)) : Widens (fun _ => 0) (readAll b) := by
  rcases b with _ | b
  · exact .raise _ _
  · exact readRange_widens (some b) 0 b.length

theorem readByteArray_widens : Widens (fun _ => 0) (readByteArray bits) := by
  refine readInt_widens.after fun v => ?_
  dsimp only
  split
  · exact .pure _ none
  split
  · refine Widens.after ((readAll_widens _).after fun r => ?_) fun b => .pure _ _
    dsimp only
    split
    · exact .raise _ _
    · exact .pure _ _
  · exact .pure _ (some [])

/-- The characters of a string. -/
def width (str : Option (List CodeUnit)) : ℕ := (str.getD []).length

/-- The loop of `readUTF` does not change the length of the buffer. -/
theorem readChars_widens (i : ℕ) : Widens (fun _ => 0) (readChars bits i) := by
  have hstore : ∀ c : CodeUnit, Widens (fun _ => 0) (storeChar i c) := by
    intro c s s' u h
    rcases hb : s.charBuffer with _ | buffer
    · rw [storeChar, hb] at h
      cases h
    · by_cases hi : (0 : ℤ) ≤ i ∧ (i : ℤ) < buffer.length
      · rw [storeChar_run buffer hb hi.1 hi.2] at h
        cases h
        rw [capacity, capacity, hb, Option.getD_some, Option.getD_some,
          length_splice (by simp; omega)]
        exact le_max_left _ _
      · rw [storeChar, hb] at h
        simp only [store_error hi] at h
        cases h
  rw [readChars_eq]
  refine Widens.after ?_ hstore
  refine readByte_widens.after fun b => ?_
  split
  case isFalse => exact .pure _ _
  case isTrue hneg =>
    have h80 : 0x80 ≤ b := by
      rw [BitVec.toInt_neg_iff] at hneg
      bv_omega
    by_cases h2 : 0xC0 ≤ b ∧ b ≤ 0xDF
    · rw [bits.readUtf8Char_two _ h2.1 h2.2]
      exact readByte_widens.after fun k => .pure _ _
    by_cases h3 : 0xE0 ≤ b ∧ b ≤ 0xEF
    · rw [bits.readUtf8Char_three _ h3.1 h3.2]
      exact readByte_widens.after fun m => readByte_widens.after fun k => .pure _ _
    · rw [bits.readUtf8Char_other _ h80 (by bv_omega)]
      exact .raise _ _

theorem Widens.forEach {f : α → In Unit} (hf : ∀ a, Widens (fun _ => 0) (f a)) (xs : List α) :
    Widens (fun _ => 0) (forEach f xs) := by
  induction xs with
  | nil => exact .pure _ ()
  | cons x xs ih => exact (hf x).after fun _ => ih

/-- A string is made of characters that are in the buffer. -/
theorem newString_eq_ok {n : ℤ} {str : Option (List CodeUnit)} (h : newString n s = .ok str s') :
    s' = s ∧ 0 ≤ n ∧ width str = n.toNat := by
  rw [newString, bind_ok (get_run s)] at h
  rcases hb : s.charBuffer with _ | buffer
  · rw [hb] at h
    cases h
  · rw [hb] at h
    dsimp only at h
    split at h
    · cases h
    · cases h
      refine ⟨rfl, by omega, ?_⟩
      rw [width, Option.getD_some, List.length_take]
      omega

theorem readUTF_widens : Widens width (readUTF bits) := by
  refine readInt_widens.after fun v => ?_
  dsimp only
  split
  · exact .pure _ none
  intro s s' str h
  obtain ⟨u, s₁, hensure, h⟩ := bind_eq_ok h
  obtain ⟨u', s₂, hloop, h⟩ := bind_eq_ok h
  obtain ⟨rfl, h0, hwidth⟩ := newString_eq_ok h
  obtain ⟨buffer, hlen, hensure'⟩ := ensureCharBuffer_ok (s := s) h0
  rw [hensure'] at hensure
  cases hensure
  have hkept := Widens.forEach readChars_widens _ hloop
  change s'.capacity ≤ max buffer.length 0 at hkept
  omega

end ByteArrayObjectDataInput

open ByteArrayObjectDataInput (Widens width longest)

/-- The length of the longest string of an item. -/
def Item.width : Item → ℕ
  | ⟨.utf, v⟩ => ByteArrayObjectDataInput.width v
  | ⟨.utfArray, v⟩ => longest ByteArrayObjectDataInput.width (Option.getD v [])
  | _ => 0

open ByteArrayObjectDataInput in
theorem Kind.read_widens (bits : Bits) (k : Kind) :
    Widens (fun v => Item.width ⟨k, v⟩) (k.read bits) := by
  cases k with
  | boolean => exact readBoolean_widens
  | byte => exact readByte_widens
  | char => exact order_widens (readFixed_widens _ _)
  | short o | int o | long o =>
    cases o with
    | none => exact order_widens (readFixed_widens _ _)
    | some o => exact readFixed_widens _ _ _
  | booleanArray => exact readArray_widens_zero readBoolean_widens
  | byteArray => exact readByteArray_widens
  | charArray | shortArray | intArray | longArray =>
    exact readArray_widens_zero (order_widens (readFixed_widens _ _))
  | utf => exact readUTF_widens
  | utfArray => exact readArray_widens readUTF_widens

/-! ## Readers on a stream -/

variable {bits : Bits} {e : Bool} {items : List Item} {item : Item} {i j : ℕ}
  {s s' : ByteArrayObjectDataInput}

/-- The reader is on this stream, before the item of this index. -/
structure Before (bits : Bits) (e : Bool) (items : List Item) (i : ℕ)
    (s : ByteArrayObjectDataInput) : Prop where
  /-- the cursor is inside the data -/
  inBounds : InBounds s
  /-- the order of the stream -/
  bigEndian_eq : s.bigEndian = e
  /-- the data is the stream -/
  bytes_eq : s.bytes = encodeItems bits e items
  /-- where the item starts -/
  pos_eq : s.pos = offset (records bits e items) i

/-- A reader of the stream may be anywhere, with any mark. -/
theorem Before.moveTo (h : Before bits e items i s) (j : ℕ) (mark : ℤ) :
    Before bits e items j { s with pos := offset (records bits e items) j, mark } := by
  have hle := offset_le (records bits e items) j
  have hsize := h.inBounds.size_eq_length
  rw [← encodeItems_eq_flatten, ← h.bytes_eq] at hle
  have hin : (offset (records bits e items) j : ℤ) ≤ s.size := by omega
  exact ⟨⟨h.inBounds.size_eq, h.inBounds.size_le, Int.natCast_nonneg _, hin⟩, h.bigEndian_eq,
    h.bytes_eq, rfl⟩

/-- `position` goes there. -/
theorem Before.position_run (h : Before bits e items i s) (j : ℕ) :
    ∃ s', ByteArrayObjectDataInput.position (offset (records bits e items) j) s = .ok () s' ∧
      Before bits e items j s' ∧ s'.capacity = s.capacity := by
  have hle := (h.moveTo j s.mark).inBounds.pos_le
  exact ⟨_, ByteArrayObjectDataInput.position_ok (Int.natCast_nonneg _) hle, h.moveTo j _, rfl⟩

/-- What comes next is the item. -/
theorem Before.rest_eq (h : Before bits e items i s) (hi : items[i]? = some item) :
    ∃ tail, s.rest = item.encoding bits e ++ tail ∧
      offset (records bits e items) (i + 1) =
        offset (records bits e items) i + (item.encoding bits e).length ∧
      (i + 1 = items.length → tail = []) := by
  obtain ⟨hlt, hget⟩ := List.getElem?_eq_some_iff.1 hi
  have hk : i < (records bits e items).length := by rwa [records, List.length_map]
  have hrec : (records bits e items)[i] = item.encoding bits e := by
    simp only [records, List.getElem_map, hget]
  refine ⟨((records bits e items).drop (i + 1)).flatten, ?_, ?_, fun hlast => ?_⟩
  · rw [ByteArrayObjectDataInput.rest, h.bytes_eq, h.pos_eq, Int.toNat_natCast,
      encodeItems_eq_flatten, flatten_eq_around hk, List.append_assoc, offset,
      List.drop_left' rfl, hrec]
  · rw [offset, offset, List.take_succ_eq_append_getElem hk, List.flatten_append, hrec,
      List.length_append, List.flatten_singleton]
  · rw [List.drop_eq_nil_of_le (by rw [records, List.length_map]; omega), List.flatten_nil]

/-- Past the item the reader is before the next. -/
theorem Before.past (h : Before bits e items i s) (hi : items[i]? = some item)
    (hpast : Past s (item.encoding bits e).length s') : Before bits e items (i + 1) s' := by
  obtain ⟨tail, hrest, hoff, -⟩ := h.rest_eq hi
  refine ⟨(hpast.inBounds_of_append h.inBounds hrest).1, hpast.bigEndian_eq.trans h.bigEndian_eq,
    ?_, ?_⟩
  · rw [ByteArrayObjectDataInput.bytes, hpast.data_eq]
    exact h.bytes_eq
  · rw [hpast.pos_eq, h.pos_eq, hoff, Int.natCast_add]

/-- The stream fits into an array, and so do its strings and arrays. -/
theorem Before.sized (h : Before bits e items i s) (hi : items[i]? = some item) : item.Sized := by
  have hmax := h.inBounds.size_le
  rw [h.inBounds.size_eq_length, h.bytes_eq] at hmax
  exact sized_of_encodeItems hmax item (List.mem_of_getElem? hi)

/-! ## One item -/

/-- The method that reads a value of a kind, strings natively or not. -/
def Kind.readBy (bits : Bits) (native : Bool) : (k : Kind) → In k.Value
  | .utf =>
    if native then ByteArrayObjectDataInput.readUTFJNI bits
    else ByteArrayObjectDataInput.readUTF bits
  | k => k.read bits

/-- The native decoder stops behind the string: no character fits into the buffer any more, or no
byte is left. -/
def Item.Stops (capacity : ℕ) (last : Prop) : Item → Prop
  | ⟨.utf, some us⟩ => capacity ≤ us.length ∨ last
  | _ => True

/-- A value that is read plainly. -/
theorem Before.read (h : Before bits e items i s) (hi : items[i]? = some item) :
    ∃ s', item.kind.read bits s = .ok item.value s' ∧ Before bits e items (i + 1) s' ∧
      s'.capacity ≤ max s.capacity item.width := by
  obtain ⟨tail, hrest, -, -⟩ := h.rest_eq hi
  obtain ⟨s', hrun, hpast⟩ := item.decodes (h.sized hi) h.inBounds h.bigEndian_eq hrest
  exact ⟨s', hrun, h.past hi hpast, item.kind.read_widens bits hrun⟩

/-- A string that is read natively. -/
theorem Before.readUTFJNI {str : Option (List CodeUnit)} (h : Before bits e items i s)
    (hi : items[i]? = some ⟨.utf, str⟩)
    (hn : Item.Stops s.capacity (i + 1 = items.length) ⟨.utf, str⟩) :
    ∃ s', ByteArrayObjectDataInput.readUTFJNI bits s = .ok str s' ∧
      Before bits e items (i + 1) s' ∧ s'.capacity ≤ max s.capacity (width str) := by
  obtain ⟨tail, hrest, -, hlast⟩ := h.rest_eq hi
  have hsized : lengthOrNull str ≤ MAX_VALUE := h.sized hi
  have henc : Item.encoding bits e ⟨.utf, str⟩ = utfBytes bits s.bigEndian str := by
    rw [Item.encoding_eq, h.bigEndian_eq]
    rfl
  rw [henc] at hrest
  rcases str with _ | us
  · obtain ⟨hrun, -, -, hlen⟩ := ByteArrayObjectDataInput.readUTFJNI_none h.inBounds hrest
    refine ⟨_, hrun, h.past hi ?_, le_max_left _ _⟩
    rw [henc, hlen]
    exact ByteArrayObjectDataInput.past_moved s 4
  · obtain ⟨s', hrun, hpast, hcap⟩ := ByteArrayObjectDataInput.readUTFJNI_fits h.inBounds
      hsized hrest (hn.imp_right hlast)
    refine ⟨s', hrun, h.past hi ?_, hcap.le⟩
    rw [henc]
    exact hpast

/-- **One item.** -/
theorem Before.readBy (h : Before bits e items i s) (hi : items[i]? = some item) {native : Bool}
    (hn : native = true → item.Stops s.capacity (i + 1 = items.length)) :
    ∃ s', item.kind.readBy bits native s = .ok item.value s' ∧ Before bits e items (i + 1) s' ∧
      s'.capacity ≤ max s.capacity item.width := by
  obtain ⟨k, v⟩ := item
  cases k with
  | utf =>
    cases native with
    | true => exact h.readUTFJNI hi (hn rfl)
    | false => exact h.read hi
  | _ => exact h.read hi

/-! ## Items aside -/

/-- The method that reads a value of a kind at a position, where there is one. -/
def Kind.readAt (bits : Bits) : (k : Kind) → Option (ℤ → In k.Value)
  | .boolean => some ByteArrayObjectDataInput.readBooleanAt
  | .byte => some ByteArrayObjectDataInput.readByteAt
  | .char => some (ByteArrayObjectDataInput.readCharAt bits)
  | .short none => some (ByteArrayObjectDataInput.readShortAt bits)
  | .short (some o) => some fun i => ByteArrayObjectDataInput.readShortOrderAt bits i o
  | .int none => some (ByteArrayObjectDataInput.readIntAt bits)
  | .int (some o) => some fun i => ByteArrayObjectDataInput.readIntOrderAt bits i o
  | .long none => some (ByteArrayObjectDataInput.readLongAt bits)
  | .long (some o) => some fun i => ByteArrayObjectDataInput.readLongOrderAt bits i o
  | _ => none

namespace ByteArrayObjectDataInput

variable {α : Type} {m : In α} {a : α} {p : ℤ} {t : ByteArrayObjectDataInput}

/-- The readers hold the same data. -/
def SameData (s t : ByteArrayObjectDataInput) : Prop := s.data = t.data ∧ s.size = t.size

theorem onSameData_sameData : OnSameData SameData := fun _ _ h => h

/-- A method that looks at the data only and leaves the reader as it is. -/
structure Aside (m : In α) : Prop where
  /-- it looks at the data -/
  lockstep : Lockstep SameData m
  /-- it leaves the reader alone -/
  still : Still m

theorem Aside.bind {β : Type} {f : α → In β} (hm : Aside m) (hf : ∀ a, Aside (f a)) :
    Aside (m >>= f) :=
  ⟨hm.lockstep.bind fun a => (hf a).lockstep, hm.still.bind fun a => (hf a).still⟩

theorem Aside.pure (a : α) : Aside (Pure.pure a : In α) := ⟨.pure a, .pure a⟩

theorem Aside.raise (e : Throwable) : Aside (Java.raise e : In α) := ⟨.raise e, .raise e⟩

/-- It returns the same on another reader of the data. -/
theorem Aside.run (hm : Aside m) (hst : SameData s t) (h : m s = .ok a s') : m t = .ok a t := by
  have hout := (hm.lockstep hst).1.symm.trans (outcome_ok h)
  rw [run_of_outcome_ok hout, hm.still t]

theorem readAt_aside (p : ℤ) : Aside (readAt p) :=
  ⟨readAt_lockstep onSameData_sameData p, readAt_still p⟩

theorem readFixedAt_aside {w size : ℕ} (f : FixedWidth w size) (n p : ℤ) (e : Bool) :
    Aside (readFixedAt f n p e) :=
  ⟨readFixedAt_lockstep onSameData_sameData f n p e, readFixedAt_still f n p e⟩

theorem dataAt_aside (p : ℤ) : Aside (dataAt p) :=
  ⟨dataAt_lockstep onSameData_sameData p, dataAt_still p⟩

theorem orEOF_aside (ch : ℤ) : Aside (orEOF ch) := by
  rw [orEOF]
  split
  · exact .raise _
  · exact .pure _

/-- A byte that is read is at the cursor. -/
theorem readAt_of_read {ch : ℤ} (h : read s = .ok ch s') :
    readAt s.pos s = .ok ch s ∧ SameData s' s := by
  rw [read, bind_ok (get_run s)] at h
  rw [readAt, bind_ok (get_run s)]
  split at h
  case isTrue hlt =>
    obtain ⟨u, s₁, hadv, h⟩ := bind_eq_ok h
    obtain ⟨b, s₂, hdata, h⟩ := bind_eq_ok h
    have hsame : SameData s₁ s := by
      cases hadv
      exact ⟨rfl, rfl⟩
    have hstill : s₂ = s₁ := (after_ok hdata).symm.trans (dataAt_still _ s₁)
    cases h
    rw [if_pos hlt, bind_ok ((dataAt_aside _).run hsame hdata), hstill]
    exact ⟨rfl, hsame⟩
  case isFalse hlt =>
    cases h
    rw [if_neg hlt]
    exact ⟨rfl, rfl, rfl⟩

/-- What is made of the byte that is read can be made of the one at the cursor. -/
theorem readAt_bind {f : ℤ → In α} (hf : ∀ ch, Aside (f ch)) (h : (read >>= f) s = .ok a s') :
    (readAt s.pos >>= f) s = .ok a s := by
  obtain ⟨ch, s₁, hread, h⟩ := bind_eq_ok h
  obtain ⟨hat, hsame⟩ := readAt_of_read hread
  rw [bind_ok hat]
  exact (hf ch).run hsame h

theorem readFixedAt_of_readFixed {w size : ℕ} {f : FixedWidth w size} {n : ℤ} {e : Bool}
    {v : BitVec w} (h : readFixed f n e s = .ok v s') : readFixedAt f n s.pos e s = .ok v s := by
  rw [readFixed, bind_ok (get_run s)] at h
  obtain ⟨v', s₁, hat, h⟩ := bind_eq_ok h
  obtain ⟨u, s₂, hadv, h⟩ := bind_eq_ok h
  cases h
  have hstill : s₁ = s := (after_ok hat).symm.trans (readFixedAt_still f n s.pos e s)
  rw [hat, hstill]

end ByteArrayObjectDataInput

open ByteArrayObjectDataInput in
/-- What is read where the cursor is put is read at that position without moving it. -/
theorem Kind.readAt_run {k : Kind} {m : ℤ → In k.Value} (hm : k.readAt bits = some m) {p : ℤ}
    {v : k.Value} (hrun : k.read bits { s with pos := p } = .ok v s') : m p s = .ok v s := by
  have hsame : SameData { s with pos := p } s := ⟨rfl, rfl⟩
  have hboolean : ∀ ch : ℤ, Aside (if ch < 0 then raise (.EOFException none) else
      return decide (ch ≠ 0) : In Bool) := by
    intro ch
    split
    · exact .raise _
    · exact .pure _
  cases k with
  | boolean =>
    cases hm
    exact ((readAt_aside p).bind hboolean).run hsame (readAt_bind hboolean hrun)
  | byte =>
    cases hm
    exact ((readAt_aside p).bind orEOF_aside).run hsame (readAt_bind orEOF_aside hrun)
  | char =>
    cases hm
    exact (readFixedAt_aside _ _ p _).run hsame (readFixedAt_of_readFixed hrun)
  | short o | int o | long o =>
    cases o with
    | none =>
      cases hm
      exact (readFixedAt_aside _ _ p _).run hsame (readFixedAt_of_readFixed hrun)
    | some o =>
      cases hm
      exact (readFixedAt_aside _ _ p _).run hsame (readFixedAt_of_readFixed hrun)
  | booleanArray | byteArray | charArray | shortArray | intArray | longArray | utf | utfArray =>
    cases hm

/-! ## Any order -/

/-- What a caller asks for. -/
inductive Request : Type where
  /-- the next item -/
  | next
  /-- the item of this index, and then those behind it -/
  | seek (j : ℕ)
  /-- the item of this index, without moving on -/
  | aside (j : ℕ)

/-- The item asked for, from a cursor. -/
def Request.index (i : ℕ) : Request → ℕ
  | .next => i
  | .seek j | .aside j => j

/-- The cursor afterwards. -/
def Request.cursor (i : ℕ) : Request → ℕ
  | .next => i + 1
  | .seek j => j + 1
  | .aside _ => i

/-- The abstract reader is a list of items with a cursor: what it finds and where it ends up. -/
def browse (items : List Item) : ℕ → List Request → Option (List Item × ℕ)
  | i, [] => some ([], i)
  | i, r :: rs => do
    let item ← items[r.index i]?
    let (found, last) ← browse items (r.cursor i) rs
    return (item :: found, last)

/-- The calls for an item of a kind that starts at this position. -/
def Request.call (bits : Bits) (position : ℤ) (k : Kind) (native : Bool) : Request → In k.Value
  | .next => k.readBy bits native
  | .seek _ => do
    ByteArrayObjectDataInput.position position
    k.readBy bits native
  | .aside _ =>
    match k.readAt bits with
    | some m => m position
    | none => do
      -- there is no such method for arrays and strings
      let here := (← get).pos
      ByteArrayObjectDataInput.position position
      let v ← k.readBy bits native
      ByteArrayObjectDataInput.position here
      return v

/-- A request, and whether a string is read natively. -/
structure Visit where
  /-- the request -/
  request : Request
  /-- by `readUTFJNI` -/
  native : Bool

/-- The calls of a caller that knows the layout of the stream, from a cursor. -/
def visits (bits : Bits) (e : Bool) (items : List Item) : ℕ → List Visit → In (List Item)
  | _, [] => pure []
  | i, v :: vs =>
    match items[v.request.index i]? with
    | none => raise .IndexOutOfBoundsException
    | some item => do
      let x ← v.request.call bits (offset (records bits e items) (v.request.index i)) item.kind
        v.native
      let xs ← visits bits e items (v.request.cursor i) vs
      return ⟨item.kind, x⟩ :: xs

/-- A string is read natively only where no longer one has been read before, or at the end of the
stream; `n` bounds the lengths of those read before. -/
def Fits (items : List Item) : ℕ → ℕ → List Visit → Prop
  | _, _, [] => True
  | n, i, v :: vs => ∀ item, items[v.request.index i]? = some item →
    (v.native = true → item.Stops n (v.request.index i + 1 = items.length)) ∧
      Fits items (max n item.width) (v.request.cursor i) vs

theorem Item.Stops.mono {n m : ℕ} {last : Prop} (h : item.Stops n last) (hm : m ≤ n) :
    item.Stops m last := by
  obtain ⟨k, v⟩ := item
  cases k with
  | utf =>
    rcases v with _ | us
    · exact trivial
    · exact h.imp_left hm.trans
  | _ => exact trivial

/-- **One request.** -/
theorem Before.call (h : Before bits e items i s) {r : Request} {native : Bool}
    (hi : items[r.index i]? = some item)
    (hn : native = true → item.Stops s.capacity (r.index i + 1 = items.length)) :
    ∃ s', r.call bits (offset (records bits e items) (r.index i)) item.kind native s =
        .ok item.value s' ∧ Before bits e items (r.cursor i) s' ∧
      s'.capacity ≤ max s.capacity item.width := by
  cases r with
  | next => exact h.readBy hi hn
  | seek j =>
    obtain ⟨s₁, hmove, h₁, hcap₁⟩ := h.position_run j
    obtain ⟨s', hrun, h', hcap⟩ := h₁.readBy hi (by rwa [hcap₁])
    exact ⟨s', (bind_ok hmove).trans hrun, h', by rwa [hcap₁] at hcap⟩
  | aside j =>
    rcases hm : item.kind.readAt bits with _ | m
    · obtain ⟨s₁, hmove, h₁, hcap₁⟩ := h.position_run j
      obtain ⟨s₂, hrun, h₂, hcap₂⟩ := h₁.readBy hi (by rwa [hcap₁])
      obtain ⟨s', hback, h', hcap'⟩ := h₂.position_run i
      rw [← h.pos_eq] at hback
      refine ⟨s', ?_, h', by rwa [hcap', ← hcap₁]⟩
      simp only [Request.call, hm, Request.index]
      rw [bind_ok (get_run s), bind_ok hmove, bind_ok hrun, bind_ok hback]
      rfl
    · obtain ⟨s₁, hrun, -, -⟩ := (h.moveTo j s.mark).read hi
      refine ⟨s, ?_, h, le_max_left _ _⟩
      simp only [Request.call, hm]
      exact Kind.readAt_run hm hrun

/-- Along a run. -/
theorem Before.visits (vs : List Visit) : ∀ {n i last : ℕ} {s : ByteArrayObjectDataInput}
    {found : List Item}, Before bits e items i s → s.capacity ≤ n → Fits items n i vs →
      browse items i (vs.map Visit.request) = some (found, last) →
        ∃ s', visits bits e items i vs s = .ok found s' ∧ Before bits e items last s' := by
  induction vs with
  | nil =>
    intro n i last s found h _ _ hfound
    cases hfound
    exact ⟨s, rfl, h⟩
  | cons v vs ih =>
    intro n i last s found h hcap hfits hfound
    rw [List.map_cons, browse, Option.bind_eq_bind, Option.bind_eq_some_iff] at hfound
    obtain ⟨item, hitem, hfound⟩ := hfound
    rw [Option.bind_eq_bind, Option.bind_eq_some_iff] at hfound
    obtain ⟨⟨found', last'⟩, hrest, hfound⟩ := hfound
    cases hfound
    obtain ⟨hstops, hfits⟩ := hfits item hitem
    obtain ⟨s₁, hrun, h₁, hcap₁⟩ := h.call hitem fun hnative => (hstops hnative).mono hcap
    obtain ⟨s', hrun', h'⟩ := ih h₁ (by omega) hfits hrest
    refine ⟨s', ?_, h'⟩
    rw [HzResearch.visits, hitem]
    dsimp only
    rw [bind_ok hrun, bind_ok hrun']
    rfl

/-- **A reader of a stream is a list of items with a cursor**: whatever items a caller asks for, the
next one, one it seeks or one it looks at aside, and in whatever order, it gets the items that the
abstract reader finds, and the reader ends up where the abstract one does. A string may be read
natively if no longer one has been read before, or if it is the last. -/
theorem browse_returns (bits : Bits) {size : ℤ} (h0 : 0 ≤ size) (h : size ≤ MAX_VALUE)
    (order : ByteOrder) {items : List Item} {w : ByteArrayObjectDataOutput} {data : List Byte}
    (hok : writeItems bits items (ByteArrayObjectDataOutput.new size order) = .ok () w)
    (hdata : ByteArrayObjectDataOutput.toByteArray w = .ok data w) {vs : List Visit}
    (hfits : Fits items 0 0 vs) {found : List Item} {last : ℕ}
    (hfound : browse items 0 (vs.map Visit.request) = some (found, last)) :
    ∃ s', visits bits (order == .BIG_ENDIAN) items 0 vs
        (ByteArrayObjectDataInput.new (some data) 0 order) = .ok found s' ∧
      s'.pos = offset (records bits (order == .BIG_ENDIAN) items) last := by
  obtain ⟨hbytes, hmax⟩ := writeItems_bytes h0 h order hok
  obtain rfl : data = _ := (EStateM.Result.ok.inj (hdata.symm.trans hbytes)).1
  have hbefore : Before bits (order == .BIG_ENDIAN) items 0 (ByteArrayObjectDataInput.new
      (some (encodeItems bits (order == .BIG_ENDIAN) items)) 0 order) :=
    ⟨ByteArrayObjectDataInput.inBounds_new hmax order, rfl, rfl, rfl⟩
  obtain ⟨s', hrun, hlast⟩ := hbefore.visits vs (Nat.zero_le 0) hfits hfound
  exact ⟨s', hrun, hlast.pos_eq⟩

/-- A number and two strings. -/
def chapters : List Item :=
  [⟨.short none, 0x0102#16⟩, ⟨.utf, some [0x41]⟩, ⟨.utf, some [0x42, 0x43]⟩]

/-- The short string natively, the number aside, the longer string natively, then back to the number
and on from there. -/
def tour : List Visit :=
  [⟨.seek 1, true⟩, ⟨.aside 0, false⟩, ⟨.next, true⟩, ⟨.seek 0, false⟩, ⟨.next, false⟩]

theorem fits_tour : Fits chapters 0 0 tour := by
  intro item h
  cases h
  refine ⟨fun _ => .inl (Nat.zero_le 1), fun item h => ?_⟩
  cases h
  refine ⟨nofun, fun item h => ?_⟩
  cases h
  refine ⟨fun _ => .inl (by decide), fun item h => ?_⟩
  cases h
  refine ⟨nofun, fun item h => ?_⟩
  cases h
  exact ⟨nofun, trivial⟩

theorem browse_returns_tour :
    ∃ s', visits Bits.standard true chapters 0 tour (ByteArrayObjectDataInput.new
        (some [1, 2, 0, 0, 0, 1, 0x41, 0, 0, 0, 2, 0x42, 0x43]) 0 .BIG_ENDIAN) =
      .ok [⟨.utf, some [0x41]⟩, ⟨.short none, 0x0102#16⟩, ⟨.utf, some [0x42, 0x43]⟩,
        ⟨.short none, 0x0102#16⟩, ⟨.utf, some [0x41]⟩] s' ∧ s'.pos = 7 := by
  have hok : writeItems Bits.standard chapters (ByteArrayObjectDataOutput.new 17 .BIG_ENDIAN) =
      .ok () ⟨17, some [1, 2, 0, 0, 0, 1, 0x41, 0, 0, 0, 2, 0x42, 0x43, 0, 0, 0, 0], 13, true, 6⟩ :=
    rfl
  have hdata : ByteArrayObjectDataOutput.toByteArray
      ⟨17, some [1, 2, 0, 0, 0, 1, 0x41, 0, 0, 0, 2, 0x42, 0x43, 0, 0, 0, 0], 13, true, 6⟩ =
        .ok [1, 2, 0, 0, 0, 1, 0x41, 0, 0, 0, 2, 0x42, 0x43] _ := rfl
  have hfound : browse chapters 0 (tour.map Visit.request) =
      some ([⟨.utf, some [0x41]⟩, ⟨.short none, 0x0102#16⟩, ⟨.utf, some [0x42, 0x43]⟩,
        ⟨.short none, 0x0102#16⟩, ⟨.utf, some [0x41]⟩], 2) := rfl
  exact browse_returns Bits.standard (by decide) (by decide) .BIG_ENDIAN hok hdata fits_tour hfound

end HzResearch
