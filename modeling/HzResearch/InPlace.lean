import HzResearch.RandomAccess
import HzResearch.Stream

/-!
# Streams edited in place

The items of a stream are records of a file. An item is replaced by another as long as it, either
by a positional write or by a seek and a sequential write; the items behind it stay where they are
(`Replacement.edits`). `readItems_editing`: after any replacements, in any order, a reader reads the
items that are there now.
-/

namespace HzResearch

open Java
open ByteArrayObjectDataOutput
open ByteArrayObjectDataInput (Decodes toInt_ofInt layout_ne_nil utfBytes_ne_nil)

/-! ## Records that are replaced -/

/-- The positional write of an item, if its kind has one. -/
def Item.writeAt : Item → Option WriteAt
  | ⟨.boolean, v⟩ => some (.writeBoolean v)
  | ⟨.byte, v⟩ => some (.writeByte (BitVec.signExtend 32 v))
  | ⟨.char, v⟩ => some (.writeChar (BitVec.setWidth 32 v))
  | ⟨.short o, v⟩ => some (.writeShort (BitVec.signExtend 32 v) o)
  | ⟨.int o, v⟩ => some (.writeInt v o)
  | ⟨.long o, v⟩ => some (.writeLong v o)
  | _ => none

/-- One item of a stream is replaced by another. -/
structure Replacement where
  /-- which one -/
  index : ℕ
  /-- the new one -/
  item : Item
  /-- by a positional write, if there is one, and not by a seek and a sequential write -/
  inPlace : Bool

section

variable (bits : Bits) (e : Bool)

/-- The records of a stream. -/
def records (items : List Item) : List (List Byte) := items.map (Item.encoding bits e)

/-- The calls of a replacement. -/
def Replacement.ops (items : List Item) (r : Replacement) : List Op :=
  match r.inPlace, r.item.writeAt with
  | true, some c => [.writeAt c (BitVec.ofInt 32 (offset (records bits e items) r.index))]
  | _, _ => [.position (BitVec.ofInt 32 (offset (records bits e items) r.index)),
      .call (.write r.item.write)]

/-- The new record is as long as the old one, and if it holds strings, all that is reserved for
them lies inside the stream. -/
def Replacement.Fits (items : List Item) (r : Replacement) : Prop :=
  (records bits e items)[r.index]?.map List.length = some (r.item.encoding bits e).length ∧
    (r.item.write.HasStrings →
      Roomy (records bits e items).flatten.length (offset (records bits e items) r.index)
        (r.item.write.chunks bits e))

end

/-- The stream after a replacement. -/
def Replacement.apply (items : List Item) (r : Replacement) : List Item := items.set r.index r.item

variable {bits : Bits} {e : Bool} {items items' : List Item} {r : Replacement} {f : File Byte}

theorem Item.bytes_writeAt {item : Item} {c : WriteAt} (h : item.writeAt = some c) :
    c.bytes bits e = item.encoding bits e := by
  obtain ⟨k, v⟩ := item
  cases k with
  | boolean | byte | char | short | int | long =>
    cases h
    exact (flat_exact _).symm
  | _ => cases h

theorem Item.encoding_ne_nil (item : Item) : item.encoding bits e ≠ [] := by
  rw [item.encoding_eq]
  obtain ⟨k, v⟩ := item
  cases k with
  | boolean | byte => exact List.cons_ne_nil _ _
  | char => exact layout_ne_nil bits.char (by decide) v
  | short o => exact layout_ne_nil bits.short (by decide) v
  | int o => exact layout_ne_nil bits.int (by decide) v
  | long o => exact layout_ne_nil bits.long (by decide) v
  | utf => exact utfBytes_ne_nil v
  | _ => exact List.append_ne_nil_of_left_ne_nil (layout_ne_nil bits.int (by decide) _) _

theorem Item.sized_write {item : Item} (h : item.Sized) : item.write.Sized := by
  obtain ⟨k, v⟩ := item
  cases k <;> exact h

theorem encodeItems_eq_flatten (items : List Item) :
    encodeItems bits e items = (records bits e items).flatten :=
  List.flatMap_def

theorem records_apply (items : List Item) (r : Replacement) :
    records bits e (r.apply items) = (records bits e items).set r.index (r.item.encoding bits e) :=
  List.map_set

/-- The record that is replaced. -/
theorem Replacement.Fits.getElem (h : r.Fits bits e items) :
    ∃ hk : r.index < (records bits e items).length,
      (r.item.encoding bits e).length = (records bits e items)[r.index].length := by
  obtain ⟨old, hold, hlen⟩ := Option.map_eq_some_iff.1 h.1
  obtain ⟨hk, hget⟩ := List.getElem?_eq_some_iff.1 hold
  exact ⟨hk, by rw [← hlen, hget]⟩

/-- What a replacement does depends on the lengths of the records only. -/
theorem Replacement.Fits.congr
    (hlen : (records bits e items).map List.length = (records bits e items').map List.length)
    (h : r.Fits bits e items) : r.Fits bits e items' := by
  obtain ⟨hsame, hroomy⟩ := h
  rw [← List.getElem?_map, hlen, List.getElem?_map] at hsame
  rw [List.length_flatten, hlen, ← List.length_flatten, offset_congr hlen] at hroomy
  exact ⟨hsame, hroomy⟩

theorem Replacement.ops_congr
    (hlen : (records bits e items).map List.length = (records bits e items').map List.length)
    (r : Replacement) : r.ops bits e items = r.ops bits e items' := by
  rw [ops, ops, offset_congr hlen]

theorem Replacement.Fits.map_length_eq (h : r.Fits bits e items) :
    (records bits e (r.apply items)).map List.length = (records bits e items).map List.length := by
  obtain ⟨hk, hlen⟩ := h.getElem
  rw [records_apply, map_length_set hk hlen]

/-- **One replacement** is permitted, by either way, and replaces the item. -/
theorem Replacement.edits (h : r.Fits bits e items) (hf : f.contents = encodeItems bits e items)
    (hmax : f.contents.length ≤ MAX_VALUE) :
    ∃ f', EditsAll bits e (r.ops bits e items) f f' ∧
      f'.contents = encodeItems bits e (r.apply items) := by
  obtain ⟨hk, hlen⟩ := h.getElem
  rw [encodeItems_eq_flatten] at hf
  have hin : offset (records bits e items) r.index + (r.item.encoding bits e).length ≤
      f.contents.length := by
    rw [hf, hlen]
    exact offset_add_le hk
  have hi : (BitVec.ofInt 32 (offset (records bits e items) r.index)).toInt =
      offset (records bits e items) r.index :=
    toInt_ofInt (by rw [NULL_ARRAY_LENGTH]; omega) (by omega)
  have hsplice : splice f.contents (offset (records bits e items) r.index)
      (r.item.encoding bits e) = encodeItems bits e (r.apply items) := by
    rw [hf, splice_flatten hk hlen, encodeItems_eq_flatten, records_apply]
  rw [Replacement.ops]
  split
  case h_1 c _ hc =>
    have hbytes : c.bytes bits e = r.item.encoding bits e := Item.bytes_writeAt hc
    exact ⟨_, .cons (.patch_of_eq hi hbytes hin) .nil, hsplice⟩
  case h_2 =>
    have hne : f.contents ≠ [] := by
      have hpos : 0 < (r.item.encoding bits e).length :=
        List.length_pos_iff.2 r.item.encoding_ne_nil
      exact List.ne_nil_of_length_pos (by omega)
    have hseek : Edits bits e
        (.position (BitVec.ofInt 32 (offset (records bits e items) r.index))) f
        (f.seek (offset (records bits e items) r.index) (by omega)) := .seek_of_eq hne hi _
    have hwrite : Edits bits e (.call (.write r.item.write))
        (f.seek (offset (records bits e items) r.index) (by omega))
        ((f.seek (offset (records bits e items) r.index) (by omega)).write
          (r.item.encoding bits e)) := by
      by_cases hs : r.item.write.HasStrings
      · refine .write r.item.accepted (.inl ?_)
        have hroomy := h.2 hs
        rwa [← hf] at hroomy
      · refine .write_of_not_hasStrings r.item.accepted (Item.sized_write ?_) hs _
        refine r.item.sized_of_layout (?_ : (r.item.layout bits e).length ≤ MAX_VALUE)
        rw [← r.item.encoding_eq]
        omega
    exact ⟨_, .cons hseek (.cons hwrite .nil), hsplice⟩

/-- The calls of a stream. -/
def streamOps (items : List Item) : List Op := items.map fun item => .call (.write item.write)

theorem streamOps_edit (items : List Item) : ∀ {f : File Byte}, f.cursor = f.contents.length →
    ∃ f', EditsAll bits e (streamOps items) f f' ∧
      f'.contents = f.contents ++ encodeItems bits e items := by
  induction items with
  | nil => exact fun {f} _ => ⟨f, .nil, (List.append_nil _).symm⟩
  | cons item items ih =>
    intro f hf
    have hwrite : Edits bits e (.call (.write item.write)) f (f.write (item.encoding bits e)) :=
      .write item.accepted (.inr (by omega))
    have hcontents := File.contents_write_end hf (item.encoding bits e)
    have hend : (f.write (item.encoding bits e)).cursor =
        (f.write (item.encoding bits e)).contents.length := by
      rw [hcontents, List.length_append, File.cursor_write, hf]
    obtain ⟨f', hedits, hf'⟩ := ih hend
    exact ⟨f', .cons hwrite hedits, by rw [hf', hcontents, encodeItems_cons, List.append_assoc]⟩

theorem length_encodeItems_congr
    (hlen : (records bits e items).map List.length = (records bits e items').map List.length) :
    (encodeItems bits e items).length = (encodeItems bits e items').length := by
  rw [encodeItems_eq_flatten, encodeItems_eq_flatten, List.length_flatten,
    List.length_flatten, hlen]

/-- Replacements one after the other. -/
theorem replacements_edit (rs : List Replacement) : ∀ {items : List Item} {f : File Byte},
    (∀ r ∈ rs, r.Fits bits e items) → f.contents = encodeItems bits e items →
      f.contents.length ≤ MAX_VALUE →
        ∃ f', EditsAll bits e (rs.flatMap (Replacement.ops bits e items)) f f' ∧
          f'.contents = encodeItems bits e (rs.foldl Replacement.apply items) ∧
            f'.contents.length = f.contents.length := by
  induction rs with
  | nil => exact fun {items f} _ hf _ => ⟨f, .nil, hf, rfl⟩
  | cons r rs ih =>
    intro items f hrs hf hmax
    have hr : r.Fits bits e items := hrs r List.mem_cons_self
    -- the records keep their lengths, so the others go where they went before
    have hlen := hr.map_length_eq
    obtain ⟨g, hg, hcontents⟩ := Replacement.edits hr hf hmax
    have hsame : g.contents.length = f.contents.length := by
      rw [hcontents, hf]
      exact length_encodeItems_congr hlen
    have hrest : ∀ r' ∈ rs, r'.Fits bits e (r.apply items) := fun r' hr' =>
      (hrs r' (List.mem_cons_of_mem r hr')).congr hlen.symm
    obtain ⟨f', hf', hfinal, hlast⟩ := ih hrest hcontents (by omega)
    have hops : Replacement.ops bits e (r.apply items) = Replacement.ops bits e items :=
      funext fun r' => r'.ops_congr hlen
    rw [hops] at hf'
    exact ⟨f', hg.append hf', hfinal, hlast.trans hsame⟩

/-- A stream is written, items of it are replaced, and `pos` goes back behind the last. -/
def editing (bits : Bits) (e : Bool) (items : List Item) (rs : List Replacement) : List Op :=
  streamOps items ++ (rs.flatMap (Replacement.ops bits e items) ++
    [.position (BitVec.ofInt 32 (encodeItems bits e items).length)])

/-- In the empty stream there is no item to replace, and `pos` is set to where it is. -/
theorem editing_nil (bits : Bits) (size : ℤ) (order : ByteOrder) :
    Op.runAll bits (editing bits (order == .BIG_ENDIAN) [] []) (new size order) =
        .ok (returned (editing bits (order == .BIG_ENDIAN) [] [])) (new size order) ∧
      toByteArray (new size order) = .ok [] (new size order) := by
  have hzero : (BitVec.ofInt 32 (encodeItems bits (order == .BIG_ENDIAN) []).length).toInt = 0 :=
    rfl
  have hseek : Op.run bits
      (.position (BitVec.ofInt 32 (encodeItems bits (order == .BIG_ENDIAN) []).length))
        (new size order) = .ok () (new size order) := by
    rw [Op.run, hzero]
    refine (bind_ok (get_run _)).trans ?_
    exact congrFun (if_neg (by simp)) _
  exact ⟨runAll_cons_ok hseek rfl, rfl⟩

theorem Replacement.not_fits_nil (r : Replacement) : ¬ r.Fits bits e [] := fun h =>
  absurd h.getElem.1 (Nat.not_lt_zero _)

/-- **Streams are edited in place**: items of a stream are replaced by others of the same length, in
any order, any number of times, by positional writes or by seeks and sequential writes. The writer
then holds the encoding of the stream with these items replaced, and a reader reads them. -/
theorem readItems_editing (bits : Bits) {size : ℤ} (h0 : 0 ≤ size) (h : size ≤ MAX_VALUE)
    (order : ByteOrder) {items : List Item} {rs : List Replacement}
    (hrs : ∀ r ∈ rs, r.Fits bits (order == .BIG_ENDIAN) items)
    (hpeak : (after (Op.runAll bits (editing bits (order == .BIG_ENDIAN) items rs))
      (new size order)).peak ≤ MAX_VALUE) :
    ∃ w data s',
      Op.runAll bits (editing bits (order == .BIG_ENDIAN) items rs) (new size order) =
        .ok (returned (editing bits (order == .BIG_ENDIAN) items rs)) w ∧
      toByteArray w = .ok data w ∧
        data = encodeItems bits (order == .BIG_ENDIAN) (rs.foldl Replacement.apply items) ∧
          readItems bits ((rs.foldl Replacement.apply items).map Item.kind)
              (ByteArrayObjectDataInput.new (some data) 0 order) =
            .ok (rs.foldl Replacement.apply items) s' ∧
            s'.pos = data.length := by
  by_cases hne : items = []
  · subst hne
    obtain rfl : rs = [] := List.eq_nil_iff_forall_not_mem.2 fun r hr => r.not_fits_nil (hrs r hr)
    obtain ⟨hrun, hbytes⟩ := editing_nil bits size order
    exact ⟨_, [], _, hrun, hbytes, rfl, rfl, rfl⟩
  obtain ⟨f, hwrites, hf⟩ : ∃ f, EditsAll bits (order == .BIG_ENDIAN) (streamOps items) .empty f ∧
      f.contents = [] ++ encodeItems bits (order == .BIG_ENDIAN) items := streamOps_edit items rfl
  rw [List.nil_append] at hf
  -- the stream fits into an array, because the writer holds it
  have hmax : f.contents.length ≤ MAX_VALUE := by
    have hsane : Sane (after (Op.runAll bits (streamOps items)) (new size order)) :=
      (runAll_keeps _ (new_sane h0 h order)).sane
    rw [editing, after_runAll_append] at hpeak
    have hpeak' := (runAll_keeps _ hsane).peak_le.trans hpeak
    obtain ⟨-, hrep⟩ := hwrites.run (represents_new h0 h order) rfl hpeak'
    have hle := hrep.length_le
    have hlength := hsane.length_le
    omega
  obtain ⟨g, hreplaced, hg, hlen⟩ := replacements_edit rs hrs hf hmax
  have hgne : g.contents ≠ [] := by
    obtain ⟨item, items', rfl⟩ := List.exists_cons_of_ne_nil hne
    rw [← List.length_pos_iff, hlen, List.length_pos_iff, hf, encodeItems_cons]
    exact List.append_ne_nil_of_left_ne_nil item.encoding_ne_nil _
  have hseek : Edits bits (order == .BIG_ENDIAN)
      (.position (BitVec.ofInt 32 (encodeItems bits (order == .BIG_ENDIAN) items).length)) g
      (g.seek g.contents.length (le_refl _)) := by
    refine .seek_of_eq hgne ?_ _
    rw [hlen, ← hf]
    exact toInt_ofInt (by rw [NULL_ARRAY_LENGTH]; omega) hmax
  obtain ⟨w, hrun, hrep, hbytes⟩ := runAll_represents bits h0 h order
    (hwrites.append (hreplaced.append (.cons hseek .nil))) hpeak
  rw [File.seek, List.take_length, hg] at hbytes
  rw [← hlen, hg] at hmax
  have hdecodes : Decodes (order == .BIG_ENDIAN) (readItems bits (List.map Item.kind _))
      (encodeItems bits (order == .BIG_ENDIAN) (rs.foldl Replacement.apply items)) _ :=
    readItems_decodes _ (sized_of_encodeItems hmax)
  obtain ⟨s', hread, hpast⟩ := hdecodes
    (ByteArrayObjectDataInput.inBounds_new hmax order) rfl (List.append_nil _).symm
  exact ⟨w, _, s', hrun, hbytes, rfl, hread, hpast.pos_eq.trans (Int.zero_add _)⟩

/-- A string, a number and an array. -/
def drafts : List Item :=
  [⟨.utf, some [0x41]⟩, ⟨.int none, 7#32⟩, ⟨.booleanArray, some [true, false]⟩]

/-- The number is replaced in place, then the array by a `char[]` as long, then the string. -/
def corrections : List Replacement :=
  [⟨1, ⟨.int (some .LITTLE_ENDIAN), 8#32⟩, true⟩, ⟨2, ⟨.charArray, some [0x20AC]⟩, true⟩,
    ⟨0, ⟨.utf, some [0x42]⟩, false⟩]

theorem fits_corrections : ∀ r ∈ corrections, r.Fits Bits.standard true drafts := by
  intro r hr
  simp only [corrections, List.mem_cons, List.not_mem_nil, or_false] at hr
  rcases hr with rfl | rfl | rfl
  · exact ⟨rfl, False.elim⟩
  · exact ⟨rfl, False.elim⟩
  · exact ⟨rfl, fun _ => by decide⟩

theorem readItems_editing_corrections :
    ∃ w data s',
      Op.runAll Bits.standard (editing Bits.standard true drafts corrections)
          (new 2 .BIG_ENDIAN) =
        .ok (returned (editing Bits.standard true drafts corrections)) w ∧
      toByteArray w = .ok data w ∧
        data = encodeItems Bits.standard true
          [⟨.utf, some [0x42]⟩, ⟨.int (some .LITTLE_ENDIAN), 8#32⟩, ⟨.charArray, some [0x20AC]⟩] ∧
          readItems Bits.standard [.utf, .int (some .LITTLE_ENDIAN), .charArray]
              (ByteArrayObjectDataInput.new (some data) 0 .BIG_ENDIAN) =
            .ok [⟨.utf, some [0x42]⟩, ⟨.int (some .LITTLE_ENDIAN), 8#32⟩,
              ⟨.charArray, some [0x20AC]⟩] s' ∧
            s'.pos = data.length :=
  readItems_editing Bits.standard (by decide) (by decide) .BIG_ENDIAN fits_corrections
    (by decide +kernel)

end HzResearch
