import HzResearch.Append
import HzResearch.Codec

/-!
# Typed streams

A typed value is an `Item`: a `Kind`, which says how it is written and read, and a
value of that kind. `readItems_writeItems` is the round trip: what a writer has been
given, a reader over its bytes returns, and stops at the end of the data.
`readItems_truncated` is about a stream that is cut off anywhere: if it holds no byte
arrays, all values before the cut come back, and the read of the next one throws
`EOFException`.

`Item.reads` connects the two classes, kind by kind.
-/

namespace HzResearch

open Java Utf8
open ByteArrayObjectDataOutput (Write Out flat arrayChunks utfChunks byteArrayChunks lengthChunk
  flat_exact inOrder Writes)
open ByteArrayObjectDataInput (In Reads Decodes arrayBytes utfBytes lengthOrNull_le_arrayBytes
  lengthOrNull_le_utfBytes layout_ne_nil utfBytes_ne_nil)

/-! ## Items -/

/-- How a value is written and read. A `byteOrder` is present for the variants that take one. -/
inductive Kind : Type where
  | boolean
  | byte
  | char
  | short (byteOrder : Option ByteOrder)
  | int (byteOrder : Option ByteOrder)
  | long (byteOrder : Option ByteOrder)
  | booleanArray
  | byteArray
  | charArray
  | shortArray
  | intArray
  | longArray
  | utf
  | utfArray
  deriving DecidableEq

/-- The values of a kind. -/
def Kind.Value : Kind → Type
  | .boolean => Bool
  | .byte => Byte
  | .char => CodeUnit
  | .short _ => BitVec 16
  | .int _ => BitVec 32
  | .long _ => BitVec 64
  | .booleanArray => Option (List Bool)
  | .byteArray => Option (List Byte)
  | .charArray => Option (List CodeUnit)
  | .shortArray => Option (List (BitVec 16))
  | .intArray => Option (List (BitVec 32))
  | .longArray => Option (List (BitVec 64))
  | .utf => Option (List CodeUnit)
  | .utfArray => Option (List (Option (List CodeUnit)))

/-- A value with its kind. -/
structure Item : Type where
  /-- the kind -/
  kind : Kind
  /-- the value -/
  value : kind.Value

/-- The call that writes an item. -/
def Item.write : Item → Write
  | ⟨.boolean, v⟩ => .writeBoolean v
  | ⟨.byte, v⟩ => .writeByte (BitVec.signExtend 32 v)
  | ⟨.char, v⟩ => .writeChar (BitVec.setWidth 32 v)
  | ⟨.short o, v⟩ => .writeShort (BitVec.signExtend 32 v) o
  | ⟨.int o, v⟩ => .writeInt v o
  | ⟨.long o, v⟩ => .writeLong v o
  | ⟨.booleanArray, v⟩ => .writeBooleanArray v
  | ⟨.byteArray, v⟩ => .writeByteArray v
  | ⟨.charArray, v⟩ => .writeCharArray v
  | ⟨.shortArray, v⟩ => .writeShortArray v
  | ⟨.intArray, v⟩ => .writeIntArray v
  | ⟨.longArray, v⟩ => .writeLongArray v
  | ⟨.utf, v⟩ => .writeUTF v
  | ⟨.utfArray, v⟩ => .writeUTFArray v

variable (bits : Bits)

open ByteArrayObjectDataInput in
/-- The method that reads a value of a kind. -/
def Kind.read : (k : Kind) → In k.Value
  | .boolean => readBoolean
  | .byte => readByte
  | .char => readChar bits
  | .short none => readShort bits
  | .short (some o) => readShortOrder bits o
  | .int none => readInt bits
  | .int (some o) => readIntOrder bits o
  | .long none => readLong bits
  | .long (some o) => readLongOrder bits o
  | .booleanArray => readBooleanArray bits
  | .byteArray => readByteArray bits
  | .charArray => readCharArray bits
  | .shortArray => readShortArray bits
  | .intArray => readIntArray bits
  | .longArray => readLongArray bits
  | .utf => readUTF bits
  | .utfArray => readUTFArray bits

/-- One write for each item. -/
def writeItems (items : List Item) : Out Unit := forEach (fun item => item.write.run bits) items

/-- One read for each kind. -/
def readItems : List Kind → In (List Item)
  | [] => pure []
  | k :: ks => do
    let v ← k.read bits
    let items ← readItems ks
    return ⟨k, v⟩ :: items

/-- The bytes of an item. -/
def Item.encoding (e : Bool) (item : Item) : List Byte := item.write.encoding bits e

/-- The bytes of a stream. -/
def encodeItems (e : Bool) (items : List Item) : List Byte := items.flatMap (Item.encoding bits e)

/-- The same bytes in terms of the value alone: `Item.encoding_eq`. -/
def Item.layout (e : Bool) : Item → List Byte
  | ⟨.boolean, v⟩ => (fun x : Bool => [if x then 1 else 0]) v
  | ⟨.byte, v⟩ => [v]
  | ⟨.char, v⟩ => bits.char.layout e v
  | ⟨.short o, v⟩ => bits.short.layout (inOrder e o) v
  | ⟨.int o, v⟩ => bits.int.layout (inOrder e o) v
  | ⟨.long o, v⟩ => bits.long.layout (inOrder e o) v
  | ⟨.booleanArray, v⟩ => arrayBytes bits e (fun x => [if x then 1 else 0]) v
  | ⟨.byteArray, v⟩ => arrayBytes bits e (fun x => [x]) v
  | ⟨.charArray, v⟩ => arrayBytes bits e (bits.char.layout e) v
  | ⟨.shortArray, v⟩ => arrayBytes bits e (bits.short.layout e) v
  | ⟨.intArray, v⟩ => arrayBytes bits e (bits.int.layout e) v
  | ⟨.longArray, v⟩ => arrayBytes bits e (bits.long.layout e) v
  | ⟨.utf, v⟩ => utfBytes bits e v
  | ⟨.utfArray, v⟩ => arrayBytes bits e (utfBytes bits e) v

/-! ## The bytes written -/

variable {bits} {e : Bool}

theorem Item.accepted (item : Item) : item.write.Accepted := by
  obtain ⟨k, v⟩ := item
  cases k <;> exact trivial

variable (bits) in
theorem writeItems_writes (items : List Item) :
    Writes e (writeItems bits items) (items.flatMap fun item => item.write.chunks bits e) :=
  Writes.forEach (fun item => item.write.writes bits item.accepted) items

theorem flat_items (items : List Item) :
    flat (items.flatMap fun item => item.write.chunks bits e) = encodeItems bits e items :=
  ByteArrayObjectDataOutput.flat_flatMap _ items

theorem flat_arrayChunks {α : Type} (f : α → List ByteArrayObjectDataOutput.Chunk)
    (xs : Option (List α)) :
    flat (arrayChunks bits e f xs) = arrayBytes bits e (fun x => flat (f x)) xs := by
  rw [arrayChunks, ByteArrayObjectDataOutput.flat_cons, ByteArrayObjectDataOutput.flat_flatMap]
  rfl

theorem flat_utfChunks (s : Option (List CodeUnit)) :
    flat (utfChunks bits e s) = utfBytes bits e s := by
  rw [utfChunks, ByteArrayObjectDataOutput.flat_cons, utfBytes]
  split
  case isTrue h => rw [h, encode_nil]; rfl
  case isFalse h => simp [lengthChunk]

theorem flat_byteArrayChunks (xs : Option (List Byte)) :
    flat (byteArrayChunks bits e xs) = arrayBytes bits e (fun x => [x]) xs := by
  rw [byteArrayChunks, ByteArrayObjectDataOutput.flat_cons, arrayBytes, List.flatMap_singleton']
  split
  case isTrue h => rw [h]; rfl
  case isFalse h => simp [lengthChunk]

theorem setWidth_signExtend {n : ℕ} (hn : n ≤ 32) (v : BitVec n) :
    (v.signExtend 32).setWidth n = v := by
  ext i hi
  simp [BitVec.getLsbD_signExtend, hi]
  omega

theorem setWidth_setWidth (c : CodeUnit) : (c.setWidth 32).setWidth 16 = c := by bv_omega

/-- **The writes of an item store its layout.** -/
theorem Item.encoding_eq (item : Item) : item.encoding bits e = item.layout bits e := by
  obtain ⟨k, v⟩ := item
  cases k with
  | boolean => exact flat_exact _
  | byte => exact (flat_exact _).trans (congrArg (fun x => [x]) (setWidth_signExtend (by decide) v))
  | char => exact (flat_exact _).trans (congrArg _ (setWidth_setWidth v))
  | short o => exact (flat_exact _).trans (congrArg _ (setWidth_signExtend (by decide) v))
  | int o => exact flat_exact _
  | long o => exact flat_exact _
  | booleanArray => exact (flat_arrayChunks _ v).trans (by simp only [flat_exact, Item.layout])
  | byteArray => exact flat_byteArrayChunks v
  | charArray => exact (flat_arrayChunks _ v).trans (by simp only [flat_exact, Item.layout])
  | shortArray => exact (flat_arrayChunks _ v).trans (by simp only [flat_exact, Item.layout])
  | intArray => exact (flat_arrayChunks _ v).trans (by simp only [flat_exact, Item.layout])
  | longArray => exact (flat_arrayChunks _ v).trans (by simp only [flat_exact, Item.layout])
  | utf => exact flat_utfChunks v
  | utfArray => exact (flat_arrayChunks _ v).trans (by simp only [flat_utfChunks, Item.layout])

/-! ## The bytes read -/

/-- Arrays and strings have at most `Integer.MAX_VALUE` elements. -/
def Item.Sized : Item → Prop
  | ⟨.booleanArray, v⟩ => lengthOrNull v ≤ MAX_VALUE
  | ⟨.byteArray, v⟩ => lengthOrNull v ≤ MAX_VALUE
  | ⟨.charArray, v⟩ => lengthOrNull v ≤ MAX_VALUE
  | ⟨.shortArray, v⟩ => lengthOrNull v ≤ MAX_VALUE
  | ⟨.intArray, v⟩ => lengthOrNull v ≤ MAX_VALUE
  | ⟨.longArray, v⟩ => lengthOrNull v ≤ MAX_VALUE
  | ⟨.utf, v⟩ => lengthOrNull v ≤ MAX_VALUE
  | ⟨.utfArray, v⟩ => lengthOrNull v ≤ MAX_VALUE ∧
    ∀ s ∈ Option.getD v [], lengthOrNull s ≤ MAX_VALUE
  | _ => True

/-- An item whose bytes fit into an array is `Sized`. -/
theorem Item.sized_of_layout (item : Item) (h : (item.layout bits e).length ≤ MAX_VALUE) :
    item.Sized := by
  obtain ⟨k, v⟩ := item
  cases k with
  | boolean | byte | char | short | int | long => exact trivial
  | booleanArray | byteArray =>
    exact (lengthOrNull_le_arrayBytes (fun x => List.cons_ne_nil _ _) v).trans h
  | charArray => exact (lengthOrNull_le_arrayBytes (layout_ne_nil bits.char (by decide)) v).trans h
  | shortArray =>
    exact (lengthOrNull_le_arrayBytes (layout_ne_nil bits.short (by decide)) v).trans h
  | intArray => exact (lengthOrNull_le_arrayBytes (layout_ne_nil bits.int (by decide)) v).trans h
  | longArray => exact (lengthOrNull_le_arrayBytes (layout_ne_nil bits.long (by decide)) v).trans h
  | utf => exact (lengthOrNull_le_utfBytes v).trans h
  | utfArray =>
    refine ⟨(lengthOrNull_le_arrayBytes utfBytes_ne_nil v).trans h, fun s hs => ?_⟩
    have hsub : (utfBytes bits e s).length ≤ ((Option.getD v []).flatMap (utfBytes bits e)).length :=
      (List.sublist_flatten_of_mem (List.mem_map_of_mem hs)).length_le
    have hle : lengthOrNull s ≤ (utfBytes bits e s).length := lengthOrNull_le_utfBytes s
    have hall : (Item.layout bits e ⟨.utfArray, v⟩).length =
        (bits.int.layout e (BitVec.ofInt 32 (lengthOrNull v))).length +
          ((Option.getD v []).flatMap (utfBytes bits e)).length := List.length_append
    omega

/-- **Every kind but byte arrays is read the way it was written.** -/
theorem Item.reads (item : Item) (hs : item.Sized) (hk : item.kind ≠ .byteArray) :
    Reads e (item.kind.read bits) (item.encoding bits e) item.value := by
  rw [item.encoding_eq]
  open ByteArrayObjectDataInput in
  obtain ⟨k, v⟩ := item
  cases k with
  | boolean => exact readBoolean_reads v
  | byte => exact readByte_reads v
  | char => exact readChar_reads v
  | short o =>
    cases o with
    | none => exact readShort_reads v
    | some o => exact readFixed_reads bits.short rfl (by decide) _ v
  | int o =>
    cases o with
    | none => exact readInt_reads v
    | some o => exact readFixed_reads bits.int rfl (by decide) _ v
  | long o =>
    cases o with
    | none => exact readLong_reads v
    | some o => exact readFixed_reads bits.long rfl (by decide) _ v
  | booleanArray => exact readArray_reads hs fun x _ => readBoolean_reads x
  | byteArray => exact absurd rfl hk
  | charArray => exact readArray_reads hs fun x _ => readChar_reads x
  | shortArray => exact readArray_reads hs fun x _ => readShort_reads x
  | intArray => exact readArray_reads hs fun x _ => readInt_reads x
  | longArray => exact readArray_reads hs fun x _ => readLong_reads x
  | utf => exact readUTF_reads hs
  | utfArray => exact readArray_reads hs.1 fun x hx => readUTF_reads (hs.2 x hx)

/-- Every kind comes back where all of its bytes are there. -/
theorem Item.decodes (item : Item) (hs : item.Sized) :
    Decodes e (item.kind.read bits) (item.encoding bits e) item.value := by
  by_cases hk : item.kind = .byteArray
  · rw [item.encoding_eq]
    obtain ⟨k, v⟩ := item
    cases hk
    exact ByteArrayObjectDataInput.readByteArray_decodes hs
  · exact (item.reads hs hk).decodes

/-! ## Streams -/

theorem encodeItems_cons (item : Item) (items : List Item) :
    encodeItems bits e (item :: items) = item.encoding bits e ++ encodeItems bits e items :=
  List.flatMap_cons

/-- The items of a stream that fits into an array. -/
theorem sized_of_encodeItems {items : List Item}
    (h : (encodeItems bits e items).length ≤ MAX_VALUE) : ∀ item ∈ items, item.Sized := by
  intro item hitem
  refine item.sized_of_layout (?_ : (item.layout bits e).length ≤ MAX_VALUE)
  rw [← item.encoding_eq]
  have hsub : (item.encoding bits e).length ≤ (encodeItems bits e items).length :=
    (List.sublist_flatten_of_mem (List.mem_map_of_mem hitem)).length_le
  omega

/-- The reads of a stream return its items. -/
theorem readItems_decodes (items : List Item) (hs : ∀ item ∈ items, item.Sized) :
    Decodes e (readItems bits (items.map Item.kind)) (encodeItems bits e items) items := by
  induction items with
  | nil => exact Decodes.pure []
  | cons item items ih =>
    rw [encodeItems_cons]
    refine (item.decodes (hs item List.mem_cons_self)).bind ?_
    exact (ih fun i hi => hs i (List.mem_cons_of_mem item hi)).map fun _ => rfl

/-- The reads of a stream that is cut off return its items up to the cut, where the next read throws
`EOFException`. -/
theorem readItems_cut (items : List Item) : ∀ {s : ByteArrayObjectDataInput} {tail : List Byte},
    (∀ item ∈ items, item.Sized) → (∀ item ∈ items, item.kind ≠ .byteArray) →
      ByteArrayObjectDataInput.InBounds s → s.bigEndian = e →
        encodeItems bits e items = s.rest ++ tail → tail ≠ [] →
          ∃ pre item post s' message s'', items = pre ++ item :: post ∧
            readItems bits (pre.map Item.kind) s = .ok pre s' ∧
              item.kind.read bits s' = .error (.throws (.EOFException message)) s'' ∧
                readItems bits (items.map Item.kind) s =
                  .error (.throws (.EOFException message)) s'' := by
  induction items with
  | nil =>
    intro s tail _ _ _ _ hcut htail
    exact absurd (List.append_eq_nil_iff.1 hcut.symm).2 htail
  | cons item items ih =>
    intro s tail hs hk hin he hcut htail
    have hreads : Reads e (item.kind.read bits) (item.encoding bits e) item.value :=
      item.reads (hs item List.mem_cons_self) (hk item List.mem_cons_self)
    rw [encodeItems_cons] at hcut
    rcases ByteArrayObjectDataInput.cut_append hcut with
      ⟨front, hrest, hitems⟩ | ⟨front, hfront, hitem⟩
    · -- the cut is behind this item
      obtain ⟨s₁, hrun, hpast⟩ := hreads.decodes hin he hrest
      obtain ⟨hin₁, hrest₁⟩ := hpast.inBounds_of_append hin hrest
      rw [← hrest₁] at hitems
      obtain ⟨pre, next, post, s', message, s'', heq, hpre, herr, hall⟩ :=
        ih (fun i hi => hs i (List.mem_cons_of_mem item hi))
          (fun i hi => hk i (List.mem_cons_of_mem item hi)) hin₁
          (hpast.bigEndian_eq.trans he) hitems htail
      refine ⟨item :: pre, next, post, s', message, s'', by rw [heq, List.cons_append], ?_, herr,
        ?_⟩
      · rw [List.map_cons, readItems, bind_ok hrun, bind_ok hpre]
        rfl
      · rw [List.map_cons, readItems, bind_ok hrun]
        exact bind_error hall
    · obtain ⟨message, s', hrun⟩ := hreads.starves hin he hitem hfront
      exact ⟨[], item, items, s, message, s', rfl, rfl, hrun, bind_error hrun⟩

/-- A writer that has been given these items, from the start. -/
theorem writeItems_bytes {size : ℤ} (h0 : 0 ≤ size) (h : size ≤ MAX_VALUE) (order : ByteOrder)
    {items : List Item} {w : ByteArrayObjectDataOutput}
    (hok : writeItems bits items (ByteArrayObjectDataOutput.new size order) = .ok () w) :
    ByteArrayObjectDataOutput.toByteArray w =
        .ok (encodeItems bits (order == .BIG_ENDIAN) items) w ∧
      (encodeItems bits (order == .BIG_ENDIAN) items).length ≤ MAX_VALUE := by
  rw [← flat_items]
  exact (writeItems_writes bits items).toByteArray_new h0 h hok

/-- **Round trip**: whatever the initial size and the byte order, as long as no capacity expression
of the writer exceeds the `int` range, the reads return the values that were written and stop at
the end of the data. -/
theorem readItems_writeItems (bits : Bits) {size : ℤ} (h0 : 0 ≤ size) (h : size ≤ MAX_VALUE)
    (order : ByteOrder) (items : List Item)
    (hpeak : (after (writeItems bits items) (ByteArrayObjectDataOutput.new size order)).peak ≤
      MAX_VALUE) :
    ∃ w data s', writeItems bits items (ByteArrayObjectDataOutput.new size order) = .ok () w ∧
      ByteArrayObjectDataOutput.toByteArray w = .ok data w ∧
        readItems bits (items.map Item.kind)
            (ByteArrayObjectDataInput.new (some data) 0 order) = .ok items s' ∧
          s'.pos = data.length := by
  rcases (writeItems_writes bits items).run
      (ByteArrayObjectDataOutput.new_sane h0 h order) rfl with ⟨w, hok, -⟩ | ⟨x, w, hrun, -, hbad⟩
  · obtain ⟨hbytes, hmax⟩ := writeItems_bytes h0 h order hok
    have hdecodes : Decodes (order == .BIG_ENDIAN) (readItems bits (items.map Item.kind))
        (encodeItems bits (order == .BIG_ENDIAN) items) items :=
      readItems_decodes items (sized_of_encodeItems hmax)
    obtain ⟨s', hread, hpast⟩ := hdecodes (ByteArrayObjectDataInput.inBounds_new hmax order) rfl
      (List.append_nil _).symm
    exact ⟨w, _, s', hok, hbytes, hread, hpast.pos_eq.trans (Int.zero_add _)⟩
  · rw [after_error hrun] at hpeak
    have := hbad hpeak
    simp [ByteArrayObjectDataOutput.new] at this

/-- A string between a null array and a `boolean`, in a writer that has to grow. -/
theorem readItems_writeItems_mixed :
    ∃ w data s', writeItems Bits.standard
        [⟨.longArray, none⟩, ⟨.utf, some [0x20AC]⟩, ⟨.boolean, true⟩]
        (ByteArrayObjectDataOutput.new 1 .LITTLE_ENDIAN) = .ok () w ∧
      ByteArrayObjectDataOutput.toByteArray w = .ok data w ∧
        readItems Bits.standard [.longArray, .utf, .boolean]
            (ByteArrayObjectDataInput.new (some data) 0 .LITTLE_ENDIAN) =
          .ok [⟨.longArray, none⟩, ⟨.utf, some [0x20AC]⟩, ⟨.boolean, true⟩] s' ∧
          s'.pos = data.length :=
  readItems_writeItems Bits.standard (by decide) (by decide) .LITTLE_ENDIAN
    [⟨.longArray, none⟩, ⟨.utf, some [0x20AC]⟩, ⟨.boolean, true⟩] (by decide +kernel)

/-- **Truncation**: a stream without byte arrays that is cut off anywhere yields the values before
the cut, and the read of the next one throws `EOFException`, which ends the reads. -/
theorem readItems_truncated (bits : Bits) {size : ℤ} (h0 : 0 ≤ size) (h : size ≤ MAX_VALUE)
    (order : ByteOrder) {items : List Item} (hk : ∀ item ∈ items, item.kind ≠ .byteArray)
    {w : ByteArrayObjectDataOutput} {front tail : List Byte}
    (hok : writeItems bits items (ByteArrayObjectDataOutput.new size order) = .ok () w)
    (hdata : ByteArrayObjectDataOutput.toByteArray w = .ok (front ++ tail) w) (htail : tail ≠ []) :
    ∃ pre item post s' message s'', items = pre ++ item :: post ∧
      readItems bits (pre.map Item.kind) (ByteArrayObjectDataInput.new (some front) 0 order) =
        .ok pre s' ∧
      item.kind.read bits s' = .error (.throws (.EOFException message)) s'' ∧
      readItems bits (items.map Item.kind)
          (ByteArrayObjectDataInput.new (some front) 0 order) =
        .error (.throws (.EOFException message)) s'' := by
  obtain ⟨hbytes, hmax⟩ := writeItems_bytes h0 h order hok
  rw [hdata] at hbytes
  injection hbytes with hcut
  have hfront : front.length ≤ MAX_VALUE := by
    rw [← hcut, List.length_append] at hmax
    omega
  exact readItems_cut items (sized_of_encodeItems hmax) hk
    (ByteArrayObjectDataInput.inBounds_new hfront order) rfl hcut.symm htail

/-- A string that is cut off inside its second character. -/
theorem readItems_truncated_utf :
    ∃ pre item post s' message s'',
      ([⟨.byte, 7#8⟩, ⟨.utf, some [0x41, 0x20AC]⟩] : List Item) = pre ++ item :: post ∧
      readItems Bits.standard (pre.map Item.kind)
        (ByteArrayObjectDataInput.new (some [7, 0, 0, 0, 2, 0x41, 0xE2]) 0 .BIG_ENDIAN) =
          .ok pre s' ∧
      item.kind.read Bits.standard s' = .error (.throws (.EOFException message)) s'' ∧
      readItems Bits.standard [.byte, .utf]
          (ByteArrayObjectDataInput.new (some [7, 0, 0, 0, 2, 0x41, 0xE2]) 0 .BIG_ENDIAN) =
        .error (.throws (.EOFException message)) s'' := by
  have hok : writeItems Bits.standard [⟨.byte, 7#8⟩, ⟨.utf, some [0x41, 0x20AC]⟩]
      (ByteArrayObjectDataOutput.new 11 .BIG_ENDIAN) =
        .ok () ⟨11, some [7, 0, 0, 0, 2, 0x41, 0xE2, 0x82, 0xAC, 0, 0], 9, true, 6⟩ := rfl
  have hdata : ByteArrayObjectDataOutput.toByteArray
      ⟨11, some [7, 0, 0, 0, 2, 0x41, 0xE2, 0x82, 0xAC, 0, 0], 9, true, 6⟩ =
        .ok ([7, 0, 0, 0, 2, 0x41, 0xE2] ++ [0x82, 0xAC]) _ := rfl
  exact readItems_truncated Bits.standard (by decide) (by decide) .BIG_ENDIAN (by simp) hok hdata
    (by decide)

end HzResearch
