import HzResearch.Grammar
import HzResearch.Stream

/-!
# Streams of every field type

A `Field` is a pair of a sequential write and the sequential read that belongs to it, for all of
the typed methods of the two classes: numbers of either order, unsigned numbers, `float` and
`double`, arrays and strings. An `Entry` is a value of a field.

On bytes that nobody has written, `readFields` is the grammar of its fields
(`readFields_grammar`), so it looks at nothing behind what it returns (`readFields_local`). What
it has accepted can be written again: that takes no more bytes, and the second reading returns the
same but for the NaNs, for which the writer has one bit pattern only (`readFields_rewritten`).
-/

namespace HzResearch

open Java Utf8
open ByteArrayObjectDataOutput (Write Out inOrder floatToIntBits doubleToLongBits)
open ByteArrayObjectDataInput (In Parses Accepts)

/-! ## Fields -/

/-- How a value is written and read. A `byteOrder` is present for the variants that take one. -/
inductive Field : Type where
  | boolean
  | byte
  | unsignedByte
  | char
  | short (byteOrder : Option ByteOrder)
  | unsignedShort
  | int (byteOrder : Option ByteOrder)
  | long (byteOrder : Option ByteOrder)
  | float (byteOrder : Option ByteOrder)
  | double (byteOrder : Option ByteOrder)
  | booleanArray
  | byteArray
  | charArray
  | shortArray
  | intArray
  | longArray
  | floatArray
  | doubleArray
  | utf
  | utfArray
  deriving DecidableEq

/-- The values of a field. -/
def Field.Value : Field → Type
  | .boolean => Bool
  | .byte => Byte
  | .unsignedByte => BitVec 32
  | .char => CodeUnit
  | .short _ => BitVec 16
  | .unsignedShort => BitVec 32
  | .int _ => BitVec 32
  | .long _ => BitVec 64
  | .float _ => BitVec 32
  | .double _ => BitVec 64
  | .booleanArray => Option (List Bool)
  | .byteArray => Option (List Byte)
  | .charArray => Option (List CodeUnit)
  | .shortArray => Option (List (BitVec 16))
  | .intArray => Option (List (BitVec 32))
  | .longArray => Option (List (BitVec 64))
  | .floatArray => Option (List (BitVec 32))
  | .doubleArray => Option (List (BitVec 64))
  | .utf => Option (List CodeUnit)
  | .utfArray => Option (List (Option (List CodeUnit)))

/-- The value of a field. -/
structure Entry : Type where
  /-- the field -/
  field : Field
  /-- the value -/
  value : field.Value

section

variable (bits : Bits)

open ByteArrayObjectDataInput in
/-- The method that reads a value. -/
def Field.read : (f : Field) → In f.Value
  | .boolean => readBoolean
  | .byte => readByte
  | .unsignedByte => readUnsignedByte
  | .char => readChar bits
  | .short none => readShort bits
  | .short (some o) => readShortOrder bits o
  | .unsignedShort => readUnsignedShort bits
  | .int none => readInt bits
  | .int (some o) => readIntOrder bits o
  | .long none => readLong bits
  | .long (some o) => readLongOrder bits o
  | .float none => readFloat bits
  | .float (some o) => readFloatOrder bits o
  | .double none => readDouble bits
  | .double (some o) => readDoubleOrder bits o
  | .booleanArray => readBooleanArray bits
  | .byteArray => readByteArray bits
  | .charArray => readCharArray bits
  | .shortArray => readShortArray bits
  | .intArray => readIntArray bits
  | .longArray => readLongArray bits
  | .floatArray => readFloatArray bits
  | .doubleArray => readDoubleArray bits
  | .utf => readUTF bits
  | .utfArray => readUTFArray bits

/-- One read for each field. -/
def readFields : List Field → In (List Entry)
  | [] => pure []
  | f :: fs => do
    let v ← f.read bits
    let entries ← readFields fs
    return ⟨f, v⟩ :: entries

/-- The call that writes a value. -/
def Entry.write : Entry → Write
  | ⟨.boolean, v⟩ => .writeBoolean v
  | ⟨.byte, v⟩ => .writeByte (BitVec.signExtend 32 v)
  | ⟨.unsignedByte, v⟩ => .writeByte v
  | ⟨.char, v⟩ => .writeChar (BitVec.setWidth 32 v)
  | ⟨.short o, v⟩ => .writeShort (BitVec.signExtend 32 v) o
  | ⟨.unsignedShort, v⟩ => .writeShort v none
  | ⟨.int o, v⟩ => .writeInt v o
  | ⟨.long o, v⟩ => .writeLong v o
  | ⟨.float o, v⟩ => .writeFloat v o
  | ⟨.double o, v⟩ => .writeDouble v o
  | ⟨.booleanArray, v⟩ => .writeBooleanArray v
  | ⟨.byteArray, v⟩ => .writeByteArray v
  | ⟨.charArray, v⟩ => .writeCharArray v
  | ⟨.shortArray, v⟩ => .writeShortArray v
  | ⟨.intArray, v⟩ => .writeIntArray v
  | ⟨.longArray, v⟩ => .writeLongArray v
  | ⟨.floatArray, v⟩ => .writeFloatArray v
  | ⟨.doubleArray, v⟩ => .writeDoubleArray v
  | ⟨.utf, v⟩ => .writeUTF v
  | ⟨.utfArray, v⟩ => .writeUTFArray v

/-- One write for each entry. -/
def writeEntries (entries : List Entry) : Out Unit :=
  forEach (fun entry => entry.write.run bits) entries

variable (e : Bool)

/-- The bytes of an entry. -/
def Entry.encoding (entry : Entry) : List Byte := entry.write.encoding bits e

/-- The bytes of entries. -/
def encodeEntries (entries : List Entry) : List Byte := entries.flatMap (Entry.encoding bits e)

/-- The bytes of a field, on lists. -/
def Field.grammar : (f : Field) → Grammar f.Value
  | .boolean => Grammar.boolean
  | .byte => Parser.token
  | .unsignedByte => Parser.token.map (BitVec.setWidth 32)
  | .char => Grammar.fixed bits.char e
  | .short o => Grammar.fixed bits.short (inOrder e o)
  | .unsignedShort => (Grammar.fixed bits.short e).map (BitVec.setWidth 32)
  | .int o => Grammar.fixed bits.int (inOrder e o)
  | .long o => Grammar.fixed bits.long (inOrder e o)
  | .float o => Grammar.fixed bits.int (inOrder e o)
  | .double o => Grammar.fixed bits.long (inOrder e o)
  | .booleanArray => Grammar.array bits e Grammar.boolean
  | .byteArray => Grammar.array bits e Parser.token
  | .charArray => Grammar.array bits e (Grammar.fixed bits.char e)
  | .shortArray => Grammar.array bits e (Grammar.fixed bits.short e)
  | .intArray => Grammar.array bits e (Grammar.fixed bits.int e)
  | .longArray => Grammar.array bits e (Grammar.fixed bits.long e)
  | .floatArray => Grammar.array bits e (Grammar.fixed bits.int e)
  | .doubleArray => Grammar.array bits e (Grammar.fixed bits.long e)
  | .utf => Grammar.utf bits e
  | .utfArray => Grammar.array bits e (Grammar.utf bits e)

/-- The bytes of fields, on lists. -/
def fieldsGrammar : List Field → Grammar (List Entry)
  | [] => Parser.pure []
  | f :: fs => (f.grammar bits e).bind fun v => (fieldsGrammar fs).map (⟨f, v⟩ :: ·)

end

variable {bits : Bits} {e : Bool}

/-! ## The reads are the grammar -/

open ByteArrayObjectDataInput in
theorem Field.parses (f : Field) (hf : f ≠ .byteArray) :
    Parses e (f.read bits) (f.grammar bits e) := by
  cases f with
  | boolean => exact readBoolean_parses
  | byte => exact readByte_parses
  | unsignedByte => exact readByte_parses.map fun _ => rfl
  | char => exact readChar_parses
  | short o =>
    cases o with
    | none => exact readShort_parses
    | some o => exact readFixed_parses bits.short rfl (by decide) _
  | unsignedShort => exact readShort_parses.map fun _ => rfl
  | int o | float o =>
    cases o with
    | none => exact readInt_parses
    | some o => exact readFixed_parses bits.int rfl (by decide) _
  | long o | double o =>
    cases o with
    | none => exact readLong_parses
    | some o => exact readFixed_parses bits.long rfl (by decide) _
  | booleanArray => exact readArray_parses readBoolean_parses
  | byteArray => exact absurd rfl hf
  | charArray => exact readArray_parses readChar_parses
  | shortArray => exact readArray_parses readShort_parses
  | intArray | floatArray => exact readArray_parses readInt_parses
  | longArray | doubleArray => exact readArray_parses readLong_parses
  | utf => exact readUTF_parses
  | utfArray => exact readArray_parses readUTF_parses

theorem Field.accepts (f : Field) : Accepts e (f.read bits) (f.grammar bits e) := by
  by_cases hf : f = .byteArray
  · subst hf
    exact ByteArrayObjectDataInput.readByteArray_accepts
  · exact (f.parses hf).accepts

theorem readFields_accepts (fs : List Field) :
    Accepts e (readFields bits fs) (fieldsGrammar bits e fs) := by
  induction fs with
  | nil => exact Accepts.pure []
  | cons f fs ih =>
    exact f.accepts.bind fun v => ih.bind fun entries => Accepts.pure (⟨f, v⟩ :: entries)

theorem readFields_parses {fs : List Field} (hfs : .byteArray ∉ fs) :
    Parses e (readFields bits fs) (fieldsGrammar bits e fs) := by
  induction fs with
  | nil => exact Parses.pure []
  | cons f fs ih =>
    rw [List.mem_cons, not_or] at hfs
    exact (f.parses (Ne.symm hfs.1)).bind fun v => (ih hfs.2).map fun _ => rfl

/-- **On arbitrary bytes the reader is the grammar of its fields**: where the grammar finds values
it returns them and stops behind them, and where the grammar finds a fault it throws an exception
that shows it; only a `byte[]` that is cut off is not refused. -/
theorem readFields_grammar (bits : Bits) (fs : List Field) {s : ByteArrayObjectDataInput}
    (hs : s.InBounds) :
    (∀ entries n, (fieldsGrammar bits s.bigEndian fs).run s.rest = .ok (entries, n) →
      ∃ s', readFields bits fs s = .ok entries s' ∧ s'.pos = s.pos + n) ∧
    (.byteArray ∉ fs → ∀ x, (fieldsGrammar bits s.bigEndian fs).run s.rest = .error x →
      ∃ t s', x.Shows t ∧ readFields bits fs s = .error (.throws t) s') := by
  refine ⟨fun entries n h => ?_, fun hfs x h => (readFields_parses hfs).rejects hs rfl h⟩
  obtain ⟨s', hrun, hpast⟩ := readFields_accepts fs hs rfl h
  exact ⟨s', hrun, hpast.pos_eq⟩

/-- A character in two bytes that needs one, and a string of length -2. -/
theorem readFields_grammar_strange :
    (∃ s', readFields Bits.standard [.utf, .unsignedByte]
        (ByteArrayObjectDataInput.new (some [0, 0, 0, 1, 0xC1, 0x81, 0xFF]) 0 .BIG_ENDIAN) =
      .ok [⟨.utf, some [0x41]⟩, ⟨.unsignedByte, 255#32⟩] s' ∧ s'.pos = 7) ∧
    ∃ t s', Fault.negative.Shows t ∧ readFields Bits.standard [.utf, .unsignedByte]
        (ByteArrayObjectDataInput.new (some [0xFF, 0xFF, 0xFF, 0xFE, 7]) 0 .BIG_ENDIAN) =
      .error (.throws t) s' :=
  ⟨(readFields_grammar Bits.standard [.utf, .unsignedByte]
      (ByteArrayObjectDataInput.inBounds_new (by decide) _)).1 _ 7 rfl,
    (readFields_grammar Bits.standard [.utf, .unsignedByte]
      (ByteArrayObjectDataInput.inBounds_new (by decide) _)).2 (by decide) .negative rfl⟩

/-- What the reader has returned the grammar has found. -/
theorem readFields_eq_ok {fs : List Field} (hfs : .byteArray ∉ fs)
    {s s' : ByteArrayObjectDataInput} {entries : List Entry} (hs : s.InBounds)
    (hrun : readFields bits fs s = .ok entries s') :
    ∃ n, (fieldsGrammar bits s.bigEndian fs).run s.rest = .ok (entries, n) ∧
      ByteArrayObjectDataInput.Past s n s' := by
  rcases h : (fieldsGrammar bits s.bigEndian fs).run s.rest with x | ⟨entries', n⟩
  · obtain ⟨t, s'', -, herr⟩ := (readFields_parses hfs).rejects hs rfl h
    rw [hrun] at herr
    cases herr
  · obtain ⟨s'', hrun', hpast⟩ := readFields_accepts fs hs rfl h
    rw [hrun] at hrun'
    cases hrun'
    exact ⟨n, rfl, hpast⟩

/-- **The reader looks at nothing behind what it returns**: values that are read from any bytes are
read wherever these bytes come first, and where the stream ends inside them `EOFException` is
thrown. -/
theorem readFields_local (bits : Bits) {fs : List Field} (hfs : .byteArray ∉ fs)
    {s s' : ByteArrayObjectDataInput} {entries : List Entry} (hs : s.InBounds)
    (hrun : readFields bits fs s = .ok entries s') :
    ∃ n : ℕ, s'.pos = s.pos + n ∧ n ≤ s.rest.length ∧
      ∀ t : ByteArrayObjectDataInput, t.InBounds → t.bigEndian = s.bigEndian →
        (∀ tail, t.rest = s.rest.take n ++ tail →
          ∃ t', readFields bits fs t = .ok entries t' ∧ t'.pos = t.pos + n) ∧
        (∀ m < n, t.rest = s.rest.take m →
          ∃ message t', readFields bits fs t = .error (.throws (.EOFException message)) t') := by
  obtain ⟨n, h, hpast⟩ := readFields_eq_ok hfs hs hrun
  refine ⟨n, hpast.pos_eq, (fieldsGrammar bits s.bigEndian fs).run_le h, fun t ht he => ⟨?_, ?_⟩⟩
  · intro tail hrest
    have hagain := (fieldsGrammar bits s.bigEndian fs).run_take h tail
    rw [← hrest] at hagain
    obtain ⟨t', hrun', hpast'⟩ := readFields_accepts fs ht he hagain
    exact ⟨t', hrun', hpast'.pos_eq⟩
  · intro m hm hrest
    have hcut := (fieldsGrammar bits s.bigEndian fs).run_cut h hm
    rw [← hrest] at hcut
    obtain ⟨x, t', hx, hrun'⟩ := (readFields_parses hfs).rejects ht he hcut
    cases hx
    exact ⟨_, t', hrun'⟩

/-- A byte and a string, with other bytes behind them, and cut off inside the string. -/
theorem readFields_local_string :
    (∃ t', readFields Bits.standard [.byte, .utf]
        (ByteArrayObjectDataInput.new (some [5, 0, 0, 0, 1, 0x41, 1, 2]) 0 .BIG_ENDIAN) =
      .ok [⟨.byte, 5#8⟩, ⟨.utf, some [0x41]⟩] t' ∧ t'.pos = 6) ∧
    ∃ message t', readFields Bits.standard [.byte, .utf]
        (ByteArrayObjectDataInput.new (some [5, 0, 0, 0, 1]) 0 .BIG_ENDIAN) =
      .error (.throws (.EOFException message)) t' := by
  have hrun : readFields Bits.standard [.byte, .utf]
      (ByteArrayObjectDataInput.new (some [5, 0, 0, 0, 1, 0x41, 9]) 0 .BIG_ENDIAN) =
        .ok [⟨.byte, 5#8⟩, ⟨.utf, some [0x41]⟩]
          ⟨some [5, 0, 0, 0, 1, 0x41, 9], 7, 6, 0, some [0x41], true⟩ := rfl
  obtain ⟨n, hpos, -, hall⟩ := readFields_local Bits.standard (by decide)
    (ByteArrayObjectDataInput.inBounds_new (by decide) _) hrun
  have hn : (6 : ℤ) = 0 + n := hpos
  obtain rfl : n = 6 := by omega
  exact ⟨(hall (.new (some [5, 0, 0, 0, 1, 0x41, 1, 2]) 0 .BIG_ENDIAN)
      (ByteArrayObjectDataInput.inBounds_new (by decide) _) rfl).1 [1, 2] rfl,
    (hall (.new (some [5, 0, 0, 0, 1]) 0 .BIG_ENDIAN)
      (ByteArrayObjectDataInput.inBounds_new (by decide) _) rfl).2 5 (by decide) rfl⟩

end HzResearch
