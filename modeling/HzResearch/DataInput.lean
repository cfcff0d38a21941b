import HzResearch.Bits
import HzResearch.NativeDecoder

/-!
# `ByteArrayObjectDataInput`

The reader: a byte array, a position in it, a mark, and a buffer for characters that
is kept from one string to the next. Methods are named as in the source; of overloaded
methods, the one with a `ByteOrder` has the suffix `Order`, the one that reads at a
position the suffix `At`.

`float` and `double` values are their bits, strings are sequences of code units; what
may be null is an `Option`. `readObject`, which hands the stream to the serialization
service, is left out, and so is `readLine`, which only throws. An array that a caller
hands to a bulk read is taken to be another one than `data`.
-/

namespace HzResearch

open Java

/-- The fields of the reader. -/
structure ByteArrayObjectDataInput where
  /-- `data`, which may be null -/
  data : Option (List Byte)
  /-- `size` -/
  size : ℤ
  /-- `pos` -/
  pos : ℤ
  /-- `mark` -/
  mark : ℤ
  /-- `charBuffer`, which may be null -/
  charBuffer : Option (List CodeUnit)
  /-- `bigEndian` -/
  bigEndian : Bool

namespace ByteArrayObjectDataInput

/-- A method of the reader. -/
abbrev In (α : Type) : Type := Java ByteArrayObjectDataInput α

/-- `(data != null) ? data.length : 0` -/
def lengthOf (data : Option (List Byte)) : ℤ := data.elim 0 fun d => d.length

/-- The constructor. -/
def new (data : Option (List Byte)) (offset : ℤ) (byteOrder : ByteOrder) :
    ByteArrayObjectDataInput where
  data := data
  size := lengthOf data
  pos := offset
  mark := 0
  charBuffer := none
  bigEndian := byteOrder == .BIG_ENDIAN

/-! ## The cursor -/

/-- `available()` -/
def available (s : ByteArrayObjectDataInput) : ℤ := jint (s.size - s.pos)

/-- `checkAvailable(pos, k)` -/
def checkAvailable (pos k : ℤ) : In Unit := do
  if pos < 0 then raise (.IllegalArgumentException (some s!"Negative pos! -> {pos}"))
  else if jint ((← get).size - pos) < k then
    raise (.EOFException (some s!"Cannot read {k} bytes!"))

/-- `pos += n` -/
def advance (n : ℤ) : In Unit := modify fun s => { s with pos := jint (s.pos + n) }

/-- `clear()`, for the `UTF_BUFFER_SIZE` of the interface. -/
def clear (UTF_BUFFER_SIZE : ℤ) : In Unit := do
  modify fun s => { s with data := none, pos := 0, size := 0, mark := 0 }
  match (← get).charBuffer with
  | none => return
  | some charBuffer =>
    if charBuffer.length > jint (UTF_BUFFER_SIZE * 8) then
      let charBuffer ← newArray 0 (jint (UTF_BUFFER_SIZE * 8))
      modify fun s => { s with charBuffer := some charBuffer }

/-- `close()` -/
def close : In Unit := modify fun s => { s with data := none, charBuffer := none }

/-- `getByteOrder()` -/
def getByteOrder (s : ByteArrayObjectDataInput) : ByteOrder :=
  if s.bigEndian then .BIG_ENDIAN else .LITTLE_ENDIAN

/-- `init(data, offset)` -/
def init (data : Option (List Byte)) (offset : ℤ) : In Unit :=
  modify fun s => { s with data := data, size := lengthOf data, pos := offset }

/-- `mark(readlimit)` -/
def setMark : In Unit := modify fun s => { s with mark := s.pos }

/-- `position(newPos)` -/
def position (newPos : ℤ) : In Unit := do
  let s ← get
  if newPos > s.size ∨ newPos < 0 then raise (.IllegalArgumentException none)
  else
    modify fun s => { s with pos := newPos }
    if s.mark > newPos then modify fun s => { s with mark := -1 }

/-- `reset()` -/
def reset : In Unit := modify fun s => { s with pos := s.mark }

/-- `skipBytes(n)` -/
def skipBytes (n : ℤ) : In ℤ := do
  if n ≤ 0 then return 0
  else
    let s ← get
    let skip := if jint (s.pos + n) > s.size then jint (s.size - s.pos) else n
    position (jint (s.pos + skip))
    return skip

/-- `skip(n)` -/
def skip (n : ℤ) : In ℤ := if n ≤ 0 ∨ n ≥ MAX_VALUE then pure 0 else skipBytes n

/-! ## Bytes -/

/-- `data[i]` -/
def dataAt (i : ℤ) : In Byte := do
  match (← get).data with
  | none => raise .NullPointerException
  | some data => eval (load data i)

/-- `read()`: `pos` has moved when the access fails. -/
def read : In ℤ := do
  let s ← get
  if s.pos < s.size then
    advance 1
    let b ← dataAt s.pos
    return b.toNat
  else return -1

/-- `read(position)` -/
def readAt (position : ℤ) : In ℤ := do
  if position < (← get).size then
    let b ← dataAt position
    return b.toNat
  else return -1

/-- `read(b, off, len)`: the result, and the contents of `b` afterwards. `b` is not `data`. -/
def readRange (b : Option (List Byte)) (off len : ℤ) : In (ℤ × List Byte) :=
  match b with
  | none => raise .NullPointerException
  | some b =>
    if off < 0 ∨ len < 0 ∨ len > jint (b.length - off) then raise .IndexOutOfBoundsException
    else if len = 0 then return (0, b)
    else do
      let s ← get
      if s.pos ≥ s.size then return (-1, b)
      else
        let len := if jint (s.pos + len) > s.size then jint (s.size - s.pos) else len
        match s.data with
        | none => raise .NullPointerException
        | some data =>
          let b ← eval (arraycopy data s.pos b off len)
          advance len
          return (len, b)

/-- `read(b)` of `InputStream` -/
def readAll (b : Option (List Byte)) : In (ℤ × List Byte) :=
  match b with
  | none => raise .NullPointerException
  | some bytes => readRange b 0 bytes.length

/-- `readFully(b, off, len)`, the contents of `b` afterwards. -/
def readFullyRange (b : Option (List Byte)) (off len : ℤ) : In (List Byte) := do
  let (n, b) ← readRange b off len
  if n = -1 then raise (.EOFException (some "End of stream reached")) else return b

/-- `readFully(b)`, the contents of `b` afterwards. -/
def readFully (b : Option (List Byte)) : In (List Byte) := do
  let (n, b) ← readAll b
  if n = -1 then raise (.EOFException (some "End of stream reached")) else return b

/-- The byte of a `read`, or an exception at the end of the stream. -/
def orEOF (ch : ℤ) : In Byte :=
  if ch < 0 then raise (.EOFException none) else return BitVec.ofInt 8 ch

/-- `readByte()` -/
def readByte : In Byte := do orEOF (← read)

/-- `readByte(position)` -/
def readByteAt (position : ℤ) : In Byte := do orEOF (← readAt position)

/-- `readUnsignedByte()` -/
def readUnsignedByte : In (BitVec 32) := return (← readByte).setWidth 32

/-- `readBoolean()` -/
def readBoolean : In Bool := do
  let ch ← read
  if ch < 0 then raise (.EOFException none) else return ch ≠ 0

/-- `readBoolean(position)` -/
def readBooleanAt (position : ℤ) : In Bool := do
  let ch ← readAt position
  if ch < 0 then raise (.EOFException none) else return ch ≠ 0

/-! ## Values of a fixed width -/

section Fixed

variable {w size : ℕ} (f : FixedWidth w size)

/-- `checkAvailable(position, n); return Bits.readX(data, position, bigEndian);` -/
def readFixedAt (n position : ℤ) (bigEndian : Bool) : In (BitVec w) := do
  checkAvailable position n
  match (← get).data with
  | none => raise .NullPointerException
  | some data => eval (f.read data position bigEndian)

/-- `v = readX(pos); pos += n; return v;` -/
def readFixed (n : ℤ) (bigEndian : Bool) : In (BitVec w) := do
  let v ← readFixedAt f n (← get).pos bigEndian
  advance n
  return v

end Fixed

variable (bits : Bits)

/-- `readChar()` -/
def readChar : In CodeUnit := do readFixed bits.char CHAR_SIZE_IN_BYTES (← get).bigEndian

/-- `readChar(position)` -/
def readCharAt (position : ℤ) : In CodeUnit := do
  readFixedAt bits.char CHAR_SIZE_IN_BYTES position (← get).bigEndian

/-- `readInt()` -/
def readInt : In (BitVec 32) := do readFixed bits.int INT_SIZE_IN_BYTES (← get).bigEndian

/-- `readInt(position)` -/
def readIntAt (position : ℤ) : In (BitVec 32) := do
  readFixedAt bits.int INT_SIZE_IN_BYTES position (← get).bigEndian

/-- `readInt(byteOrder)` -/
def readIntOrder (byteOrder : ByteOrder) : In (BitVec 32) :=
  readFixed bits.int INT_SIZE_IN_BYTES (byteOrder == .BIG_ENDIAN)

/-- `readInt(position, byteOrder)` -/
def readIntOrderAt (position : ℤ) (byteOrder : ByteOrder) : In (BitVec 32) :=
  readFixedAt bits.int INT_SIZE_IN_BYTES position (byteOrder == .BIG_ENDIAN)

/-- `readLong()` -/
def readLong : In (BitVec 64) := do readFixed bits.long LONG_SIZE_IN_BYTES (← get).bigEndian

/-- `readLong(position)` -/
def readLongAt (position : ℤ) : In (BitVec 64) := do
  readFixedAt bits.long LONG_SIZE_IN_BYTES position (← get).bigEndian

/-- `readLong(byteOrder)` -/
def readLongOrder (byteOrder : ByteOrder) : In (BitVec 64) :=
  readFixed bits.long LONG_SIZE_IN_BYTES (byteOrder == .BIG_ENDIAN)

/-- `readLong(position, byteOrder)` -/
def readLongOrderAt (position : ℤ) (byteOrder : ByteOrder) : In (BitVec 64) :=
  readFixedAt bits.long LONG_SIZE_IN_BYTES position (byteOrder == .BIG_ENDIAN)

/-- `readShort()` -/
def readShort : In (BitVec 16) := do readFixed bits.short SHORT_SIZE_IN_BYTES (← get).bigEndian

/-- `readShort(position)` -/
def readShortAt (position : ℤ) : In (BitVec 16) := do
  readFixedAt bits.short SHORT_SIZE_IN_BYTES position (← get).bigEndian

/-- `readShort(byteOrder)` -/
def readShortOrder (byteOrder : ByteOrder) : In (BitVec 16) :=
  readFixed bits.short SHORT_SIZE_IN_BYTES (byteOrder == .BIG_ENDIAN)

/-- `readShort(position, byteOrder)` -/
def readShortOrderAt (position : ℤ) (byteOrder : ByteOrder) : In (BitVec 16) :=
  readFixedAt bits.short SHORT_SIZE_IN_BYTES position (byteOrder == .BIG_ENDIAN)

/-- `readUnsignedShort()` -/
def readUnsignedShort : In (BitVec 32) := return (← readShort bits).setWidth 32

/-- `readDouble()` -/
def readDouble : In (BitVec 64) := readLong bits

/-- `readDouble(position)` -/
def readDoubleAt (position : ℤ) : In (BitVec 64) := readLongAt bits position

/-- `readDouble(byteOrder)` -/
def readDoubleOrder (byteOrder : ByteOrder) : In (BitVec 64) := readLongOrder bits byteOrder

/-- `readDouble(position, byteOrder)` -/
def readDoubleOrderAt (position : ℤ) (byteOrder : ByteOrder) : In (BitVec 64) :=
  readLongOrderAt bits position byteOrder

/-- `readFloat()` -/
def readFloat : In (BitVec 32) := readInt bits

/-- `readFloat(position)` -/
def readFloatAt (position : ℤ) : In (BitVec 32) := readIntAt bits position

/-- `readFloat(byteOrder)` -/
def readFloatOrder (byteOrder : ByteOrder) : In (BitVec 32) := readIntOrder bits byteOrder

/-- `readFloat(position, byteOrder)` -/
def readFloatOrderAt (position : ℤ) (byteOrder : ByteOrder) : In (BitVec 32) :=
  readIntOrderAt bits position byteOrder

/-! ## Arrays and strings -/

/-- A length, null for `NULL_ARRAY_LENGTH`, and an array of that many values. -/
def readArray {α : Type} (m : In α) : In (Option (List α)) := do
  let len := (← readInt bits).toInt
  if len = NULL_ARRAY_LENGTH then return none
  else if len > 0 then
    let values ← times m len.toNat
    return some values
  else return some []

/-- `readBooleanArray()` -/
def readBooleanArray : In (Option (List Bool)) := readArray bits readBoolean

/-- `readByteArray()` -/
def readByteArray : In (Option (List Byte)) := do
  let len := (← readInt bits).toInt
  if len = NULL_ARRAY_LENGTH then return none
  else if len > 0 then
    let b ← readFully (some (List.replicate len.toNat 0))
    return some b
  else return some []

/-- `readData()`, for the constructor of `HeapData`, which may throw. -/
def readData {δ : Type} (HeapData : List Byte → Except Throwable δ) : In (Option δ) := do
  match ← readByteArray bits with
  | none => return none
  | some bytes =>
    let data ← eval (HeapData bytes)
    return some data

/-- `readCharArray()` -/
def readCharArray : In (Option (List CodeUnit)) := readArray bits (readChar bits)

/-- `readIntArray()` -/
def readIntArray : In (Option (List (BitVec 32))) := readArray bits (readInt bits)

/-- `readLongArray()` -/
def readLongArray : In (Option (List (BitVec 64))) := readArray bits (readLong bits)

/-- `readShortArray()` -/
def readShortArray : In (Option (List (BitVec 16))) := readArray bits (readShort bits)

/-- `readDoubleArray()` -/
def readDoubleArray : In (Option (List (BitVec 64))) := readArray bits (readDouble bits)

/-- `readFloatArray()` -/
def readFloatArray : In (Option (List (BitVec 32))) := readArray bits (readFloat bits)

/-- `if (charBuffer == null || charCount > charBuffer.length) charBuffer = new char[charCount];` -/
def ensureCharBuffer (charCount : ℤ) : In Unit := do
  match (← get).charBuffer with
  | none =>
    let charBuffer ← newArray 0 charCount
    modify fun s => { s with charBuffer := some charBuffer }
  | some charBuffer =>
    if charCount > charBuffer.length then
      let charBuffer ← newArray 0 charCount
      modify fun s => { s with charBuffer := some charBuffer }

/-- `charBuffer[i] = c` -/
def storeChar (i : ℤ) (c : CodeUnit) : In Unit := fun s =>
  match s.charBuffer with
  | none => .error (.throws .NullPointerException) s
  | some charBuffer =>
    match store i c charBuffer with
    | .ok _ charBuffer => .ok () { s with charBuffer := some charBuffer }
    | .error e charBuffer => .error e { s with charBuffer := some charBuffer }

/-- `new String(charBuffer, 0, charCount)` -/
def newString (charCount : ℤ) : In (Option (List CodeUnit)) := do
  match (← get).charBuffer with
  | none => raise .NullPointerException
  | some charBuffer =>
    if charCount < 0 ∨ charCount > charBuffer.length then raise .StringIndexOutOfBoundsException
    else return some (charBuffer.take charCount.toNat)

/-- One turn of the loop of `readUTF`. -/
def readChars (i : ℕ) : In Unit := do
  let b ← readByte
  -- a `byte` is signed: the negative ones are those that begin a longer character
  if b.toInt < 0 then
    let c ← bits.readUtf8Char readByte b
    storeChar i c
  else storeChar i (Utf8.oneUnit b)

/-- `readUTF()` -/
def readUTF : In (Option (List CodeUnit)) := do
  let charCount := (← readInt bits).toInt
  if charCount = NULL_ARRAY_LENGTH then return none
  else
    ensureCharBuffer charCount
    forEach (readChars bits) (List.range charCount.toNat)
    newString charCount

/-- `readUTFArray()` -/
def readUTFArray : In (Option (List (Option (List CodeUnit)))) := readArray bits (readUTF bits)

/-- `UTF8Util.utf8BytesToArray(data, charBuffer, pos)` -/
def utf8BytesToArray : In ℤ := fun s =>
  match s.data, s.charBuffer with
  | some data, some charBuffer =>
    match Native.utf8BytesToArray data charBuffer s.pos with
    | .ok d => .ok d.value { s with charBuffer := some d.target }
    | .error _ => .error .fault s
  | _, _ => .error .fault s

/-- `readUTFJNI()` -/
def readUTFJNI : In (Option (List CodeUnit)) := do
  let charCount := (← readInt bits).toInt
  if charCount = NULL_ARRAY_LENGTH then return none
  else
    ensureCharBuffer charCount
    let read ← utf8BytesToArray
    advance read
    newString charCount

/-! ## Strings into an array of the caller -/

section Inflate

/-- A method of the reader, beside the array `dst` of its caller. -/
def beside {α : Type} (m : In α) : Java (ByteArrayObjectDataInput × List CodeUnit) α :=
  fun (s, dst) =>
    match m s with
    | .ok a s' => .ok a (s', dst)
    | .error e s' => .error e (s', dst)

/-- `dst[i] = c` -/
def storeDst (i : ℤ) (c : CodeUnit) : Java (ByteArrayObjectDataInput × List CodeUnit) Unit :=
  fun (s, dst) =>
    match store i c dst with
    | .ok _ dst => .ok () (s, dst)
    | .error e dst => .error e (s, dst)

/-- One turn of the loop of `inflateUTF`. -/
def inflateChars (i : ℕ) : Java (ByteArrayObjectDataInput × List CodeUnit) Unit := do
  let b ← beside readByte
  if b.toInt < 0 then
    let c ← bits.readUtf8Char (beside readByte) b
    storeDst i c
  else storeDst i (Utf8.oneUnit b)

/-- `inflateUTF(dst)` -/
def inflateUTF : Java (ByteArrayObjectDataInput × List CodeUnit) Unit := do
  let charCount := (← beside (readInt bits)).toInt
  if charCount = NULL_ARRAY_LENGTH then return
  else if (← get).2.length < charCount then raise (.IllegalArgumentException none)
  else forEach (inflateChars bits) (List.range charCount.toNat)

/-- `inflateUTFJNI(dst)`, which hands the decoder `charBuffer`. -/
def inflateUTFJNI : Java (ByteArrayObjectDataInput × List CodeUnit) Unit := do
  let charCount := (← beside (readInt bits)).toInt
  if charCount = NULL_ARRAY_LENGTH then return
  else if (← get).2.length < charCount then raise (.IllegalArgumentException none)
  else
    let read ← beside utf8BytesToArray
    beside (advance read)

end Inflate

end ByteArrayObjectDataInput

end HzResearch
