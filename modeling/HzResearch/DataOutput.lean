import HzResearch.Bits

/-!
# `ByteArrayObjectDataOutput`

The writer: a byte array that grows, and the position behind the last byte
written. Methods are named as in the source; of overloaded methods, the one with a
`ByteOrder` has the suffix `Order`, the one that writes at a position the suffix
`At`.

`float` and `double` values are their bits, strings are sequences of code units; what
may be null is an `Option`.
A capacity expression wraps (`capacity`), and `peak` remembers the largest value
one had before wrapping. `pos` moves over bytes that were written, so its own
additions are exact. `writeObject`, which hands the stream to the serialization
service, is left out.
-/

namespace HzResearch

open Java

/-- The fields of the writer. -/
structure ByteArrayObjectDataOutput where
  /-- `initialSize` -/
  initialSize : ℤ
  /-- `buffer`, which may be null -/
  buffer : Option (List Byte)
  /-- `pos` -/
  pos : ℤ
  /-- `isBigEndian` -/
  isBigEndian : Bool
  /-- the largest value of a capacity expression so far; the class has no such field -/
  peak : ℤ

namespace ByteArrayObjectDataOutput

/-- A method of the writer. -/
abbrev Out (α : Type) : Type := Java ByteArrayObjectDataOutput α

/-- The constructor, for `size ≥ 0`. -/
def new (size : ℤ) (byteOrder : ByteOrder) : ByteArrayObjectDataOutput where
  initialSize := size
  buffer := some (List.replicate size.toNat 0)
  pos := 0
  isBigEndian := byteOrder == .BIG_ENDIAN
  peak := 0

/-- The value of a capacity expression. -/
def capacity (x : ℤ) : Out ℤ := do
  modify fun w => { w with peak := max w.peak x }
  return jint x

/-- A method of the array `buffer`. -/
def onBuffer {α : Type} (m : Java (List Byte) α) : Out α := fun w =>
  match w.buffer with
  | none => .error (.throws .NullPointerException) w
  | some b =>
    match m b with
    | .ok a b' => .ok a { w with buffer := some b' }
    | .error e b' => .error e { w with buffer := some b' }

/-- `pos += n` -/
def advance (n : ℤ) : Out Unit := modify fun w => { w with pos := w.pos + n }

/-- `available()` -/
def available (w : ByteArrayObjectDataOutput) : ℤ :=
  match w.buffer with
  | some b => jint (b.length - w.pos)
  | none => 0

/-- `ensureAvailable(len)` -/
def ensureAvailable (len : ℤ) : Out Unit := do
  let w ← get
  if w.available < len then
    match w.buffer with
    | some buffer =>
      let doubled ← capacity (buffer.length * 2)
      let enough ← capacity (buffer.length + len)
      let newBuffer ← newArray 0 (max doubled enough)
      let newBuffer ← eval (arraycopy buffer 0 newBuffer 0 w.pos)
      modify fun w => { w with buffer := some newBuffer }
    | none =>
      let newCap ← if len > w.initialSize.tdiv 2 then capacity (len * 2) else pure w.initialSize
      let newBuffer ← newArray 0 newCap
      modify fun w => { w with buffer := some newBuffer }

/-! ## Bytes -/

/-- `buffer[pos++] = b`: `pos` has moved when the store fails. -/
def put (b : Byte) : Out Unit := do
  let w ← get
  advance 1
  onBuffer (store w.pos b)

/-- `write(b)` -/
def write (b : BitVec 32) : Out Unit := do
  ensureAvailable 1
  put (b.setWidth 8)

/-- `write(position, b)` -/
def writeAt (position : ℤ) (b : BitVec 32) : Out Unit := onBuffer (store position (b.setWidth 8))

/-- `write(b, off, len)` -/
def writeRange (b : Option (List Byte)) (off len : ℤ) : Out Unit := do
  if off < 0 ∨ len < 0 then raise .IndexOutOfBoundsException
  else
    match b with
    | none => raise .NullPointerException
    | some b =>
      if jint (off + len) > b.length then raise .IndexOutOfBoundsException
      else if len = 0 then return
      else
        ensureAvailable len
        let w ← get
        onBuffer do
          let buffer ← get
          let buffer ← eval (arraycopy b off buffer w.pos len)
          set buffer
        advance len

/-- `write(b)` of `OutputStream` -/
def writeAll (b : Option (List Byte)) : Out Unit :=
  match b with
  | none => raise .NullPointerException
  | some bytes => writeRange b 0 bytes.length

/-- `writeBoolean(v)` -/
def writeBoolean (v : Bool) : Out Unit := write (if v then 1 else 0)

/-- `writeBoolean(position, v)` -/
def writeBooleanAt (position : ℤ) (v : Bool) : Out Unit := writeAt position (if v then 1 else 0)

/-- `writeByte(v)` -/
def writeByte (v : BitVec 32) : Out Unit := write v

/-- `writeByte(position, v)` -/
def writeByteAt (position : ℤ) (v : BitVec 32) : Out Unit := writeAt position v

/-- `writeZeroBytes(count)` -/
def writeZeroBytes (count : ℤ) : Out Unit :=
  forEach (fun _ => write 0) (List.range count.toNat)

/-- `writeBytes(s)` -/
def writeBytes (s : Option (List CodeUnit)) : Out Unit :=
  match s with
  | none => raise .NullPointerException
  | some s => do
    ensureAvailable s.length
    forEach (fun c => put (c.setWidth 8)) s

/-! ## Values of a fixed width -/

section Fixed

variable {w size : ℕ} (f : FixedWidth w size)

/-- `ensureAvailable(n); Bits.writeX(buffer, pos, v, bigEndian); pos += n;` -/
def writeFixed (n : ℤ) (v : BitVec w) (bigEndian : Bool) : Out Unit := do
  ensureAvailable n
  let out ← get
  onBuffer (f.write out.pos v bigEndian)
  advance n

/-- `Bits.writeX(buffer, position, v, bigEndian);` -/
def writeFixedAt (position : ℤ) (v : BitVec w) (bigEndian : Bool) : Out Unit :=
  onBuffer (f.write position v bigEndian)

end Fixed

variable (bits : Bits)

/-- `writeChar(v)` -/
def writeChar (v : BitVec 32) : Out Unit := do
  writeFixed bits.char CHAR_SIZE_IN_BYTES (v.setWidth 16) (← get).isBigEndian

/-- `writeChar(position, v)` -/
def writeCharAt (position : ℤ) (v : BitVec 32) : Out Unit := do
  writeFixedAt bits.char position (v.setWidth 16) (← get).isBigEndian

/-- `writeChars(s)` -/
def writeChars (s : Option (List CodeUnit)) : Out Unit :=
  match s with
  | none => raise .NullPointerException
  | some s => do
    ensureAvailable (← capacity (s.length * CHAR_SIZE_IN_BYTES))
    forEach (fun c => do
      writeCharAt bits (← get).pos (c.setWidth 32)
      advance CHAR_SIZE_IN_BYTES) s

/-- `writeInt(v)` -/
def writeInt (v : BitVec 32) : Out Unit := do
  writeFixed bits.int INT_SIZE_IN_BYTES v (← get).isBigEndian

/-- `writeInt(position, v)` -/
def writeIntAt (position : ℤ) (v : BitVec 32) : Out Unit := do
  writeFixedAt bits.int position v (← get).isBigEndian

/-- `writeInt(v, byteOrder)` -/
def writeIntOrder (v : BitVec 32) (byteOrder : ByteOrder) : Out Unit :=
  writeFixed bits.int INT_SIZE_IN_BYTES v (byteOrder == .BIG_ENDIAN)

/-- `writeInt(position, v, byteOrder)` -/
def writeIntOrderAt (position : ℤ) (v : BitVec 32) (byteOrder : ByteOrder) : Out Unit :=
  writeFixedAt bits.int position v (byteOrder == .BIG_ENDIAN)

/-- `writeLong(v)` -/
def writeLong (v : BitVec 64) : Out Unit := do
  writeFixed bits.long LONG_SIZE_IN_BYTES v (← get).isBigEndian

/-- `writeLong(position, v)` -/
def writeLongAt (position : ℤ) (v : BitVec 64) : Out Unit := do
  writeFixedAt bits.long position v (← get).isBigEndian

/-- `writeLong(v, byteOrder)` -/
def writeLongOrder (v : BitVec 64) (byteOrder : ByteOrder) : Out Unit :=
  writeFixed bits.long LONG_SIZE_IN_BYTES v (byteOrder == .BIG_ENDIAN)

/-- `writeLong(position, v, byteOrder)` -/
def writeLongOrderAt (position : ℤ) (v : BitVec 64) (byteOrder : ByteOrder) : Out Unit :=
  writeFixedAt bits.long position v (byteOrder == .BIG_ENDIAN)

/-- `writeShort(v)` -/
def writeShort (v : BitVec 32) : Out Unit := do
  writeFixed bits.short SHORT_SIZE_IN_BYTES (v.setWidth 16) (← get).isBigEndian

/-- `writeShort(position, v)` -/
def writeShortAt (position : ℤ) (v : BitVec 32) : Out Unit := do
  writeFixedAt bits.short position (v.setWidth 16) (← get).isBigEndian

/-- `writeShort(v, byteOrder)` -/
def writeShortOrder (v : BitVec 32) (byteOrder : ByteOrder) : Out Unit :=
  writeFixed bits.short SHORT_SIZE_IN_BYTES (v.setWidth 16) (byteOrder == .BIG_ENDIAN)

/-- `writeShort(position, v, byteOrder)` -/
def writeShortOrderAt (position : ℤ) (v : BitVec 32) (byteOrder : ByteOrder) : Out Unit :=
  writeFixedAt bits.short position (v.setWidth 16) (byteOrder == .BIG_ENDIAN)

/-- `Double.doubleToLongBits`: one bit pattern for every NaN. -/
def doubleToLongBits (v : BitVec 64) : BitVec 64 :=
  if 0x7FF0000000000000 < v &&& 0x7FFFFFFFFFFFFFFF then 0x7FF8000000000000 else v

/-- `Float.floatToIntBits`: one bit pattern for every NaN. -/
def floatToIntBits (v : BitVec 32) : BitVec 32 :=
  if 0x7F800000 < v &&& 0x7FFFFFFF then 0x7FC00000 else v

/-- `writeDouble(v)` -/
def writeDouble (v : BitVec 64) : Out Unit := writeLong bits (doubleToLongBits v)

/-- `writeDouble(position, v)` -/
def writeDoubleAt (position : ℤ) (v : BitVec 64) : Out Unit :=
  writeLongAt bits position (doubleToLongBits v)

/-- `writeDouble(v, byteOrder)` -/
def writeDoubleOrder (v : BitVec 64) (byteOrder : ByteOrder) : Out Unit :=
  writeLongOrder bits (doubleToLongBits v) byteOrder

/-- `writeDouble(position, v, byteOrder)` -/
def writeDoubleOrderAt (position : ℤ) (v : BitVec 64) (byteOrder : ByteOrder) : Out Unit :=
  writeLongOrderAt bits position (doubleToLongBits v) byteOrder

/-- `writeFloat(v)` -/
def writeFloat (v : BitVec 32) : Out Unit := writeInt bits (floatToIntBits v)

/-- `writeFloat(position, v)` -/
def writeFloatAt (position : ℤ) (v : BitVec 32) : Out Unit :=
  writeIntAt bits position (floatToIntBits v)

/-- `writeFloat(v, byteOrder)` -/
def writeFloatOrder (v : BitVec 32) (byteOrder : ByteOrder) : Out Unit :=
  writeIntOrder bits (floatToIntBits v) byteOrder

/-- `writeFloat(position, v, byteOrder)` -/
def writeFloatOrderAt (position : ℤ) (v : BitVec 32) (byteOrder : ByteOrder) : Out Unit :=
  writeIntOrderAt bits position (floatToIntBits v) byteOrder

/-! ## Strings and arrays -/

/-- `writeUTF(str)` -/
def writeUTF (str : Option (List CodeUnit)) : Out Unit := do
  let len := lengthOrNull str
  writeInt bits (BitVec.ofInt 32 len)
  if len > 0 then
    ensureAvailable (← capacity (len * 3))
    forEach (fun c => do
      let n ← onBuffer (bits.writeUtf8Char (← get).pos c)
      advance n) (str.getD [])

/-- The length of an array, and one call of `f` for each of its elements. -/
def writeArray {α : Type} (f : α → Out Unit) (xs : Option (List α)) : Out Unit := do
  let len := lengthOrNull xs
  writeInt bits (BitVec.ofInt 32 len)
  if len > 0 then forEach f (xs.getD [])

/-- `writeByteArray(bytes)` -/
def writeByteArray (bytes : Option (List Byte)) : Out Unit := do
  let len := lengthOrNull bytes
  writeInt bits (BitVec.ofInt 32 len)
  if len > 0 then writeAll bytes

/-- `writeBooleanArray(booleans)` -/
def writeBooleanArray (booleans : Option (List Bool)) : Out Unit :=
  writeArray bits writeBoolean booleans

/-- `writeCharArray(chars)` -/
def writeCharArray (chars : Option (List CodeUnit)) : Out Unit :=
  writeArray bits (fun c => writeChar bits (c.setWidth 32)) chars

/-- `writeIntArray(ints)` -/
def writeIntArray (ints : Option (List (BitVec 32))) : Out Unit :=
  writeArray bits (writeInt bits) ints

/-- `writeLongArray(longs)` -/
def writeLongArray (longs : Option (List (BitVec 64))) : Out Unit :=
  writeArray bits (writeLong bits) longs

/-- `writeDoubleArray(doubles)` -/
def writeDoubleArray (doubles : Option (List (BitVec 64))) : Out Unit :=
  writeArray bits (writeDouble bits) doubles

/-- `writeFloatArray(floats)` -/
def writeFloatArray (floats : Option (List (BitVec 32))) : Out Unit :=
  writeArray bits (writeFloat bits) floats

/-- `writeShortArray(shorts)` -/
def writeShortArray (shorts : Option (List (BitVec 16))) : Out Unit :=
  writeArray bits (fun s => writeShort bits (s.signExtend 32)) shorts

/-- `writeUTFArray(strings)` -/
def writeUTFArray (strings : Option (List (Option (List CodeUnit)))) : Out Unit :=
  writeArray bits (writeUTF bits) strings

/-- `writeData(data)`, for what `data.toByteArray()` returns, null for null. -/
def writeData (payload : Option (List Byte)) : Out Unit := writeByteArray bits payload

/-! ## Positions and buffers -/

/-- `position(newPos)` -/
def position (newPos : ℤ) : Out Unit := do
  match (← get).buffer with
  | none => raise .NullPointerException
  | some b =>
    if newPos > b.length ∨ newPos < 0 then raise (.IllegalArgumentException none)
    else modify fun w => { w with pos := newPos }

/-- `toByteArray()` -/
def toByteArray : Out (List Byte) := do
  let w ← get
  match w.buffer with
  | none => return []
  | some b =>
    if w.pos = 0 then return []
    else
      let newBuffer ← newArray 0 w.pos
      eval (arraycopy b 0 newBuffer 0 w.pos)

/-- `clear()` -/
def clear : Out Unit := do
  modify fun w => { w with pos := 0 }
  let w ← get
  match w.buffer with
  | none => return
  | some b =>
    let cap ← capacity (w.initialSize * 8)
    if b.length > cap then
      let newBuffer ← newArray 0 cap
      modify fun w => { w with buffer := some newBuffer }

/-- `close()` -/
def close : Out Unit := modify fun w => { w with pos := 0, buffer := none }

end ByteArrayObjectDataOutput

end HzResearch
