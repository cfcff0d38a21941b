import HzResearch.Java
import HzResearch.Utf8

/-!
# Hazelcast's `Bits`

`com.hazelcast.nio.Bits` is not part of the repository. The classes that use it
are modelled over a structure `Bits` of its operations, whose other fields say
what they rely on: the fixed-width writers and readers are inverse to each other
in either endianness and touch exactly their width, `writeUtf8Char` emits the
bytes of a code unit, and `readUtf8Char` reads the trailing bytes of a character
through `in.readByte()` and rejects every other negative byte.

`Bits.standard` has all of it.
-/

namespace HzResearch

open Java Utf8

/-! ## Values of a fixed width -/

/-- `java.nio.ByteOrder` -/
inductive ByteOrder : Type where
  | BIG_ENDIAN
  | LITTLE_ENDIAN
  deriving DecidableEq

/-- A value of `w` bits that `Bits` writes and reads in `size` bytes. -/
structure FixedWidth (w size : ℕ) where
  /-- the bytes of a value, the first argument for `bigEndian` -/
  layout : Bool → BitVec w → List Byte
  /-- `Bits.writeX(buffer, pos, v, bigEndian)` -/
  write : ℤ → BitVec w → Bool → Java (List Byte) Unit
  /-- `Bits.readX(buffer, pos, bigEndian)` -/
  read : List Byte → ℤ → Bool → Except Throwable (BitVec w)
  /-- a value takes `size` bytes -/
  length_layout : ∀ e v, (layout e v).length = size
  /-- the bytes determine the value -/
  layout_injective : ∀ e, Function.Injective (layout e)
  /-- in range the bytes of the value are written, and nothing else -/
  write_in : ∀ {buffer : List Byte} {i : ℤ} v e, 0 ≤ i → i + size ≤ buffer.length →
    write i v e buffer = .ok () (splice buffer i.toNat (layout e v))
  /-- out of range the writer throws -/
  write_ok : ∀ {buffer i v e buffer'}, write i v e buffer = .ok () buffer' →
    0 ≤ i ∧ i + size ≤ buffer.length
  /-- arrays keep their length, also where the writer throws -/
  length_write : ∀ buffer i v e, (after (write i v e) buffer).length = buffer.length
  /-- in range the value is read whose bytes stand there -/
  read_in : ∀ {buffer : List Byte} {i : ℤ} e, 0 ≤ i → i + size ≤ buffer.length →
    ∃ v, read buffer i e = .ok v ∧ layout e v = (buffer.drop i.toNat).take size

variable {w size : ℕ}

/-! ## `Bits` -/

/-- The operations of `Bits`, and what is relied on. -/
structure Bits where
  /-- `writeChar` and `readChar` -/
  char : FixedWidth 16 2
  /-- `writeShort` and `readShort` -/
  short : FixedWidth 16 2
  /-- `writeInt` and `readInt` -/
  int : FixedWidth 32 4
  /-- `writeLong` and `readLong` -/
  long : FixedWidth 64 8
  /-- `writeUtf8Char(buffer, pos, c)`, the number of bytes written -/
  writeUtf8Char : ℤ → CodeUnit → Java (List Byte) ℤ
  /-- `readUtf8Char(in, firstByte)`, over `in.readByte()` -/
  readUtf8Char : {σ : Type} → Java σ Byte → Byte → Java σ CodeUnit
  /-- in range the bytes of the code unit are written, and nothing else -/
  writeUtf8Char_in : ∀ {buffer : List Byte} {i : ℤ} c, 0 ≤ i →
    i + (encodeUnit c).length ≤ buffer.length →
      writeUtf8Char i c buffer =
        .ok ((encodeUnit c).length : ℤ) (splice buffer i.toNat (encodeUnit c))
  /-- out of range the writer throws -/
  writeUtf8Char_ok : ∀ {buffer : List Byte} {i : ℤ} {c n buffer'},
    writeUtf8Char i c buffer = .ok n buffer' → 0 ≤ i ∧ i + (encodeUnit c).length ≤ buffer.length
  /-- arrays keep their length, also where the writer throws -/
  length_writeUtf8Char : ∀ buffer i c, (after (writeUtf8Char i c) buffer).length = buffer.length
  /-- a lead of two bytes -/
  readUtf8Char_two : ∀ {σ : Type} (readByte : Java σ Byte) {b : Byte}, 0xC0 ≤ b → b ≤ 0xDF →
    readUtf8Char readByte b = do
      let k ← readByte
      return twoUnit b k
  /-- a lead of three bytes -/
  readUtf8Char_three : ∀ {σ : Type} (readByte : Java σ Byte) {b : Byte}, 0xE0 ≤ b → b ≤ 0xEF →
    readUtf8Char readByte b = do
      let m ← readByte
      let k ← readByte
      return threeUnit b m k
  /-- any other negative byte -/
  readUtf8Char_other : ∀ {σ : Type} (readByte : Java σ Byte) {b : Byte}, 0x80 ≤ b →
    b < 0xC0 ∨ 0xEF < b → readUtf8Char readByte b = raise .UTFDataFormatException

/-- `Bits.NULL_ARRAY_LENGTH` -/
def NULL_ARRAY_LENGTH : ℤ := -1

/-- `(xs != null) ? xs.length : NULL_ARRAY_LENGTH` -/
def lengthOrNull {α : Type} (xs : Option (List α)) : ℤ :=
  xs.elim NULL_ARRAY_LENGTH fun l => l.length

/-- `Bits.CHAR_SIZE_IN_BYTES` -/
def CHAR_SIZE_IN_BYTES : ℤ := 2

/-- `Bits.SHORT_SIZE_IN_BYTES` -/
def SHORT_SIZE_IN_BYTES : ℤ := 2

/-- `Bits.INT_SIZE_IN_BYTES` -/
def INT_SIZE_IN_BYTES : ℤ := 4

/-- `Bits.LONG_SIZE_IN_BYTES` -/
def LONG_SIZE_IN_BYTES : ℤ := 8

/-! ## An instance -/

/-- The `n` low bytes of a number, the lowest first. -/
def toBytes : ℕ → ℕ → List Byte
  | 0, _ => []
  | n + 1, v => BitVec.ofNat 8 v :: toBytes n (v / 256)

/-- The number made of these bytes, the lowest first. -/
def ofBytes : List Byte → ℕ
  | [] => 0
  | b :: bs => b.toNat + 256 * ofBytes bs

@[simp] theorem length_toBytes (n v : ℕ) : (toBytes n v).length = n := by
  induction n generalizing v with
  | zero => rfl
  | succ n ih => rw [toBytes, List.length_cons, ih]

theorem ofBytes_toBytes (n v : ℕ) (h : v < 256 ^ n) : ofBytes (toBytes n v) = v := by
  induction n generalizing v with
  | zero =>
    rw [Nat.pow_zero] at h
    simp [toBytes, ofBytes]
    omega
  | succ n ih =>
    rw [toBytes, ofBytes, ih _ (by rw [Nat.pow_succ] at h; omega), BitVec.toNat_ofNat]
    omega

theorem toBytes_ofBytes (bs : List Byte) : toBytes bs.length (ofBytes bs) = bs := by
  induction bs with
  | nil => rfl
  | cons b bs ih =>
    have hb := b.isLt
    have hlow : BitVec.ofNat 8 (b.toNat + 256 * ofBytes bs) = b := by
      apply BitVec.eq_of_toNat_eq
      rw [BitVec.toNat_ofNat]
      omega
    rw [List.length_cons, ofBytes, toBytes, hlow,
      show (b.toNat + 256 * ofBytes bs) / 256 = ofBytes bs by omega, ih]

theorem ofBytes_lt (bs : List Byte) : ofBytes bs < 256 ^ bs.length := by
  induction bs with
  | nil => simp [ofBytes]
  | cons b bs ih =>
    have := b.isLt
    rw [ofBytes, List.length_cons, Nat.pow_succ]
    omega

/-- The bytes in the order of the stream. -/
def ordered (bigEndian : Bool) (bs : List Byte) : List Byte :=
  if bigEndian then bs.reverse else bs

@[simp] theorem length_ordered (e : Bool) (bs : List Byte) :
    (ordered e bs).length = bs.length := by
  cases e <;> simp [ordered]

theorem ordered_ordered (e : Bool) (bs : List Byte) : ordered e (ordered e bs) = bs := by
  cases e <;> simp [ordered]

/-- Values of `size` bytes, written byte by byte. -/
def FixedWidth.standard (size : ℕ) (hsize : 0 < size) : FixedWidth (8 * size) size where
  layout e v := ordered e (toBytes size v.toNat)
  write i v e := storeAll i (ordered e (toBytes size v.toNat))
  read buffer i e :=
    if 0 ≤ i ∧ i + size ≤ buffer.length then
      .ok (BitVec.ofNat _ (ofBytes (ordered e ((buffer.drop i.toNat).take size))))
    else .error .ArrayIndexOutOfBoundsException
  length_layout e v := by simp
  layout_injective e := by
    intro v v' h
    have h' := congrArg (fun bs => ofBytes (ordered e bs)) h
    have hlt : ∀ u : BitVec (8 * size), u.toNat < 256 ^ size := by
      intro u
      have := u.isLt
      rwa [Nat.pow_mul] at this
    simp only [ordered_ordered, ofBytes_toBytes _ _ (hlt _)] at h'
    exact BitVec.eq_of_toNat_eq h'
  write_in := by
    intro buffer i v e hi hlen
    exact storeAll_ok _ hi (by simpa using hlen)
  write_ok := by
    intro buffer i v e buffer' h
    have hne : ordered e (toBytes size v.toNat) ≠ [] := by
      intro h0
      have := congrArg List.length h0
      simp at this
      omega
    simpa using storeAll_eq_ok _ hne h
  length_write := by
    intro buffer i v e
    exact length_storeAll _ _ _
  read_in := by
    intro buffer i e hi hlen
    refine ⟨_, if_pos ⟨hi, hlen⟩, ?_⟩
    have hlen' : (ordered e ((buffer.drop i.toNat).take size)).length = size := by
      simp
      omega
    have hlt := ofBytes_lt (ordered e ((buffer.drop i.toNat).take size))
    rw [hlen'] at hlt
    have hbytes := toBytes_ofBytes (ordered e ((buffer.drop i.toNat).take size))
    rw [hlen'] at hbytes
    rw [BitVec.toNat_ofNat, Nat.pow_mul, Nat.mod_eq_of_lt hlt, hbytes, ordered_ordered]

/-- `Bits`, byte by byte. -/
def Bits.standard : Bits where
  char := FixedWidth.standard 2 (by decide)
  short := FixedWidth.standard 2 (by decide)
  int := FixedWidth.standard 4 (by decide)
  long := FixedWidth.standard 8 (by decide)
  writeUtf8Char i c := do
    storeAll i (encodeUnit c)
    return (encodeUnit c).length
  readUtf8Char readByte b :=
    if b ≤ 0x7F then return oneUnit b
    else if 0xC0 ≤ b ∧ b ≤ 0xDF then do
      let k ← readByte
      return twoUnit b k
    else if 0xE0 ≤ b ∧ b ≤ 0xEF then do
      let m ← readByte
      let k ← readByte
      return threeUnit b m k
    else raise .UTFDataFormatException
  writeUtf8Char_in := by
    intro buffer i c hi hlen
    rw [bind_ok (storeAll_ok _ hi hlen)]
    rfl
  writeUtf8Char_ok := by
    intro buffer i c n buffer' h
    obtain ⟨u, b, hstore, -⟩ := bind_eq_ok h
    refine storeAll_eq_ok _ ?_ hstore
    intro h0
    have := (length_encodeUnit c).1
    rw [h0, List.length_nil] at this
    omega
  length_writeUtf8Char := by
    intro buffer i c
    have hlen := length_storeAll (encodeUnit c) buffer i
    rw [after_bind]
    rcases h : storeAll i (encodeUnit c) buffer with ⟨u, b⟩ | ⟨e, b⟩
    · rw [after_ok h] at hlen
      exact hlen
    · rw [after_error h] at hlen
      exact hlen
  readUtf8Char_two := by
    intro σ readByte b h h'
    rw [if_neg (by bv_omega), if_pos ⟨h, h'⟩]
  readUtf8Char_three := by
    intro σ readByte b h h'
    rw [if_neg (by bv_omega), if_neg (by rintro ⟨-, hle⟩; bv_omega), if_pos ⟨h, h'⟩]
  readUtf8Char_other := by
    intro σ readByte b h h'
    rw [if_neg (by bv_omega), if_neg (by rintro ⟨h1, h2⟩; bv_omega),
      if_neg (by rintro ⟨h1, h2⟩; bv_omega)]

end HzResearch
