import HzResearch.Loop
import HzResearch.Simd
import HzResearch.Splice

/-!
# The native decoder

`com_nc_gs_io_UTF8Util.c`, the SSE build (`GS_CHUNK_SIZE` 16, `__SSE4_2__`
defined): `SCALAR_LOOP`, the vector loop and `utf8BytesToArray`, which runs the
one after the other.

Pointers are indices into the two arrays the critical sections hand out, and
every load and store is checked: an access outside its array is a `Fault`, where
the C code has undefined behaviour. `char` is signed. The registers of one block
are definitions of their own, under the names they have in the source; a register
the source assigns several times has one name for each value it takes.
-/

namespace HzResearch

/-- A UTF-16 code unit, `jchar`. -/
abbrev CodeUnit : Type := BitVec 16

namespace Native

open Simd

/-- An access outside an array. -/
inductive Fault : Type where
  /-- a load from `source` at this index -/
  | load : ℤ → Fault
  /-- a store to `target` at this index -/
  | store : ℤ → Fault
  deriving DecidableEq

/-- The local variables the loops work on, and the memory they write. -/
structure Cursors where
  /-- where `src` points in the source array -/
  src : ℤ
  /-- where `dst` points in the target array -/
  dst : ℤ
  /-- code units left to decode -/
  len : ℤ
  /-- bytes left to read -/
  rem : ℤ
  /-- the target array -/
  target : List CodeUnit
  deriving DecidableEq

/-- Go on with the value of a memory access, or leave the loop with its fault. -/
def access {α σ ρ : Type} (x : Except Fault α) (k : α → Outcome σ (Except Fault ρ)) :
    Outcome σ (Except Fault ρ) :=
  match x with
  | .error f => .done (.error f)
  | .ok a => k a

/-! ## Loads and stores -/

/-- `*src`, a signed `char` on its way into an `unsigned short`. -/
def loadChar (source : List Byte) (i : ℤ) : Except Fault CodeUnit :=
  if 0 ≤ i ∧ i < source.length then .ok ((source.getD i.toNat 0).signExtend 16)
  else .error (.load i)

/-- `loadVecU`, sixteen bytes. -/
def loadVecU (source : List Byte) (i : ℤ) : Except Fault Vec :=
  if 0 ≤ i ∧ i + 16 ≤ source.length then .ok fun k => source.getD (i.toNat + k) 0
  else .error (.load i)

/-- `*dst = c` -/
def storeUnit (target : List CodeUnit) (i : ℤ) (c : CodeUnit) : Except Fault (List CodeUnit) :=
  if 0 ≤ i ∧ i < target.length then .ok (splice target i.toNat [c])
  else .error (.store i)

/-- The eight code units of a register. -/
def units (v : Vec) : List CodeUnit := (List.range 8).map (word16 v)

/-- `storeVecU`, eight code units. -/
def storeVecU (target : List CodeUnit) (i : ℤ) (v : Vec) : Except Fault (List CodeUnit) :=
  if 0 ≤ i ∧ i + 8 ≤ target.length then .ok (splice target i.toNat (units v))
  else .error (.store i)

/-! ## `SCALAR_LOOP` -/

section Scalar

variable (source : List Byte)

/-- One turn of the first loop, which copies a run of ASCII characters. The byte that ends the
run is un-read. -/
def asciiStep (s : Cursors) : Outcome Cursors (Except Fault Cursors) :=
  if 0 < s.len ∧ 0 < s.rem then
    access (loadChar source s.src) fun c0 =>
      if 0x7F < c0 then .done (.ok s)
      else access (storeUnit s.target s.dst c0) fun target =>
        .next { src := s.src + 1, dst := s.dst + 1, len := s.len - 1, rem := s.rem - 1, target }
  else .done (.ok s)

/-- How the scalar loop is left: at its end, or by the `return -1` of an incomplete character. -/
inductive ScalarExit : Type where
  /-- the loop condition failed -/
  | finished : Cursors → ScalarExit
  /-- `return -1` -/
  | returned : Cursors → ScalarExit
  deriving DecidableEq

/-- One turn of the second loop, which decodes one character. -/
def utfStep (s : Cursors) : Outcome Cursors (Except Fault ScalarExit) :=
  if 0 < s.len ∧ 0 < s.rem then
    access (loadChar source s.src) fun b0 =>
      let c0 := b0 &&& 0xFF
      let s : Cursors := { s with src := s.src + 1, len := s.len - 1, rem := s.rem - 1 }
      if c0 ≤ 0x7F then
        access (storeUnit s.target s.dst c0) fun target =>
          .next { s with dst := s.dst + 1, target }
      else if c0 >>> 4 < 14 then
        if 0 < s.rem then
          access (loadChar source s.src) fun b1 =>
            let c1 := b1 &&& 0x3F
            access (storeUnit s.target s.dst ((c0 &&& 0x1F) <<< 6 ||| c1)) fun target =>
              .next { s with src := s.src + 1, dst := s.dst + 1, rem := s.rem - 1, target }
        else .done (.ok (.returned s))
      else
        if 1 < s.rem then
          access (loadChar source s.src) fun b1 =>
            let c1 := (b1 &&& 0x3F) <<< 6
            access (loadChar source (s.src + 1)) fun b2 =>
              let c2 := b2 &&& 0x3F
              access (storeUnit s.target s.dst ((c0 &&& 0x0F) <<< 12 ||| c1 ||| c2)) fun target =>
                .next { s with src := s.src + 2, dst := s.dst + 1, rem := s.rem - 2, target }
        else .done (.ok (.returned s))
  else .done (.ok (.finished s))

end Scalar

/-! ## The registers of one block -/

section Block

variable (chunk : Vec)

/-- `V(X)` -/
def V (x : Byte) : Vec := mm_set1_epi8 x

/-- `_V_ZERO` -/
def V_ZERO : Vec := V 0

/-- `_V_SHUFFLE` -/
def V_SHUFFLE : Vec := mm_set_epi8 15 14 13 12 11 10 9 8 7 6 5 4 3 2 1 0

/-- `zeroExtendLow` -/
def zeroExtendLow : Vec := mm_unpacklo_epi8 chunk (mm_set1_epi8 0)

/-- `zeroExtendHigh` -/
def zeroExtendHigh : Vec := mm_unpackhi_epi8 chunk (mm_set1_epi8 0)

/-- `chunk_signed` -/
def chunk_signed : Vec := mm_add_epi8 chunk (V 0x80)

/-- `cond2`: the leads of two- and three-byte characters, and above. -/
def cond2 : Vec := mm_cmplt_epi8 (V (0xc2 - 1 - 0x80)) (chunk_signed chunk)

/-- `cond3`: the leads of three-byte characters, and above. -/
def cond3 : Vec := mm_cmplt_epi8 (V (0xe0 - 1 - 0x80)) (chunk_signed chunk)

/-- `cond4`: the leads the block leaves to the scalar loop. -/
def cond4 : Vec := mm_cmplt_epi8 (V (0xf0 - 1 - 0x80)) (chunk_signed chunk)

/-- `state` -/
def state : Vec :=
  mm_blendv_epi8 (mm_blendv_epi8 (mm_set1_epi8 (0x0 ||| 0x80)) (V (0x2 ||| 0xc0)) (cond2 chunk))
    (V (0x3 ||| 0xe0)) (cond3 chunk)

/-- `mask3`: the lanes behind the lead of a three-byte character. -/
def mask3 : Vec := mm_slli_si128 (cond3 chunk) 1

/-- `count` -/
def count : Vec := mm_and_si128 (state chunk) (V 0x7)

/-- `count_sub1` -/
def count_sub1 : Vec := mm_subs_epu8 (count chunk) (V 1)

/-- `counts` as it is first set -/
def counts1 : Vec := mm_add_epi8 (count chunk) (mm_slli_si128 (count_sub1 chunk) 1)

/-- `counts` -/
def counts : Vec :=
  mm_add_epi8 (counts1 chunk) (mm_slli_si128 (mm_subs_epu8 (counts1 chunk) (V 0x2)) 2)

/-- `shifts = _mm_add_epi8(shifts, _mm_slli_si128(shifts, n))` -/
def addShifted (shifts : Vec) (n : ℕ) : Vec := mm_add_epi8 shifts (mm_slli_si128 shifts n)

/-- `shifts` after the four additions -/
def shifts1 : Vec :=
  addShifted (addShifted (addShifted (addShifted (count_sub1 chunk) 1) 2) 4) 8

/-- `shifts` with the lanes that do not end a character cleared -/
def shifts2 : Vec := mm_and_si128 (shifts1 chunk) (mm_cmplt_epi8 (counts chunk) (V 0x2))

/-- `shifts = _mm_blendv_epi8(shifts, _mm_srli_si128(shifts, n),
_mm_srli_si128(_mm_slli_epi16(shifts, k), n))` -/
def pull (shifts : Vec) (n k : ℕ) : Vec :=
  mm_blendv_epi8 shifts (mm_srli_si128 shifts n) (mm_srli_si128 (mm_slli_epi16 shifts k) n)

/-- `shifts` after the four moves -/
def shifts3 : Vec := pull (pull (pull (pull (shifts2 chunk) 1 7) 2 6) 4 5) 8 4

/-- `mask` -/
def mask : Vec := mm_and_si128 (state chunk) (mm_set1_epi8 0xf8)

/-- `chunk` once only the useful bits are left -/
def chunk_bits : Vec := mm_andnot_si128 (mask chunk) chunk

/-- `chunk_right` -/
def chunk_right : Vec := mm_slli_si128 (chunk_bits chunk) 1

/-- `chunk_low` -/
def chunk_low : Vec :=
  mm_blendv_epi8 (chunk_bits chunk)
    (mm_or_si128 (chunk_bits chunk)
      (mm_and_si128 (mm_slli_epi16 (chunk_right chunk) 6) (V 0xc0)))
    (mm_cmpeq_epi8 (counts chunk) (V 1))

/-- `chunk_high` as it is first set -/
def chunk_high1 : Vec := mm_and_si128 (chunk_bits chunk) (mm_cmpeq_epi8 (counts chunk) (V 2))

/-- `chunk_high` with both of its parts in place -/
def chunk_high2 : Vec :=
  mm_or_si128 (mm_srli_epi32 (chunk_high1 chunk) 2)
    (mm_and_si128 (mm_and_si128 (mm_slli_epi32 (chunk_right chunk) 4) (V 0xf0)) (mask3 chunk))

/-- `chunk_high`, moved to the lanes that end a character -/
def chunk_high : Vec := mm_slli_si128 (chunk_high2 chunk) 1

/-- `c` -/
def c : BitVec 32 := mm_extract_epi16 (counts chunk) 7

/-- `src_adv` -/
def src_adv : ℤ := if c chunk &&& 0x0200 = 0 then 16 else if c chunk &&& 0x02 = 0 then 15 else 14

/-- `high_bits` -/
def high_bits : Vec := mm_and_si128 (chunk_high2 chunk) (V 0xf8)

/-- `shuf` -/
def shuf : Vec := mm_add_epi8 (shifts3 chunk) V_SHUFFLE

/-- `utf16_low` -/
def utf16_low : Vec :=
  mm_unpacklo_epi8 (mm_shuffle_epi8 (chunk_low chunk) (shuf chunk))
    (mm_shuffle_epi8 (chunk_high chunk) (shuf chunk))

/-- `utf16_high` -/
def utf16_high : Vec :=
  mm_unpackhi_epi8 (mm_shuffle_epi8 (chunk_low chunk) (shuf chunk))
    (mm_shuffle_epi8 (chunk_high chunk) (shuf chunk))

/-- `s` -/
def s : BitVec 32 := mm_extract_epi32 (shifts3 chunk) 3

/-- `dst_adv` -/
def dst_adv : ℤ :=
  src_adv chunk -
    (0xff &&& (s chunk).sshiftRight (8 * (3 - 16 + src_adv chunk)).toNat : BitVec 32).toNat

/-- The first `break; // error`: a byte is ASCII exactly where no character counts it. -/
def asciiMismatch : Bool :=
  decide (mm_movemask_epi8 chunk ^^^ mm_movemask_epi8 (mm_cmpgt_epi8 (counts chunk) V_ZERO) ≠ 0)

/-- The second `break; // error`: a count falls by more than one. -/
def countsDrop : Bool :=
  decide (mm_movemask_epi8 (mm_cmpgt_epi8 (mm_sub_epi8 (mm_slli_si128 (counts chunk) 1)
    (counts chunk)) (V 1)) ≠ 0)

/-- The test on `high_bits`: an overlong three-byte character or a surrogate. -/
def badHighBits : Bool :=
  !mm_testz_si128 (mask3 chunk)
    (mm_or_si128 (mm_cmpeq_epi8 (high_bits chunk) (V 0x00))
      (mm_cmpeq_epi8 (high_bits chunk) (V 0xd8)))

/-- The last test, on the decoded units: a noncharacter. -/
def nonCharacter : Bool :=
  mm_cmpestrc_uword_ranges (mm_cvtsi64_si128 0xfdeffdd0fffffffe) 4 (utf16_high chunk) 8 ||
    mm_cmpestrc_uword_ranges (mm_cvtsi64_si128 0xfdeffdd0fffffffe) 4 (utf16_low chunk) 8

end Block

/-! ## The vector loop -/

/-- `GS_CHUNK_SIZE` -/
def GS_CHUNK_SIZE : ℤ := 16

/-- The two stores of a block. -/
def storePair (target : List CodeUnit) (i : ℤ) (low high : Vec) :
    Except Fault (List CodeUnit) := do
  let target ← storeVecU target i low
  storeVecU target (i + 8) high

/-- One turn of the vector loop. -/
def vectorStep (source : List Byte) (s : Cursors) : Outcome Cursors (Except Fault Cursors) :=
  if GS_CHUNK_SIZE ≤ s.len ∧ GS_CHUNK_SIZE ≤ s.rem then
    access (loadVecU source s.src) fun chunk =>
      if mm_movemask_epi8 chunk = 0 then
        access (storePair s.target s.dst (zeroExtendLow chunk) (zeroExtendHigh chunk)) fun target =>
          .next
            { src := s.src + GS_CHUNK_SIZE, dst := s.dst + GS_CHUNK_SIZE,
              len := s.len - GS_CHUNK_SIZE, rem := s.rem - GS_CHUNK_SIZE, target }
      else if mm_movemask_epi8 (cond4 chunk) ≠ 0 then .done (.ok s)
      else if asciiMismatch chunk then .done (.ok s)
      else if countsDrop chunk then .done (.ok s)
      else if badHighBits chunk then .done (.ok s)
      else
        access (storePair s.target s.dst (utf16_low chunk) (utf16_high chunk)) fun target =>
          -- this `break` comes after the stores
          if nonCharacter chunk then .done (.ok { s with target })
          else
            .next
              { src := s.src + src_adv chunk, dst := s.dst + dst_adv chunk,
                len := s.len - dst_adv chunk, rem := s.rem - src_adv chunk, target }
  else .done (.ok s)

/-! ### Inversion -/

theorem access_eq_next {α σ ρ : Type} {x : Except Fault α}
    {k : α → Outcome σ (Except Fault ρ)} {s : σ} (h : access x k = .next s) :
    ∃ a, x = .ok a ∧ k a = .next s := by
  cases x with
  | error f => cases h
  | ok a => exact ⟨a, rfl, h⟩

theorem access_eq_done {α σ ρ : Type} {x : Except Fault α}
    {k : α → Outcome σ (Except Fault ρ)} {r : ρ} (h : access x k = .done (.ok r)) :
    ∃ a, x = .ok a ∧ k a = .done (.ok r) := by
  cases x with
  | error f => cases h
  | ok a => exact ⟨a, rfl, h⟩

theorem access_ok {α σ ρ : Type} {x : Except Fault α} {k : α → Outcome σ (Except Fault ρ)} {a : α}
    (h : x = .ok a) : access x k = k a := by
  rw [h]
  rfl

/-- The block is not left to the scalar loop before its stores. -/
def passes (chunk : Vec) : Bool :=
  decide (mm_movemask_epi8 (cond4 chunk) = 0) && !asciiMismatch chunk && !countsDrop chunk &&
    !badHighBits chunk

/-- The block is decoded by the vector loop. -/
def accepts (chunk : Vec) : Bool := passes chunk && !nonCharacter chunk

/-- The four tests before the stores are one. -/
theorem ite_passes {α : Type} (chunk : Vec) (x y : α) :
    (if mm_movemask_epi8 (cond4 chunk) ≠ 0 then x
      else if asciiMismatch chunk then x
      else if countsDrop chunk then x
      else if badHighBits chunk then x
      else y) = if passes chunk then y else x := by
  rw [passes]
  by_cases hcond : mm_movemask_epi8 (cond4 chunk) = 0
  · rw [if_neg (not_not_intro hcond), decide_eq_true hcond]
    cases asciiMismatch chunk <;> cases countsDrop chunk <;> cases badHighBits chunk <;> rfl
  · rw [if_pos hcond, decide_eq_false hcond]
    rfl

/-- What a turn of the vector loop that goes on has done. -/
theorem vectorStep_eq_next {source : List Byte} {s s' : Cursors}
    (h : vectorStep source s = .next s') :
    16 ≤ s.len ∧ 16 ≤ s.rem ∧ ∃ chunk, loadVecU source s.src = .ok chunk ∧
      ((mm_movemask_epi8 chunk = 0 ∧ ∃ target,
          storePair s.target s.dst (zeroExtendLow chunk) (zeroExtendHigh chunk) = .ok target ∧
          s' = ⟨s.src + 16, s.dst + 16, s.len - 16, s.rem - 16, target⟩) ∨
       (mm_movemask_epi8 chunk ≠ 0 ∧ accepts chunk = true ∧ ∃ target,
          storePair s.target s.dst (utf16_low chunk) (utf16_high chunk) = .ok target ∧
          s' = ⟨s.src + src_adv chunk, s.dst + dst_adv chunk, s.len - dst_adv chunk,
            s.rem - src_adv chunk, target⟩)) := by
  unfold vectorStep GS_CHUNK_SIZE at h
  split at h
  case isFalse => cases h
  case isTrue hc =>
    obtain ⟨chunk, hload, h⟩ := access_eq_next h
    refine ⟨hc.1, hc.2, chunk, hload, ?_⟩
    split at h
    case isTrue hascii =>
      obtain ⟨target, hstore, h⟩ := access_eq_next h
      cases h
      exact .inl ⟨hascii, target, hstore, rfl⟩
    case isFalse hascii =>
      rw [ite_passes] at h
      split at h
      case isFalse => cases h
      case isTrue hpasses =>
        obtain ⟨target, hstore, h⟩ := access_eq_next h
        split at h
        · cases h
        case isFalse hchar =>
          cases h
          refine .inr ⟨hascii, ?_, target, hstore, rfl⟩
          rw [accepts, hpasses, Bool.eq_false_of_not_eq_true hchar]
          rfl

/-- How a turn of the vector loop leaves it without a fault. -/
theorem vectorStep_eq_done {source : List Byte} {s s' : Cursors}
    (h : vectorStep source s = .done (.ok s')) :
    (¬ (16 ≤ s.len ∧ 16 ≤ s.rem) ∧ s' = s) ∨
    16 ≤ s.len ∧ 16 ≤ s.rem ∧ ∃ chunk, loadVecU source s.src = .ok chunk ∧
      mm_movemask_epi8 chunk ≠ 0 ∧
      ((passes chunk = false ∧ s' = s) ∨
       (passes chunk = true ∧ nonCharacter chunk = true ∧ ∃ target,
          storePair s.target s.dst (utf16_low chunk) (utf16_high chunk) = .ok target ∧
          s' = { s with target })) := by
  unfold vectorStep GS_CHUNK_SIZE at h
  split at h
  case isFalse hc =>
    cases h
    exact .inl ⟨hc, rfl⟩
  case isTrue hc =>
    obtain ⟨chunk, hload, h⟩ := access_eq_done h
    split at h
    case isTrue =>
      obtain ⟨target, -, h⟩ := access_eq_done h
      cases h
    case isFalse hascii =>
      refine .inr ⟨hc.1, hc.2, chunk, hload, hascii, ?_⟩
      rw [ite_passes] at h
      split at h
      case isFalse hpasses =>
        cases h
        exact .inl ⟨Bool.eq_false_of_not_eq_true hpasses, rfl⟩
      case isTrue hpasses =>
        obtain ⟨target, hstore, h⟩ := access_eq_done h
        split at h
        case isTrue hchar =>
          cases h
          exact .inr ⟨hpasses, hchar, target, hstore, rfl⟩
        case isFalse => cases h

theorem src_adv_cases (chunk : Vec) :
    src_adv chunk = 16 ∨ src_adv chunk = 15 ∨ src_adv chunk = 14 := by
  rw [src_adv]
  split
  · exact .inl rfl
  split
  · exact .inr (.inl rfl)
  · exact .inr (.inr rfl)

/-- The bytes left measure the vector loop. -/
theorem vectorStep_decreases (source : List Byte) :
    Loop.Decreases (vectorStep source) fun s => s.rem.toNat := by
  intro s s' h
  obtain ⟨-, hrem, chunk, -, h⟩ := vectorStep_eq_next h
  obtain ⟨-, target, -, rfl⟩ | ⟨-, -, target, -, rfl⟩ := h
  · change (s.rem - 16).toNat < s.rem.toNat
    omega
  · change (s.rem - src_adv chunk).toNat < s.rem.toNat
    have := src_adv_cases chunk
    omega

/-- What a turn of the ASCII loop that goes on has done. -/
theorem asciiStep_eq_next {source : List Byte} {s s' : Cursors}
    (h : asciiStep source s = .next s') :
    0 < s.len ∧ 0 < s.rem ∧ ∃ c0 target, loadChar source s.src = .ok c0 ∧ ¬ 0x7F < c0 ∧
      storeUnit s.target s.dst c0 = .ok target ∧
      s' = ⟨s.src + 1, s.dst + 1, s.len - 1, s.rem - 1, target⟩ := by
  unfold asciiStep at h
  split at h
  case isFalse => cases h
  case isTrue hc =>
    obtain ⟨c0, hload, h⟩ := access_eq_next h
    split at h
    case isTrue => cases h
    case isFalse hc0 =>
      obtain ⟨target, hstore, h⟩ := access_eq_next h
      cases h
      exact ⟨hc.1, hc.2, c0, target, hload, hc0, hstore, rfl⟩

/-- The ASCII loop is left where it stands. -/
theorem asciiStep_eq_done {source : List Byte} {s s' : Cursors}
    (h : asciiStep source s = .done (.ok s')) : s' = s := by
  unfold asciiStep at h
  split at h
  case isFalse =>
    cases h
    rfl
  case isTrue =>
    obtain ⟨c0, -, h⟩ := access_eq_done h
    split at h
    · cases h
      rfl
    · obtain ⟨target, -, h⟩ := access_eq_done h
      cases h

theorem asciiStep_decreases (source : List Byte) :
    Loop.Decreases (asciiStep source) fun s => s.rem.toNat := by
  intro s s' h
  obtain ⟨-, hrem, c0, target, -, -, -, rfl⟩ := asciiStep_eq_next h
  change (s.rem - 1).toNat < s.rem.toNat
  omega

/-- What a turn of the second scalar loop that goes on has done: one character of one, two or
three bytes. -/
theorem utfStep_eq_next {source : List Byte} {s s' : Cursors} (h : utfStep source s = .next s') :
    0 < s.len ∧ 0 < s.rem ∧ ∃ c target, storeUnit s.target s.dst c = .ok target ∧
      ∃ n : ℤ, 1 ≤ n ∧ n ≤ 3 ∧ n ≤ s.rem ∧
        s' = ⟨s.src + n, s.dst + 1, s.len - 1, s.rem - n, target⟩ := by
  unfold utfStep at h
  split at h
  case isFalse => cases h
  case isTrue hc =>
    obtain ⟨b0, -, h⟩ := access_eq_next h
    refine ⟨hc.1, hc.2, ?_⟩
    dsimp only at h
    split at h
    case isTrue =>
      obtain ⟨target, hstore, h⟩ := access_eq_next h
      cases h
      exact ⟨_, target, hstore, 1, by omega, by omega, by omega, rfl⟩
    case isFalse =>
      split at h
      case isTrue =>
        split at h
        case isFalse => cases h
        case isTrue hr =>
          obtain ⟨b1, -, h⟩ := access_eq_next h
          obtain ⟨target, hstore, h⟩ := access_eq_next h
          cases h
          refine ⟨_, target, hstore, 2, by omega, by omega, by omega, ?_⟩
          simp only [Cursors.mk.injEq, and_true, true_and]
          omega
      case isFalse =>
        split at h
        case isFalse => cases h
        case isTrue hr =>
          obtain ⟨b1, -, h⟩ := access_eq_next h
          obtain ⟨b2, -, h⟩ := access_eq_next h
          obtain ⟨target, hstore, h⟩ := access_eq_next h
          cases h
          refine ⟨_, target, hstore, 3, by omega, by omega, by omega, ?_⟩
          simp only [Cursors.mk.injEq, and_true, true_and]
          omega

/-- The second scalar loop is left at its end, or by `return -1` with nothing stored. -/
theorem utfStep_eq_done {source : List Byte} {s : Cursors} {e : ScalarExit}
    (h : utfStep source s = .done (.ok e)) :
    e = .finished s ∨ ∃ src len rem, e = .returned ⟨src, s.dst, len, rem, s.target⟩ := by
  unfold utfStep at h
  split at h
  case isFalse =>
    cases h
    exact .inl rfl
  case isTrue =>
    obtain ⟨b0, -, h⟩ := access_eq_done h
    dsimp only at h
    split at h
    · obtain ⟨target, -, h⟩ := access_eq_done h
      cases h
    split at h
    · split at h
      · obtain ⟨b1, -, h⟩ := access_eq_done h
        obtain ⟨target, -, h⟩ := access_eq_done h
        cases h
      · cases h
        exact .inr ⟨_, _, _, rfl⟩
    · split at h
      · obtain ⟨b1, -, h⟩ := access_eq_done h
        obtain ⟨b2, -, h⟩ := access_eq_done h
        obtain ⟨target, -, h⟩ := access_eq_done h
        cases h
      · cases h
        exact .inr ⟨_, _, _, rfl⟩

theorem utfStep_decreases (source : List Byte) :
    Loop.Decreases (utfStep source) fun s => s.rem.toNat := by
  intro s s' h
  obtain ⟨-, hrem, c, target, -, n, hn, -, -, rfl⟩ := utfStep_eq_next h
  change (s.rem - n).toNat < s.rem.toNat
  omega

/-! ## The whole decoder -/

/-- The vector loop. -/
def vectorLoop (source : List Byte) (s : Cursors) : Except Fault Cursors :=
  Loop.exec (vectorStep source) (fun s => s.rem.toNat) (vectorStep_decreases source) s

/-- The first loop of `SCALAR_LOOP`. -/
def asciiLoop (source : List Byte) (s : Cursors) : Except Fault Cursors :=
  Loop.exec (asciiStep source) (fun s => s.rem.toNat) (asciiStep_decreases source) s

/-- The second loop of `SCALAR_LOOP`. -/
def utfLoop (source : List Byte) (s : Cursors) : Except Fault ScalarExit :=
  Loop.exec (utfStep source) (fun s => s.rem.toNat) (utfStep_decreases source) s

/-- `SCALAR_LOOP` -/
def SCALAR_LOOP (source : List Byte) (s : Cursors) : Except Fault ScalarExit := do
  let s ← asciiLoop source s
  utfLoop source s

/-- What a call of the decoder returns and leaves behind. -/
structure Decoded where
  /-- the `jint` returned -/
  value : ℤ
  /-- the code units decoded, which is how far `dst` got -/
  count : ℤ
  /-- the target array -/
  target : List CodeUnit
  deriving DecidableEq

/-- The end of the function: the bytes read, or the `-1` of `SCALAR_LOOP`. -/
def ScalarExit.decoded (off : ℤ) : ScalarExit → Decoded
  | .finished s => ⟨s.src - off, s.dst, s.target⟩
  | .returned s => ⟨-1, s.dst, s.target⟩

/-- The local variables at the entry. -/
def entry (source : List Byte) (target : List CodeUnit) (off : ℤ) : Cursors :=
  { src := off, dst := 0, len := target.length, rem := source.length - off, target }

/-- `Java_com_nc_gs_io_UTF8Util_utf8BytesToArray` -/
def utf8BytesToArray (source : List Byte) (target : List CodeUnit) (off : ℤ) :
    Except Fault Decoded := do
  let s ← vectorLoop source (entry source target off)
  let e ← SCALAR_LOOP source s
  return e.decoded off

end Native

end HzResearch
