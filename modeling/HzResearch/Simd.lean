import Mathlib.Data.Fin.VecNotation
import Mathlib.Tactic.IntervalCases

/-!
# 128-bit registers, lane by lane

A `__m128i` register is the sixteen bytes it holds, lane `0` the lowest. The
intrinsics below are the byte, word and double-word operations of the SSE family
in their documented meaning, each given as what it leaves in a lane:

* lane-wise byte arithmetic, comparison and selection act on a lane alone;
* `mm_slli_si128` / `mm_srli_si128` move whole bytes across the register;
* `mm_slli_epi16`, `mm_slli_epi32`, `mm_srli_epi32` shift 16- or 32-bit words, so
  bits leave a byte for its neighbour *inside the same word* — the lemmas
  `lsb_slli_epi16`, `lsb_slli_epi32` and `lsb_srli_epi32` say which.

`lane` reads a register at any index, with zero outside the sixteen lanes; the
byte moves are then plain index shifts.
-/

namespace HzResearch

/-- A byte. -/
abbrev Byte : Type := BitVec 8

/-- A 128-bit register as its sixteen byte lanes. -/
abbrev Vec : Type := Fin 16 → Byte

namespace Simd

/-- Lane `i` of a register, zero from lane sixteen on. -/
def lane (a : Vec) (i : ℕ) : Byte := if h : i < 16 then a ⟨i, h⟩ else 0

@[simp] theorem lane_val (a : Vec) (i : Fin 16) : lane a i = a i := by
  simp [lane]

theorem lane_of_lt (a : Vec) {i : ℕ} (h : i < 16) : lane a i = a ⟨i, h⟩ := by
  simp [lane, h]

theorem lane_of_le (a : Vec) {i : ℕ} (h : 16 ≤ i) : lane a i = 0 := by
  simp [lane, Nat.not_lt.mpr h]

/-! ## Byte lanes -/

/-- `_mm_set1_epi8` -/
def mm_set1_epi8 (x : Byte) : Vec := fun _ => x

/-- `_mm_set_epi8`, its arguments from lane fifteen down to lane zero. -/
def mm_set_epi8 (x15 x14 x13 x12 x11 x10 x9 x8 x7 x6 x5 x4 x3 x2 x1 x0 : Byte) : Vec :=
  ![x0, x1, x2, x3, x4, x5, x6, x7, x8, x9, x10, x11, x12, x13, x14, x15]

/-- `_mm_add_epi8` -/
def mm_add_epi8 (a b : Vec) : Vec := fun i => a i + b i

/-- `_mm_sub_epi8` -/
def mm_sub_epi8 (a b : Vec) : Vec := fun i => a i - b i

/-- `_mm_subs_epu8`: unsigned subtraction that stops at zero. -/
def mm_subs_epu8 (a b : Vec) : Vec := fun i => if b i ≤ a i then a i - b i else 0

/-- `_mm_and_si128` -/
def mm_and_si128 (a b : Vec) : Vec := fun i => a i &&& b i

/-- `_mm_or_si128` -/
def mm_or_si128 (a b : Vec) : Vec := fun i => a i ||| b i

/-- `_mm_andnot_si128`: the complement of the first operand and the second. -/
def mm_andnot_si128 (a b : Vec) : Vec := fun i => ~~~(a i) &&& b i

/-- A comparison's lane: all ones or all zeros. -/
def laneMask (p : Bool) : Byte := if p then 0xFF else 0

/-- `_mm_cmplt_epi8`, signed. -/
def mm_cmplt_epi8 (a b : Vec) : Vec := fun i => laneMask ((a i).slt (b i))

/-- `_mm_cmpgt_epi8`, signed. -/
def mm_cmpgt_epi8 (a b : Vec) : Vec := fun i => laneMask ((b i).slt (a i))

/-- `_mm_cmpeq_epi8` -/
def mm_cmpeq_epi8 (a b : Vec) : Vec := fun i => laneMask (a i == b i)

/-- `_mm_blendv_epi8`: the second operand where the mask's top bit is set. -/
def mm_blendv_epi8 (a b mask : Vec) : Vec := fun i => if (mask i).msb then b i else a i

/-- `_mm_shuffle_epi8`: each lane picks the lane named by the low four bits of its
index byte, or zero where that byte's top bit is set. -/
def mm_shuffle_epi8 (a b : Vec) : Vec := fun i =>
  if (b i).msb then 0 else lane a (b i &&& 0x0F).toNat

/-- `_mm_unpacklo_epi8`: the low halves interleaved. -/
def mm_unpacklo_epi8 (a b : Vec) : Vec := fun i =>
  if i.val % 2 = 0 then lane a (i / 2) else lane b (i / 2)

/-- `_mm_unpackhi_epi8`: the high halves interleaved. -/
def mm_unpackhi_epi8 (a b : Vec) : Vec := fun i =>
  if i.val % 2 = 0 then lane a (8 + i / 2) else lane b (8 + i / 2)

/-- `_mm_movemask_epi8`: the top bits of the lanes, as an `int`. -/
def mm_movemask_epi8 (a : Vec) : BitVec 32 :=
  (BitVec.ofBoolListLE ((List.finRange 16).map fun i => (a i).msb)).setWidth 32

/-- `_mm_testz_si128`: whether the two registers share no bit. -/
def mm_testz_si128 (a b : Vec) : Bool := decide (∀ i, a i &&& b i = 0)

/-! ## Byte moves and words -/

/-- `_mm_slli_si128`: every lane moves `n` lanes up, zeros come in below. -/
def mm_slli_si128 (a : Vec) (n : ℕ) : Vec := fun i => if n ≤ i.val then lane a (i - n) else 0

/-- `_mm_srli_si128`: every lane moves `n` lanes down, zeros come in above. -/
def mm_srli_si128 (a : Vec) (n : ℕ) : Vec := fun i => lane a (i + n)

/-- The 16-bit word `k` of a register. -/
def word16 (a : Vec) (k : ℕ) : BitVec 16 := lane a (2 * k + 1) ++ lane a (2 * k)

/-- The 32-bit word `k` of a register. -/
def word32 (a : Vec) (k : ℕ) : BitVec 32 :=
  lane a (4 * k + 3) ++ lane a (4 * k + 2) ++ (lane a (4 * k + 1) ++ lane a (4 * k))

/-- The register whose 16-bit words are given. -/
def ofWords16 (w : ℕ → BitVec 16) : Vec := fun i => (w (i / 2)).extractLsb' (8 * (i % 2)) 8

/-- The register whose 32-bit words are given. -/
def ofWords32 (w : ℕ → BitVec 32) : Vec := fun i => (w (i / 4)).extractLsb' (8 * (i % 4)) 8

/-- `_mm_slli_epi16` -/
def mm_slli_epi16 (a : Vec) (n : ℕ) : Vec := ofWords16 fun k => word16 a k <<< n

/-- `_mm_slli_epi32` -/
def mm_slli_epi32 (a : Vec) (n : ℕ) : Vec := ofWords32 fun k => word32 a k <<< n

/-- `_mm_srli_epi32`, zeros coming in. -/
def mm_srli_epi32 (a : Vec) (n : ℕ) : Vec := ofWords32 fun k => word32 a k >>> n

/-- `_mm_extract_epi16`: word `k`, zero-extended to an `int`. -/
def mm_extract_epi16 (a : Vec) (k : ℕ) : BitVec 32 := (word16 a k).setWidth 32

/-- `_mm_extract_epi32`: double word `k` as an `int`. -/
def mm_extract_epi32 (a : Vec) (k : ℕ) : BitVec 32 := word32 a k

/-- `_mm_cvtsi64_si128`: a 64-bit value in the low half, zeros above. -/
def mm_cvtsi64_si128 (x : BitVec 64) : Vec := fun i => x.extractLsb' (8 * i) 8

/-- `_mm_cmpestrc` with mode `5` (unsigned words, ranges): whether one of the first `lb` words
of `b` lies in one of the ranges whose bounds are the pairs among the first `la` words of `a`. -/
def mm_cmpestrc_uword_ranges (a : Vec) (la : ℕ) (b : Vec) (lb : ℕ) : Bool :=
  (List.range (min lb 8)).any fun j =>
    (List.range (min la 8 / 2)).any fun r =>
      decide (word16 a (2 * r) ≤ word16 b j) && decide (word16 b j ≤ word16 a (2 * r + 1))

/-! ## What a lane holds -/

section Lanes

variable (a : Vec)

theorem lane_slli_si128 (n : ℕ) {i : ℕ} (hi : i < 16) :
    lane (mm_slli_si128 a n) i = if n ≤ i then lane a (i - n) else 0 :=
  lane_of_lt _ hi

/-- Bit `t` of the 16-bit word `k` sits in one of its two lanes. -/
theorem getLsbD_word16 {k t : ℕ} (ht : t < 16) :
    (word16 a k).getLsbD t = (lane a (2 * k + t / 8)).getLsbD (t % 8) := by
  rw [word16, BitVec.getLsbD_append]
  rcases Nat.lt_or_ge t 8 with h | h
  · rw [if_pos h, Nat.div_eq_of_lt h, Nat.mod_eq_of_lt h, Nat.add_zero]
  · rw [if_neg (by omega), show t / 8 = 1 by omega, show t % 8 = t - 8 by omega]

/-- Bit `t` of the 32-bit word `k` sits in one of its four lanes. -/
theorem getLsbD_word32 {k t : ℕ} (ht : t < 32) :
    (word32 a k).getLsbD t = (lane a (4 * k + t / 8)).getLsbD (t % 8) := by
  simp only [word32, BitVec.getLsbD_append]
  rcases Nat.lt_or_ge t 8 with h | h
  · rw [if_pos (by omega), if_pos h, Nat.div_eq_of_lt h, Nat.mod_eq_of_lt h, Nat.add_zero]
  rcases Nat.lt_or_ge t 16 with h' | h'
  · rw [if_pos (by omega), if_neg (by omega), show t / 8 = 1 by omega,
      show t % 8 = t - 8 by omega]
  rcases Nat.lt_or_ge t 24 with h'' | h''
  · rw [if_neg (by omega), if_pos (by omega), show t / 8 = 2 by omega,
      show t % 8 = t - (8 + 8) by omega]
  · rw [if_neg (by omega), if_neg (by omega), show t / 8 = 3 by omega,
      show t % 8 = t - (8 + 8) - 8 by omega]

/-- Shifting 16-bit words to the left: the bits that stay in their lane. -/
theorem getLsbD_slli_epi16 {n t : ℕ} (i : Fin 16) (hn : n ≤ t) (ht : t < 8) :
    (mm_slli_epi16 a n i).getLsbD t = (a i).getLsbD (t - n) := by
  have hi := i.isLt
  rw [mm_slli_epi16, ofWords16, BitVec.getLsbD_extractLsb', BitVec.getLsbD_shiftLeft,
    getLsbD_word16 a (by omega), ← lane_val a i]
  have h1 : (8 * (i.val % 2) + t - n) / 8 = i.val % 2 := by omega
  have h2 : (8 * (i.val % 2) + t - n) % 8 = t - n := by omega
  have h3 : 2 * (i.val / 2) + i.val % 2 = i.val := by omega
  rw [h1, h2, h3]
  simp only [ht, decide_true, Bool.true_and, show 8 * (i.val % 2) + t < 16 by omega,
    show ¬ 8 * (i.val % 2) + t < n by omega, decide_false, Bool.not_false]

/-- Shifting 32-bit words to the left: the bits that stay in their lane. -/
theorem getLsbD_slli_epi32 {n t : ℕ} (i : Fin 16) (hn : n ≤ t) (ht : t < 8) :
    (mm_slli_epi32 a n i).getLsbD t = (a i).getLsbD (t - n) := by
  have hi := i.isLt
  rw [mm_slli_epi32, ofWords32, BitVec.getLsbD_extractLsb', BitVec.getLsbD_shiftLeft,
    getLsbD_word32 a (by omega), ← lane_val a i]
  have h1 : (8 * (i.val % 4) + t - n) / 8 = i.val % 4 := by omega
  have h2 : (8 * (i.val % 4) + t - n) % 8 = t - n := by omega
  have h3 : 4 * (i.val / 4) + i.val % 4 = i.val := by omega
  rw [h1, h2, h3]
  simp only [ht, decide_true, Bool.true_and, show 8 * (i.val % 4) + t < 32 by omega,
    show ¬ 8 * (i.val % 4) + t < n by omega, decide_false, Bool.not_false]

/-- Shifting 16-bit words to the left and masking what comes from the other lane. -/
theorem slli_epi16_and {n : ℕ} (i : Fin 16) :
    mm_slli_epi16 a n i &&& (0xFF#8 <<< n) = a i <<< n := by
  ext t ht
  rw [← BitVec.getLsbD_eq_getElem, ← BitVec.getLsbD_eq_getElem, BitVec.getLsbD_and,
    BitVec.getLsbD_shiftLeft, BitVec.getLsbD_shiftLeft]
  by_cases hn : t < n
  · simp [hn]
  · rw [getLsbD_slli_epi16 a i (by omega) ht]
    have hones : (0xFF#8).getLsbD (t - n) = true := by
      have : t - n < 8 := by omega
      interval_cases t - n <;> rfl
    simp [ht, hn, hones]

/-- Shifting 32-bit words to the left and masking what comes from the lane below. -/
theorem slli_epi32_and {n : ℕ} (i : Fin 16) :
    mm_slli_epi32 a n i &&& (0xFF#8 <<< n) = a i <<< n := by
  ext t ht
  rw [← BitVec.getLsbD_eq_getElem, ← BitVec.getLsbD_eq_getElem, BitVec.getLsbD_and,
    BitVec.getLsbD_shiftLeft, BitVec.getLsbD_shiftLeft]
  by_cases hn : t < n
  · simp [hn]
  · rw [getLsbD_slli_epi32 a i (by omega) ht]
    have hones : (0xFF#8).getLsbD (t - n) = true := by
      have : t - n < 8 := by omega
      interval_cases t - n <;> rfl
    simp [ht, hn, hones]

/-- Shifting 32-bit words to the right: the bits that stay in their lane. -/
theorem getLsbD_srli_epi32 {n t : ℕ} (i : Fin 16) (ht : n + t < 8) :
    (mm_srli_epi32 a n i).getLsbD t = (a i).getLsbD (n + t) := by
  have hi := i.isLt
  rw [mm_srli_epi32, ofWords32, BitVec.getLsbD_extractLsb', BitVec.getLsbD_ushiftRight,
    decide_eq_true (by omega), Bool.true_and, getLsbD_word32 a (by omega), ← lane_val a i]
  congr 2 <;> omega

/-- Shifting 32-bit words to the right moves bits of the next lane in, or none if it is zero. -/
theorem srli_epi32_of_next_zero {n : ℕ} (i : Fin 16) (hn : n ≤ 8) (h : lane a (i + 1) = 0) :
    mm_srli_epi32 a n i = a i >>> n := by
  have hi := i.isLt
  ext t ht
  rw [← BitVec.getLsbD_eq_getElem, ← BitVec.getLsbD_eq_getElem, BitVec.getLsbD_ushiftRight]
  rcases Nat.lt_or_ge (n + t) 8 with hin | hout
  · exact getLsbD_srli_epi32 a i hin
  · rw [mm_srli_epi32, ofWords32, BitVec.getLsbD_extractLsb', BitVec.getLsbD_ushiftRight,
      decide_eq_true ht, Bool.true_and, BitVec.getLsbD_of_ge (a i) _ hout]
    rcases Nat.lt_or_ge (n + (8 * (i.val % 4) + t)) 32 with h32 | h32
    · rw [getLsbD_word32 a h32, show 4 * (i.val / 4) + (n + (8 * (i.val % 4) + t)) / 8 = i.val + 1
        by omega, h]
      exact BitVec.getLsbD_zero
    · exact BitVec.getLsbD_of_ge _ _ h32

/-- The words of two interleaved low halves. -/
theorem word16_unpacklo (b : Vec) {k : ℕ} (hk : k < 8) :
    word16 (mm_unpacklo_epi8 a b) k = lane b k ++ lane a k := by
  have heven : lane (mm_unpacklo_epi8 a b) (2 * k) = lane a k := by
    rw [lane_of_lt _ (by omega)]
    simp only [mm_unpacklo_epi8, Nat.mul_mod_right, if_true, show 2 * k / 2 = k by omega]
  have hodd : lane (mm_unpacklo_epi8 a b) (2 * k + 1) = lane b k := by
    rw [lane_of_lt _ (by omega)]
    simp only [mm_unpacklo_epi8, show (2 * k + 1) % 2 ≠ 0 by omega, if_false,
      show (2 * k + 1) / 2 = k by omega]
  rw [word16, heven, hodd]

/-- The words of two interleaved high halves. -/
theorem word16_unpackhi (b : Vec) {k : ℕ} (hk : k < 8) :
    word16 (mm_unpackhi_epi8 a b) k = lane b (8 + k) ++ lane a (8 + k) := by
  have heven : lane (mm_unpackhi_epi8 a b) (2 * k) = lane a (8 + k) := by
    rw [lane_of_lt _ (by omega)]
    simp only [mm_unpackhi_epi8, Nat.mul_mod_right, if_true, show 2 * k / 2 = k by omega]
  have hodd : lane (mm_unpackhi_epi8 a b) (2 * k + 1) = lane b (8 + k) := by
    rw [lane_of_lt _ (by omega)]
    simp only [mm_unpackhi_epi8, show (2 * k + 1) % 2 ≠ 0 by omega, if_false,
      show (2 * k + 1) / 2 = k by omega]
  rw [word16, heven, hodd]

/-- Bit `i` of the mask is the top bit of lane `i`. -/
theorem getLsbD_movemask (i : Fin 16) : (mm_movemask_epi8 a).getLsbD i = (a i).msb := by
  have hi := i.isLt
  simp only [mm_movemask_epi8, BitVec.getLsbD_setWidth, BitVec.getLsbD_ofBoolListLE]
  simp [show i.val < 32 by omega]

/-- Two registers have the same mask when their lanes have the same top bits. -/
theorem movemask_eq_iff (b : Vec) :
    mm_movemask_epi8 a = mm_movemask_epi8 b ↔ ∀ i, (a i).msb = (b i).msb := by
  constructor
  · intro h i
    rw [← getLsbD_movemask, ← getLsbD_movemask, h]
  · intro h
    have hmsb : (fun i => (a i).msb) = fun i => (b i).msb := funext h
    rw [mm_movemask_epi8, mm_movemask_epi8, hmsb]

/-- Whether any lane has its top bit set. -/
theorem movemask_eq_zero_iff : mm_movemask_epi8 a = 0 ↔ ∀ i, (a i).msb = false := by
  have hzero : mm_movemask_epi8 (fun _ => 0) = 0 := by decide
  rw [← hzero, movemask_eq_iff]
  rfl

end Lanes

end Simd

end HzResearch
