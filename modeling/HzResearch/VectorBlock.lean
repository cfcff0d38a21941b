import HzResearch.Compaction
import HzResearch.Utf8

/-!
# One block of the vector loop

Lane by lane, what the registers of a block hold (`counts`, the shifts before and
after the compaction, the two halves of the decoded units), and from it the
meaning of an accepted block: if its first `src_adv` bytes are characters
(`Spells`), the block stores the units they spell and advances by their number.
-/

namespace HzResearch

namespace Native

open Simd Utf8

variable (chunk : Vec)

/-- The bytes of the character a byte announces, none where it announces none. -/
def lead (b : Byte) : ℕ := if 0xE0 ≤ b then 3 else if 0xC2 ≤ b then 2 else 0

/-- The trailing bytes a byte announces. -/
def extra (b : Byte) : ℕ := lead b - 1

theorem lead_le (b : Byte) : lead b ≤ 3 := by
  rw [lead]
  split
  · omega
  split <;> omega

theorem extra_le (b : Byte) : extra b ≤ 2 := by
  have := lead_le b
  rw [extra]
  omega

@[simp] theorem lead_zero : lead 0 = 0 := rfl

@[simp] theorem extra_zero : extra 0 = 0 := rfl

/-- The byte `n` lanes below lane `i`, zero below lane zero. -/
def back (i n : ℕ) : Byte := if n ≤ i then lane chunk (i - n) else 0

@[simp] theorem back_zero (i : ℕ) : back chunk i 0 = lane chunk i := by
  simp [back]

theorem back_back {i n m : ℕ} (h : n ≤ i) : back chunk (i - n) m = back chunk i (n + m) := by
  unfold back
  by_cases hm : m ≤ i - n
  · rw [if_pos hm, if_pos (by omega), Nat.sub_sub]
  · rw [if_neg hm, if_neg (by omega)]

/-! ## Counts -/

/-- What `state` makes of a byte. -/
def stateByte (b : Byte) : Byte :=
  if (laneMask ((0xe0 - 1 - 0x80 : Byte).slt (b + 0x80))).msb then 0x3 ||| 0xe0
  else if (laneMask ((0xc2 - 1 - 0x80 : Byte).slt (b + 0x80))).msb then 0x2 ||| 0xc0
  else 0x0 ||| 0x80

theorem state_apply (i : Fin 16) : state chunk i = stateByte (chunk i) := rfl

/-- The two lane tests that the block makes on its bytes, in terms of `lead`. -/
theorem lead_cases_byte : ∀ b : Byte, (stateByte b &&& 0x7).toNat = lead b ∧
    laneMask ((0xe0 - 1 - 0x80 : Byte).slt (b + 0x80)) = laneMask (decide (lead b = 3)) := by
  decide +kernel

theorem count_toNat (i : Fin 16) : (count chunk i).toNat = lead (chunk i) := by
  rw [← (lead_cases_byte _).1, ← state_apply]
  rfl

theorem subs_toNat (x y : Byte) : (if y ≤ x then x - y else 0).toNat = x.toNat - y.toNat := by
  split <;> bv_omega

theorem count_sub1_toNat (i : Fin 16) : (count_sub1 chunk i).toNat = extra (chunk i) := by
  rw [count_sub1, mm_subs_epu8, subs_toNat, count_toNat]
  rfl

/-- Moving a register `n` lanes up shows the value of the byte `n` lanes below. -/
theorem toNat_lane_slli {v : Vec} {φ : Byte → ℕ} (hv : ∀ i, (v i).toNat = φ (chunk i))
    (hφ : φ 0 = 0) (n : ℕ) {i : ℕ} (hi : i < 16) :
    (lane (mm_slli_si128 v n) i).toNat = φ (back chunk i n) := by
  rw [lane_slli_si128 v n hi, back]
  split
  · rw [lane_of_lt v (by omega), hv, lane_of_lt chunk (by omega)]
  · rw [hφ]
    rfl

/-- What lane `i` of `counts1` holds. -/
theorem counts1_toNat {i : ℕ} (hi : i < 16) :
    (lane (counts1 chunk) i).toNat = lead (lane chunk i) + extra (back chunk i 1) := by
  have h1 := count_toNat chunk ⟨i, hi⟩
  have h2 := toNat_lane_slli chunk (count_sub1_toNat chunk) extra_zero 1 hi
  have := lead_le (chunk ⟨i, hi⟩)
  have := extra_le (back chunk i 1)
  rw [lane_of_lt _ hi] at h2
  rw [lane_of_lt _ hi, lane_of_lt chunk hi]
  change (count chunk ⟨i, hi⟩ + mm_slli_si128 (count_sub1 chunk) 1 ⟨i, hi⟩).toNat = _
  rw [BitVec.toNat_add, h1, h2]
  omega

/-- The bytes, the byte of lane `i` included, left of the character lane `i` belongs to — where
the bytes are characters. -/
def countAt (i : ℕ) : ℕ :=
  lead (back chunk i 0) + extra (back chunk i 1) +
    (lead (back chunk i 2) + extra (back chunk i 3) - 2)

/-- What lane `i` of `counts` holds. -/
theorem counts_toNat {i : ℕ} (hi : i < 16) : (lane (counts chunk) i).toNat = countAt chunk i := by
  have hsub : ∀ k, (hk : k < 16) → (mm_subs_epu8 (counts1 chunk) (V 0x2) ⟨k, hk⟩).toNat =
      lead (lane chunk k) + extra (back chunk k 1) - 2 := by
    intro k hk
    rw [mm_subs_epu8, subs_toNat, ← counts1_toNat chunk hk, lane_of_lt _ hk]
    rfl
  have hshift : (lane (mm_slli_si128 (mm_subs_epu8 (counts1 chunk) (V 0x2)) 2) i).toNat =
      lead (back chunk i 2) + extra (back chunk i 3) - 2 := by
    rw [lane_slli_si128 _ 2 hi]
    by_cases h2 : 2 ≤ i
    · have hb : back chunk (i - 2) 1 = back chunk i 3 := back_back chunk h2
      have hb2 : lane chunk (i - 2) = back chunk i 2 := by rw [back, if_pos h2]
      rw [if_pos h2, lane_of_lt _ (by omega), hsub, hb, hb2]
    · rw [if_neg h2, back, if_neg h2, back, if_neg (by omega), lead_zero, extra_zero]
      rfl
  have h1 := counts1_toNat chunk hi
  have := lead_le (back chunk i 0)
  have := extra_le (back chunk i 1)
  have := lead_le (back chunk i 2)
  have := extra_le (back chunk i 3)
  rw [lane_of_lt _ hi] at h1 hshift
  rw [lane_of_lt _ hi]
  change (counts1 chunk ⟨i, hi⟩ +
    mm_slli_si128 (mm_subs_epu8 (counts1 chunk) (V 0x2)) 2 ⟨i, hi⟩).toNat = _
  rw [BitVec.toNat_add, h1, hshift, countAt, back_zero] at *
  omega

theorem countAt_le (i : ℕ) : countAt chunk i ≤ 8 := by
  have := lead_le (back chunk i 0)
  have := extra_le (back chunk i 1)
  have := lead_le (back chunk i 2)
  have := extra_le (back chunk i 3)
  rw [countAt]
  omega

/-! ## Shifts before the compaction -/

/-- The trailing bytes announced by the first `n` lanes. -/
def announced (n : ℕ) : ℕ := ∑ k ∈ Finset.range n, extra (lane chunk k)

theorem announced_succ (n : ℕ) :
    announced chunk (n + 1) = announced chunk n + extra (lane chunk n) :=
  Finset.sum_range_succ _ _

theorem announced_mono {i j : ℕ} (h : i ≤ j) : announced chunk i ≤ announced chunk j :=
  Finset.sum_le_sum_of_subset (Finset.range_mono h)

theorem windowSum_extra_le (w i : ℕ) :
    Compaction.windowSum (fun k => extra (lane chunk k)) w i ≤ w * 2 :=
  Compaction.windowSum_le (fun _ => extra_le _) w i

/-- One of the four additions doubles the window. -/
theorem addShifted_toNat {v : Vec} {w : ℕ} (hw : w ≤ 8)
    (hv : ∀ i, i < 16 →
      (lane v i).toNat = Compaction.windowSum (fun k => extra (lane chunk k)) w i)
    {i : ℕ} (hi : i < 16) :
    (lane (addShifted v w) i).toNat =
      Compaction.windowSum (fun k => extra (lane chunk k)) (w + w) i := by
  have h1 := hv i hi
  have hle := windowSum_extra_le chunk w i
  have hle' := windowSum_extra_le chunk w (i - w)
  have h2 : (lane (mm_slli_si128 v w) i).toNat =
      if w ≤ i then Compaction.windowSum (fun k => extra (lane chunk k)) w (i - w) else 0 := by
    rw [lane_slli_si128 v w hi]
    split
    · exact hv _ (by omega)
    · rfl
  rw [Compaction.windowSum_double, ← h1, ← h2]
  rw [lane_of_lt _ hi, lane_of_lt v hi, lane_of_lt _ hi] at *
  change (v ⟨i, hi⟩ + mm_slli_si128 v w ⟨i, hi⟩).toNat = _
  rw [BitVec.toNat_add, Nat.mod_eq_of_lt]
  split at h2 <;> omega

/-- What lane `i` of `shifts` holds once the four additions are done. -/
theorem shifts1_toNat {i : ℕ} (hi : i < 16) :
    (lane (shifts1 chunk) i).toNat = announced chunk (i + 1) := by
  have h0 : ∀ i, i < 16 → (lane (count_sub1 chunk) i).toNat =
      Compaction.windowSum (fun k => extra (lane chunk k)) 1 i := by
    intro i hi
    rw [Compaction.windowSum_one, lane_of_lt _ hi, lane_of_lt chunk hi, count_sub1_toNat]
  have h1 := fun i => addShifted_toNat chunk (i := i) (by omega) h0
  have h2 := fun i => addShifted_toNat chunk (i := i) (by omega) h1
  have h3 := fun i => addShifted_toNat chunk (i := i) (by omega) h2
  have h4 := addShifted_toNat chunk (i := i) (by omega) h3 hi
  rw [announced, ← Compaction.windowSum_of_lt (w := 16) _ hi]
  exact h4

/-- The distance lane `i` carries into the compaction: what it counted if it ends a character,
nothing otherwise. -/
def distance (i : ℕ) : ℕ := if i < 16 ∧ countAt chunk i < 2 then announced chunk (i + 1) else 0

theorem shifts2_toNat (i : ℕ) : (lane (shifts2 chunk) i).toNat = distance chunk i := by
  rcases Nat.lt_or_ge i 16 with hi | hi
  · have hc := counts_toNat chunk hi
    have hle := countAt_le chunk i
    have hs := shifts1_toNat chunk hi
    rw [lane_of_lt _ hi] at hc hs
    have hslt : (counts chunk ⟨i, hi⟩).slt 0x2 = decide (countAt chunk i < 2) := by
      rw [← hc] at hle ⊢
      generalize counts chunk ⟨i, hi⟩ = b at hle
      clear hc hs
      revert b
      decide +kernel
    rw [distance, lane_of_lt _ hi]
    change (shifts1 chunk ⟨i, hi⟩ &&& laneMask ((counts chunk ⟨i, hi⟩).slt 0x2)).toNat = _
    rw [hslt]
    by_cases h2 : countAt chunk i < 2
    · rw [if_pos ⟨hi, h2⟩, decide_eq_true h2, ← hs]
      congr 1
      exact BitVec.and_allOnes
    · rw [if_neg (fun h => h2 h.2), decide_eq_false h2]
      exact congrArg BitVec.toNat BitVec.and_zero
  · rw [lane_of_le _ hi, distance, if_neg (by omega)]
    rfl

/-! ## Compaction -/

/-- One of the four moves is a step of the compaction. -/
theorem pull_toNat {v : Vec} {g : ℕ → ℕ} (hv : ∀ i, (lane v i).toNat = g i) {r : ℕ} (hr : r < 8)
    (i : ℕ) : (lane (pull v (2 ^ r) (7 - r)) i).toNat = Compaction.pullStep r g i := by
  rcases Nat.lt_or_ge i 16 with hi | hi
  · have hbit : (lane (mm_slli_epi16 v (7 - r)) (i + 2 ^ r)).msb = (g (i + 2 ^ r)).testBit r := by
      rw [← hv, BitVec.testBit_toNat]
      rcases Nat.lt_or_ge (i + 2 ^ r) 16 with h16 | h16
      · rw [lane_of_lt _ h16, lane_of_lt _ h16, BitVec.msb_eq_getLsbD_last,
          getLsbD_slli_epi16 v _ (by omega) (by omega)]
        congr 1
        omega
      · rw [lane_of_le _ h16, lane_of_le _ h16]
        simp
    have hlane : mm_srli_si128 (mm_slli_epi16 v (7 - r)) (2 ^ r) ⟨i, hi⟩ =
        lane (mm_slli_epi16 v (7 - r)) (i + 2 ^ r) := rfl
    rw [Compaction.pullStep, lane_of_lt _ hi]
    change (if (mm_srli_si128 (mm_slli_epi16 v (7 - r)) (2 ^ r) ⟨i, hi⟩).msb
      then mm_srli_si128 v (2 ^ r) ⟨i, hi⟩ else v ⟨i, hi⟩).toNat = _
    rw [hlane, hbit, ← hv, ← hv]
    split
    · rfl
    · rw [lane_of_lt v hi]
  · have hzero : ∀ j, 16 ≤ j → g j = 0 := by
      intro j hj
      rw [← hv, lane_of_le _ hj]
      rfl
    rw [lane_of_le _ hi, Compaction.pullStep, hzero i hi, hzero _ (Nat.le_add_right_of_le hi),
      ite_self]
    rfl

/-- What lane `i` of `shifts` holds after the four moves. -/
theorem shifts3_toNat (i : ℕ) :
    (lane (shifts3 chunk) i).toNat = Compaction.pulls (distance chunk) 4 i := by
  have h1 := pull_toNat (shifts2_toNat chunk) (r := 0) (by omega)
  have h2 := pull_toNat h1 (r := 1) (by omega)
  have h3 := pull_toNat h2 (r := 2) (by omega)
  exact pull_toNat h3 (r := 3) (by omega) i

/-! ## The bits of the units -/

/-- What `chunk_bits` makes of a byte: the payload of a byte of a character. -/
def usefulByte (b : Byte) : Byte := ~~~(stateByte b &&& 0xf8) &&& b

theorem lane_chunk_bits (i : ℕ) : lane (chunk_bits chunk) i = usefulByte (lane chunk i) := by
  rcases Nat.lt_or_ge i 16 with hi | hi
  · rw [lane_of_lt _ hi, lane_of_lt _ hi]
    rfl
  · rw [lane_of_le _ hi, lane_of_le _ hi]
    decide

theorem chunk_right_apply (i : Fin 16) : chunk_right chunk i = usefulByte (back chunk i 1) := by
  rw [chunk_right, mm_slli_si128, back]
  split
  · exact lane_chunk_bits chunk _
  · decide

/-- Comparing a lane of `counts` with a small constant. -/
theorem counts_beq (i : Fin 16) {n : ℕ} (hn : n < 256) :
    (counts chunk i == BitVec.ofNat 8 n) = decide (countAt chunk i = n) := by
  have h := counts_toNat chunk i.isLt
  rw [lane_val] at h
  rw [← h, Bool.beq_eq_decide_eq, decide_eq_decide, ← BitVec.toNat_inj, BitVec.toNat_ofNat,
    Nat.mod_eq_of_lt hn]

/-- What lane `i` of `chunk_low` holds. -/
def lowAt (i : ℕ) : Byte :=
  if countAt chunk i = 1 then usefulByte (lane chunk i) ||| usefulByte (back chunk i 1) <<< 6
  else usefulByte (lane chunk i)

theorem lane_chunk_low {i : ℕ} (hi : i < 16) : lane (chunk_low chunk) i = lowAt chunk i := by
  rw [lane_of_lt _ hi]
  change (if (laneMask (counts chunk ⟨i, hi⟩ == BitVec.ofNat 8 1)).msb
    then chunk_bits chunk ⟨i, hi⟩ |||
      (mm_slli_epi16 (chunk_right chunk) 6 ⟨i, hi⟩ &&& (0xFF#8 <<< 6))
    else chunk_bits chunk ⟨i, hi⟩) = _
  rw [counts_beq chunk _ (by omega), slli_epi16_and, chunk_right_apply,
    ← lane_val (chunk_bits chunk), lane_chunk_bits, lowAt]
  by_cases h : countAt chunk i = 1
  · rw [if_pos h, decide_eq_true h]
    rfl
  · rw [if_neg h, decide_eq_false h]
    rfl

/-- What lane `i` of `chunk_high1` holds. -/
theorem lane_chunk_high1 (i : ℕ) (hi : i < 16) :
    lane (chunk_high1 chunk) i =
      if countAt chunk i = 2 then usefulByte (lane chunk i) else 0 := by
  rw [lane_of_lt _ hi]
  change chunk_bits chunk ⟨i, hi⟩ &&& laneMask (counts chunk ⟨i, hi⟩ == BitVec.ofNat 8 2) = _
  rw [counts_beq chunk _ (by omega), ← lane_val (chunk_bits chunk), lane_chunk_bits]
  by_cases h : countAt chunk i = 2
  · rw [if_pos h, decide_eq_true h]
    exact BitVec.and_allOnes
  · rw [if_neg h, decide_eq_false h]
    exact BitVec.and_zero

theorem cond3_apply (i : Fin 16) : cond3 chunk i = laneMask (decide (lead (chunk i) = 3)) :=
  (lead_cases_byte (chunk i)).2

theorem mask3_apply (i : Fin 16) :
    mask3 chunk i = laneMask (decide (lead (back chunk i 1) = 3)) := by
  rw [mask3, mm_slli_si128, back]
  split
  · rw [lane_of_lt _ (by omega), lane_of_lt _ (by omega), cond3_apply]
  · rfl

/-- What lane `i` of `chunk_high2` holds, unless bits of the next lane leak in. -/
def highAt (i : ℕ) : Byte :=
  (if countAt chunk i = 2 then usefulByte (lane chunk i) >>> 2 else 0) |||
    if lead (back chunk i 1) = 3 then usefulByte (back chunk i 1) <<< 4 else 0

theorem lane_chunk_high2 {i : ℕ} (hi : i < 16) (hnext : i + 1 < 16 → countAt chunk (i + 1) ≠ 2) :
    lane (chunk_high2 chunk) i = highAt chunk i := by
  have hzero : lane (chunk_high1 chunk) (i + 1) = 0 := by
    rcases Nat.lt_or_ge (i + 1) 16 with h | h
    · rw [lane_chunk_high1 chunk _ h, if_neg (hnext h)]
    · exact lane_of_le _ h
  rw [lane_of_lt _ hi]
  change mm_srli_epi32 (chunk_high1 chunk) 2 ⟨i, hi⟩ |||
    ((mm_slli_epi32 (chunk_right chunk) 4 ⟨i, hi⟩ &&& (0xFF#8 <<< 4)) &&&
      mask3 chunk ⟨i, hi⟩) = _
  rw [srli_epi32_of_next_zero _ _ (by omega) hzero, slli_epi32_and, chunk_right_apply, mask3_apply,
    ← lane_val (chunk_high1 chunk), lane_chunk_high1 chunk i hi, highAt]
  congr 1
  · split
    · rfl
    · exact BitVec.zero_ushiftRight
  · by_cases h : lead (back chunk i 1) = 3
    · rw [if_pos h, decide_eq_true h]
      exact BitVec.and_allOnes
    · rw [if_neg h, decide_eq_false h]
      exact BitVec.and_zero

/-- The unit that lane `j` holds if it ends a character. -/
def wordAt (j : ℕ) : CodeUnit := (if j = 0 then 0 else highAt chunk (j - 1)) ++ lowAt chunk j

theorem lane_chunk_high {j : ℕ} (hj : j < 16) (hend : countAt chunk j ≠ 2) :
    lane (chunk_high chunk) j = if j = 0 then 0 else highAt chunk (j - 1) := by
  rw [chunk_high, lane_slli_si128 _ 1 hj]
  by_cases h0 : j = 0
  · rw [if_pos h0, if_neg (by omega)]
  · rw [if_neg h0, if_pos (by omega), lane_chunk_high2 chunk (by omega)]
    intro _
    rwa [Nat.sub_add_cancel (by omega)]

/-- The sixteen units of the two stores of a block. -/
def storedUnits : List CodeUnit := units (utf16_low chunk) ++ units (utf16_high chunk)

@[simp] theorem length_units (v : Vec) : (units v).length = 8 := by
  simp [units]

/-- Sixteen units interleaved from two registers, the low bytes first. -/
theorem getElem?_units_unpack (a b : Vec) {k : ℕ} (hk : k < 16) :
    (units (mm_unpacklo_epi8 a b) ++ units (mm_unpackhi_epi8 a b))[k]? =
      some (lane b k ++ lane a k) := by
  rcases Nat.lt_or_ge k 8 with h8 | h8
  · rw [List.getElem?_append_left (by simpa using h8), units, List.getElem?_map,
      List.getElem?_range h8]
    exact congrArg some (word16_unpacklo _ _ h8)
  · rw [List.getElem?_append_right (by simpa using h8), length_units, units, List.getElem?_map,
      List.getElem?_range (by omega)]
    have h := word16_unpackhi a b (k := k - 8) (by omega)
    rw [Nat.add_sub_of_le h8] at h
    exact congrArg some h

/-- A lane of a shuffled register. -/
theorem lane_shuffle_shuf (v : Vec) {k d : ℕ} (hd : Compaction.pulls (distance chunk) 4 k = d)
    (hk : k + d < 16) : lane (mm_shuffle_epi8 v (shuf chunk)) k = lane v (k + d) := by
  have hk16 : k < 16 := by omega
  have hshift : ∀ i : Fin 16, (V_SHUFFLE i).toNat = i := by decide
  have hs := shifts3_toNat chunk k
  rw [hd, lane_of_lt _ hk16] at hs
  have hshuf : (shuf chunk ⟨k, hk16⟩).toNat = k + d := by
    change (shifts3 chunk ⟨k, hk16⟩ + V_SHUFFLE ⟨k, hk16⟩).toNat = _
    rw [BitVec.toNat_add, hs, hshift]
    simp only
    omega
  have hmsb : (shuf chunk ⟨k, hk16⟩).msb = false := by
    rw [BitVec.msb_eq_false_iff_two_mul_lt]
    omega
  have hand : (shuf chunk ⟨k, hk16⟩ &&& 0x0F).toNat = k + d := by
    rw [BitVec.toNat_and, hshuf]
    exact (Nat.and_two_pow_sub_one_eq_mod (k + d) 4).trans (Nat.mod_eq_of_lt hk)
  rw [lane_of_lt _ hk16, mm_shuffle_epi8, hmsb, hand]
  rfl

/-- The unit stored at index `k` is the one lane `k + d` holds, where `d` is what lane `k` carries
out of the compaction. -/
theorem getElem?_storedUnits {k d : ℕ} (hd : Compaction.pulls (distance chunk) 4 k = d)
    (hk : k + d < 16) (hend : countAt chunk (k + d) ≠ 2) :
    (storedUnits chunk)[k]? = some (wordAt chunk (k + d)) := by
  have hhigh := lane_shuffle_shuf chunk (chunk_high chunk) hd hk
  have hlow := lane_shuffle_shuf chunk (chunk_low chunk) hd hk
  rw [lane_chunk_high chunk hk hend] at hhigh
  rw [lane_chunk_low chunk hk] at hlow
  rw [wordAt, ← hhigh, ← hlow]
  exact getElem?_units_unpack _ _ (by omega)

/-! ## Advances -/

theorem src_adv_eq :
    src_adv chunk =
      if (countAt chunk 15).testBit 1 = false then 16
      else if (countAt chunk 14).testBit 1 = false then 15 else 14 := by
  have h15 := counts_toNat chunk (i := 15) (by omega)
  have h14 := counts_toNat chunk (i := 14) (by omega)
  have hbit : ∀ k, k < 16 → (mm_extract_epi16 (counts chunk) 7).getLsbD k =
      (lane (counts chunk) (14 + k / 8)).getLsbD (k % 8) := by
    intro k hk
    rw [mm_extract_epi16, BitVec.getLsbD_setWidth, getLsbD_word16 _ hk]
    simp [show k < 32 by omega]
  have htest : ∀ (x : BitVec 32) (k : ℕ), k < 32 →
      (x &&& BitVec.twoPow 32 k = 0 ↔ x.getLsbD k = false) := by
    intro x k hk
    rw [BitVec.and_twoPow]
    split
    case isTrue h =>
      rw [h]
      have : BitVec.twoPow 32 k ≠ 0 := by
        intro h0
        have := congrArg (fun y : BitVec 32 => y.getLsbD k) h0
        simp [hk] at this
      exact iff_of_false this (by simp)
    case isFalse h => simpa using h
  have h9 := htest (c chunk) 9 (by omega)
  have h1 := htest (c chunk) 1 (by omega)
  rw [c, hbit 9 (by omega), ← BitVec.testBit_toNat, h15] at h9
  rw [c, hbit 1 (by omega), ← BitVec.testBit_toNat, h14] at h1
  rw [src_adv]
  rw [show (0x0200 : BitVec 32) = BitVec.twoPow 32 9 by rfl,
    show (0x02 : BitVec 32) = BitVec.twoPow 32 1 by rfl]
  simp only [c, h9, h1]

/-- The lane `dst_adv` reads. -/
theorem dst_adv_eq :
    dst_adv chunk =
      src_adv chunk - Compaction.pulls (distance chunk) 4 ((src_adv chunk).toNat - 1) := by
  have hlane : ∀ k, k < 4 → ((0xff : BitVec 32) &&& (s chunk).sshiftRight (8 * k)).toNat =
      (lane (shifts3 chunk) (12 + k)).toNat := by
    intro k hk
    have : (0xff : BitVec 32) &&& (s chunk).sshiftRight (8 * k) =
        (lane (shifts3 chunk) (12 + k)).setWidth 32 := by
      ext t ht
      rw [← BitVec.getLsbD_eq_getElem, ← BitVec.getLsbD_eq_getElem, BitVec.getLsbD_and,
        BitVec.getLsbD_sshiftRight, BitVec.getLsbD_setWidth, s, mm_extract_epi32]
      rcases Nat.lt_or_ge t 8 with h8 | h8
      · have hones : (0xff : BitVec 32).getLsbD t = true := by interval_cases t <;> rfl
        rw [hones, getLsbD_word32 _ (by omega), show (8 * k + t) / 8 = k by omega,
          show (8 * k + t) % 8 = t by omega]
        simp [ht, show 8 * k + t < 32 by omega]
      · have hz : (0xff : BitVec 32).getLsbD t = false := by interval_cases t <;> rfl
        rw [hz, BitVec.getLsbD_of_ge _ _ h8]
        simp
    rw [this, BitVec.toNat_setWidth, Nat.mod_eq_of_lt]
    have := (lane (shifts3 chunk) (12 + k)).isLt
    omega
  rw [dst_adv]
  rw [← shifts3_toNat]
  obtain h | h | h := src_adv_cases chunk
  · rw [h]
    exact congrArg (fun n : ℕ => (16 : ℤ) - n) (hlane 3 (by omega))
  · rw [h]
    exact congrArg (fun n : ℕ => (15 : ℤ) - n) (hlane 2 (by omega))
  · rw [h]
    exact congrArg (fun n : ℕ => (14 : ℤ) - n) (hlane 1 (by omega))

/-! ## The last test -/

/-- A UTF-16 unit that is no character. -/
def IsNonCharacter (c : CodeUnit) : Prop := 0xFDD0 ≤ c ∧ c ≤ 0xFDEF ∨ 0xFFFE ≤ c

instance : DecidablePred IsNonCharacter := fun c =>
  inferInstanceAs (Decidable ((0xFDD0 ≤ c ∧ c ≤ 0xFDEF) ∨ 0xFFFE ≤ c))

/-- A comparison with the two ranges looks for a noncharacter. -/
theorem cmpestrc_iff {ranges : Vec} (h0 : word16 ranges 0 = 0xFFFE) (h1 : word16 ranges 1 = 0xFFFF)
    (h2 : word16 ranges 2 = 0xFDD0) (h3 : word16 ranges 3 = 0xFDEF) (v : Vec) :
    mm_cmpestrc_uword_ranges ranges 4 v 8 = true ↔ ∃ u ∈ units v, IsNonCharacter u := by
  have hword : ∀ u : CodeUnit, ((List.range 2).any fun r =>
      decide (word16 ranges (2 * r) ≤ u) && decide (u ≤ word16 ranges (2 * r + 1))) = true ↔
        IsNonCharacter u := by
    intro u
    change (decide (word16 ranges 0 ≤ u) && decide (u ≤ word16 ranges 1) ||
      (decide (word16 ranges 2 ≤ u) && decide (u ≤ word16 ranges 3) || false)) = true ↔ _
    rw [h0, h1, h2, h3, IsNonCharacter, Bool.or_false, Bool.or_eq_true, Bool.and_eq_true,
      Bool.and_eq_true, decide_eq_true_iff, decide_eq_true_iff, decide_eq_true_iff,
      decide_eq_true_iff]
    bv_omega
  rw [mm_cmpestrc_uword_ranges, List.any_eq_true]
  constructor
  · rintro ⟨j, hj, hu⟩
    exact ⟨_, List.mem_map_of_mem hj, (hword _).mp hu⟩
  · rintro ⟨u, hu, hnon⟩
    obtain ⟨j, hj, rfl⟩ := List.mem_map.mp hu
    exact ⟨j, hj, (hword _).mpr hnon⟩

/-- The last test looks at all the units that are stored. -/
theorem nonCharacter_iff : nonCharacter chunk = true ↔
    ∃ u ∈ storedUnits chunk, IsNonCharacter u := by
  have hranges := @cmpestrc_iff (mm_cvtsi64_si128 0xfdeffdd0fffffffe)
    (by decide) (by decide) (by decide) (by decide)
  rw [nonCharacter, Bool.or_eq_true, hranges, hranges, storedUnits]
  constructor
  · rintro (⟨u, hu, hnon⟩ | ⟨u, hu, hnon⟩)
    · exact ⟨u, List.mem_append_right _ hu, hnon⟩
    · exact ⟨u, List.mem_append_left _ hu, hnon⟩
  · rintro ⟨u, hu, hnon⟩
    obtain hlow | hhigh := List.mem_append.mp hu
    · exact .inr ⟨u, hlow, hnon⟩
    · exact .inl ⟨u, hhigh, hnon⟩

/-- A stored unit is what one lane holds, or nothing. -/
theorem mem_storedUnits {u : CodeUnit} (hu : u ∈ storedUnits chunk) :
    u = 0 ∨ ∃ j, j < 16 ∧ u = lane (chunk_high chunk) j ++ lane (chunk_low chunk) j := by
  obtain ⟨k, hk⟩ := List.getElem?_of_mem hu
  have h16 : k < 16 := by
    have := (List.getElem?_eq_some_iff.mp hk).1
    simpa [storedUnits] using this
  rw [storedUnits, utf16_low, utf16_high, getElem?_units_unpack _ _ h16, lane_of_lt _ h16,
    lane_of_lt _ h16] at hk
  obtain rfl := Option.some.inj hk
  unfold mm_shuffle_epi8
  split
  · exact .inl rfl
  · refine .inr ⟨_, ?_, rfl⟩
    rw [BitVec.toNat_and]
    exact Nat.lt_succ_of_le Nat.and_le_right

/-- A block is decoded if it passes the tests before its stores and no lane holds a noncharacter. -/
theorem accepts_of_lanes (hpass : passes chunk = true) (h : ∀ j, j < 16 →
      ¬ IsNonCharacter (lane (chunk_high chunk) j ++ lane (chunk_low chunk) j)) :
    accepts chunk = true := by
  have hnon : ¬ nonCharacter chunk = true := by
    rw [nonCharacter_iff]
    rintro ⟨u, hu, hu'⟩
    obtain rfl | ⟨j, hj, rfl⟩ := mem_storedUnits chunk hu
    · exact absurd hu' (by decide)
    · exact h j hj hu'
  rw [accepts, hpass, Bool.eq_false_iff.mpr hnon]
  rfl

end Native

end HzResearch
