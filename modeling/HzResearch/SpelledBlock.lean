import HzResearch.VectorBlock

/-!
# Blocks that start with characters

Where the first lanes of a block are characters, every lane knows its place: the
counts run down to one inside a character, exactly the lanes that end a character
stay live, and the live lane that ends character `t` has to move down to lane
`t`. `Region` collects this for a range of lanes, and is built one character at a
time, along `Spells`.

`spelled_block` is the result about a block: if its first `src_adv` bytes are
characters that spell `us`, the block stores `us` first and advances `dst` by the
length of `us`.
-/

namespace HzResearch

namespace Native

open Simd Utf8

variable {chunk : Vec}

/-! ## Byte classes -/

theorem lead_cases (b : Byte) : lead b = 0 ∨ lead b = 2 ∨ lead b = 3 := by
  rw [lead]
  split
  · exact .inr (.inr rfl)
  split
  · exact .inr (.inl rfl)
  · exact .inl rfl

theorem lead_of_ascii {a : Byte} (h : a ≤ 0x7F) : lead a = 0 := by
  rw [lead]
  rw [if_neg (by bv_omega), if_neg (by bv_omega)]

theorem lead_of_trails {p k : Byte} (h : Trails p k) : lead k = 0 := by
  have := h.2.1
  rw [lead]
  rw [if_neg (by bv_omega), if_neg (by bv_omega)]

theorem lead_of_lead2 {l : Byte} (h : IsLead2 l) : lead l = 2 := by
  have := h.1
  have := h.2
  rw [lead]
  rw [if_neg (by bv_omega), if_pos (by bv_omega)]

theorem lead_of_lead3 {l : Byte} (h : IsLead3 l) : lead l = 3 := by
  have := h.1
  rw [lead]
  rw [if_pos (by bv_omega)]

/-- The useful bits of the bytes of characters. -/
theorem useful_cases : ∀ b : Byte, (b ≤ 0x7F → usefulByte b = b) ∧
    (0x80 ≤ b → b ≤ 0xC1 → usefulByte b = b &&& 0x7F) ∧
    (IsLead2 b → usefulByte b = b &&& 0x1F) ∧ (IsLead3 b → usefulByte b = b &&& 0x0F) := by
  decide +kernel

theorem useful_ascii {a : Byte} (h : a ≤ 0x7F) : usefulByte a = a := (useful_cases a).1 h

theorem useful_trail {p k : Byte} (h : Trails p k) : usefulByte k = k &&& 0x7F :=
  (useful_cases k).2.1 h.1 h.2.1

theorem useful_lead2 {l : Byte} (h : IsLead2 l) : usefulByte l = l &&& 0x1F :=
  (useful_cases l).2.2.1 h

theorem useful_lead3 {l : Byte} (h : IsLead3 l) : usefulByte l = l &&& 0x0F :=
  (useful_cases l).2.2.2 h

/-- A trailing byte has its bit six set only where the byte before is odd. -/
theorem trails_bit6 {p k : Byte} (h : Trails p k) : k[6] = true → p[0] = true := by
  intro hk
  have hall : ∀ k : Byte, 0x80 ≤ k → k[6] = true → 0xC0 ≤ k := by decide +kernel
  exact h.2.2 (hall k h.1 hk)

/-! ## The units of characters -/

theorem word_one (a : Byte) : (0#8 ++ a : BitVec 16) = oneUnit a := by
  rw [oneUnit, BitVec.setWidth_eq_append (by omega)]
  rfl

theorem word_two {l k : Byte} (h : Trails l k) :
    (((l &&& 0x1F#8) >>> 2 ||| 0#8) ++ (k &&& 0x7F#8 ||| (l &&& 0x1F#8) <<< 6) : BitVec 16) =
      twoUnit l k := by
  have hbit := trails_bit6 h
  ext i hi
  rw [← BitVec.getLsbD_eq_getElem, ← BitVec.getLsbD_eq_getElem]
  simp only [twoUnit, BitVec.getLsbD_append, BitVec.getLsbD_or, BitVec.getLsbD_shiftLeft,
    BitVec.getLsbD_and, BitVec.getLsbD_setWidth, BitVec.getLsbD_ushiftRight]
  interval_cases i <;> simp
  exact hbit

theorem word_three {l m k : Byte} (hm : Trails l m) (hk : Trails m k) :
    (((m &&& 0x7F#8) >>> 2 ||| (l &&& 0x0F#8) <<< 4) ++ (k &&& 0x7F#8 ||| (m &&& 0x7F#8) <<< 6) :
      BitVec 16) = threeUnit l m k := by
  have hbitm := trails_bit6 hm
  have hbitk := trails_bit6 hk
  ext i hi
  rw [← BitVec.getLsbD_eq_getElem, ← BitVec.getLsbD_eq_getElem]
  simp only [threeUnit, BitVec.getLsbD_append, BitVec.getLsbD_or, BitVec.getLsbD_shiftLeft,
    BitVec.getLsbD_and, BitVec.getLsbD_setWidth, BitVec.getLsbD_ushiftRight]
  interval_cases i <;> simp
  · exact hbitk
  · exact hbitm

/-! ## Between two characters -/

theorem back_succ (i n : ℕ) : back chunk (i + 1) (n + 1) = back chunk i n := by
  rw [back]
  rw [Nat.add_sub_add_right]
  congr 1
  simp

/-- No character is open before lane `o`. -/
structure ClosedAt (chunk : Vec) (o : ℕ) : Prop where
  /-- nothing is owed to lane `o` by the lane below -/
  extra1 : extra (back chunk o 1) = 0
  /-- nothing is owed to lane `o` by the lane two below -/
  owed0 : lead (back chunk o 2) + extra (back chunk o 3) ≤ 2
  /-- nothing is owed to lane `o + 1` -/
  owed1 : lead (back chunk o 1) + extra (back chunk o 2) ≤ 2
  /-- lane `o` does not stand behind the second byte of a three-byte character -/
  no3 : lead (back chunk o 2) ≠ 3
  /-- the lane below ends a character -/
  ended : ∀ j, j + 1 = o → countAt chunk j < 2

theorem closedAt_zero (chunk : Vec) : ClosedAt chunk 0 where
  extra1 := rfl
  owed0 := Nat.zero_le 2
  owed1 := Nat.zero_le 2
  no3 := by
    change lead 0 ≠ 3
    decide
  ended := fun j hj => absurd hj (Nat.succ_ne_zero j)

theorem ClosedAt.lead1 {o : ℕ} (h : ClosedAt chunk o) : lead (back chunk o 1) = 0 := by
  have := h.extra1
  obtain h0 | h2 | h3 := lead_cases (back chunk o 1)
  · exact h0
  · rw [extra, h2] at this
    omega
  · rw [extra, h3] at this
    omega

/-- A closed lane counts what its own byte announces. -/
theorem ClosedAt.count {o : ℕ} (h : ClosedAt chunk o) :
    countAt chunk o = lead (lane chunk o) := by
  have := h.extra1
  have := h.owed0
  rw [countAt, back_zero]
  omega

/-- What the lanes of a character that starts at a closed lane count, and that it closes. -/
theorem ClosedAt.one {o : ℕ} (h : ClosedAt chunk o) (ha : lead (lane chunk o) = 0) :
    countAt chunk o = 0 ∧ ClosedAt chunk (o + 1) := by
  have hc : countAt chunk o = 0 := by rw [h.count, ha]
  refine ⟨hc, ?_, ?_, ?_, ?_, fun j hj => ?_⟩
  · rw [back_succ, back_zero, extra, ha]
  · rw [back_succ, back_succ, h.lead1]
    have := extra_le (back chunk o 2)
    omega
  · rw [back_succ, back_succ, back_zero, ha, h.extra1]
    omega
  · rw [back_succ, h.lead1]
    omega
  · obtain rfl : j = o := by omega
    omega

theorem ClosedAt.two {o : ℕ} (h : ClosedAt chunk o) (hl : lead (lane chunk o) = 2)
    (hk : lead (lane chunk (o + 1)) = 0) :
    countAt chunk o = 2 ∧ countAt chunk (o + 1) = 1 ∧ ClosedAt chunk (o + 2) := by
  have hel : extra (lane chunk o) = 1 := by rw [extra, hl]
  have hek : extra (lane chunk (o + 1)) = 0 := by rw [extra, hk]
  have h1 := h.extra1
  have h3 := h.owed1
  have hc0 : countAt chunk o = 2 := by rw [h.count, hl]
  have hc1 : countAt chunk (o + 1) = 1 := by
    rw [countAt, back_succ, back_succ, back_succ, back_zero, back_zero, hk, hel]
    omega
  refine ⟨hc0, hc1, ?_, ?_, ?_, ?_, fun j hj => ?_⟩
  · rw [back_succ, back_zero, hek]
  · rw [back_succ, back_succ, back_succ, back_succ, back_zero, hl, h1]
  · rw [back_succ, back_succ, back_succ, back_zero, back_zero, hk, hel]
    omega
  · rw [back_succ, back_succ, back_zero, hl]
    omega
  · obtain rfl : j = o + 1 := by omega
    omega

theorem ClosedAt.three {o : ℕ} (h : ClosedAt chunk o) (hl : lead (lane chunk o) = 3)
    (hm : lead (lane chunk (o + 1)) = 0) (hk : lead (lane chunk (o + 2)) = 0) :
    countAt chunk o = 3 ∧ countAt chunk (o + 1) = 2 ∧ countAt chunk (o + 2) = 1 ∧
      ClosedAt chunk (o + 3) := by
  have hel : extra (lane chunk o) = 2 := by rw [extra, hl]
  have hem : extra (lane chunk (o + 1)) = 0 := by rw [extra, hm]
  have hek : extra (lane chunk (o + 2)) = 0 := by rw [extra, hk]
  have h1 := h.extra1
  have h3 := h.owed1
  have hc0 : countAt chunk o = 3 := by rw [h.count, hl]
  have hc1 : countAt chunk (o + 1) = 2 := by
    rw [countAt, back_succ, back_succ, back_succ, back_zero, back_zero, hm, hel]
    omega
  have hc2 : countAt chunk (o + 2) = 1 := by
    rw [countAt, back_succ, back_succ, back_succ, back_succ, back_succ, back_zero, back_zero,
      back_zero, hk, hem, hl, h1]
  refine ⟨hc0, hc1, hc2, ?_, ?_, ?_, ?_, fun j hj => ?_⟩
  · rw [back_succ, back_zero, hek]
  · rw [back_succ, back_succ, back_succ, back_succ, back_succ, back_zero, back_zero, hm, hel]
  · rw [back_succ, back_succ, back_succ, back_zero, back_zero, hk, hem]
    omega
  · rw [back_succ, back_succ, back_zero, hm]
    omega
  · obtain rfl : j = o + 2 := by omega
    omega

/-- The high byte of a unit of three bytes, from the lanes of its first two. -/
theorem ClosedAt.highAt_three {o : ℕ} {l m : Byte} (h : ClosedAt chunk o) (h0 : lane chunk o = l)
    (h1 : lane chunk (o + 1) = m) (hl : IsLead3 l) (hm : Trails l m) :
    highAt chunk (o + 1) = (m &&& 0x7F#8) >>> 2 ||| (l &&& 0x0F#8) <<< 4 := by
  have hlead : lead (lane chunk o) = 3 := by rw [h0, lead_of_lead3 hl]
  have hcount : countAt chunk (o + 1) = 2 := by
    have h2 := h.extra1
    have h3 := h.owed1
    rw [countAt, back_succ, back_succ, back_succ, back_zero, back_zero, h1, lead_of_trails hm,
      extra, hlead]
    omega
  rw [highAt, if_pos hcount, back_succ, back_zero, if_pos hlead, h0, h1, useful_lead3 hl,
    useful_trail hm]
  rfl

/-! ## Ranges of lanes that are characters -/

/-- The lanes from `o` up to `m` are the characters number `k` and following, and spell `us`. -/
structure Region (chunk : Vec) (o m k : ℕ) (us : List CodeUnit) : Prop where
  /-- the lanes before the end are the characters and the trailing bytes -/
  total : m = k + us.length + announced chunk m
  /-- a live lane ends one of the characters, and carries the way to that character's index -/
  live : ∀ j, o ≤ j → j < m → countAt chunk j < 2 →
    ∃ t, t < us.length ∧ j = k + t + announced chunk (j + 1)
  /-- live lanes stay in order -/
  order : ∀ j j', o ≤ j → j < j' → j' < m → countAt chunk j < 2 → countAt chunk j' < 2 →
    j + announced chunk (j' + 1) < j' + announced chunk (j + 1)
  /-- every unit is held by the live lane that ends its character -/
  unit : ∀ t u, us[t]? = some u → ∃ j, o ≤ j ∧ j < m ∧ countAt chunk j < 2 ∧
    j = k + t + announced chunk (j + 1) ∧ wordAt chunk j = u

theorem Region.nil {o k : ℕ} (h : o = k + announced chunk o) : Region chunk o o k [] where
  total := h
  live := fun j hj hj' => absurd hj' (by omega)
  order := fun j j' hj hlt hj' => absurd hj' (by omega)
  unit := fun t u h => by simp at h

/-- One more character in front, of `n + 1` bytes. -/
theorem Region.cons {o m k n : ℕ} {u : CodeUnit} {us : List CodeUnit}
    (ho : o = k + announced chunk o) (hdead : ∀ j, o ≤ j → j < o + n → 2 ≤ countAt chunk j)
    (hend : countAt chunk (o + n) < 2)
    (hann : announced chunk (o + n + 1) = announced chunk o + n)
    (hunit : wordAt chunk (o + n) = u) (hle : o + n + 1 ≤ m)
    (h : Region chunk (o + n + 1) m (k + 1) us) : Region chunk o m k (u :: us) where
  total := by
    have := h.total
    rw [List.length_cons]
    omega
  live := by
    intro j hj hjm hc
    rcases Nat.lt_trichotomy j (o + n) with hlt | rfl | hgt
    · have := hdead j hj hlt
      omega
    · exact ⟨0, by simp, by omega⟩
    · obtain ⟨t, ht, htj⟩ := h.live j (by omega) hjm hc
      exact ⟨t + 1, by simpa using ht, by omega⟩
  order := by
    intro j j' hj hlt hjm hc hc'
    rcases Nat.lt_trichotomy j (o + n) with hlt' | rfl | hgt
    · have := hdead j hj hlt'
      omega
    · obtain ⟨t, ht, htj⟩ := h.live j' (by omega) hjm hc'
      omega
    · exact h.order j j' (by omega) hlt hjm hc hc'
  unit := by
    intro t v htv
    cases t with
    | zero =>
      obtain rfl : u = v := by simpa using htv
      exact ⟨o + n, by omega, by omega, hend, by omega, hunit⟩
    | succ t =>
      obtain ⟨j, hj, hjm, hc, hjt, hw⟩ := h.unit t v (by simpa using htv)
      exact ⟨j, by omega, hjm, hc, by omega, hw⟩

/-- A live lane holds one of the units. -/
theorem Region.word_mem {o m k j : ℕ} {us : List CodeUnit} (h : Region chunk o m k us)
    (hj : o ≤ j) (hjm : j < m) (hc : countAt chunk j < 2) : wordAt chunk j ∈ us := by
  obtain ⟨t, ht, hjt⟩ := h.live j hj hjm hc
  obtain ⟨i, hi, him, hic, hit, hw⟩ := h.unit t us[t] (List.getElem?_eq_getElem ht)
  obtain rfl : i = j := by
    rcases Nat.lt_trichotomy i j with hlt | heq | hgt
    · have := h.order i j hi hlt hjm hic hc
      omega
    · exact heq
    · have := h.order j i hj hgt him hc hic
      omega
  rw [hw]
  exact List.getElem_mem ht

/-- Bytes that spell units, found in the lanes from a closed lane on, are such a range. -/
theorem region_of_spells {bs : List Byte} {us : List CodeUnit} (h : Spells bs us) :
    ∀ o k, ClosedAt chunk o → o = k + announced chunk o →
      (∀ i b, bs[i]? = some b → lane chunk (o + i) = b) →
      Region chunk o (o + bs.length) k us ∧ ClosedAt chunk (o + bs.length) := by
  induction h with
  | nil =>
    intro o k hcl ho _
    exact ⟨Region.nil ho, hcl⟩
  | @one a bs us ha _ ih =>
    intro o k hcl ho hb
    have h0 : lane chunk o = a := hb 0 a rfl
    obtain ⟨hc, hcl'⟩ := hcl.one (by rw [h0]; exact lead_of_ascii ha)
    have hann : announced chunk (o + 1) = announced chunk o := by
      rw [announced_succ, h0, extra, lead_of_ascii ha]
      rfl
    obtain ⟨hreg, hend⟩ := ih (o + 1) (k + 1) hcl' (by omega)
      (fun i b hi => by rw [Nat.add_assoc, Nat.add_comm 1 i]; exact hb (i + 1) b hi)
    have hlen : o + (a :: bs).length = o + 1 + bs.length := by
      rw [List.length_cons]
      omega
    rw [hlen]
    refine ⟨Region.cons (n := 0) ho (fun j hj hj' => absurd hj' (by omega))
      (by rw [Nat.add_zero]; omega) hann ?_ (by omega) hreg, hend⟩
    rw [Nat.add_zero]
    -- the high byte is what the last byte before left in its lane: nothing
    have hhigh : (if o = 0 then 0 else highAt chunk (o - 1)) = (0 : Byte) := by
      split
      · rfl
      case isFalse hne =>
        obtain ⟨o, rfl⟩ : ∃ o', o = o' + 1 := ⟨o - 1, by omega⟩
        have hcount := hcl.ended o rfl
        have hno3 := hcl.no3
        rw [back_succ] at hno3
        rw [Nat.add_sub_cancel, highAt, if_neg (by omega), if_neg hno3]
        rfl
    have hlow : lowAt chunk o = a := by
      rw [lowAt, if_neg (by omega), h0, useful_ascii ha]
    rw [wordAt, hhigh, hlow]
    exact word_one a
  | @two l k' bs us hl hk _ ih =>
    intro o k hcl ho hb
    have h0 : lane chunk o = l := hb 0 l rfl
    have h1 : lane chunk (o + 1) = k' := hb 1 k' rfl
    obtain ⟨hc0, hc1, hcl'⟩ := hcl.two (by rw [h0]; exact lead_of_lead2 hl)
      (by rw [h1]; exact lead_of_trails hk)
    have hann : announced chunk (o + 2) = announced chunk o + 1 := by
      rw [announced_succ chunk (o + 1), announced_succ, h0, h1, extra, extra, lead_of_lead2 hl,
        lead_of_trails hk]
    obtain ⟨hreg, hend⟩ := ih (o + 2) (k + 1) hcl' (by omega)
      (fun i b hi => by rw [Nat.add_assoc, Nat.add_comm 2 i]; exact hb (i + 2) b hi)
    have hlen : o + (l :: k' :: bs).length = o + 2 + bs.length := by
      rw [List.length_cons, List.length_cons]
      omega
    rw [hlen]
    refine ⟨Region.cons (n := 1) ho (fun j hj hj' => ?_) (by omega) hann ?_ (by omega) hreg, hend⟩
    · obtain rfl : j = o := by omega
      omega
    -- the high byte is what the lead leaves in its own lane
    · have hhigh : highAt chunk o = (l &&& 0x1F#8) >>> 2 ||| 0#8 := by
        rw [highAt, if_pos hc0, if_neg (by rw [hcl.lead1]; omega), h0, useful_lead2 hl]
        rfl
      have hlow : lowAt chunk (o + 1) = k' &&& 0x7F#8 ||| (l &&& 0x1F#8) <<< 6 := by
        rw [lowAt, if_pos hc1, back_succ, back_zero, h0, h1, useful_lead2 hl, useful_trail hk]
        rfl
      rw [wordAt, if_neg (by omega), Nat.add_sub_cancel, hhigh, hlow]
      exact word_two hk
  | @three l m k' bs us hl hm hk _ ih =>
    intro o k hcl ho hb
    have h0 : lane chunk o = l := hb 0 l rfl
    have h1 : lane chunk (o + 1) = m := hb 1 m rfl
    have h2 : lane chunk (o + 2) = k' := hb 2 k' rfl
    obtain ⟨hc0, hc1, hc2, hcl'⟩ := hcl.three (by rw [h0]; exact lead_of_lead3 hl)
      (by rw [h1]; exact lead_of_trails hm) (by rw [h2]; exact lead_of_trails hk)
    have hann : announced chunk (o + 3) = announced chunk o + 2 := by
      rw [announced_succ chunk (o + 2), announced_succ chunk (o + 1), announced_succ, h0, h1, h2,
        extra, extra, extra, lead_of_lead3 hl, lead_of_trails hm, lead_of_trails hk]
    obtain ⟨hreg, hend⟩ := ih (o + 3) (k + 1) hcl' (by omega)
      (fun i b hi => by rw [Nat.add_assoc, Nat.add_comm 3 i]; exact hb (i + 3) b hi)
    have hlen : o + (l :: m :: k' :: bs).length = o + 3 + bs.length := by
      rw [List.length_cons, List.length_cons, List.length_cons]
      omega
    rw [hlen]
    refine ⟨Region.cons (n := 2) ho (fun j hj hj' => ?_) (by omega) hann ?_ (by omega) hreg, hend⟩
    · obtain rfl | rfl : j = o ∨ j = o + 1 := by omega
      · omega
      · omega
    -- the high byte is made of the lead and the byte in the middle
    · have hhigh := hcl.highAt_three h0 h1 hl hm
      have hlow : lowAt chunk (o + 2) = k' &&& 0x7F#8 ||| (m &&& 0x7F#8) <<< 6 := by
        rw [lowAt, if_pos hc2, back_succ, back_zero, h1, h2, useful_trail hm, useful_trail hk]
        rfl
      rw [wordAt, if_neg (by omega), show o + 2 - 1 = o + 1 by omega, hhigh, hlow]
      exact word_three hm hk

/-! ## The block -/

/-- The bytes of a register. -/
def bytes (chunk : Vec) : List Byte := List.ofFn chunk

theorem getElem?_bytes {i : ℕ} (hi : i < 16) : (bytes chunk)[i]? = some (lane chunk i) := by
  rw [bytes, List.getElem?_ofFn, dif_pos hi, lane_of_lt _ hi]

/-- The lanes from `src_adv` on carry nothing into the compaction. -/
theorem distance_of_src_adv_le {j : ℕ} (h : src_adv chunk ≤ j) : distance chunk j = 0 := by
  rw [distance, if_neg]
  rintro ⟨hj, hc⟩
  have hbit : ∀ n, n < 2 → n.testBit 1 = false := by decide
  rw [src_adv_eq] at h
  split at h
  case isTrue => omega
  case isFalse h15 =>
    split at h
    case isTrue =>
      obtain rfl : j = 15 := by omega
      exact h15 (hbit _ hc)
    case isFalse h14 =>
      obtain rfl | rfl : j = 14 ∨ j = 15 := by omega
      · exact h14 (hbit _ hc)
      · exact h15 (hbit _ hc)

/-- How far `dst` advances: the lane that is read carries what it carried into the compaction. -/
theorem dst_adv_eq_sub (chunk : Vec) :
    dst_adv chunk = src_adv chunk - distance chunk ((src_adv chunk).toNat - 1) := by
  rw [dst_adv_eq, (Compaction.pulls_of_zero_above (fun j hj => distance_of_src_adv_le ?_) 4).1]
  have := src_adv_cases chunk
  omega

/-- **A block that starts with characters** stores the units they spell and advances by their
number, whatever the lanes behind them hold. -/
theorem spelled_block {us : List CodeUnit}
    (h : Spells ((bytes chunk).take (src_adv chunk).toNat) us) :
    dst_adv chunk = us.length ∧ (storedUnits chunk).take us.length = us := by
  obtain ⟨m, hm⟩ : ∃ m : ℕ, src_adv chunk = m := ⟨(src_adv chunk).toNat, by
    have := src_adv_cases chunk
    omega⟩
  have hm16 : m ≤ 16 ∧ 14 ≤ m := by
    have := src_adv_cases chunk
    omega
  rw [hm, Int.toNat_natCast] at h
  have hlen : ((bytes chunk).take m).length = m := by
    simp [bytes]
    omega
  obtain ⟨hreg, hclosed⟩ := region_of_spells h 0 0 (closedAt_zero chunk) rfl (by
    intro i b hb
    have hi : i < m := by
      have := (List.getElem?_eq_some_iff.mp hb).1
      omega
    rw [List.getElem?_take_of_lt hi, getElem?_bytes (by omega)] at hb
    rw [Nat.zero_add]
    exact Option.some.inj hb)
  rw [hlen, Nat.zero_add] at hreg hclosed
  -- exactly the lanes that end a character are live
  have hcomp : Compaction.Compactible (fun j => j < m ∧ countAt chunk j < 2) (distance chunk) := by
    have hdist : ∀ j, j < m → countAt chunk j < 2 → distance chunk j = announced chunk (j + 1) := by
      intro j hj hc
      rw [distance, if_pos ⟨by omega, hc⟩]
    refine ⟨fun j hj => ?_, fun j hj => ?_, fun j j' hj hj' hlt => ?_, fun j j' hj hj' hlt => ?_⟩
    · by_cases hjm : j < m
      · rw [distance, if_neg fun hc => hj ⟨hjm, hc.2⟩]
      · exact distance_of_src_adv_le (by omega)
    · obtain ⟨t, -, ht⟩ := hreg.live j (by omega) hj.1 hj.2
      rw [hdist j hj.1 hj.2]
      omega
    · rw [hdist j hj.1 hj.2, hdist j' hj'.1 hj'.2]
      exact announced_mono chunk (by omega)
    · have hord := hreg.order j j' (by omega) hlt hj'.1 hj.2 hj'.2
      obtain ⟨t, -, ht⟩ := hreg.live j (by omega) hj.1 hj.2
      obtain ⟨t', -, ht'⟩ := hreg.live j' (by omega) hj'.1 hj'.2
      rw [hdist j hj.1 hj.2, hdist j' hj'.1 hj'.2]
      omega
  constructor
  -- the last lane of the block tells how far the block has moved
  · have htotal := hreg.total
    have hlast : countAt chunk (m - 1) < 2 := hclosed.ended (m - 1) (by omega)
    rw [dst_adv_eq_sub, hm, Int.toNat_natCast, distance, if_pos ⟨by omega, hlast⟩,
      Nat.sub_add_cancel (by omega)]
    omega
  · have hus : us.length ≤ 16 := by
      have := hreg.total
      omega
    -- the unit `t` is pulled from the lane that ends its character
    apply List.ext_getElem?
    intro t
    rcases Nat.lt_or_ge t us.length with ht | ht
    · rw [List.getElem?_take_of_lt ht]
      obtain ⟨j, -, hjm, hc, hjt, hw⟩ := hreg.unit t us[t] (List.getElem?_eq_getElem ht)
      have hdist : distance chunk j = announced chunk (j + 1) := by
        rw [distance, if_pos ⟨by omega, hc⟩]
      have hpull := hcomp.pulls_destination ⟨hjm, hc⟩ (r := 4) (by omega)
      rw [hdist, show j - announced chunk (j + 1) = t by omega] at hpull
      have hstored := getElem?_storedUnits chunk hpull (by omega)
        (by rw [show t + announced chunk (j + 1) = j by omega]; omega)
      rw [hstored, List.getElem?_eq_getElem ht, show t + announced chunk (j + 1) = j by omega, hw]
    · rw [List.getElem?_eq_none ht, List.getElem?_eq_none]
      rw [List.length_take]
      omega

theorem lane_of_bytes {bs : List Byte} (hb : bytes chunk = bs.take 16) {i : ℕ} {b : Byte}
    (hi : bs[i]? = some b) (h16 : i < 16) : lane chunk i = b := by
  have hlane : (bytes chunk)[i]? = some (lane chunk i) := getElem?_bytes h16
  rw [hb, List.getElem?_take_of_lt h16, hi] at hlane
  exact (Option.some.inj hlane).symm

/-- The characters a block starts with are a range, and behind them it is closed. -/
theorem region_of_block {bs more : List Byte} {us : List CodeUnit} (h : Spells bs us)
    (hle : bs.length ≤ 16) (hb : bytes chunk = (bs ++ more).take 16) :
    Region chunk 0 bs.length 0 us ∧ ClosedAt chunk bs.length := by
  have hlanes : ∀ i b, bs[i]? = some b → lane chunk (0 + i) = b := by
    intro i b hi
    have hlt := (List.getElem?_eq_some_iff.mp hi).1
    rw [Nat.zero_add]
    exact lane_of_bytes hb (by rw [List.getElem?_append_left hlt, hi]) (by omega)
  have hregion := region_of_spells h 0 0 (closedAt_zero chunk) rfl hlanes
  rwa [Nat.zero_add] at hregion

theorem closedAt_of_spells {bs more : List Byte} {us : List CodeUnit} (h : Spells bs us)
    (hle : bs.length ≤ 16) (hb : bytes chunk = (bs ++ more).take 16) :
    ClosedAt chunk bs.length :=
  (region_of_block h hle hb).2

/-- A count below two has no bit one. -/
theorem ClosedAt.testBit_ended {o j : ℕ} (h : ClosedAt chunk o) (hj : j + 1 = o) :
    (countAt chunk j).testBit 1 = false := by
  have hbit : ∀ n, n < 2 → n.testBit 1 = false := by decide
  exact hbit _ (h.ended j hj)

/-- A block that starts with characters is read at least up to their end. -/
theorem le_src_adv_of_spells {bs more : List Byte} {us : List CodeUnit} (h : Spells bs us)
    (hle : bs.length ≤ 16) (hb : bytes chunk = (bs ++ more).take 16) :
    bs.length ≤ src_adv chunk := by
  have hclosed := closedAt_of_spells h hle hb
  rw [src_adv_eq]
  by_cases h16 : bs.length = 16
  · rw [if_pos (hclosed.testBit_ended (by omega))]
    omega
  by_cases h15 : bs.length = 15
  · rw [if_pos (hclosed.testBit_ended (j := 14) (by omega))]
    split <;> omega
  · split
    · omega
    split <;> omega

/-- The lanes of a character that goes on behind the block count two or three. -/
theorem countAt_of_straddles {bs₁ bs₂ : List Byte} {us₁ : List CodeUnit} (h : Spells bs₁ us₁)
    (hcut : Straddles 16 bs₁.length bs₂) (hb : bytes chunk = (bs₁ ++ bs₂).take 16) {j : ℕ}
    (hj : bs₁.length ≤ j) (h16 : j < 16) : countAt chunk j = 2 ∨ countAt chunk j = 3 := by
  have hclosed := closedAt_of_spells h hcut.le hb
  have hbehind : ∀ i b, bs₂[i]? = some b → bs₁.length + i < 16 →
      lane chunk (bs₁.length + i) = b := by
    intro i b hi hlt
    exact lane_of_bytes hb
      (by rw [List.getElem?_append_right (by omega), Nat.add_sub_cancel_left, hi]) hlt
  generalize bs₁.length = m at *
  cases hcut with
  | none => exact absurd h16 (by omega)
  | one hm hl =>
    obtain rfl : m = j := by omega
    have hcount := hclosed.count
    rw [show lane chunk m = _ from hbehind 0 _ rfl (by omega)] at hcount
    exact hl.imp (fun h2 => by rw [hcount, lead_of_lead2 h2])
      fun h3 => by rw [hcount, lead_of_lead3 h3]
  | two hm hl hk =>
    obtain rfl : m = 14 := by omega
    have hc := hclosed.three (by rw [hbehind 0 _ rfl (by omega)]; exact lead_of_lead3 hl)
      (by rw [hbehind 1 _ rfl (by omega)]; exact lead_of_trails hk)
      (by rw [lane_of_le _ (by omega), lead_zero])
    obtain rfl | rfl : j = 14 ∨ j = 15 := by omega
    · exact .inr hc.1
    · exact .inl hc.2.1

/-- A block that starts with characters is read up to the last of them that ends in it. -/
theorem src_adv_of_spells {bs₁ bs₂ : List Byte} {us₁ : List CodeUnit} (h : Spells bs₁ us₁)
    (hcut : Straddles 16 bs₁.length bs₂) (hb : bytes chunk = (bs₁ ++ bs₂).take 16) :
    src_adv chunk = bs₁.length := by
  have hclosed := closedAt_of_spells h hcut.le hb
  -- the counts two and three of lanes inside a character have bit one
  have hopen : ∀ j, bs₁.length ≤ j → j < 16 → (countAt chunk j).testBit 1 ≠ false := by
    intro j hj h16
    rcases countAt_of_straddles h hcut hb hj h16 with hc | hc <;> rw [hc] <;> decide
  have hm : bs₁.length = 16 ∨ bs₁.length = 15 ∨ bs₁.length = 14 := hcut.length_cases
  rw [src_adv_eq]
  rcases hm with hm | hm | hm <;> rw [hm] at hclosed hopen ⊢
  · rw [if_pos (hclosed.testBit_ended rfl)]
    rfl
  · rw [if_neg (hopen 15 (by omega) (by omega)), if_pos (hclosed.testBit_ended rfl)]
    rfl
  · rw [if_neg (hopen 15 (by omega) (by omega)), if_neg (hopen 14 (by omega) (by omega))]
    rfl

end Native

end HzResearch
