import HzResearch.VectorLoop

/-!
# Blocks of encoded text

On bytes that `encode` has made every lane of a block belongs to a character of
the text, also where the last character goes on behind the block, and the tests
of a block say something about the text: the counts are in order
(`LaneFacts`), the test on `high_bits` finds the surrogates of which at least
two bytes are in the block (`badHighBits_iff_surrogate`), and the test on the
stored units finds the noncharacters among the complete characters, whatever the
lanes behind them hold (`nonCharacter_iff_mem`).

`vectorStep_encoded` is the result about one turn: when it leaves the loop, and
that in every other case it decodes just the complete characters of the block.
-/

namespace HzResearch

namespace Native

open Simd Utf8

variable {source : List Byte} {s : Cursors} {chunk : Vec}

/-! ## The lanes of a character -/

/-- What the tests need to know about a lane that belongs to a character. -/
structure LaneFacts (chunk : Vec) (j : ℕ) : Prop where
  /-- its byte is none that the block leaves to the scalar loop -/
  le_lead : lane chunk j ≤ 0xEF
  /-- it counts something exactly if its byte is not ASCII -/
  counted : (lane chunk j).msb = true ↔ 0 < countAt chunk j
  /-- the count falls by at most one -/
  drop : ∀ i, i + 1 = j → countAt chunk i ≤ countAt chunk j + 1
  /-- only lanes inside a character follow one that counts two, or the lead of three bytes -/
  inside : 2 ≤ countAt chunk j → ∀ i, i + 1 = j → countAt chunk i ≠ 2 ∧ lead (back chunk i 1) ≠ 3

/-- The bytes `bs` stand in the lanes from `o` on, as far as there are such lanes. -/
def StandsAt (chunk : Vec) (o : ℕ) (bs : List Byte) : Prop :=
  ∀ i b, bs[i]? = some b → o + i < 16 → lane chunk (o + i) = b

theorem StandsAt.first {o : ℕ} {b : Byte} {bs : List Byte} (h : StandsAt chunk o (b :: bs))
    (ho : o < 16) : lane chunk o = b :=
  h 0 b rfl ho

/-- A byte that continues a character announces nothing, wherever it stands. -/
theorem StandsAt.lead_trail {o i : ℕ} {bs : List Byte} {p k : Byte} (h : StandsAt chunk o bs)
    (hk : Trails p k) (hi : bs[i]? = some k) : lead (lane chunk (o + i)) = 0 := by
  rcases Nat.lt_or_ge (o + i) 16 with hlt | hge
  · rw [h i k hi hlt]
    exact lead_of_trails hk
  · rw [lane_of_le _ hge, lead_zero]

theorem msb_of_trails {p k : Byte} (h : Trails p k) : k ≤ 0xEF ∧ k.msb = true := by
  have := h.1
  have := h.2.1
  refine ⟨by bv_omega, ?_⟩
  rw [BitVec.msb_eq_true_iff_two_mul_ge]
  bv_omega

theorem msb_of_lead {l : Byte} (h : IsLead2 l ∨ IsLead3 l) : l ≤ 0xEF ∧ l.msb = true := by
  have hl : 0xC2 ≤ l ∧ l ≤ 0xEF := by
    obtain ⟨h1, h2⟩ | ⟨h1, h2⟩ := h
    · exact ⟨h1, by bv_omega⟩
    · exact ⟨by bv_omega, h2⟩
  have := hl.1
  refine ⟨hl.2, ?_⟩
  rw [BitVec.msb_eq_true_iff_two_mul_ge]
  bv_omega

theorem msb_of_ascii {a : Byte} (h : a ≤ 0x7F) : a ≤ 0xEF ∧ a.msb = false := by
  refine ⟨by bv_omega, ?_⟩
  rw [BitVec.msb_eq_false_iff_two_mul_lt]
  bv_omega

/-- The facts of the first lane of a character. -/
theorem ClosedAt.laneFacts {o : ℕ} (h : ClosedAt chunk o) (hle : lane chunk o ≤ 0xEF)
    (hcount : (lane chunk o).msb = true ↔ 0 < countAt chunk o) : LaneFacts chunk o where
  le_lead := hle
  counted := hcount
  drop := by
    intro i hi
    have := h.ended i hi
    omega
  inside := by
    rintro - i rfl
    have hended := h.ended i rfl
    have hno3 := h.no3
    rw [back_succ] at hno3
    exact ⟨by omega, hno3⟩

/-- The facts of a lane further into a character. -/
theorem LaneFacts.of_trail {i : ℕ} {p : Byte} (hk : Trails p (lane chunk (i + 1)))
    (hcount : 0 < countAt chunk (i + 1)) (hdrop : countAt chunk i ≤ countAt chunk (i + 1) + 1)
    (hinside : 2 ≤ countAt chunk (i + 1) → countAt chunk i ≠ 2 ∧ lead (back chunk i 1) ≠ 3) :
    LaneFacts chunk (i + 1) where
  le_lead := (msb_of_trails hk).1
  counted := iff_of_true (msb_of_trails hk).2 hcount
  drop := by
    rintro i' hi
    cases hi
    exact hdrop
  inside := by
    rintro h i' hi
    cases hi
    exact hinside h

/-- The facts of the lanes of a character that starts at a closed lane. -/
theorem ClosedAt.laneFacts_of_spelling {o : ℕ} {c : CodeUnit} {bs : List Byte}
    (h : ClosedAt chunk o) (hc : Spelling c bs) (hbs : StandsAt chunk o bs) {j : ℕ} (hoj : o ≤ j)
    (hj : j < o + bs.length) (h16 : j < 16) : LaneFacts chunk j := by
  cases hc with
  | @one a ha =>
    obtain rfl : j = o := by
      rw [List.length_singleton] at hj
      omega
    have h0 : lane chunk j = a := hbs.first h16
    have hcount := (h.one (by rw [h0]; exact lead_of_ascii ha)).1
    refine h.laneFacts ?_ ?_
    · rw [h0]
      exact (msb_of_ascii ha).1
    · rw [h0, (msb_of_ascii ha).2, hcount]
      simp
  | @two l k hl hk =>
    have h0 : lane chunk o = l := hbs.first (by omega)
    obtain ⟨hc0, hc1, -⟩ := h.two (by rw [h0]; exact lead_of_lead2 hl)
      (hbs.lead_trail (i := 1) hk rfl)
    obtain rfl | rfl : j = o ∨ j = o + 1 := by
      rw [List.length_cons, List.length_singleton] at hj
      omega
    · have hmsb := msb_of_lead (.inl hl)
      rw [← h0] at hmsb
      exact h.laneFacts hmsb.1 (iff_of_true hmsb.2 (by omega))
    · have h1 : lane chunk (o + 1) = k := hbs 1 k rfl h16
      rw [← h1] at hk
      exact .of_trail hk (by omega) (by omega) (by omega)
  | @three l m k hl hm hk =>
    have h0 : lane chunk o = l := hbs.first (by omega)
    obtain ⟨hc0, hc1, hc2, -⟩ := h.three (by rw [h0]; exact lead_of_lead3 hl)
      (hbs.lead_trail (i := 1) hm rfl) (hbs.lead_trail (i := 2) hk rfl)
    obtain rfl | rfl | rfl : j = o ∨ j = o + 1 ∨ j = o + 2 := by
      rw [List.length_cons, List.length_cons, List.length_singleton] at hj
      omega
    · have hmsb := msb_of_lead (.inr hl)
      rw [← h0] at hmsb
      exact h.laneFacts hmsb.1 (iff_of_true hmsb.2 (by omega))
    -- the byte in the middle is counted twice; the lead stands right before it
    · have h1 : lane chunk (o + 1) = m := hbs 1 m rfl h16
      rw [← h1] at hm
      refine .of_trail hm (by omega) (by omega) fun _ => ⟨by omega, ?_⟩
      rw [h.lead1]
      omega
    · have h2 : lane chunk (o + 2) = k := hbs 2 k rfl h16
      rw [← h2] at hk
      change countAt chunk (o + 1 + 1) = 1 at hc2
      exact .of_trail (i := o + 1) hk (by omega) (by omega) (by omega)

/-! ## The characters of a text -/

/-- The byte `j` of an encoded text belongs to one of its units. -/
theorem exists_unit_of_lt (t : List CodeUnit) {j : ℕ} (hj : j < (encode t).length) :
    ∃ a c b, t = a ++ c :: b ∧ (encode a).length ≤ j ∧
      j < (encode a).length + (encodeUnit c).length := by
  induction t generalizing j with
  | nil => exact absurd hj (Nat.not_lt_zero j)
  | cons c t ih =>
    rw [encode_cons, List.length_append] at hj
    rcases Nat.lt_or_ge j (encodeUnit c).length with hlt | hge
    · exact ⟨[], c, t, rfl, Nat.zero_le j, by simpa using hlt⟩
    · obtain ⟨a, c', b, rfl, hle, hlt⟩ := ih (j := j - (encodeUnit c).length) (by omega)
      refine ⟨c :: a, c', b, rfl, ?_, ?_⟩
      · rw [encode_cons, List.length_append]
        omega
      · rw [encode_cons, List.length_append]
        omega

section Text

variable {t : List CodeUnit} (hb : bytes chunk = (encode t).take 16)

include hb

/-- There is text for all the lanes of the block. -/
theorem length_text : 16 ≤ (encode t).length := by
  have hlen := congrArg List.length hb
  rw [bytes, List.length_ofFn, List.length_take] at hlen
  omega

/-- A unit of the text starts at a closed lane, and its bytes stand there. -/
theorem unit_stands {a b : List CodeUnit} {c : CodeUnit} (ht : t = a ++ c :: b)
    (hle : (encode a).length ≤ 16) :
    ClosedAt chunk (encode a).length ∧ StandsAt chunk (encode a).length (encodeUnit c) := by
  subst ht
  rw [encode_append] at hb
  refine ⟨closedAt_of_spells (spells_encode a) hle hb, fun i k hk h16 => ?_⟩
  refine lane_of_bytes hb ?_ h16
  rw [List.getElem?_append_right (by omega), Nat.add_sub_cancel_left, encode_cons,
    List.getElem?_append_left (List.getElem?_eq_some_iff.mp hk).1, hk]

theorem laneFacts_of_encode {j : ℕ} (hj : j < 16) : LaneFacts chunk j := by
  have hlen := length_text hb
  obtain ⟨a, c, b, ht, hle, hlt⟩ := exists_unit_of_lt t (j := j) (by omega)
  obtain ⟨hclosed, hstands⟩ := unit_stands hb ht (by omega)
  exact hclosed.laneFacts_of_spelling (spelling_encodeUnit c) hstands hle hlt hj

end Text

/-! ## The tests on the counts -/

theorem msb_laneMask (p : Bool) : (laneMask p).msb = p := by
  cases p <;> rfl

/-- The first three tests let a block pass whose lanes all belong to characters. -/
theorem cond4_of_laneFacts (h : ∀ j, j < 16 → LaneFacts chunk j) :
    mm_movemask_epi8 (cond4 chunk) = 0 := by
  rw [movemask_eq_zero_iff]
  intro i
  have hle := (h i i.isLt).le_lead
  rw [lane_val] at hle
  change (laneMask ((0xf0 - 1 - 0x80 : Byte).slt (chunk i + 0x80))).msb = false
  rw [msb_laneMask]
  generalize chunk i = b at hle
  revert b
  decide +kernel

theorem asciiMismatch_of_laneFacts (h : ∀ j, j < 16 → LaneFacts chunk j) :
    asciiMismatch chunk = false := by
  have hmask : mm_movemask_epi8 chunk = mm_movemask_epi8 (mm_cmpgt_epi8 (counts chunk) V_ZERO) := by
    rw [movemask_eq_iff]
    intro i
    have hcounted := (h i i.isLt).counted
    have hle := countAt_le chunk i
    rw [lane_val, ← counts_toNat chunk i.isLt, lane_val] at *
    change (chunk i).msb = (laneMask ((0 : Byte).slt (counts chunk i))).msb
    rw [msb_laneMask]
    have hslt : ∀ b : Byte, b.toNat ≤ 8 → ((0 : Byte).slt b = true ↔ 0 < b.toNat) := by
      decide +kernel
    rw [Bool.eq_iff_iff, hcounted, hslt _ hle]
  rw [asciiMismatch, hmask, BitVec.xor_self]
  rfl

theorem countsDrop_of_laneFacts (h : ∀ j, j < 16 → LaneFacts chunk j) :
    countsDrop chunk = false := by
  have hzero : mm_movemask_epi8 (mm_cmpgt_epi8
      (mm_sub_epi8 (mm_slli_si128 (counts chunk) 1) (counts chunk)) (V 1)) = 0 := by
    rw [movemask_eq_zero_iff]
    intro i
    have hcount := counts_toNat chunk i.isLt
    have hbelow : (mm_slli_si128 (counts chunk) 1 i).toNat ≤ 8 ∧
        (mm_slli_si128 (counts chunk) 1 i).toNat ≤ (counts chunk i).toNat + 1 := by
      rw [lane_val] at hcount
      rw [← lane_val (mm_slli_si128 (counts chunk) 1), lane_slli_si128 _ 1 i.isLt, hcount]
      split
      case isFalse => exact ⟨Nat.zero_le 8, Nat.zero_le _⟩
      case isTrue h1 =>
        rw [counts_toNat chunk (by omega)]
        exact ⟨countAt_le chunk _, (h i i.isLt).drop (i - 1) (Nat.sub_add_cancel h1)⟩
    -- counts are small, so the signed comparison is one of numbers
    have hslt : ∀ x y : Byte, x.toNat ≤ 8 → y.toNat ≤ 8 → x.toNat ≤ y.toNat + 1 →
        (1 : Byte).slt (x - y) = false := by
      intro x y hx hy
      have hall : ∀ n m : Fin 9, n.val ≤ m.val + 1 →
          (1 : Byte).slt (BitVec.ofNat 8 n - BitVec.ofNat 8 m) = false := by decide
      intro hle
      have := hall ⟨x.toNat, by omega⟩ ⟨y.toNat, by omega⟩ hle
      simpa using this
    rw [lane_val] at hcount
    change (laneMask ((1 : Byte).slt
      (mm_slli_si128 (counts chunk) 1 i - counts chunk i))).msb = false
    rw [msb_laneMask]
    exact hslt _ _ hbelow.1 (hcount ▸ countAt_le chunk i) hbelow.2
  rw [countsDrop, hzero]
  rfl

/-! ## The test on the high bits -/

/-- A UTF-16 surrogate. -/
def IsSurrogate (c : CodeUnit) : Prop := 0xD800 ≤ c ∧ c ≤ 0xDFFF

instance : DecidablePred IsSurrogate := fun c =>
  inferInstanceAs (Decidable (0xD800 ≤ c ∧ c ≤ 0xDFFF))

/-- The high byte of a unit. -/
def highByte (c : CodeUnit) : Byte := (c >>> 8).setWidth 8

theorem highByte_append (x y : Byte) : highByte (x ++ y) = x := by
  ext i hi
  rw [← BitVec.getLsbD_eq_getElem, ← BitVec.getLsbD_eq_getElem, highByte, BitVec.getLsbD_setWidth,
    BitVec.getLsbD_ushiftRight, BitVec.getLsbD_append, if_neg (by omega), Nat.add_sub_cancel_left,
    decide_eq_true hi, Bool.true_and]

theorem toNat_highByte (c : CodeUnit) : (highByte c).toNat = c.toNat / 256 := by
  have := c.isLt
  rw [highByte, BitVec.toNat_setWidth, BitVec.toNat_ushiftRight, Nat.shiftRight_eq_div_pow]
  omega

/-- What the two comparisons of the test say of a high byte. -/
theorem high_bits_cases : ∀ h : Byte, (h &&& 0xF8 = 0 ↔ h < 8) ∧
    (h &&& 0xF8 = 0xD8 ↔ 0xD8 ≤ h ∧ h ≤ 0xDF) := by
  decide +kernel

theorem highByte_and_eq_zero (c : CodeUnit) : highByte c &&& 0xF8 = 0 ↔ c ≤ 0x7FF := by
  have := toNat_highByte c
  rw [(high_bits_cases _).1]
  bv_omega

theorem highByte_and_eq_surrogate (c : CodeUnit) :
    highByte c &&& 0xF8 = 0xD8 ↔ IsSurrogate c := by
  have := toNat_highByte c
  rw [(high_bits_cases _).2, IsSurrogate]
  bv_omega

/-- The test on `high_bits` looks at the lanes behind the leads of three-byte characters. -/
theorem badHighBits_iff : badHighBits chunk = true ↔ ∃ i, i < 16 ∧ lead (back chunk i 1) = 3 ∧
    (lane (chunk_high2 chunk) i &&& 0xF8 = 0 ∨ lane (chunk_high2 chunk) i &&& 0xF8 = 0xD8) := by
  have hlane : ∀ i : Fin 16, mask3 chunk i &&& (laneMask (high_bits chunk i == 0x00) |||
      laneMask (high_bits chunk i == 0xd8)) ≠ 0 ↔ lead (back chunk i 1) = 3 ∧
        (lane (chunk_high2 chunk) i &&& 0xF8 = 0 ∨ lane (chunk_high2 chunk) i &&& 0xF8 = 0xD8) := by
    intro i
    have hmask : ∀ p q r : Bool, laneMask p &&& (laneMask q ||| laneMask r) ≠ 0 ↔
        p = true ∧ (q = true ∨ r = true) := by
      decide
    rw [mask3_apply, hmask, lane_val, decide_eq_true_iff, beq_iff_eq, beq_iff_eq]
    rfl
  have htest : badHighBits chunk = true ↔ ∃ i : Fin 16, mask3 chunk i &&&
      (laneMask (high_bits chunk i == 0x00) ||| laneMask (high_bits chunk i == 0xd8)) ≠ 0 := by
    rw [badHighBits, mm_testz_si128, Bool.not_eq_true', decide_eq_false_iff_not, not_forall]
    rfl
  rw [htest]
  constructor
  · rintro ⟨i, hi⟩
    exact ⟨i, i.isLt, (hlane i).mp hi⟩
  · rintro ⟨i, h16, hi⟩
    exact ⟨⟨i, h16⟩, (hlane ⟨i, h16⟩).mpr hi⟩

/-- What the test sees of a character of three bytes: the high byte of its unit. -/
theorem ClosedAt.high_of_three {o : ℕ} {l m k : Byte} (h : ClosedAt chunk o) (hl : IsLead3 l)
    (hm : Trails l m) (hk : Trails m k) (hbs : StandsAt chunk o [l, m, k]) (ho : o + 1 < 16) :
    lane (chunk_high2 chunk) (o + 1) = highByte (threeUnit l m k) := by
  have h0 : lane chunk o = l := hbs.first (by omega)
  have h1 : lane chunk (o + 1) = m := hbs 1 m rfl ho
  obtain ⟨-, -, hc2, -⟩ := h.three (by rw [h0]; exact lead_of_lead3 hl)
    (hbs.lead_trail (i := 1) hm rfl) (hbs.lead_trail (i := 2) hk rfl)
  have hnext : countAt chunk (o + 1 + 1) = 1 := hc2
  rw [lane_chunk_high2 chunk ho (fun _ => by omega), h.highAt_three h0 h1 hl hm,
    ← word_three hm hk, highByte_append]

/-- In a character only the first of three bytes announces two more. -/
theorem StandsAt.lead_eq_three {o j : ℕ} {c : CodeUnit} {bs : List Byte} (h : StandsAt chunk o bs)
    (hc : Spelling c bs) (hoj : o ≤ j) (hj : j < o + bs.length) (h16 : j < 16)
    (hlead : lead (lane chunk j) = 3) : j = o ∧ ∃ l m k, bs = [l, m, k] ∧ IsLead3 l ∧
      Trails l m ∧ Trails m k ∧ threeUnit l m k = c := by
  cases hc with
  | one ha _ =>
    obtain rfl : j = o := by
      rw [List.length_singleton] at hj
      omega
    rw [h.first h16, lead_of_ascii ha] at hlead
    cases hlead
  | two hl hk _ =>
    obtain rfl | rfl : j = o ∨ j = o + 1 := by
      rw [List.length_cons, List.length_singleton] at hj
      omega
    · rw [h.first h16, lead_of_lead2 hl] at hlead
      cases hlead
    · rw [h.lead_trail (i := 1) hk rfl] at hlead
      cases hlead
  | three hl hm hk hc =>
    obtain rfl | rfl | rfl : j = o ∨ j = o + 1 ∨ j = o + 2 := by
      rw [List.length_cons, List.length_cons, List.length_singleton] at hj
      omega
    · exact ⟨rfl, _, _, _, rfl, hl, hm, hk, hc⟩
    · rw [h.lead_trail (i := 1) hm rfl] at hlead
      cases hlead
    · rw [h.lead_trail (i := 2) hk rfl] at hlead
      cases hlead

/-- A unit of three bytes is not a smaller one in a longer form. -/
theorem lt_of_three_bytes {c : CodeUnit} (h : (encodeUnit c).length = 3) : 0x7FF < c := by
  unfold encodeUnit at h
  split at h
  · cases h
  split at h
  · cases h
  · bv_omega

/-- A surrogate takes three bytes. -/
theorem IsSurrogate.three_bytes {c : CodeUnit} (h : IsSurrogate c) :
    (encodeUnit c).length = 3 := by
  have := h.1
  rw [encodeUnit]
  rw [if_neg (by bv_omega), if_neg (by bv_omega)]
  rfl

section Text

variable {t : List CodeUnit} (hb : bytes chunk = (encode t).take 16)

include hb

/-- On encoded text the test on `high_bits` finds the surrogates of which at least two bytes are in
the block. -/
theorem badHighBits_iff_surrogate : badHighBits chunk = true ↔
    ∃ a c b, t = a ++ c :: b ∧ (encode a).length + 2 ≤ 16 ∧ IsSurrogate c := by
  have hlen := length_text hb
  rw [badHighBits_iff]
  constructor
  · rintro ⟨i, h16, hlead, hhigh⟩
    obtain ⟨i, rfl⟩ : ∃ j, i = j + 1 := by
      cases i with
      | zero =>
        change lead 0 = 3 at hlead
        cases hlead
      | succ j => exact ⟨j, rfl⟩
    -- the lead in the lane before belongs to a unit, and the lane holds that unit's high byte
    rw [back_succ, back_zero] at hlead
    obtain ⟨a, c, b, ht, hle, hlt⟩ := exists_unit_of_lt t (j := i) (by omega)
    obtain ⟨hclosed, hstands⟩ := unit_stands hb ht (by omega)
    obtain ⟨rfl, l, m, k, hbs, hl, hm, hk, hc⟩ :=
      hstands.lead_eq_three (spelling_encodeUnit c) hle hlt (by omega) hlead
    refine ⟨a, c, b, ht, by omega, ?_⟩
    have hlarge := lt_of_three_bytes (c := c) (by rw [hbs]; rfl)
    rw [hbs] at hstands
    rw [hclosed.high_of_three hl hm hk hstands (by omega), hc, highByte_and_eq_zero,
      highByte_and_eq_surrogate] at hhigh
    -- the encoder makes no overlong characters
    exact hhigh.resolve_left fun hsmall => by bv_omega
  · rintro ⟨a, c, b, rfl, hle, hsur⟩
    obtain ⟨hclosed, hstands⟩ := unit_stands hb rfl (by omega)
    have hthree := hsur.three_bytes
    generalize hbs : encodeUnit c = bs at hthree hstands
    cases hbs ▸ spelling_encodeUnit c with
    | one => cases hthree
    | two => cases hthree
    | @three l m k hl hm hk hc =>
      refine ⟨(encode a).length + 1, by omega, ?_, .inr ?_⟩
      · rw [back_succ, back_zero, hstands.first (by omega), lead_of_lead3 hl]
      · rw [hclosed.high_of_three hl hm hk hstands (by omega), hc]
        exact (highByte_and_eq_surrogate c).mpr hsur

/-- On encoded text a block passes all the tests before its stores, unless two bytes of a surrogate
are in it. -/
theorem passes_iff : passes chunk = true ↔
    ¬ ∃ a c b, t = a ++ c :: b ∧ (encode a).length + 2 ≤ 16 ∧ IsSurrogate c := by
  have hfacts : ∀ j, j < 16 → LaneFacts chunk j := fun j hj => laneFacts_of_encode hb hj
  rw [← badHighBits_iff_surrogate hb, passes, cond4_of_laneFacts hfacts,
    asciiMismatch_of_laneFacts hfacts, countsDrop_of_laneFacts hfacts]
  simp

end Text

/-! ## The test on the stored units -/

theorem IsNonCharacter.highByte_and {c : CodeUnit} (h : IsNonCharacter c) :
    highByte c &&& 0x3F ≠ 0 := by
  have hall : ∀ b : Byte, b = 0xFD ∨ b = 0xFF → b &&& 0x3F ≠ 0 := by decide +kernel
  have := toNat_highByte c
  apply hall
  obtain ⟨h1, h2⟩ | h3 := h
  · exact .inl (by bv_omega)
  · exact .inr (by bv_omega)

/-- Where no character ends only bits of the lane behind leak into the high byte. -/
theorem leaked_high {i : ℕ} (hi : i < 16) (hcount : countAt chunk i ≠ 2)
    (hlead : lead (back chunk i 1) ≠ 3) : lane (chunk_high2 chunk) i &&& 0x3F = 0 := by
  have hzero : chunk_high1 chunk ⟨i, hi⟩ = 0 := by
    rw [← lane_of_lt (chunk_high1 chunk) hi, lane_chunk_high1 chunk i hi, if_neg hcount]
  have hmask : mask3 chunk ⟨i, hi⟩ = 0 := by
    rw [mask3_apply, decide_eq_false hlead]
    rfl
  have hhigh : lane (chunk_high2 chunk) i = mm_srli_epi32 (chunk_high1 chunk) 2 ⟨i, hi⟩ := by
    rw [lane_of_lt _ hi]
    change mm_srli_epi32 (chunk_high1 chunk) 2 ⟨i, hi⟩ ||| (_ &&& mask3 chunk ⟨i, hi⟩) = _
    rw [hmask]
    exact (congrArg _ BitVec.and_zero).trans BitVec.or_zero
  rw [hhigh]
  ext k hk
  rw [← BitVec.getLsbD_eq_getElem, ← BitVec.getLsbD_eq_getElem, BitVec.getLsbD_and]
  rcases Nat.lt_or_ge k 6 with h6 | h6
  · rw [getLsbD_srli_epi32 _ _ (by omega), hzero]
    simp
  · have : (0x3F : Byte).getLsbD k = false := by interval_cases k <;> rfl
    rw [this]
    simp

/-- In a lane inside a character there is no noncharacter. -/
theorem LaneFacts.not_nonCharacter {j : ℕ} (h : LaneFacts chunk j) (hj : j < 16)
    (hcount : 2 ≤ countAt chunk j) :
    ¬ IsNonCharacter (lane (chunk_high chunk) j ++ lane (chunk_low chunk) j) := by
  intro hnon
  apply hnon.highByte_and
  rw [highByte_append, chunk_high, lane_slli_si128 _ 1 hj]
  split
  case isFalse => rfl
  case isTrue h1 =>
    have hbefore := h.inside hcount (j - 1) (Nat.sub_add_cancel h1)
    exact leaked_high (by omega) hbefore.1 hbefore.2

/-- On encoded text the test on the stored units finds the noncharacters among the units whose bytes
are complete. -/
theorem nonCharacter_iff_mem {us t' : List CodeUnit}
    (hb : bytes chunk = (encode us ++ encode t').take 16)
    (hcut : Straddles 16 (encode us).length (encode t')) :
    nonCharacter chunk = true ↔ ∃ c ∈ us, IsNonCharacter c := by
  have htext : bytes chunk = (encode (us ++ t')).take 16 := by rw [encode_append, hb]
  obtain ⟨hregion, hclosed⟩ := region_of_block (spells_encode us) hcut.le hb
  rw [nonCharacter_iff]
  constructor
  · rintro ⟨u, hu, hnon⟩
    obtain rfl | ⟨j, h16, rfl⟩ := mem_storedUnits chunk hu
    · exact absurd rfl hnon.highByte_and
    -- a lane that ends a character holds a unit; the other lanes hold no noncharacter
    · refine ⟨_, ?_, hnon⟩
      rcases Nat.lt_or_ge (countAt chunk j) 2 with hlive | hdead
      · have hj : j < (encode us).length := by
          by_contra hge
          have := countAt_of_straddles (spells_encode us) hcut hb (not_lt.mp hge) h16
          omega
        rw [lane_chunk_high chunk h16 (by omega), lane_chunk_low chunk h16]
        exact hregion.word_mem (Nat.zero_le j) hj hlive
      · exact absurd hnon ((laneFacts_of_encode htext h16).not_nonCharacter h16 hdead)
  · rintro ⟨c, hc, hnon⟩
    refine ⟨c, ?_, hnon⟩
    have hadv := src_adv_of_spells (spells_encode us) hcut hb
    have hsp : Spells ((bytes chunk).take (src_adv chunk).toNat) us := by
      rw [hadv, hb, Int.toNat_natCast, List.take_take, Nat.min_eq_left hcut.le, List.take_left' rfl]
      exact spells_encode us
    rw [← (spelled_block hsp).2] at hc
    exact List.mem_of_mem_take hc

/-! ## The complete characters -/

/-- The units whose bytes are all among the first `n` bytes of the encoded text. -/
def whole : ℕ → List CodeUnit → List CodeUnit
  | _, [] => []
  | n, c :: t =>
    if (encodeUnit c).length ≤ n then c :: whole (n - (encodeUnit c).length) t else []

theorem length_whole_le (n : ℕ) (t : List CodeUnit) : (encode (whole n t)).length ≤ n := by
  induction t generalizing n with
  | nil => exact Nat.zero_le n
  | cons c t ih =>
    rw [whole]
    split
    · have := ih (n - (encodeUnit c).length)
      rw [encode_cons, List.length_append]
      omega
    · exact Nat.zero_le n

/-- The complete units are the first ones, and the bytes of the next one are not complete. -/
theorem whole_append (n : ℕ) (t : List CodeUnit) : ∃ t', t = whole n t ++ t' ∧
    ∀ c b, t' = c :: b → n < (encode (whole n t)).length + (encodeUnit c).length := by
  induction t generalizing n with
  | nil => exact ⟨[], rfl, fun c b h => by cases h⟩
  | cons c t ih =>
    rw [whole]
    split
    case isTrue hle =>
      obtain ⟨t', ht, hnext⟩ := ih (n - (encodeUnit c).length)
      refine ⟨t', by rw [List.cons_append, ← ht], fun d b hb => ?_⟩
      have := hnext d b hb
      rw [encode_cons, List.length_append]
      omega
    case isFalse hgt =>
      refine ⟨c :: t, rfl, fun d b hb => ?_⟩
      obtain ⟨rfl, -⟩ := List.cons.inj hb
      rw [encode_nil, List.length_nil]
      omega

/-- Where the bytes of a unit are not complete, the complete units are those before it. -/
theorem whole_eq {n : ℕ} {a b : List CodeUnit} {c : CodeUnit} (hle : (encode a).length ≤ n)
    (hlt : n < (encode a).length + (encodeUnit c).length) : whole n (a ++ c :: b) = a := by
  induction a generalizing n with
  | nil =>
    rw [encode_nil, List.length_nil, Nat.zero_add] at hlt
    rw [List.nil_append, whole, if_neg (by omega)]
  | cons d a ih =>
    rw [encode_cons, List.length_append] at hle hlt
    rw [List.cons_append, whole, if_pos (by omega), ih (by omega) (by omega)]

theorem mem_whole_iff {n : ℕ} {t : List CodeUnit} {c : CodeUnit} : c ∈ whole n t ↔
    ∃ a b, t = a ++ c :: b ∧ (encode a).length + (encodeUnit c).length ≤ n := by
  constructor
  · intro hc
    obtain ⟨a, b, hab⟩ := List.append_of_mem hc
    obtain ⟨t', ht, -⟩ := whole_append n t
    have hle := length_whole_le n t
    rw [hab, encode_append, encode_cons, List.length_append, List.length_append] at hle
    refine ⟨a, b ++ t', ?_, by omega⟩
    rw [hab] at ht
    rw [ht, List.append_assoc, List.cons_append]
  · rintro ⟨a, b, rfl, hle⟩
    induction a generalizing n with
    | nil =>
      rw [encode_nil, List.length_nil, Nat.zero_add] at hle
      rw [List.nil_append, whole, if_pos hle]
      exact List.mem_cons_self
    | cons d a ih =>
      rw [encode_cons, List.length_append] at hle
      rw [List.cons_append, whole, if_pos (by omega)]
      exact List.mem_cons_of_mem _ (ih (by omega))

/-- The units that start before the last of the first `n` bytes of the encoded text: of a unit of
more than one byte, two are among them. -/
def entered : ℕ → List CodeUnit → List CodeUnit
  | _, [] => []
  | n, c :: t => if 2 ≤ n then c :: entered (n - (encodeUnit c).length) t else []

theorem mem_entered_iff {n : ℕ} {t : List CodeUnit} {c : CodeUnit} : c ∈ entered n t ↔
    ∃ a b, t = a ++ c :: b ∧ (encode a).length + 2 ≤ n := by
  induction t generalizing n with
  | nil =>
    constructor
    · intro hc
      cases hc
    · rintro ⟨a, b, hab, -⟩
      exact absurd hab.symm (List.append_ne_nil_of_right_ne_nil a (List.cons_ne_nil c b))
  | cons d t ih =>
    rw [entered]
    constructor
    · intro hc
      split at hc
      case isFalse => cases hc
      case isTrue h2 =>
        obtain rfl | hc := List.mem_cons.mp hc
        · exact ⟨[], t, rfl, by rw [encode_nil, List.length_nil]; omega⟩
        · obtain ⟨a, b, rfl, hle⟩ := ih.mp hc
          refine ⟨d :: a, b, rfl, ?_⟩
          rw [encode_cons, List.length_append]
          omega
    · rintro ⟨a, b, hab, hle⟩
      rw [if_pos (by omega)]
      rcases a with _ | ⟨e, a⟩
      · obtain ⟨rfl, -⟩ := List.cons.inj hab
        exact List.mem_cons_self
      · obtain ⟨rfl, rfl⟩ := List.cons.inj hab
        rw [encode_cons, List.length_append] at hle
        exact List.mem_cons_of_mem _ (ih.mpr ⟨a, b, rfl, by omega⟩)

/-- Behind the complete units of a block the next one starts, or goes on over its end. -/
theorem whole_straddles {n : ℕ} {t : List CodeUnit} (hn : n ≤ (encode t).length) :
    ∃ t', t = whole n t ++ t' ∧ Straddles n (encode (whole n t)).length (encode t') := by
  obtain ⟨t', ht, hnext⟩ := whole_append n t
  refine ⟨t', ht, ?_⟩
  have hle := length_whole_le n t
  rcases Nat.lt_or_eq_of_le hle with hlt | heq
  swap
  · rw [heq]
    exact .none
  rw [ht, encode_append, List.length_append] at hn
  rcases t' with _ | ⟨c, b⟩
  · rw [encode_nil, List.length_nil] at hn
    omega
  -- the next unit does not fit: one or two of its bytes are inside
  have hgt := hnext c b rfl
  rw [encode_cons]
  generalize hbs : encodeUnit c = bs at hgt
  cases hbs ▸ spelling_encodeUnit c with
  | one =>
    rw [List.length_singleton] at hgt
    omega
  | two hl _ _ =>
    rw [List.length_cons, List.length_singleton] at hgt
    exact .one (by omega) (.inl hl)
  | three hl hm _ _ =>
    rw [List.length_cons, List.length_cons, List.length_singleton] at hgt
    rcases Nat.lt_or_ge ((encode (whole n t)).length + 1) n with h2 | h1
    · exact .two (by omega) hl hm
    · exact .one (by omega) (.inr hl)

/-! ## The tests on the text -/

section Block

variable {t : List CodeUnit} (h16 : 16 ≤ (encode t).length)

include h16

/-- The first block of a text passes the tests before its stores unless two bytes of a surrogate are
in it. -/
theorem passes_block_iff : passes (block (encode t)) = true ↔
    ¬ ∃ c ∈ entered 16 t, IsSurrogate c := by
  rw [passes_iff (bytes_block h16)]
  refine not_congr ⟨?_, ?_⟩
  · rintro ⟨a, c, b, ht, hle, hsur⟩
    exact ⟨c, mem_entered_iff.mpr ⟨a, b, ht, hle⟩, hsur⟩
  · rintro ⟨c, hc, hsur⟩
    obtain ⟨a, b, ht, hle⟩ := mem_entered_iff.mp hc
    exact ⟨a, c, b, ht, hle, hsur⟩

/-- The test on the units that it stores finds the noncharacters among its complete ones. -/
theorem nonCharacter_block_iff : nonCharacter (block (encode t)) = true ↔
    ∃ c ∈ whole 16 t, IsNonCharacter c := by
  obtain ⟨t', ht, hcut⟩ := whole_straddles h16
  refine nonCharacter_iff_mem ?_ hcut
  rw [bytes_block h16, ← encode_append, ← ht]

end Block

/-! ## One turn -/

/-- A complete character of the first sixteen bytes is a surrogate or a noncharacter, or these
bytes end with the first two of a surrogate. -/
def Leaves (t : List CodeUnit) : Prop :=
  (∃ c ∈ whole 16 t, IsSurrogate c ∨ IsNonCharacter c) ∨
    ∃ c b, t = whole 16 t ++ c :: b ∧ IsSurrogate c ∧ (encode (whole 16 t)).length + 2 = 16

/-- Two bytes of a surrogate are in the block: it is complete, or the block ends with them. -/
theorem surrogate_in_block (t : List CodeUnit) :
    (∃ a c b, t = a ++ c :: b ∧ (encode a).length + 2 ≤ 16 ∧ IsSurrogate c) ↔
      (∃ c ∈ whole 16 t, IsSurrogate c) ∨
        ∃ c b, t = whole 16 t ++ c :: b ∧ IsSurrogate c ∧
          (encode (whole 16 t)).length + 2 = 16 := by
  constructor
  · rintro ⟨a, c, b, rfl, hle, hsur⟩
    have hthree := hsur.three_bytes
    rcases Nat.lt_or_ge ((encode a).length + 2) 16 with hlt | hge
    · exact .inl ⟨c, mem_whole_iff.mpr ⟨a, b, rfl, by omega⟩, hsur⟩
    · have ha : whole 16 (a ++ c :: b) = a := whole_eq (by omega) (by omega)
      exact .inr ⟨c, b, by rw [ha], hsur, by rw [ha]; omega⟩
  · rintro (⟨c, hc, hsur⟩ | ⟨c, b, ht, hsur, hlen⟩)
    · obtain ⟨a, b, rfl, hle⟩ := mem_whole_iff.mp hc
      have hthree := hsur.three_bytes
      exact ⟨a, c, b, rfl, by omega, hsur⟩
    · exact ⟨whole 16 t, c, b, ht, by omega, hsur⟩

/-- The text leaves the loop through one of the tests. -/
theorem leaves_iff {t : List CodeUnit} (hb : bytes chunk = (encode t).take 16) :
    Leaves t ↔ passes chunk = false ∨ nonCharacter chunk = true := by
  obtain ⟨t', ht, hcut⟩ := whole_straddles (length_text hb)
  have hb' : bytes chunk = (encode (whole 16 t) ++ encode t').take 16 := by
    rw [← encode_append, ← ht, hb]
  rw [Leaves, ← Bool.not_eq_true, passes_iff hb, not_not, surrogate_in_block,
    nonCharacter_iff_mem hb' hcut]
  constructor
  · rintro (⟨c, hc, hsur | hnon⟩ | hend)
    · exact .inl (.inl ⟨c, hc, hsur⟩)
    · exact .inr ⟨c, hc, hnon⟩
    · exact .inl (.inr hend)
  · rintro ((⟨c, hc, hsur⟩ | hend) | ⟨c, hc, hnon⟩)
    · exact .inl ⟨c, hc, .inl hsur⟩
    · exact .inr hend
    · exact .inl ⟨c, hc, .inr hnon⟩

/-- In a block of ASCII the text has sixteen units, and none of them leaves the loop. -/
theorem ascii_text {t : List CodeUnit} (hb : bytes chunk = (encode t).take 16)
    (hascii : mm_movemask_epi8 chunk = 0) :
    (encode (whole 16 t)).length = 16 ∧ whole 16 t = ((encode t).take 16).map oneUnit ∧
      ¬ Leaves t := by
  obtain ⟨t', ht, hcut⟩ := whole_straddles (length_text hb)
  have hb' : bytes chunk = (encode (whole 16 t) ++ encode t').take 16 := by
    rw [← encode_append, ← ht, hb]
  -- a character that goes on behind the block is not ASCII
  have hlen : (encode (whole 16 t)).length = 16 := by
    by_contra hne
    have hle := hcut.le
    have hopen := countAt_of_straddles (spells_encode (whole 16 t)) hcut hb' (j := 15) (by omega)
      (by omega)
    have hcounted := (laneFacts_of_encode hb (j := 15) (by omega)).counted.mpr (by omega)
    have hzero := (movemask_eq_zero_iff chunk).mp hascii 15
    rw [lane_of_lt _ (by omega)] at hcounted
    exact absurd (hzero.symm.trans hcounted) Bool.false_ne_true
  have hbytes := ascii_of_movemask hascii
  rw [hb] at hbytes
  have htake : (encode t).take 16 = encode (whole 16 t) := by
    rw [← hb, hb', List.take_left' hlen]
  have hunits : whole 16 t = ((encode t).take 16).map oneUnit := by
    refine Spells.unique (spells_encode _) ?_
    rw [htake] at hbytes ⊢
    exact spells_ascii hbytes
  refine ⟨hlen, hunits, ?_⟩
  rintro (⟨c, hc, hbad⟩ | ⟨c, b, -, -, hend⟩)
  · rw [hunits] at hc
    obtain ⟨x, hx, rfl⟩ := List.mem_map.mp hc
    have hsmall := hbytes x hx
    have hunit : oneUnit x ≤ 0x7F := (setWidth_le_ascii x).mpr hsmall
    obtain ⟨h1, -⟩ | ⟨h1, -⟩ | h1 := hbad
    · bv_omega
    · bv_omega
    · bv_omega
  · omega

/-- How a turn over encoded text ends: before the stores, behind them, or behind the complete
characters. -/
inductive TextTurn (source : List Byte) (s : Cursors) (t : List CodeUnit) :
    Outcome Cursors (Except Fault Cursors) → Prop where
  /-- one of the tests before the stores fails -/
  | rejected : passes (block (rest source s)) = false → TextTurn source s t (.done (.ok s))
  /-- the test on the stored units fails -/
  | stored : passes (block (rest source s)) = true →
      nonCharacter (block (rest source s)) = true →
      TextTurn source s t (.done (.ok
        { s with target := splice s.target s.dst.toNat (storedUnits (block (rest source s))) }))
  /-- the complete characters are decoded; more is stored unless there are sixteen of them -/
  | decoded {s' : Cursors} {us : List CodeUnit} : passes (block (rest source s)) = true →
      nonCharacter (block (rest source s)) = false →
      s'.target = splice s.target s.dst.toNat us → us.length = 16 →
      us = storedUnits (block (rest source s)) ∨ (whole 16 t).length = 16 →
      Decodes s s' (whole 16 t) (encode (whole 16 t)).length → Continues source s s' →
      TextTurn source s t (.next s')

/-- A turn of the vector loop over encoded text, with anything behind the text. -/
theorem vectorStep_text (h : Bounded source s) (hlen : 16 ≤ s.len) {t : List CodeUnit}
    {tail : List Byte} (ht : rest source s = encode t ++ tail) (h16 : 16 ≤ (encode t).length) :
    TextTurn source s t (vectorStep source s) := by
  have hrest := h.length_rest
  rw [ht, List.length_append] at hrest
  have hrem : 16 ≤ s.rem := by omega
  have hb : bytes (block (rest source s)) = (encode t).take 16 := by
    rw [bytes_block (by rw [ht, List.length_append]; omega), ht,
      List.take_append_of_le_length h16]
  obtain ⟨t', ht', hcut⟩ := whole_straddles h16
  have hle := hcut.le
  have hunits := length_le_encode (whole 16 t)
  have hsplit : rest source s = encode (whole 16 t) ++ (encode t' ++ tail) := by
    rw [ht, ← List.append_assoc, ← encode_append, ← ht']
  have hsp : Spells ((rest source s).take (encode (whole 16 t)).length) (whole 16 t) := by
    rw [hsplit, List.take_left' rfl]
    exact spells_encode _
  by_cases hascii : mm_movemask_epi8 (block (rest source s)) = 0
  -- an ASCII block is not tested at all, but would pass every test
  · obtain ⟨hsixteen, hwhole, hstays⟩ := ascii_text hb hascii
    have hlength : (whole 16 t).length = 16 := by
      rw [hwhole, List.length_map, List.length_take_of_le h16]
    have hpass : passes (block (rest source s)) = true ∧
        nonCharacter (block (rest source s)) = false := by
      rw [leaves_iff hb, not_or] at hstays
      simpa using hstays
    obtain ⟨target, hstore, hnext⟩ := vectorStep_run_ascii h hlen hrem hascii
    have hd : Decodes s ⟨s.src + 16, s.dst + 16, s.len - 16, s.rem - 16, target⟩ (whole 16 t)
        (encode (whole 16 t)).length := by
      have hascii := Decodes.of_ascii h hlen hrem hstore
      rw [ht, List.take_append_of_le_length h16, ← hwhole] at hascii
      rw [hsixteen]
      exact hascii
    rw [storePair_ok h hlen] at hstore
    rw [hnext]
    exact .decoded hpass.1 hpass.2 (Except.ok.inj hstore).symm (by simp) (.inr hlength) hd
      (Continues.of_spells h hd (by omega) (by omega) hsp)
  · have hrun := vectorStep_run h hlen hrem hascii
    cases hpass : passes (block (rest source s)) with
    | false =>
      rw [hpass, if_neg Bool.false_ne_true] at hrun
      rw [hrun]
      exact .rejected hpass
    | true =>
      rw [hpass, if_pos rfl] at hrun
      cases hnon : nonCharacter (block (rest source s)) with
      | true =>
        rw [hnon, if_pos rfl] at hrun
        rw [hrun]
        exact .stored hpass hnon
      | false =>
        rw [hnon, if_neg Bool.false_ne_true] at hrun
        -- every test is passed: the block decodes what its complete characters spell
        obtain ⟨-, -, ⟨hzero, -⟩ | ⟨-, -, hadv⟩⟩ := vectorStep_next h hrun
        · exact absurd hzero hascii
        have hsrc : src_adv (block (rest source s)) = (encode (whole 16 t)).length := by
          refine src_adv_of_spells (spells_encode _) hcut ?_
          rw [← encode_append, ← ht', hb]
        have hlength : (src_adv (block (rest source s))).toNat =
            (encode (whole 16 t)).length := by
          rw [hsrc, Int.toNat_natCast]
        rw [← hlength] at hsp
        obtain ⟨hd, hc⟩ := Continues.of_advances h hlen hrem hadv hsp
        rw [hlength] at hd
        rw [hrun]
        exact .decoded hpass hnon rfl (by simp [storedUnits]) (.inl rfl) hd hc

/-- **A turn over encoded text** leaves the vector loop, without moving a cursor, exactly if a
complete character of the sixteen bytes is a surrogate or a noncharacter or they end with the first
two bytes of a surrogate. In every other case it decodes just the complete characters. -/
theorem vectorStep_encoded (h : Bounded source s) (hlen : 16 ≤ s.len) {t : List CodeUnit}
    {tail : List Byte} (ht : rest source s = encode t ++ tail) (h16 : 16 ≤ (encode t).length) :
    ((∃ s', vectorStep source s = .done (.ok s') ∧ s'.src = s.src ∧ s'.dst = s.dst) ↔ Leaves t) ∧
    (¬ Leaves t → ∃ s', vectorStep source s = .next s' ∧
      Decodes s s' (whole 16 t) (encode (whole 16 t)).length) ∧
    ((encode (whole 16 t)).length = 16 ∨ (encode (whole 16 t)).length = 15 ∨
      (encode (whole 16 t)).length = 14) := by
  have hb : bytes (block (rest source s)) = (encode t).take 16 := by
    rw [bytes_block (by rw [ht, List.length_append]; omega), ht,
      List.take_append_of_le_length h16]
  obtain ⟨t', -, hcut⟩ := whole_straddles h16
  rw [leaves_iff hb, ← and_assoc]
  refine ⟨?_, hcut.length_cases⟩
  have hturn := vectorStep_text h hlen ht h16
  generalize vectorStep source s = r at hturn ⊢
  cases hturn with
  | rejected hpass =>
    exact ⟨iff_of_true ⟨s, rfl, rfl, rfl⟩ (.inl hpass), fun hstays => absurd (.inl hpass) hstays⟩
  | stored _ hnon =>
    exact ⟨iff_of_true ⟨_, rfl, rfl, rfl⟩ (.inr hnon), fun hstays => absurd (.inr hnon) hstays⟩
  | decoded hpass hnon _ _ _ hd _ =>
    refine ⟨iff_of_false ?_ ?_, fun _ => ⟨_, rfl, hd⟩⟩
    · rintro ⟨s', hdone, -⟩
      cases hdone
    · simp [hpass, hnon]

/-- Fifteen letters and the first byte of an accented one. -/
theorem vectorStep_encoded_accent :
    ((∃ s', vectorStep (encode (List.replicate 15 0x41 ++ [0xE9]))
        ⟨0, 0, 16, 17, List.replicate 16 0⟩ = .done (.ok s') ∧ s'.src = 0 ∧ s'.dst = 0) ↔
      Leaves (List.replicate 15 0x41 ++ [0xE9])) ∧
    (¬ Leaves (List.replicate 15 0x41 ++ [0xE9]) →
      ∃ s', vectorStep (encode (List.replicate 15 0x41 ++ [0xE9]))
        ⟨0, 0, 16, 17, List.replicate 16 0⟩ = .next s' ∧
      Decodes ⟨0, 0, 16, 17, List.replicate 16 0⟩ s'
        (whole 16 (List.replicate 15 0x41 ++ [0xE9]))
        (encode (whole 16 (List.replicate 15 0x41 ++ [0xE9]))).length) ∧
    ((encode (whole 16 (List.replicate 15 0x41 ++ [0xE9]))).length = 16 ∨
      (encode (whole 16 (List.replicate 15 0x41 ++ [0xE9]))).length = 15 ∨
      (encode (whole 16 (List.replicate 15 0x41 ++ [0xE9]))).length = 14) :=
  vectorStep_encoded (bounded_entry (le_refl 0) (by decide) (List.replicate 16 0)) (by decide)
    (List.append_nil _).symm (by decide)

end Native

end HzResearch
