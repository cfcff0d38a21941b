import HzResearch.ScalarLoop
import HzResearch.SpelledBlock

/-!
# The vector loop

From bounded cursors a turn of the vector loop does one of three things
(`vectorStep_spec`): it leaves the loop and has decoded nothing, it decodes a
block of ASCII characters, or it advances over a block that passed all the tests
(`Advances`). Only the last can go wrong, and it goes on where the scalar loop
would as soon as the bytes it advances over are characters
(`Continues.of_advances`).

`BlocksSpell` says that of all the blocks a call decodes, as a condition on the
bytes. Under it the whole decoder yields what the scalar loop yields
(`utf8BytesToArray_yields`), and it holds of all bytes that spell units
(`blocksSpell_of_spells`).
-/

namespace HzResearch

namespace Native

open Simd Utf8

variable {source : List Byte} {s s' : Cursors}

/-! ## Blocks -/

/-- The first sixteen bytes, as a register. -/
def block (bs : List Byte) : Vec := fun i => bs.getD i 0

theorem bytes_block {bs : List Byte} (h : 16 ≤ bs.length) : bytes (block bs) = bs.take 16 := by
  apply List.ext_getElem?
  intro i
  rcases Nat.lt_or_ge i 16 with hi | hi
  · rw [getElem?_bytes hi, List.getElem?_take_of_lt hi, lane_of_lt _ hi, block,
      List.getD_eq_getElem?_getD, List.getElem?_eq_getElem (by omega)]
    rfl
  · rw [List.getElem?_eq_none (by simpa [bytes] using hi), List.getElem?_eq_none]
    rw [List.length_take]
    omega

/-- The block that is loaded. -/
theorem loadVecU_ok (h : Readable source s) (hrem : 16 ≤ s.rem) :
    loadVecU source s.src = .ok (block (rest source s)) := by
  have hsrc := h.src_nonneg
  have hsr := h.src_rem
  rw [loadVecU, if_pos ⟨hsrc, by omega⟩]
  congr 1
  funext i
  rw [block, rest, List.getD_eq_getElem?_getD, List.getD_eq_getElem?_getD, List.getElem?_drop]

/-- The two stores of a block, where there is room for them. -/
theorem storePair_ok (h : Bounded source s) (hlen : 16 ≤ s.len) (low high : Vec) :
    storePair s.target s.dst low high =
      .ok (splice s.target s.dst.toNat (units low ++ units high)) := by
  have hdst := h.dst_nonneg
  have hdl := h.dst_len
  have hsize : (splice s.target s.dst.toNat (units low)).length = s.target.length :=
    length_splice (by rw [length_units]; omega)
  have h8 : (s.dst + 8).toNat = s.dst.toNat + (units low).length := by
    rw [length_units]
    omega
  have hlow : storeVecU s.target s.dst low = .ok (splice s.target s.dst.toNat (units low)) :=
    if_pos ⟨hdst, by omega⟩
  have hhigh : storeVecU (splice s.target s.dst.toNat (units low)) (s.dst + 8) high =
      .ok (splice (splice s.target s.dst.toNat (units low)) (s.dst + 8).toNat (units high)) :=
    if_pos ⟨by omega, by rw [hsize]; omega⟩
  rw [h8, splice_splice (by omega)] at hhigh
  rw [storePair, hlow]
  exact hhigh

/-- A block without a set high bit is ASCII. -/
theorem ascii_of_movemask {chunk : Vec} (h : mm_movemask_epi8 chunk = 0) :
    ∀ b ∈ bytes chunk, b ≤ 0x7F := by
  intro b hb
  obtain ⟨i, rfl⟩ := List.mem_ofFn.mp hb
  have hmsb := (movemask_eq_zero_iff chunk).mp h i
  rw [BitVec.msb_eq_false_iff_two_mul_lt] at hmsb
  bv_omega

/-- The units that the stores of an ASCII block write. -/
theorem units_zeroExtend (chunk : Vec) :
    units (zeroExtendLow chunk) ++ units (zeroExtendHigh chunk) = (bytes chunk).map oneUnit := by
  apply List.ext_getElem?
  intro k
  rcases Nat.lt_or_ge k 16 with h16 | h16
  · have hzero : lane (mm_set1_epi8 0) k = 0 := lane_of_lt _ h16
    rw [List.getElem?_map, getElem?_bytes h16, zeroExtendLow, zeroExtendHigh,
      getElem?_units_unpack _ _ h16, hzero]
    exact congrArg some (word_one _)
  · rw [List.getElem?_eq_none (by simpa using h16), List.getElem?_eq_none]
    simpa [bytes] using h16

/-! ## One turn -/

/-- The turn from `s` to `s'` advanced over the block `chunk`, which passed all the tests. -/
structure Advances (chunk : Vec) (s s' : Cursors) : Prop where
  /-- the bytes are read -/
  src : s'.src = s.src + src_adv chunk
  /-- the units are counted -/
  dst : s'.dst = s.dst + dst_adv chunk
  /-- as many fewer units are left -/
  len : s'.len = s.len - dst_adv chunk
  /-- fewer bytes are left -/
  rem : s'.rem = s.rem - src_adv chunk
  /-- the stored units stand at `dst` -/
  front : ∀ n, n ≤ 16 → s'.target.take (s.dst.toNat + n) =
    s.target.take s.dst.toNat ++ (storedUnits chunk).take n
  /-- the target array keeps its length -/
  size : s'.target.length = s.target.length

/-- The stores of a block, at the cursors behind it. -/
theorem storePair_front (h : Bounded source s) (hlen : 16 ≤ s.len) {low high : Vec}
    {target : List CodeUnit} (ht : storePair s.target s.dst low high = .ok target) :
    target.length = s.target.length ∧ ∀ n, n ≤ 16 → target.take (s.dst.toNat + n) =
      s.target.take s.dst.toNat ++ (units low ++ units high).take n := by
  have hdl := h.dst_len
  have hdst := h.dst_nonneg
  have hunits : (units low ++ units high).length = 16 := by simp
  rw [storePair_ok h hlen] at ht
  cases ht
  refine ⟨length_splice (by omega), fun n hn => take_splice_add (by omega) (by omega)⟩

/-- The target array after the stores of a block that is left to the scalar loop. -/
theorem Continues.of_stores (h : Bounded source s) (hlen : 16 ≤ s.len) {low high : Vec}
    {target : List CodeUnit} (ht : storePair s.target s.dst low high = .ok target) :
    Continues source s { s with target } := by
  obtain ⟨hsize, hfront⟩ := storePair_front h hlen ht
  have hd : Decodes s { s with target } [] 0 := by
    refine ⟨by simp, by simp, by simp, by simp, ?_, hsize⟩
    have := hfront 0 (by omega)
    simpa using this
  exact Continues.of_spells h hd (h.rem_nonneg) h.len_nonneg .nil

/-- A turn over an ASCII block. -/
theorem Decodes.of_ascii (h : Bounded source s) (hlen : 16 ≤ s.len) (hrem : 16 ≤ s.rem)
    {target : List CodeUnit}
    (ht : storePair s.target s.dst (zeroExtendLow (block (rest source s)))
      (zeroExtendHigh (block (rest source s))) = .ok target) :
    Decodes s ⟨s.src + 16, s.dst + 16, s.len - 16, s.rem - 16, target⟩
      (((rest source s).take 16).map oneUnit) 16 := by
  obtain ⟨hsize, hfront⟩ := storePair_front h hlen ht
  have hdst := h.dst_nonneg
  have hl := h.length_rest
  have hus : (((rest source s).take 16).map oneUnit).length = 16 := by
    rw [List.length_map, List.length_take]
    omega
  refine ⟨rfl, ?_, ?_, rfl, ?_, hsize⟩
  · rw [hus]
    rfl
  · rw [hus]
    rfl
  · change target.take (s.dst + 16).toNat = _
    rw [show (s.dst + 16).toNat = s.dst.toNat + 16 by omega, hfront 16 (le_refl 16),
      units_zeroExtend, bytes_block (by omega), List.take_of_length_le hus.le]

theorem Continues.of_ascii (h : Bounded source s) (hlen : 16 ≤ s.len) (hrem : 16 ≤ s.rem)
    (hascii : mm_movemask_epi8 (block (rest source s)) = 0) {target : List CodeUnit}
    (ht : storePair s.target s.dst (zeroExtendLow (block (rest source s)))
      (zeroExtendHigh (block (rest source s))) = .ok target) :
    Continues source s ⟨s.src + 16, s.dst + 16, s.len - 16, s.rem - 16, target⟩ := by
  have hd := Decodes.of_ascii h hlen hrem ht
  have hsp := spells_ascii (ascii_of_movemask hascii)
  have hl := h.length_rest
  have hus := hd.dst
  rw [bytes_block (by omega)] at hsp
  exact Continues.of_spells h hd (by omega) (by simp only at hus; omega) hsp

/-- Without sixteen bytes and sixteen units left the vector loop is left at once. -/
theorem vectorStep_short (h : ¬ (16 ≤ s.len ∧ 16 ≤ s.rem)) :
    vectorStep source s = .done (.ok s) := by
  rw [vectorStep, GS_CHUNK_SIZE, if_neg h]

/-- A turn of the vector loop at an ASCII block. -/
theorem vectorStep_run_ascii (h : Bounded source s) (hlen : 16 ≤ s.len) (hrem : 16 ≤ s.rem)
    (hascii : mm_movemask_epi8 (block (rest source s)) = 0) :
    ∃ target, storePair s.target s.dst (zeroExtendLow (block (rest source s)))
        (zeroExtendHigh (block (rest source s))) = .ok target ∧
      vectorStep source s =
        .next ⟨s.src + 16, s.dst + 16, s.len - 16, s.rem - 16, target⟩ := by
  refine ⟨_, storePair_ok h hlen _ _, ?_⟩
  rw [vectorStep, GS_CHUNK_SIZE]
  rw [if_pos ⟨hlen, hrem⟩, access_ok (loadVecU_ok h.readable hrem), if_pos hascii,
    access_ok (storePair_ok h hlen _ _)]

/-- A turn of the vector loop at a block that is not ASCII. -/
theorem vectorStep_run (h : Bounded source s) (hlen : 16 ≤ s.len) (hrem : 16 ≤ s.rem)
    (hascii : mm_movemask_epi8 (block (rest source s)) ≠ 0) :
    vectorStep source s =
      if passes (block (rest source s)) then
        if nonCharacter (block (rest source s)) then
          .done (.ok { s with
            target := splice s.target s.dst.toNat (storedUnits (block (rest source s))) })
        else
          .next
            { src := s.src + src_adv (block (rest source s)),
              dst := s.dst + dst_adv (block (rest source s)),
              len := s.len - dst_adv (block (rest source s)),
              rem := s.rem - src_adv (block (rest source s)),
              target := splice s.target s.dst.toNat (storedUnits (block (rest source s))) }
      else .done (.ok s) := by
  rw [vectorStep, GS_CHUNK_SIZE]
  rw [if_pos ⟨hlen, hrem⟩, access_ok (loadVecU_ok h.readable hrem), if_neg hascii, ite_passes,
    access_ok (storePair_ok h hlen _ _)]
  rfl

/-- The vector loop is left without a fault, and has decoded nothing in its last turn. -/
theorem vectorStep_done (h : Bounded source s) {r : Except Fault Cursors}
    (hstep : vectorStep source s = .done r) : ∃ s', r = .ok s' ∧ Continues source s s' := by
  by_cases hc : 16 ≤ s.len ∧ 16 ≤ s.rem
  swap
  · rw [vectorStep_short hc] at hstep
    cases hstep
    exact ⟨s, rfl, Continues.refl h⟩
  by_cases hascii : mm_movemask_epi8 (block (rest source s)) = 0
  · obtain ⟨target, -, hnext⟩ := vectorStep_run_ascii h hc.1 hc.2 hascii
    rw [hnext] at hstep
    cases hstep
  rw [vectorStep_run h hc.1 hc.2 hascii] at hstep
  split at hstep
  case isFalse =>
    -- before the stores nothing has changed
    cases hstep
    exact ⟨s, rfl, Continues.refl h⟩
  case isTrue =>
    split at hstep
    case isFalse => cases hstep
    case isTrue =>
      cases hstep
      exact ⟨_, rfl, Continues.of_stores h hc.1 (storePair_ok h hc.1 _ _)⟩

/-- A turn of the vector loop that goes on. -/
theorem vectorStep_next (h : Bounded source s) (hstep : vectorStep source s = .next s') :
    16 ≤ s.len ∧ 16 ≤ s.rem ∧
      ((mm_movemask_epi8 (block (rest source s)) = 0 ∧ s'.src = s.src + 16 ∧
        s'.len = s.len - 16 ∧ Continues source s s') ∨
       (mm_movemask_epi8 (block (rest source s)) ≠ 0 ∧ accepts (block (rest source s)) = true ∧
        Advances (block (rest source s)) s s')) := by
  obtain ⟨hlen, hrem, chunk, hload, hs⟩ := vectorStep_eq_next hstep
  rw [loadVecU_ok h.readable hrem] at hload
  cases hload
  refine ⟨hlen, hrem, ?_⟩
  obtain ⟨hascii, target, hstore, rfl⟩ | ⟨hascii, hacc, target, hstore, rfl⟩ := hs
  · exact .inl ⟨hascii, rfl, rfl, Continues.of_ascii h hlen hrem hascii hstore⟩
  · obtain ⟨hsize, hfront⟩ := storePair_front h hlen hstore
    exact .inr ⟨hascii, hacc, rfl, rfl, rfl, rfl, hfront, hsize⟩

/-! ## Blocks that start with characters -/

/-- Advancing over characters goes on where the scalar loop would. -/
theorem Continues.of_advances (h : Bounded source s) (hlen : 16 ≤ s.len) (hrem : 16 ≤ s.rem)
    (hadv : Advances (block (rest source s)) s s') {us : List CodeUnit}
    (hsp : Spells ((rest source s).take (src_adv (block (rest source s))).toNat) us) :
    Decodes s s' us (src_adv (block (rest source s))).toNat ∧ Continues source s s' := by
  have hl := h.length_rest
  have hdst := h.dst_nonneg
  have hsrc := src_adv_cases (block (rest source s))
  have htake : (bytes (block (rest source s))).take (src_adv (block (rest source s))).toNat =
      (rest source s).take (src_adv (block (rest source s))).toNat := by
    rw [bytes_block (by omega), List.take_take, Nat.min_eq_left (by omega)]
  obtain ⟨hadvance, hfront⟩ := spelled_block (htake ▸ hsp)
  have hus := hsp.length_le
  rw [List.length_take] at hus
  have hd : Decodes s s' us (src_adv (block (rest source s))).toNat := by
    refine ⟨?_, ?_, ?_, ?_, ?_, hadv.size⟩
    · rw [hadv.src]
      omega
    · rw [hadv.dst, hadvance]
    · rw [hadv.len, hadvance]
    · rw [hadv.rem]
      omega
    · rw [show s'.dst.toNat = s.dst.toNat + us.length by rw [hadv.dst, hadvance]; omega,
        hadv.front _ (by omega), hfront]
  exact ⟨hd, Continues.of_spells h hd (by omega) (by omega) hsp⟩

/-- Every block that the vector loop decodes, with room for `n` units and the bytes `bs` left,
starts with the characters it advances over. -/
inductive BlocksSpell : ℕ → List Byte → Prop where
  /-- there is no block left -/
  | short {n : ℕ} {bs : List Byte} : ¬ (16 ≤ n ∧ 16 ≤ bs.length) → BlocksSpell n bs
  /-- the block is ASCII -/
  | ascii {n : ℕ} {bs : List Byte} :
      mm_movemask_epi8 (block bs) = 0 → BlocksSpell (n - 16) (bs.drop 16) → BlocksSpell n bs
  /-- one of the tests leaves the block to the scalar loop -/
  | rejected {n : ℕ} {bs : List Byte} :
      mm_movemask_epi8 (block bs) ≠ 0 → accepts (block bs) = false → BlocksSpell n bs
  /-- the block is decoded, and the bytes it advances over are characters -/
  | decoded {n : ℕ} {bs : List Byte} {us : List CodeUnit} :
      mm_movemask_epi8 (block bs) ≠ 0 → accepts (block bs) = true →
        Spells (bs.take (src_adv (block bs)).toNat) us →
        BlocksSpell (n - us.length) (bs.drop (src_adv (block bs)).toNat) → BlocksSpell n bs

/-- One turn of the vector loop at blocks that start with characters. -/
theorem vectorStep_continues (h : Bounded source s)
    (hb : BlocksSpell s.len.toNat (rest source s)) (hstep : vectorStep source s = .next s') :
    Continues source s s' ∧ BlocksSpell s'.len.toNat (rest source s') := by
  obtain ⟨hlen, hrem, hs⟩ := vectorStep_next h hstep
  have hl := h.length_rest
  obtain ⟨hascii, hsrc, hlen', hc⟩ | ⟨hascii, hacc, hadv⟩ := hs
  · refine ⟨hc, ?_⟩
    rw [rest_add (n := 16) h.src_nonneg hsrc, show s'.len.toNat = s.len.toNat - 16 by omega]
    cases hb with
    | short hshort => exact absurd ⟨by omega, by omega⟩ hshort
    | ascii _ hb => exact hb
    | rejected hne _ => exact absurd hascii hne
    | decoded hne _ _ _ => exact absurd hascii hne
  · cases hb with
    | short hshort => exact absurd ⟨by omega, by omega⟩ hshort
    | ascii hzero _ => exact absurd hzero hascii
    | rejected _ hrej =>
      rw [hrej] at hacc
      cases hacc
    | @decoded _ _ us _ _ hsp hb =>
      obtain ⟨hd, hc⟩ := Continues.of_advances h hlen hrem hadv hsp
      refine ⟨hc, ?_⟩
      have hlen' := hd.len
      rw [rest_add h.src_nonneg hd.src, show s'.len.toNat = s.len.toNat - us.length by omega]
      exact hb

/-- The vector loop goes on to a state where the scalar loop decodes what it would have decoded
from the start. -/
theorem vectorLoop_continues (h : Bounded source s)
    (hb : BlocksSpell s.len.toNat (rest source s)) :
    ∃ s', vectorLoop source s = .ok s' ∧ Continues source s s' := by
  refine Loop.exec_induction (vectorStep_decreases source)
    (C := fun s r => Bounded source s → BlocksSpell s.len.toNat (rest source s) →
      ∃ s', r = .ok s' ∧ Continues source s s') ?_ ?_ s h hb
  -- along the run: what a turn decodes comes before what the turns behind it decode
  · intro s r hstep h _
    exact vectorStep_done h hstep
  · intro s s' r hstep ih h hb
    obtain ⟨hc, hb'⟩ := vectorStep_continues h hb hstep
    obtain ⟨s'', rfl, hc'⟩ := ih hc.bounded hb'
    exact ⟨s'', rfl, hc.trans hc'⟩

/-- The two loops of a call. -/
theorem utf8BytesToArray_run {target : List CodeUnit} {off : ℤ} {e : ScalarExit}
    (hvec : vectorLoop source (entry source target off) = .ok s)
    (hscalar : SCALAR_LOOP source s = .ok e) :
    utf8BytesToArray source target off = .ok (e.decoded off) := by
  rw [utf8BytesToArray, hvec]
  change (do let e ← SCALAR_LOOP source s; return e.decoded off) = _
  rw [hscalar]
  rfl

/-- **The decoder yields** what the scalar loop makes of the bytes from its offset on, where the
blocks it decodes are characters. -/
theorem utf8BytesToArray_yields {off : ℤ} (h0 : 0 ≤ off) (h1 : off ≤ source.length)
    {target : List CodeUnit} (hb : BlocksSpell target.length (source.drop off.toNat)) :
    ∃ d, utf8BytesToArray source target off = .ok d ∧
      Yields source off (entry source target off) d := by
  obtain ⟨s, hvec, hc⟩ := vectorLoop_continues (bounded_entry h0 h1 target) hb
  obtain ⟨e, hscalar, hy⟩ := SCALAR_LOOP_yields off hc.bounded
  exact ⟨e.decoded off, utf8BytesToArray_run hvec hscalar, hy.of_continues hc⟩

/-- Where the bytes left are the front of bytes that spell units, or such bytes with anything behind
them and room for just their units, every block starts with characters. -/
theorem blocksSpell_of_front {n : ℕ} {bs left : List Byte} {us : List CodeUnit}
    (hsp : Spells bs us) (hleft : left <+: bs ∨ bs <+: left ∧ us.length = n) :
    BlocksSpell n left := by
  induction hm : bs.length using Nat.strong_induction_on generalizing n bs left us with
  | _ m ih =>
    by_cases hshort : 16 ≤ n ∧ 16 ≤ left.length
    swap
    · exact .short hshort
    have hle := hsp.length_le
    -- a block of the bytes left is a block of the bytes that spell
    have h16 : 16 ≤ bs.length := by
      obtain hfront | ⟨-, hn⟩ := hleft
      · have := hfront.length_le
        omega
      · omega
    have htake : ∀ k, k ≤ 16 → left.take k = bs.take k := by
      intro k hk
      obtain ⟨r, rfl⟩ | ⟨⟨r, rfl⟩, -⟩ := hleft
      · exact (List.take_append_of_le_length (by omega)).symm
      · exact List.take_append_of_le_length (by omega)
    have hdrop : ∀ k vs, us = vs ++ us.drop vs.length →
        left.drop k <+: bs.drop k ∨
          bs.drop k <+: left.drop k ∧ (us.drop vs.length).length = n - vs.length := by
      intro k vs hvs
      refine hleft.imp (fun hfront => hfront.drop k) fun hbehind => ⟨hbehind.1.drop k, ?_⟩
      rw [List.length_drop, hbehind.2]
    have hbytes : bytes (block left) = bs.take 16 := by
      rw [bytes_block hshort.2, htake 16 (le_refl 16)]
    by_cases hascii : mm_movemask_epi8 (block left) = 0
    · have hall := ascii_of_movemask hascii
      rw [hbytes] at hall
      obtain ⟨hus, hspells⟩ := hsp.drop_ascii 16 h16 hall
      have hlen : (us.take 16).length = 16 := List.length_take_of_le hus
      have hnext := hdrop 16 (us.take 16) (by rw [hlen, List.take_append_drop])
      rw [hlen] at hnext
      exact .ascii hascii (ih _ (by rw [List.length_drop]; omega) hspells hnext rfl)
    cases hacc : accepts (block left) with
    | false => exact .rejected hascii hacc
    | true =>
      obtain ⟨bs₁, bs₂, us₁, us₂, rfl, rfl, h₁, h₂, hcut⟩ := hsp.cut 16 h16
      have hadv := src_adv_of_spells h₁ hcut hbytes
      have hpos := src_adv_cases (block left)
      rw [List.length_append] at hm
      have hspells : Spells (left.take (src_adv (block left)).toNat) us₁ := by
        rw [htake _ (by omega), hadv, Int.toNat_natCast, List.take_left' rfl]
        exact h₁
      refine .decoded hascii hacc hspells ?_
      have hnext := hdrop bs₁.length us₁ (by rw [List.drop_left' rfl])
      rw [List.drop_left' rfl, List.drop_left' rfl] at hnext
      rw [hadv, Int.toNat_natCast]
      exact ih bs₂.length (by omega) h₂ hnext rfl

/-- Bytes that spell units start with characters in every block, whatever lies behind them, if
there is room for just these units or nothing lies behind them. -/
theorem blocksSpell_of_spells {n : ℕ} {bs tail : List Byte} {us : List CodeUnit}
    (hsp : Spells bs us) (hroom : us.length = n ∨ us.length ≤ n ∧ tail = []) :
    BlocksSpell n (bs ++ tail) := by
  obtain hn | ⟨-, rfl⟩ := hroom
  · exact blocksSpell_of_front hsp (.inr ⟨List.prefix_append bs tail, hn⟩)
  · rw [List.append_nil]
    exact blocksSpell_of_front hsp (.inl (List.prefix_refl bs))

end Native

end HzResearch
