import HzResearch.EncodedBlock
import HzResearch.ReadExtent

/-!
# What stands behind the decoded text

The scalar loop stores just the units it decodes (`SCALAR_LOOP_stays`). A block of the
vector loop stores sixteen units however few it decodes, and what it stores too much is
overwritten only as far as the text goes on. So with room for more units than the text
has, the elements behind the text are those of the last block that is stored
(`lastStore`), if it reaches that far, and the old ones behind that block: `behind`, by
`utf8BytesToArray_behind`.

`keepsSurplus_iff` is the result: for which texts a call leaves whatever stands behind
the decoded text alone, and for which arrays it does so.
-/

namespace HzResearch

namespace Native

open Simd Utf8

variable {source : List Byte} {s s' s'' : Cursors}

/-! ## The scalar loop -/

/-- The turns from `s` to `s'` have stored nothing from where `dst` got to on. -/
structure Stays (s s' : Cursors) : Prop where
  /-- `dst` does not move backwards -/
  forward : s.dst ≤ s'.dst
  /-- the elements behind keep their value -/
  above : ∀ i : ℕ, s'.dst ≤ i → s'.target[i]? = s.target[i]?

theorem Stays.refl (s : Cursors) : Stays s s := ⟨le_refl _, fun _ _ => rfl⟩

theorem Stays.trans (h : Stays s s') (h' : Stays s' s'') : Stays s s'' where
  forward := h.forward.trans h'.forward
  above := fun i hi => (h'.above i hi).trans (h.above i (h'.forward.trans hi))

/-- Storing the next unit. -/
theorem Stays.of_store {target : List CodeUnit} {c : CodeUnit}
    (h : storeUnit s.target s.dst c = .ok target) (src len rem : ℤ) :
    Stays s ⟨src, s.dst + 1, len, rem, target⟩ := by
  unfold storeUnit at h
  split at h
  case isFalse => cases h
  case isTrue hc =>
    cases h
    refine ⟨by simp, fun i hi => ?_⟩
    change s.dst + 1 ≤ i at hi
    exact getElem?_splice_of_not_mem (by omega)
      (.inr (by rw [List.length_singleton]; omega))

theorem asciiLoop_stays (h : asciiLoop source s = .ok s') : Stays s s' := by
  refine Loop.exec_induction (asciiStep_decreases source)
    (C := fun s r => ∀ s', r = .ok s' → Stays s s') ?_ ?_ s s' h
  · rintro s r hdone s' rfl
    obtain rfl := asciiStep_eq_done hdone
    exact Stays.refl _
  · rintro s t r hnext ih s' rfl
    obtain ⟨-, -, c0, target, -, -, hstore, rfl⟩ := asciiStep_eq_next hnext
    exact (Stays.of_store hstore _ _ _).trans (ih s' rfl)

/-- Where `SCALAR_LOOP` is left. -/
def ScalarExit.cursors : ScalarExit → Cursors
  | .finished s => s
  | .returned s => s

@[simp] theorem ScalarExit.count_decoded (e : ScalarExit) (off : ℤ) :
    (e.decoded off).count = e.cursors.dst := by
  cases e <;> rfl

@[simp] theorem ScalarExit.target_decoded (e : ScalarExit) (off : ℤ) :
    (e.decoded off).target = e.cursors.target := by
  cases e <;> rfl

theorem utfLoop_stays {e : ScalarExit} (h : utfLoop source s = .ok e) : Stays s e.cursors := by
  refine Loop.exec_induction (utfStep_decreases source)
    (C := fun s r => ∀ e, r = .ok e → Stays s e.cursors) ?_ ?_ s e h
  · rintro s r hdone e rfl
    obtain rfl | ⟨src, len, rem, rfl⟩ := utfStep_eq_done hdone
    · exact Stays.refl s
    · exact ⟨le_refl _, fun _ _ => rfl⟩
  · rintro s t r hnext ih e rfl
    obtain ⟨-, -, c, target, hstore, n, -, -, -, rfl⟩ := utfStep_eq_next hnext
    exact (Stays.of_store hstore _ _ _).trans (ih e rfl)

/-- `SCALAR_LOOP` stores just the units it decodes. -/
theorem SCALAR_LOOP_stays {e : ScalarExit} (h : SCALAR_LOOP source s = .ok e) :
    Stays s e.cursors := by
  rw [SCALAR_LOOP] at h
  rcases hascii : asciiLoop source s with f | s' <;> rw [hascii] at h
  · cases h
  · exact (asciiLoop_stays hascii).trans (utfLoop_stays h)

/-! ## The last block that is stored -/

theorem length_whole_pos {t : List CodeUnit} (h : 16 ≤ (encode t).length) :
    0 < (whole 16 t).length := by
  rcases t with _ | ⟨c, t⟩
  · rw [encode_nil, List.length_nil] at h
    omega
  · have := (length_encodeUnit c).2
    rw [whole, if_pos (by omega)]
    exact Nat.succ_pos _

theorem length_whole_add (n : ℕ) (t : List CodeUnit) :
    (whole n t).length + (t.drop (whole n t).length).length = t.length := by
  obtain ⟨t', ht, -⟩ := whole_append n t
  have hlen := congrArg List.length ht
  rw [List.length_append] at hlen
  rw [List.length_drop]
  omega

/-- What the complete units leave of the encoded text is the encoding of the others. -/
theorem drop_encode_whole (n : ℕ) (t : List CodeUnit) :
    (encode t).drop (encode (whole n t)).length = encode (t.drop (whole n t).length) := by
  obtain ⟨t', ht, -⟩ := whole_append n t
  generalize whole n t = w at ht
  rw [ht, encode_append, List.drop_left' rfl, List.drop_left' rfl]

/-- The units of the text before the last block that is stored, with room for `n` units. A block
with two bytes of a surrogate in it is not stored, and one with a noncharacter is the last. -/
def lastStore (n : ℕ) (t : List CodeUnit) : Option ℕ :=
  if _h : 16 ≤ n ∧ 16 ≤ (encode t).length then
    if ∃ c ∈ entered 16 t, IsSurrogate c then none
    else if ∃ c ∈ whole 16 t, IsNonCharacter c then some 0
    else
      some ((lastStore (n - (whole 16 t).length) (t.drop (whole 16 t).length)).elim 0
        ((whole 16 t).length + ·))
  else none
termination_by t.length
decreasing_by
  have hpos := length_whole_pos _h.2
  have hadd := length_whole_add 16 t
  omega

section LastStore

variable {n : ℕ} {t : List CodeUnit}

theorem lastStore_short (h : ¬ (16 ≤ n ∧ 16 ≤ (encode t).length)) : lastStore n t = none := by
  rw [lastStore, dif_neg h]

theorem lastStore_rejected (h : 16 ≤ n ∧ 16 ≤ (encode t).length)
    (hpass : passes (block (encode t)) = false) : lastStore n t = none := by
  have hsur : ∃ c ∈ entered 16 t, IsSurrogate c := by
    by_contra hno
    rw [(passes_block_iff h.2).mpr hno] at hpass
    cases hpass
  rw [lastStore, dif_pos h, if_pos hsur]

theorem lastStore_stored (h : 16 ≤ n ∧ 16 ≤ (encode t).length)
    (hpass : passes (block (encode t)) = true) (hnon : nonCharacter (block (encode t)) = true) :
    lastStore n t = some 0 := by
  rw [lastStore, dif_pos h, if_neg ((passes_block_iff h.2).mp hpass),
    if_pos ((nonCharacter_block_iff h.2).mp hnon)]

theorem lastStore_decoded (h : 16 ≤ n ∧ 16 ≤ (encode t).length)
    (hpass : passes (block (encode t)) = true) (hnon : nonCharacter (block (encode t)) = false) :
    lastStore n t =
      some ((lastStore (n - (whole 16 t).length) (t.drop (whole 16 t).length)).elim 0
        ((whole 16 t).length + ·)) := by
  have hclean : ¬ ∃ c ∈ whole 16 t, IsNonCharacter c := by
    rw [← nonCharacter_block_iff h.2, hnon]
    exact Bool.false_ne_true
  rw [lastStore, dif_pos h, if_neg ((passes_block_iff h.2).mp hpass), if_neg hclean]

/-- Sixteen units are stored from there on: there is room for them. -/
theorem lastStore_le {D : ℕ} (h : lastStore n t = some D) : D + 16 ≤ n ∧ D ≤ t.length := by
  induction hm : t.length using Nat.strong_induction_on generalizing n t D with
  | _ m ih =>
    by_cases hc : 16 ≤ n ∧ 16 ≤ (encode t).length
    swap
    · rw [lastStore_short hc] at h
      cases h
    cases hpass : passes (block (encode t)) with
    | false =>
      rw [lastStore_rejected hc hpass] at h
      cases h
    | true =>
      cases hnon : nonCharacter (block (encode t)) with
      | true =>
        rw [lastStore_stored hc hpass hnon] at h
        cases h
        exact ⟨by omega, Nat.zero_le _⟩
      | false =>
        rw [lastStore_decoded hc hpass hnon] at h
        have hpos := length_whole_pos hc.2
        have hadd := length_whole_add 16 t
        rcases hlast : lastStore (n - (whole 16 t).length) (t.drop (whole 16 t).length)
            with _ | D' <;> rw [hlast] at h
        · obtain rfl : 0 = D := Option.some.inj h
          exact ⟨by omega, Nat.zero_le _⟩
        · obtain rfl : (whole 16 t).length + D' = D := Option.some.inj h
          have hle := ih _ (by omega) hlast rfl
          omega

end LastStore

/-! ## Behind the text -/

/-- The target array as if the last block alone had been stored. -/
def afterLast (n : ℕ) (t target : List CodeUnit) (dst : ℕ) : List CodeUnit :=
  (lastStore n t).elim target fun D =>
    splice target (dst + D) (storedUnits (block (encode (t.drop D))))

@[simp] theorem length_storedUnits (chunk : Vec) : (storedUnits chunk).length = 16 := by
  simp [storedUnits]

/-- A block that is decoded makes no difference behind the text, unless it is the last one. -/
theorem afterLast_decoded {n dst i : ℕ} {t us target : List CodeUnit}
    (h : 16 ≤ n ∧ 16 ≤ (encode t).length) (hpass : passes (block (encode t)) = true)
    (hnon : nonCharacter (block (encode t)) = false) (hus : us.length = 16)
    (hall : us = storedUnits (block (encode t)) ∨ (whole 16 t).length = 16)
    (hroom : dst + n ≤ target.length) (hi : dst + t.length ≤ i) :
    (afterLast n t target dst)[i]? =
      (afterLast (n - (whole 16 t).length) (t.drop (whole 16 t).length) (splice target dst us)
        (dst + (whole 16 t).length))[i]? := by
  have hadd := length_whole_add 16 t
  rw [afterLast, afterLast, lastStore_decoded h hpass hnon]
  rcases hlast : lastStore (n - (whole 16 t).length) (t.drop (whole 16 t).length) with _ | D
  · change (splice target (dst + 0) (storedUnits (block (encode (t.drop 0)))))[i]? =
      (splice target dst us)[i]?
    obtain rfl | hsixteen := hall
    · rfl
    · rw [getElem?_splice_of_not_mem (by omega) (.inr (by rw [length_storedUnits]; omega)),
        getElem?_splice_of_not_mem (by omega) (.inr (by omega))]
  · obtain ⟨hD, hDt⟩ := lastStore_le hlast
    change (splice target (dst + ((whole 16 t).length + D)) _)[i]? =
      (splice (splice target dst us) (dst + (whole 16 t).length + D) _)[i]?
    rw [List.drop_drop, ← Nat.add_assoc]
    refine getElem?_splice_congr (by omega) ?_ fun hout => ?_
    · rw [length_splice (by omega)]
      omega
    · rw [length_storedUnits] at hout
      exact (getElem?_splice_of_not_mem (by omega) (.inr (by omega))).symm

/-- The vector loop over encoded text, and what stands behind the text then. -/
theorem vectorLoop_behind (h : Bounded source s) {t : List CodeUnit}
    (ht : rest source s = encode t) (hroom : t.length ≤ s.len) :
    ∃ s', vectorLoop source s = .ok s' ∧ Continues source s s' ∧
      ∀ i, s.dst.toNat + t.length ≤ i →
        s'.target[i]? = (afterLast s.len.toNat t s.target s.dst.toNat)[i]? := by
  refine Loop.exec_induction (vectorStep_decreases source)
    (C := fun s r => Bounded source s → ∀ t, rest source s = encode t → (t.length : ℤ) ≤ s.len →
      ∃ s', r = .ok s' ∧ Continues source s s' ∧ ∀ i, s.dst.toNat + t.length ≤ i →
        s'.target[i]? = (afterLast s.len.toNat t s.target s.dst.toNat)[i]?) ?_ ?_ s h t ht hroom
  · intro s r hdone h t ht hroom
    have hlen := h.length_rest
    have hdst := h.dst_nonneg
    rw [ht] at hlen
    by_cases hc : 16 ≤ s.len ∧ 16 ≤ s.rem
    swap
    · rw [vectorStep_short hc] at hdone
      cases hdone
      refine ⟨s, rfl, Continues.refl h, fun i _ => ?_⟩
      rw [afterLast, lastStore_short (by omega)]
      rfl
    have hturn := vectorStep_text h hc.1 (ht.trans (List.append_nil _).symm) (by omega)
    rw [hdone] at hturn
    cases hturn with
    | rejected hpass =>
      refine ⟨s, rfl, Continues.refl h, fun i _ => ?_⟩
      rw [ht] at hpass
      rw [afterLast, lastStore_rejected (by omega) hpass]
      rfl
    | stored hpass hnon =>
      refine ⟨_, rfl, Continues.of_stores h hc.1 (storePair_ok h hc.1 _ _), fun i _ => ?_⟩
      rw [ht] at hpass hnon
      rw [afterLast, lastStore_stored (by omega) hpass hnon, ht]
      rfl
  -- the blocks behind store over what this one leaves, unless none of them is stored
  · intro s s' r hnext ih h t ht hroom
    have hlen := h.length_rest
    have hdst := h.dst_nonneg
    have hsize := h.dst_len
    rw [ht] at hlen
    obtain ⟨hlen16, hrem16, -⟩ := vectorStep_next h hnext
    have hturn := vectorStep_text h hlen16 (ht.trans (List.append_nil _).symm) (by omega)
    rw [hnext] at hturn
    cases hturn with
    | @decoded _ us hpass hnon htarget hus hall hd hcont =>
      have hadd := length_whole_add 16 t
      have hlen' := hd.len
      have hdst' := hd.dst
      have hrest : rest source s' = encode (t.drop (whole 16 t).length) := by
        rw [rest_add h.src_nonneg hd.src, ht, drop_encode_whole]
      have hroom' : s'.len.toNat = s.len.toNat - (whole 16 t).length := by omega
      have hdst'' : s'.dst.toNat = s.dst.toNat + (whole 16 t).length := by omega
      obtain ⟨s'', hr, hc', hbehind⟩ := ih hcont.bounded _ hrest (by omega)
      refine ⟨s'', hr, hcont.trans hc', fun i hi => ?_⟩
      rw [ht] at hpass hnon hall
      rw [hbehind i (by omega), hroom', hdst'', htarget,
        afterLast_decoded (by omega) hpass hnon hus hall (by omega) hi]

/-- What a call leaves of the array behind the text. -/
theorem utf8BytesToArray_behind (before : List Byte) (t target : List CodeUnit)
    (h : t.length ≤ target.length) :
    ∃ d, utf8BytesToArray (before ++ encode t) target before.length = .ok d ∧
      d.target.take t.length = t ∧
      ∀ i, t.length ≤ i → d.target[i]? = (afterLast target.length t target 0)[i]? := by
  have hbound : Bounded (before ++ encode t) (entry (before ++ encode t) target before.length) :=
    bounded_entry (Int.natCast_nonneg _) (by rw [List.length_append]; omega) target
  have hrest : rest (before ++ encode t) (entry (before ++ encode t) target before.length) =
      encode t := by
    change (before ++ encode t).drop (before.length : ℤ).toNat = _
    rw [Int.toNat_natCast, List.drop_left' rfl]
  obtain ⟨s, hvec, hc, hbehind⟩ := vectorLoop_behind hbound hrest (Int.ofNat_le.mpr h)
  obtain ⟨e, hscalar, hy⟩ := SCALAR_LOOP_yields before.length hc.bounded
  have hstays := SCALAR_LOOP_stays hscalar
  have hy := hy.of_continues hc
  -- the scalar loop ends with the text and stores nothing behind it
  have hread : reading (before ++ encode t) (entry (before ++ encode t) target before.length) =
      ⟨t, some (encode t).length⟩ := by
    have hsp := scalarDecode_spelled (spells_encode t) target.length [] h
    rw [List.append_nil, scalarDecode_nil] at hsp
    rw [reading, hrest]
    refine hsp.trans ?_
    rw [Reading.after, List.append_nil]
    rfl
  have hcount : e.cursors.dst = t.length := by
    have hcount := hy.count
    rw [hread] at hcount
    rw [ScalarExit.count_decoded] at hcount
    exact hcount.trans (Int.zero_add _)
  refine ⟨_, utf8BytesToArray_run hvec hscalar, ?_, fun i hi => ?_⟩
  · have hfront := hy.front
    rw [hy.count, hread] at hfront
    simpa [entry] using hfront
  · rw [ScalarExit.target_decoded, hstays.above i (by omega)]
    exact hbehind i (by change 0 + t.length ≤ i; omega)

/-! ## Leaving the surplus alone -/

/-- The call decodes the text to the first elements of the array and leaves those behind alone. -/
def KeepsSurplus (before : List Byte) (t target : List CodeUnit) : Prop :=
  ∃ d, utf8BytesToArray (before ++ encode t) target before.length = .ok d ∧
    d.target.take t.length = t ∧ ∀ i, t.length ≤ i → d.target[i]? = target[i]?

/-- What the last block stores behind the text stands there already. -/
def SurplusStands (t target : List CodeUnit) : Prop :=
  ∀ D, lastStore target.length t = some D → ∀ i, t.length ≤ i → i < D + 16 →
    (storedUnits (block (encode (t.drop D))))[i - D]? = target[i]?

theorem keepsSurplus_iff_stands (before : List Byte) {t target : List CodeUnit}
    (h : t.length ≤ target.length) : KeepsSurplus before t target ↔ SurplusStands t target := by
  obtain ⟨d, hd, hfront, hbehind⟩ := utf8BytesToArray_behind before t target h
  have hkeeps : KeepsSurplus before t target ↔
      ∀ i, t.length ≤ i → (afterLast target.length t target 0)[i]? = target[i]? := by
    constructor
    · rintro ⟨d', hd', -, hsame⟩ i hi
      rw [hd] at hd'
      cases hd'
      rw [← hbehind i hi, hsame i hi]
    · intro hsame
      exact ⟨d, hd, hfront, fun i hi => by rw [hbehind i hi, hsame i hi]⟩
  -- behind the text only the last block counts
  rw [hkeeps, SurplusStands, afterLast]
  cases hlast : lastStore target.length t with
  | none => exact iff_of_true (fun i _ => rfl) (fun D hD => by cases hD)
  | some D =>
    obtain ⟨hroom, hD⟩ := lastStore_le hlast
    change (∀ i, t.length ≤ i →
      (splice target (0 + D) (storedUnits (block (encode (t.drop D)))))[i]? = target[i]?) ↔ _
    rw [Nat.zero_add]
    constructor
    · rintro hsame D' hD' i hi hlt
      cases hD'
      obtain ⟨k, rfl⟩ : ∃ k, i = D + k := ⟨i - D, by omega⟩
      rw [← hsame _ hi, getElem?_splice_of_mem (by omega) (by rw [length_storedUnits]; omega),
        Nat.add_sub_cancel_left]
    · intro hstands i hi
      rcases Nat.lt_or_ge i (D + 16) with hlt | hge
      · have hsame := hstands D rfl i hi hlt
        obtain ⟨k, rfl⟩ : ∃ k, i = D + k := ⟨i - D, by omega⟩
        rw [getElem?_splice_of_mem (by omega) (by rw [length_storedUnits]; omega), ← hsame,
          Nat.add_sub_cancel_left]
      · exact getElem?_splice_of_not_mem (by omega) (.inr (by rw [length_storedUnits]; omega))

/-- **The surplus of the array** is left alone, whatever it holds, exactly if the last block that is
stored ends inside the text; a given array keeps its surplus exactly if what that block stores
behind the text stands there already. -/
theorem keepsSurplus_iff (before : List Byte) (t : List CodeUnit) (n : ℕ) (hn : t.length < n) :
    ((∀ target : List CodeUnit, target.length = n → KeepsSurplus before t target) ↔
      ∀ D, lastStore n t = some D → D + 16 ≤ t.length) ∧
    ∀ target : List CodeUnit, target.length = n →
      (KeepsSurplus before t target ↔ SurplusStands t target) := by
  refine ⟨⟨fun hkeeps D hD => ?_, fun hinside target htarget => ?_⟩, fun target htarget =>
    keepsSurplus_iff_stands before (by omega)⟩
  · obtain ⟨hroom, hDt⟩ := lastStore_le hD
    by_contra hover
    -- an array that does not hold the unit that is stored first behind the text
    have hk : t.length - D < (storedUnits (block (encode (t.drop D)))).length := by
      rw [length_storedUnits]
      omega
    have hlength : (List.replicate n
        ((storedUnits (block (encode (t.drop D))))[t.length - D] + 1)).length = n :=
      List.length_replicate
    have hstands := (keepsSurplus_iff_stands before (by omega)).mp (hkeeps _ hlength)
    have hunit := hstands D (by rw [hlength, hD]) t.length (le_refl _) (by omega)
    rw [List.getElem?_eq_getElem hk, List.getElem?_replicate_of_lt hn] at hunit
    have hne := Option.some.inj hunit
    bv_omega
  · rw [keepsSurplus_iff_stands before (by omega)]
    intro D hD i hi hlt
    rw [htarget] at hD
    have := hinside D hD
    omega

/-- Twenty letters in an array of forty elements. -/
theorem keepsSurplus_letters :
    ((∀ target : List CodeUnit, target.length = 40 →
        KeepsSurplus [0xFF] (List.replicate 20 0x41) target) ↔
      ∀ D, lastStore 40 (List.replicate 20 0x41) = some D →
        D + 16 ≤ (List.replicate 20 (0x41 : CodeUnit)).length) ∧
    ∀ target : List CodeUnit, target.length = 40 →
      (KeepsSurplus [0xFF] (List.replicate 20 0x41) target ↔
        SurplusStands (List.replicate 20 0x41) target) :=
  keepsSurplus_iff [0xFF] (List.replicate 20 0x41) 40 (by decide)

/-- Eight accented letters make one block, whose other units stay behind them in the array. -/
theorem not_keepsSurplus_accents :
    ¬ KeepsSurplus [] (List.replicate 8 0xE9) (List.replicate 16 0) := by
  have hpass : passes (block (encode (List.replicate 8 0xE9))) = true := by decide +kernel
  have hunit : (storedUnits (block (encode (List.replicate 8 0xE9))))[8]? = some 0xE9 := by
    decide +kernel
  have hlast : lastStore 16 (List.replicate 8 0xE9) = some 0 := by
    cases hnon : nonCharacter (block (encode (List.replicate 8 0xE9))) with
    | true => exact lastStore_stored (by decide) hpass hnon
    | false =>
      rw [lastStore_decoded (by decide) hpass hnon, lastStore_short (by decide)]
      rfl
  rw [keepsSurplus_iff_stands [] (by decide)]
  intro hstands
  have hzero := hstands 0 hlast 8 (by decide) (by decide)
  rw [List.drop_zero, Nat.sub_zero, hunit] at hzero
  exact absurd hzero (by decide)

end Native

end HzResearch
