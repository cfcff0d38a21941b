import HzResearch.VectorLoop

/-!
# Truncated input

A proper front of an encoded sequence is the encoding of some of its units and a part
of the next one (`encode_front`). The scalar loop decodes those units and stops at the
end of the bytes, or gives up inside the part (`scalarDecode_part`); no block of the
vector loop reaches into it, since each advances to the end of a character only. So the
whole decoder reports the truncation exactly: `decode_truncated`.
-/

namespace HzResearch

namespace Native

open Utf8

/-- The bytes of a proper front of an encoded sequence. -/
theorem encode_front {b r : List Byte} (hr : r ≠ []) : ∀ {us : List CodeUnit}, b ++ r = encode us →
    ∃ done u more part missing, us = done ++ u :: more ∧ b = encode done ++ part ∧
      part ++ missing = encodeUnit u ∧ missing ≠ [] := by
  intro us
  induction us generalizing b with
  | nil =>
    intro h
    exact absurd (List.append_eq_nil_iff.mp h).2 hr
  | cons u us ih =>
    intro h
    rw [encode_cons] at h
    obtain ⟨b', rfl, h'⟩ | ⟨missing, hunit, -⟩ := List.append_eq_append_iff.mp h.symm
    · -- the first unit is complete
      obtain ⟨done, v, more, part, missing, rfl, rfl, hpart, hne⟩ := ih h'.symm
      exact ⟨u :: done, v, more, part, missing, rfl, by rw [encode_cons, List.append_assoc],
        hpart, hne⟩
    · by_cases hne : missing = []
      · subst hne
        rw [List.append_nil] at hunit
        rw [hunit, List.append_cancel_left_eq] at h
        obtain ⟨done, v, more, part, missing, rfl, hb, hpart, hne⟩ :=
          ih (b := []) (by simpa using h)
        refine ⟨u :: done, v, more, part, missing, rfl, ?_, hpart, hne⟩
        rw [encode_cons, List.append_assoc, ← hb, List.append_nil, hunit]
      · exact ⟨[], u, us, b, missing, rfl, rfl, hunit.symm, hne⟩

/-- The scalar loop on a part of the bytes of a unit. -/
theorem scalarDecode_part {u : CodeUnit} {part missing : List Byte}
    (h : part ++ missing = encodeUnit u) (hne : missing ≠ []) (n : ℕ) :
    scalarDecode (n + 1) part = ⟨[], if part = [] then some 0 else none⟩ := by
  rcases part with _ | ⟨l, part⟩
  · rfl
  rw [if_neg (List.cons_ne_nil l part)]
  have hs := spelling_encodeUnit u
  rw [← h] at hs
  generalize hall : l :: part ++ missing = all at hs
  have hpos := List.length_pos_iff.mpr hne
  cases hs with
  | one ha hc =>
    have hlen := congrArg List.length hall
    rw [List.length_append, List.length_cons, List.length_singleton] at hlen
    omega
  | two hl hk hc =>
    have hl1 := hl.1
    rcases part with _ | ⟨k', part⟩
    · obtain ⟨rfl, -⟩ := List.cons.inj hall
      exact scalarDecode_cut_two (by bv_omega) n
    · have hlen := congrArg List.length hall
      simp only [List.length_append, List.length_cons, List.length_nil] at hlen
      omega
  | three hl hm hk hc =>
    have hl1 := hl.1
    rcases part with _ | ⟨m', _ | ⟨k', part⟩⟩
    · obtain ⟨rfl, -⟩ := List.cons.inj hall
      exact scalarDecode_cut_two (by bv_omega) n
    · obtain ⟨rfl, -⟩ := List.cons.inj hall
      exact scalarDecode_cut_three (by bv_omega) n m'
    · have hlen := congrArg List.length hall
      simp only [List.length_append, List.length_cons, List.length_nil] at hlen
      omega

/-- **Truncated input is reported exactly**: on a proper front of an encoded sequence the decoder
stores the units whose bytes are complete, and returns the number of bytes if the front ends with
them and `-1` if it ends inside a unit. -/
theorem decode_truncated (units : List CodeUnit) (before b r : List Byte)
    (hb : b ++ r = encode units) (hr : r ≠ []) (target : List CodeUnit)
    (ht : target.length = units.length) :
    ∃ done u more part missing, units = done ++ u :: more ∧ b = encode done ++ part ∧
      part ++ missing = encodeUnit u ∧ missing ≠ [] ∧
      ∃ d, utf8BytesToArray (before ++ b) target before.length = .ok d ∧
        d.target.take done.length = done ∧ d.value = if part = [] then (b.length : ℤ) else -1 := by
  obtain ⟨done, u, more, part, missing, hus, hsplit, hpart, hne⟩ := encode_front hr hb
  refine ⟨done, u, more, part, missing, hus, hsplit, hpart, hne, ?_⟩
  have hdrop : (before ++ b).drop (before.length : ℤ).toNat = b := by
    rw [Int.toNat_natCast, List.drop_left' rfl]
  have hblocks : BlocksSpell target.length ((before ++ b).drop (before.length : ℤ).toNat) := by
    rw [hdrop]
    exact blocksSpell_of_front (spells_encode units) (.inl ⟨r, hb⟩)
  obtain ⟨d, hd, hy⟩ := utf8BytesToArray_yields (Int.natCast_nonneg _)
    (by rw [List.length_append]; omega) hblocks
  refine ⟨d, hd, ?_⟩
  -- the scalar reading stops inside the unit that is cut
  have hread : reading (before ++ b) (entry (before ++ b) target before.length) =
      ⟨done, if part = [] then some (encode done).length else none⟩ := by
    have hroom : target.length - done.length = more.length + 1 := by
      rw [ht, hus, List.length_append, List.length_cons]
      omega
    change scalarDecode target.length ((before ++ b).drop (before.length : ℤ).toNat) = _
    rw [hdrop, hsplit, scalarDecode_spelled (spells_encode done) _ _ (by omega), hroom,
      scalarDecode_part hpart hne, Reading.after, List.append_nil]
    split <;> rfl
  have hvalue := hy.value
  have hfront := hy.front
  rw [hread] at hvalue
  rw [hy.count, hread] at hfront
  refine ⟨by simpa [entry] using hfront, ?_⟩
  rw [hvalue]
  by_cases hnil : part = []
  · rw [if_pos hnil, if_pos hnil, hsplit, hnil, List.append_nil]
    simp [entry, Reading.value]
  · rw [if_neg hnil, if_neg hnil]
    rfl

/-- The last of twenty accented letters is cut in half. -/
theorem decode_truncated_half :
    ∃ done u more part missing, List.replicate 20 0xE9 = done ++ u :: more ∧
      (encode (List.replicate 20 0xE9)).take 39 = encode done ++ part ∧
      part ++ missing = encodeUnit u ∧ missing ≠ [] ∧
      ∃ d, utf8BytesToArray ([0xFF] ++ (encode (List.replicate 20 0xE9)).take 39)
          (List.replicate 20 0) 1 = .ok d ∧
        d.target.take done.length = done ∧ d.value = if part = [] then 39 else -1 :=
  decode_truncated (List.replicate 20 0xE9) [0xFF] ((encode (List.replicate 20 0xE9)).take 39)
    [0xA9] rfl (by decide) (List.replicate 20 0) rfl

end Native

end HzResearch
