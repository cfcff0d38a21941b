import HzResearch.VectorLoop

/-!
# How far a call reads

Whatever the bytes are, every loop reads them in order and none twice
(`ReadsOn`), so a call that returns has read part of the source or returns `-1`
(`value_bounds`); the target array keeps its length (`length_target`).

If the target array has room for more units than the bytes of a string spell, and
bytes lie behind the string, the call does not stop at the end of the string: it
returns `-1` or reads on (`reads_past`). The invariant `Within` says how: the loops
are past the end of the string, or still at one of its characters.
-/

namespace HzResearch

namespace Native

open Simd Utf8

variable {source : List Byte} {s s' s'' : Cursors}

/-! ## Stores -/

theorem length_storeUnit {target target' : List CodeUnit} {i : ℤ} {c : CodeUnit}
    (h : storeUnit target i c = .ok target') : target'.length = target.length := by
  unfold storeUnit at h
  split at h
  case isTrue hi =>
    cases h
    exact length_splice (by rw [List.length_singleton]; omega)
  case isFalse => cases h

theorem length_storeVecU {target target' : List CodeUnit} {i : ℤ} {v : Vec}
    (h : storeVecU target i v = .ok target') : target'.length = target.length := by
  unfold storeVecU at h
  split at h
  case isTrue hi =>
    cases h
    exact length_splice (by rw [length_units]; omega)
  case isFalse => cases h

theorem length_storePair {target target' : List CodeUnit} {i : ℤ} {low high : Vec}
    (h : storePair target i low high = .ok target') : target'.length = target.length := by
  unfold storePair at h
  rcases hlow : storeVecU target i low with f | t <;> rw [hlow] at h
  · cases h
  · exact (length_storeVecU h).trans (length_storeVecU hlow)

/-! ## Reading on -/

/-- Bytes are read in order, and no more than there are. -/
structure ReadsOn (s s' : Cursors) : Prop where
  /-- `src` does not move backwards -/
  forward : s.src ≤ s'.src
  /-- what is read is no longer left -/
  total : s'.src + s'.rem = s.src + s.rem
  /-- `rem` does not become negative -/
  rem_nonneg : 0 ≤ s.rem → 0 ≤ s'.rem
  /-- the target array keeps its length -/
  length_eq : s'.target.length = s.target.length

theorem ReadsOn.refl (s : Cursors) : ReadsOn s s := ⟨le_refl _, rfl, id, rfl⟩

theorem ReadsOn.trans (h : ReadsOn s s') (h' : ReadsOn s' s'') : ReadsOn s s'' :=
  ⟨h.forward.trans h'.forward, h'.total.trans h.total, h'.rem_nonneg ∘ h.rem_nonneg,
    h'.length_eq.trans h.length_eq⟩

/-- A turn that reads `n` of the bytes left. -/
theorem ReadsOn.of_turn {n : ℤ} (h0 : 0 ≤ n) (hn : n ≤ s.rem) (hsrc : s'.src = s.src + n)
    (hrem : s'.rem = s.rem - n) (hlen : s'.target.length = s.target.length) : ReadsOn s s' := by
  constructor <;> omega

theorem vectorStep_readsOn (h : vectorStep source s = .next s') : ReadsOn s s' := by
  obtain ⟨-, hrem, chunk, -, ⟨-, target, hstore, rfl⟩ | ⟨-, -, target, hstore, rfl⟩⟩ :=
    vectorStep_eq_next h
  · exact ReadsOn.of_turn (n := 16) (by omega) hrem rfl rfl (length_storePair hstore)
  · have := src_adv_cases chunk
    exact ReadsOn.of_turn (by omega) (by omega) rfl rfl (length_storePair hstore)

/-- The vector loop is left where its last turn started, its stores apart. -/
theorem vectorStep_left (h : vectorStep source s = .done (.ok s')) :
    ∃ target : List CodeUnit, target.length = s.target.length ∧ s' = { s with target } := by
  obtain ⟨-, rfl⟩ | ⟨-, -, chunk, -, -, ⟨-, rfl⟩ | ⟨-, -, target, hstore, rfl⟩⟩ :=
    vectorStep_eq_done h
  · exact ⟨_, rfl, rfl⟩
  · exact ⟨_, rfl, rfl⟩
  · exact ⟨target, length_storePair hstore, rfl⟩

theorem vectorLoop_readsOn (h : vectorLoop source s = .ok s') : ReadsOn s s' := by
  refine Loop.exec_induction (vectorStep_decreases source)
    (C := fun s r => ∀ s', r = .ok s' → ReadsOn s s') ?_ ?_ s s' h
  · rintro s r hdone s' rfl
    obtain ⟨target, hlen, rfl⟩ := vectorStep_left hdone
    exact ⟨le_refl _, rfl, id, hlen⟩
  · rintro s t r hnext ih s' rfl
    exact (vectorStep_readsOn hnext).trans (ih s' rfl)

theorem asciiLoop_readsOn (h : asciiLoop source s = .ok s') : ReadsOn s s' := by
  refine Loop.exec_induction (asciiStep_decreases source)
    (C := fun s r => ∀ s', r = .ok s' → ReadsOn s s') ?_ ?_ s s' h
  · rintro s r hdone s' rfl
    obtain rfl := asciiStep_eq_done hdone
    exact ReadsOn.refl _
  · rintro s t r hnext ih s' rfl
    obtain ⟨-, hrem, c0, target, -, -, hstore, rfl⟩ := asciiStep_eq_next hnext
    exact (ReadsOn.of_turn (n := 1) (by omega) (by omega) rfl rfl (length_storeUnit hstore)).trans
      (ih s' rfl)

/-- The scalar loop is left by `return -1`, or where it reads on from `s`. -/
def Exits (s : Cursors) : ScalarExit → Prop
  | .finished s' => ReadsOn s s'
  | .returned s' => s'.target.length = s.target.length

theorem utfStep_exits {e : ScalarExit} (h : utfStep source s = .done (.ok e)) : Exits s e := by
  obtain rfl | ⟨src, len, rem, rfl⟩ := utfStep_eq_done h
  · exact ReadsOn.refl s
  · rfl

theorem Exits.of_readsOn {e : ScalarExit} (h : ReadsOn s s') (he : Exits s' e) : Exits s e := by
  cases e with
  | finished t => exact h.trans he
  | returned t => exact Eq.trans he h.length_eq

theorem utfLoop_exits {e : ScalarExit} (h : utfLoop source s = .ok e) : Exits s e := by
  refine Loop.exec_induction (utfStep_decreases source)
    (C := fun s r => ∀ e, r = .ok e → Exits s e) ?_ ?_ s e h
  · rintro s r hdone e rfl
    exact utfStep_exits hdone
  · rintro s t r hnext ih e rfl
    obtain ⟨-, -, c, target, hstore, n, h1, -, hn, rfl⟩ := utfStep_eq_next hnext
    exact Exits.of_readsOn (ReadsOn.of_turn (by omega) hn rfl rfl (length_storeUnit hstore))
      (ih e rfl)

/-- `SCALAR_LOOP` reads on, or returns `-1`. -/
theorem SCALAR_LOOP_exits {e : ScalarExit} (h : SCALAR_LOOP source s = .ok e) : Exits s e := by
  rw [SCALAR_LOOP] at h
  rcases hascii : asciiLoop source s with f | s' <;> rw [hascii] at h
  · cases h
  · exact (utfLoop_exits h).of_readsOn (asciiLoop_readsOn hascii)

/-- The two loops of a call that returns. -/
theorem utf8BytesToArray_eq_ok {target : List CodeUnit} {off : ℤ} {d : Decoded}
    (h : utf8BytesToArray source target off = .ok d) :
    ∃ s e, vectorLoop source (entry source target off) = .ok s ∧
      SCALAR_LOOP source s = .ok e ∧ d = e.decoded off := by
  rw [utf8BytesToArray] at h
  rcases hvec : vectorLoop source (entry source target off) with f | s <;> rw [hvec] at h
  · cases h
  change (do let e ← SCALAR_LOOP source s; return e.decoded off) = _ at h
  rcases hscalar : SCALAR_LOOP source s with f | e <;> rw [hscalar] at h
  · cases h
  · cases h
    exact ⟨s, e, rfl, hscalar, rfl⟩

/-- A call that returns has read on from its offset. -/
theorem utf8BytesToArray_exits {target : List CodeUnit} {off : ℤ} {d : Decoded}
    (h : utf8BytesToArray source target off = .ok d) :
    ∃ e, Exits (entry source target off) e ∧ d = e.decoded off := by
  obtain ⟨s, e, hvec, hscalar, hd⟩ := utf8BytesToArray_eq_ok h
  exact ⟨e, (SCALAR_LOOP_exits hscalar).of_readsOn (vectorLoop_readsOn hvec), hd⟩

/-- A call that returns leaves an array of the same length. -/
theorem length_target {target : List CodeUnit} {off : ℤ} {d : Decoded}
    (h : utf8BytesToArray source target off = .ok d) : d.target.length = target.length := by
  obtain ⟨e, hexit, rfl⟩ := utf8BytesToArray_exits h
  cases e with
  | returned t => exact hexit
  | finished t => exact hexit.length_eq

/-- A call that returns has read some of the bytes from its offset on, or returns `-1`. -/
theorem value_bounds {target : List CodeUnit} {off : ℤ} (h1 : off ≤ source.length) {d : Decoded}
    (h : utf8BytesToArray source target off = .ok d) :
    d.value = -1 ∨ 0 ≤ d.value ∧ off + d.value ≤ source.length := by
  obtain ⟨e, hexit, rfl⟩ := utf8BytesToArray_exits h
  cases e with
  | returned t => exact .inl rfl
  | finished t =>
    obtain ⟨hforward, htotal, hrem, -⟩ := hexit
    simp only [entry] at hforward htotal hrem
    refine .inr ⟨?_, ?_⟩ <;> simp only [ScalarExit.decoded] <;> omega

/-! ## Reading past a string -/

/-- The loops are past the byte `stop`, or at the start of characters that end there, with room
for more units than they spell and the bytes `tail` behind. -/
def Within (source : List Byte) (stop : ℤ) (tail : List Byte) (s : Cursors) : Prop :=
  stop < s.src ∨ Bounded source s ∧ ∃ bs us, rest source s = bs ++ tail ∧ Spells bs us ∧
    us.length < s.len ∧ s.src + bs.length = stop

variable {stop : ℤ} {tail : List Byte}

/-- A turn over characters of the string. -/
theorem Within.of_decodes {bs₁ bs₂ : List Byte} {us₁ us₂ : List CodeUnit} (h : Bounded source s)
    (hc : Continues source s s') (hd : Decodes s s' us₁ bs₁.length) (h₂ : Spells bs₂ us₂)
    (hrest : rest source s = bs₁ ++ bs₂ ++ tail) (hroom : us₁.length + us₂.length < s.len)
    (hstop : s.src + (bs₁.length + bs₂.length) = stop) : Within source stop tail s' := by
  have hsrc := hd.src
  have hlen := hd.len
  refine .inr ⟨hc.bounded, bs₂, us₂, ?_, h₂, by omega, by omega⟩
  rw [rest_add h.src_nonneg hd.src, hrest, List.append_assoc, List.drop_left' rfl]

/-- A block of which the vector loop reads just characters of the string. -/
theorem Within.of_advances {bs₁ bs₂ : List Byte} {us₁ us₂ : List CodeUnit} (h : Bounded source s)
    (hlen : 16 ≤ s.len) (hrem : 16 ≤ s.rem) (hadv : Advances (block (rest source s)) s s')
    (h₁ : Spells bs₁ us₁) (h₂ : Spells bs₂ us₂) (hrest : rest source s = bs₁ ++ bs₂ ++ tail)
    (hroom : us₁.length + us₂.length < s.len)
    (hstop : s.src + (bs₁.length + bs₂.length) = stop)
    (hsrc : src_adv (block (rest source s)) = bs₁.length) : Within source stop tail s' := by
  have htake : (rest source s).take (src_adv (block (rest source s))).toNat = bs₁ := by
    rw [hsrc, Int.toNat_natCast, hrest, List.append_assoc, List.take_left' rfl]
  rw [← htake] at h₁
  obtain ⟨hd, hc⟩ := Continues.of_advances h hlen hrem hadv h₁
  rw [hsrc, Int.toNat_natCast] at hd
  exact Within.of_decodes h hc hd h₂ hrest hroom hstop

/-- A turn of the vector loop stays within the string, or gets past it. -/
theorem Within.vectorStep (h : Within source stop tail s)
    (hstep : vectorStep source s = .next s') : Within source stop tail s' := by
  obtain hpast | ⟨hb, bs, us, hrest, hsp, hroom, hstop⟩ := h
  · exact .inl (hpast.trans_le (vectorStep_readsOn hstep).forward)
  obtain ⟨hlen, hrem, hs⟩ := vectorStep_next hb hstep
  have hl := hb.length_rest
  have hblock : bytes (block (rest source s)) = (bs ++ tail).take 16 := by
    rw [bytes_block (by omega), hrest]
  rcases Nat.lt_or_ge bs.length 16 with hshort | hlong
  · -- the block reaches past the string, or ends with it
    obtain ⟨-, hsrc, -, -⟩ | ⟨-, -, hadv⟩ := hs
    · exact .inl (by omega)
    · have hle := le_src_adv_of_spells hsp hshort.le hblock
      have hsrc := hadv.src
      by_cases heq : src_adv (block (rest source s)) = bs.length
      · exact Within.of_advances hb hlen hrem hadv hsp .nil (by rw [List.append_nil, hrest])
          (by simpa using hroom) (by simpa using hstop) heq
      · exact .inl (by omega)
  · rw [List.take_append_of_le_length hlong] at hblock
    obtain ⟨hascii, hsrc, hlen', hc⟩ | ⟨-, -, hadv⟩ := hs
    · have hall := ascii_of_movemask hascii
      rw [hblock] at hall
      obtain ⟨h16, hdrop⟩ := hsp.drop_ascii 16 hlong hall
      obtain ⟨us₁, n, hd, -⟩ := hc.decodes
      have htake : (bs.take 16).length = 16 := by
        rw [List.length_take]
        omega
      have hdl : (bs.drop 16).length = bs.length - 16 := List.length_drop
      have hul : (us.drop 16).length = us.length - 16 := List.length_drop
      have hn : n = (bs.take 16).length := by
        have := hd.src
        omega
      have hus := hd.len
      rw [hn] at hd
      exact Within.of_decodes hb hc hd hdrop (by rw [List.take_append_drop, hrest]) (by omega)
        (by omega)
    · obtain ⟨bs₁, bs₂, us₁, us₂, rfl, rfl, h₁, h₂, hcut⟩ := hsp.cut 16 hlong
      have hsrc := src_adv_of_spells h₁ hcut hblock
      rw [List.length_append] at hroom hstop
      exact Within.of_advances hb hlen hrem hadv h₁ h₂ hrest (by omega) (by omega) hsrc

/-- The vector loop stays within the string, or gets past it. -/
theorem Within.vectorLoop (h : Within source stop tail s)
    (hvec : vectorLoop source s = .ok s') : Within source stop tail s' := by
  refine Loop.exec_induction (vectorStep_decreases source)
    (C := fun s r => ∀ s', Within source stop tail s → r = .ok s' → Within source stop tail s')
    ?_ ?_ s s' h hvec
  · rintro s r hdone s' (hpast | ⟨hb, bs, us, hrest, hsp, hroom, hstop⟩) rfl
    · obtain ⟨target, -, rfl⟩ := vectorStep_left hdone
      exact .inl hpast
    · obtain ⟨t, hok, hc⟩ := vectorStep_done hb hdone
      cases hok
      obtain ⟨target, -, rfl⟩ := vectorStep_left hdone
      exact .inr ⟨hc.bounded, bs, us, hrest, hsp, hroom, hstop⟩
  · rintro s t r hnext ih s' h rfl
    exact ih s' (h.vectorStep hnext) rfl

/-- **Reading past a string**: a call with bytes behind the string and room for more units than it
has returns `-1` or reads bytes behind it. -/
theorem reads_past {target us : List CodeUnit} {bs : List Byte} {off : ℤ} (h0 : 0 ≤ off)
    (h1 : off ≤ source.length) (hdrop : source.drop off.toNat = bs ++ tail) (hsp : Spells bs us)
    (htail : tail ≠ []) (hroom : us.length < target.length) {d : Decoded}
    (h : utf8BytesToArray source target off = .ok d) :
    d.value = -1 ∨ bs.length < d.value := by
  obtain ⟨s, e, hvec, hscalar, rfl⟩ := utf8BytesToArray_eq_ok h
  have hwithin : Within source (off + bs.length) tail s := by
    refine Within.vectorLoop (.inr ⟨bounded_entry h0 h1 target, bs, us, hdrop, hsp, ?_, rfl⟩) hvec
    simpa [entry] using hroom
  obtain hpast | ⟨hb, bs, us, hrest, hsp, hroom, hstop⟩ := hwithin
  · have hexit := SCALAR_LOOP_exits hscalar
    cases e with
    | returned t => exact .inl rfl
    | finished t =>
      have := hexit.forward
      exact .inr (by simp only [ScalarExit.decoded]; omega)
  · obtain ⟨e', he', hy⟩ := SCALAR_LOOP_yields off hb
    obtain rfl : e' = e := Except.ok.inj (he'.symm.trans hscalar)
    obtain ⟨b, tail, rfl⟩ := List.exists_cons_of_ne_nil htail
    rw [hy.value, reading, hrest, scalarDecode_spelled hsp _ _ (by omega), Reading.value_after]
    obtain h | h := scalarDecode_value_cons (n := s.len.toNat - us.length) (by omega) b tail
      (s.src - off + bs.length)
    · exact .inl h
    · exact .inr (by omega)

end Native

end HzResearch
