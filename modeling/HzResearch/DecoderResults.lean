import HzResearch.VectorLoop

/-!
# What the native decoder guarantees

* `decode_encode` — decoding undoes the encoder, at every offset and whatever lies
  before and behind.
* `agrees_of_blocksSpell` — the vector loop agrees with the scalar loop on all
  bytes whose decoded blocks are characters; `not_agrees_leads` is a block of
  leads that is accepted although it is none.
* `safe_iff` — all accesses stay inside the arrays and the target index never
  moves backwards, unless a block announces more trailing bytes than it has
  bytes; `not_safe_overdrawn` runs into such a block.
-/

namespace HzResearch

namespace Native

open Simd Utf8

variable {source : List Byte} {s s' : Cursors}

/-! ## Decoding undoes the encoder -/

/-- Decoding bytes that spell units, into an array with room for just these units — or for more
of them, if nothing lies behind. -/
theorem utf8BytesToArray_spelled {off : ℤ} (h0 : 0 ≤ off) (h1 : off ≤ source.length)
    {bs tail : List Byte} {us target : List CodeUnit} (hdrop : source.drop off.toNat = bs ++ tail)
    (hsp : Spells bs us)
    (hroom : us.length = target.length ∨ us.length ≤ target.length ∧ tail = []) :
    ∃ d, utf8BytesToArray source target off = .ok d ∧ d.value = bs.length ∧
      d.target.take us.length = us ∧ d.target.length = target.length := by
  have hblocks : BlocksSpell target.length (source.drop off.toNat) := by
    rw [hdrop]
    exact blocksSpell_of_spells hsp hroom
  obtain ⟨d, hd, hy⟩ := utf8BytesToArray_yields h0 h1 hblocks
  have hread : reading source (entry source target off) = ⟨us, some bs.length⟩ := by
    have hbehind : scalarDecode (target.length - us.length) tail = ⟨[], some 0⟩ := by
      obtain hn | ⟨-, rfl⟩ := hroom
      · rw [hn, Nat.sub_self, scalarDecode_zero]
      · exact scalarDecode_nil _
    change scalarDecode target.length (source.drop off.toNat) = _
    rw [hdrop, scalarDecode_spelled hsp _ _ (by omega), hbehind]
    simp [Reading.after]
  refine ⟨d, hd, ?_, ?_, hy.size⟩
  · rw [hy.value, hread]
    simp [entry, Reading.value]
  · have hfront := hy.front
    rw [hy.count, hread] at hfront
    simpa [entry] using hfront

/-- Decoding from the start of an encoded sequence into an array of its length. -/
theorem decode_encode (units : List CodeUnit) (before behind : List Byte) (target : List CodeUnit)
    (h : target.length = units.length) :
    ∃ d, utf8BytesToArray (before ++ encode units ++ behind) target before.length = .ok d ∧
      d.value = (encode units).length ∧ d.target = units := by
  have hdrop : (before ++ encode units ++ behind).drop (before.length : ℤ).toNat =
      encode units ++ behind := by
    rw [List.append_assoc, Int.toNat_natCast, List.drop_left' rfl]
  obtain ⟨d, hd, hvalue, hfront, hsize⟩ := utf8BytesToArray_spelled (Int.natCast_nonneg _)
    (by simp only [List.length_append]; omega) hdrop (spells_encode units) (.inl h.symm)
  rw [List.take_of_length_le (by omega)] at hfront
  exact ⟨d, hd, hvalue, hfront⟩

/-- Twenty accented letters between two stray bytes. -/
theorem decode_encode_between :
    ∃ d, utf8BytesToArray ([0xFF] ++ encode (List.replicate 20 0xE9) ++ [0x80])
        (List.replicate 20 0) 1 = .ok d ∧
      d.value = (encode (List.replicate 20 0xE9)).length ∧ d.target = List.replicate 20 0xE9 :=
  decode_encode (List.replicate 20 0xE9) [0xFF] [0x80] (List.replicate 20 0) rfl

/-! ## Agreement with the scalar loop -/

/-- The call returns what `SCALAR_LOOP` alone returns, and has decoded the same units. -/
def Agrees (source : List Byte) (target : List CodeUnit) (off : ℤ) : Prop :=
  ∃ d e, utf8BytesToArray source target off = .ok d ∧
    SCALAR_LOOP source (entry source target off) = .ok e ∧
    d.value = (e.decoded off).value ∧ d.count = (e.decoded off).count ∧
    d.target.take d.count.toNat = (e.decoded off).target.take (e.decoded off).count.toNat

/-- The fast path agrees with the scalar path on bytes whose decoded blocks are characters. -/
theorem agrees_of_blocksSpell {off : ℤ} (h0 : 0 ≤ off) (h1 : off ≤ source.length)
    {target : List CodeUnit} (hb : BlocksSpell target.length (source.drop off.toNat)) :
    Agrees source target off := by
  obtain ⟨d, hd, hy⟩ := utf8BytesToArray_yields h0 h1 hb
  obtain ⟨e, he, hy'⟩ := SCALAR_LOOP_yields off (bounded_entry h0 h1 target)
  refine ⟨d, e, hd, he, hy.value.trans hy'.value.symm, hy.count.trans hy'.count.symm, ?_⟩
  rw [hy.front, hy'.front]

/-- Twenty characters of two bytes are characters in every block. -/
theorem blocksSpell_accents :
    BlocksSpell 20 (List.replicate 20 [0xC3#8, 0xA9#8]).flatten := by
  have hsp : Spells (List.replicate 20 [0xC3#8, 0xA9#8]).flatten (List.replicate 20 0xE9) :=
    spells_encode (List.replicate 20 0xE9)
  have hblocks : BlocksSpell 20 ((List.replicate 20 [0xC3#8, 0xA9#8]).flatten ++ []) :=
    blocksSpell_of_spells hsp (.inl rfl)
  rwa [List.append_nil] at hblocks

/-- Of these the vector loop decodes two blocks. -/
theorem agrees_accents :
    Agrees (List.replicate 20 [0xC3#8, 0xA9#8]).flatten (List.replicate 20 0) 0 :=
  agrees_of_blocksSpell (by decide) (by decide) blocksSpell_accents

/-- A source that is one block, of which all bytes are decoded to sixteen units. -/
theorem value_of_block (target : List CodeUnit) (hsource : source.length = 16)
    (htarget : target.length = 16) (hascii : mm_movemask_epi8 (block source) ≠ 0)
    (hacc : accepts (block source) = true) (hsrc : src_adv (block source) = 16)
    (hdst : dst_adv (block source) = 16) {d : Decoded}
    (hd : utf8BytesToArray source target 0 = .ok d) : d.value = 16 := by
  obtain ⟨hpass, hnon⟩ : passes (block source) = true ∧ ¬ nonCharacter (block source) = true := by
    simpa [accepts] using hacc
  have hb : Bounded source (entry source target 0) :=
    bounded_entry (le_refl 0) (Int.natCast_nonneg _) target
  have hlen : (entry source target 0).len = 16 := by rw [entry, htarget]; rfl
  have hrem : (entry source target 0).rem = 16 := by rw [entry, hsource]; rfl
  have hrest : rest source (entry source target 0) = source := rfl
  have hstep := vectorStep_run hb hlen.ge hrem.ge (by rwa [hrest])
  rw [hrest, if_pos hpass, if_neg hnon, hsrc, hdst, hlen, hrem] at hstep
  have hsize : (splice target 0 (storedUnits (block source))).length = target.length :=
    length_splice (by simp [storedUnits, htarget])
  -- nothing is left for another block, nor for the scalar loop
  have hs : Bounded source ⟨16, 16, 0, 0, splice target 0 (storedUnits (block source))⟩ := by
    constructor <;> simp only <;> omega
  have hloop : vectorLoop source (entry source target 0) =
      .ok ⟨16, 16, 0, 0, splice target 0 (storedUnits (block source))⟩ := by
    rw [vectorLoop, Loop.exec_next _ hstep]
    exact Loop.exec_done _ (vectorStep_short fun hmore => by have := hmore.1; contradiction)
  obtain ⟨e, he, hy⟩ := SCALAR_LOOP_yields 0 hs
  rw [utf8BytesToArray_run hloop he] at hd
  cases hd
  rw [hy.value, reading]
  change Reading.value (scalarDecode 0 _) _ = 16
  rw [scalarDecode_zero]
  rfl

/-- Sixteen leads of three-byte characters pass for sixteen units; the scalar loop makes five
characters of them and gives up inside the sixth. -/
theorem not_agrees_leads : ¬ Agrees (List.replicate 16 0xE1) (List.replicate 16 0) 0 := by
  have hacc : accepts (block (List.replicate 16 0xE1)) = true :=
    accepts_of_lanes _ (by decide +kernel) (by decide +kernel)
  have hsrc : src_adv (block (List.replicate 16 0xE1)) = 16 := by decide +kernel
  have hdst : dst_adv (block (List.replicate 16 0xE1)) = 16 := by decide +kernel
  have hscalar : (SCALAR_LOOP (List.replicate 16 0xE1)
      (entry (List.replicate 16 0xE1) (List.replicate 16 0) 0)).map
        (fun e => (e.decoded 0).value) = .ok (-1) := by decide +kernel
  rintro ⟨d, e, hd, he, hv, -⟩
  rw [he] at hscalar
  have h1 : (e.decoded 0).value = -1 := Except.ok.inj hscalar
  -- the block is the whole source, and nothing is left for the scalar loop
  have hvalue := value_of_block (List.replicate 16 0) rfl rfl (by decide) hacc hsrc hdst hd
  omega

/-! ## Index safety -/

/-- What a turn of a loop has to keep: from `s`, in a target array of `size` units. -/
structure SafeTurn {ρ : Type} (source : List Byte) (size : ℕ)
    (step : Cursors → Outcome Cursors (Except Fault ρ)) (s : Cursors) : Prop where
  /-- the cursors are inside their arrays and agree with what is left -/
  bounded : Bounded source s
  /-- the target array keeps its length -/
  size_eq : s.target.length = size
  /-- no load and no store leaves its array -/
  no_fault : ∀ f, step s ≠ .done (.error f)
  /-- the target index does not move backwards -/
  forward : ∀ s', step s = .next s' → s.dst ≤ s'.dst

/-- Every turn of every loop of a call is safe. -/
structure SafeCall (source : List Byte) (target : List CodeUnit) (off : ℤ) : Prop where
  /-- the vector loop -/
  vector : ∀ s, Loop.Reaches (vectorStep source) (entry source target off) s →
    SafeTurn source target.length (vectorStep source) s
  /-- the first loop of `SCALAR_LOOP` -/
  ascii : ∀ s t, vectorLoop source (entry source target off) = .ok s →
    Loop.Reaches (asciiStep source) s t → SafeTurn source target.length (asciiStep source) t
  /-- the second loop of `SCALAR_LOOP` -/
  utf : ∀ s t u, vectorLoop source (entry source target off) = .ok s →
    asciiLoop source s = .ok t → Loop.Reaches (utfStep source) t u →
      SafeTurn source target.length (utfStep source) u

/-- The leads of a block announce more trailing bytes than the block advances over bytes, and its
last lane ends a character all the same. -/
def Overdraws (chunk : Vec) : Prop :=
  countAt chunk ((src_adv chunk).toNat - 1) < 2 ∧
    (src_adv chunk).toNat < announced chunk (src_adv chunk).toNat

instance (chunk : Vec) : Decidable (Overdraws chunk) := inferInstanceAs (Decidable (_ ∧ _))

/-- The vector loop is at a block that it decodes and that overdraws. -/
def OverdrawnAt (source : List Byte) (s : Cursors) : Prop :=
  16 ≤ s.len ∧ 16 ≤ s.rem ∧ mm_movemask_epi8 (block (rest source s)) ≠ 0 ∧
    accepts (block (rest source s)) = true ∧ Overdraws (block (rest source s))

/-- The target index moves backwards over just the blocks that overdraw. -/
theorem dst_adv_neg_iff (chunk : Vec) : dst_adv chunk < 0 ↔ Overdraws chunk := by
  have hsrc := src_adv_cases chunk
  rw [dst_adv_eq_sub, Overdraws, distance, Nat.sub_add_cancel (by omega)]
  split
  case isTrue h =>
    have := h.2
    omega
  case isFalse h => omega

theorem dst_adv_le (chunk : Vec) : dst_adv chunk ≤ 16 := by
  have hsrc := src_adv_cases chunk
  rw [dst_adv_eq_sub]
  omega

/-- Advancing over a block that does not overdraw keeps the cursors bounded. -/
theorem Bounded.advances (h : Bounded source s) (hlen : 16 ≤ s.len) (hrem : 16 ≤ s.rem)
    {chunk : Vec} (hadv : Advances chunk s s') (hdst : 0 ≤ dst_adv chunk) :
    Bounded source s' := by
  have hsrc := src_adv_cases chunk
  have hle := dst_adv_le chunk
  obtain ⟨h1, h2, h3, h4, h5, h6⟩ := h
  obtain ⟨ha1, ha2, ha3, ha4, -, ha6⟩ := hadv
  constructor <;> omega

theorem Continues.size_eq (h : Continues source s s') : s'.target.length = s.target.length := by
  obtain ⟨us, n, hd, -⟩ := h.decodes
  exact hd.size

theorem Continues.dst_le (h : Continues source s s') : s.dst ≤ s'.dst := by
  obtain ⟨us, n, hd, -⟩ := h.decodes
  have := hd.dst
  omega

/-- A turn of the vector loop at a block that does not overdraw is safe and keeps the cursors
bounded. -/
theorem vectorStep_safe (h : Bounded source s) (hno : ¬ OverdrawnAt source s) :
    SafeTurn source s.target.length (vectorStep source) s ∧
      ∀ s', vectorStep source s = .next s' →
        Bounded source s' ∧ s'.target.length = s.target.length := by
  have hnext : ∀ s', vectorStep source s = .next s' →
      Bounded source s' ∧ s'.target.length = s.target.length ∧ s.dst ≤ s'.dst := by
    intro s' hstep
    obtain ⟨hlen, hrem, ⟨-, -, -, hc⟩ | ⟨hascii, hacc, hadv⟩⟩ := vectorStep_next h hstep
    · exact ⟨hc.bounded, hc.size_eq, hc.dst_le⟩
    · have hdst : 0 ≤ dst_adv (block (rest source s)) := by
        by_contra hneg
        exact hno ⟨hlen, hrem, hascii, hacc, (dst_adv_neg_iff _).mp (by omega)⟩
      have := hadv.dst
      exact ⟨h.advances hlen hrem hadv hdst, hadv.size, by omega⟩
  refine ⟨⟨h, rfl, fun f hf => ?_, fun s' hstep => (hnext s' hstep).2.2⟩,
    fun s' hstep => ⟨(hnext s' hstep).1, (hnext s' hstep).2.1⟩⟩
  obtain ⟨s', hok, -⟩ := vectorStep_done h hf
  cases hok

/-- At a block that overdraws the target index moves backwards. -/
theorem OverdrawnAt.backward (h : Bounded source s) (ho : OverdrawnAt source s) :
    ∃ s', vectorStep source s = .next s' ∧ s'.dst < s.dst := by
  obtain ⟨hlen, hrem, hascii, hacc, hover⟩ := ho
  -- a block that is decoded does not leave the loop
  obtain ⟨hpass, hnon⟩ : passes (block (rest source s)) = true ∧
      ¬ nonCharacter (block (rest source s)) = true := by
    simpa [accepts] using hacc
  have hstep := vectorStep_run h hlen hrem hascii
  rw [if_pos hpass, if_neg hnon] at hstep
  have hneg := (dst_adv_neg_iff _).mpr hover
  exact ⟨_, hstep, by simp only; omega⟩

/-- A loop is safe whose every turn from bounded cursors continues or leaves the loop without a
fault. -/
theorem safe_of_spec {ρ : Type} {step : Cursors → Outcome Cursors (Except Fault ρ)}
    (hspec : ∀ s, Bounded source s →
      (∃ s', step s = .next s' ∧ Continues source s s') ∨ ∃ r, step s = .done (.ok r))
    (h : Bounded source s) {t : Cursors} (hreach : Loop.Reaches step s t) :
    SafeTurn source s.target.length step t := by
  have hinv : Bounded source t ∧ t.target.length = s.target.length := by
    refine hreach.preserves (I := fun t => Bounded source t ∧ t.target.length = s.target.length)
      ?_ ⟨h, rfl⟩
    rintro u u' - hstep ⟨hu, hsize⟩
    obtain ⟨t, hnext, hc⟩ | ⟨r, hdone⟩ := hspec u hu
    · rw [hnext] at hstep
      cases hstep
      exact ⟨hc.bounded, hc.size_eq.trans hsize⟩
    · rw [hdone] at hstep
      cases hstep
  refine ⟨hinv.1, hinv.2, fun f hf => ?_, fun s' hstep => ?_⟩
  · obtain ⟨s', hnext, -⟩ | ⟨r, hdone⟩ := hspec t hinv.1
    · rw [hnext] at hf
      cases hf
    · rw [hdone] at hf
      cases hf
  · obtain ⟨u, hnext, hc⟩ | ⟨r, hdone⟩ := hspec t hinv.1
    · rw [hnext] at hstep
      cases hstep
      exact hc.dst_le
    · rw [hdone] at hstep
      cases hstep

/-- **Index safety**: a call is safe if and only if the vector loop gets to no block that it
decodes and that overdraws. -/
theorem safe_iff {off : ℤ} (h0 : 0 ≤ off) (h1 : off ≤ source.length) (target : List CodeUnit) :
    SafeCall source target off ↔
      ∀ s, Loop.Reaches (vectorStep source) (entry source target off) s →
        ¬ OverdrawnAt source s := by
  constructor
  · intro h s hreach ho
    have hsafe := h.vector s hreach
    obtain ⟨s', hstep, hlt⟩ := ho.backward hsafe.bounded
    have := hsafe.forward s' hstep
    omega
  · intro hno
    -- without overdrawn blocks the cursors stay bounded along the run
    have hinv : ∀ s, Loop.Reaches (vectorStep source) (entry source target off) s →
        Bounded source s ∧ s.target.length = target.length := by
      intro s hreach
      refine hreach.preserves (I := fun s => Bounded source s ∧ s.target.length = target.length)
        ?_ ⟨bounded_entry h0 h1 target, rfl⟩
      rintro u u' hu hstep ⟨hb, hsize⟩
      obtain ⟨-, hnext⟩ := vectorStep_safe hb (hno u hu)
      exact ⟨(hnext u' hstep).1, (hnext u' hstep).2.trans hsize⟩
    have hvec : ∀ s, vectorLoop source (entry source target off) = .ok s →
        Bounded source s ∧ s.target.length = target.length := by
      intro s hs
      obtain ⟨t, hreach, hdone⟩ := Loop.exec_reaches (vectorStep_decreases source)
        (entry source target off)
      obtain ⟨hb, hsize⟩ := hinv t hreach
      obtain ⟨s', hok, hc⟩ := vectorStep_done hb hdone
      obtain rfl : s' = s := Except.ok.inj (hok.symm.trans hs)
      exact ⟨hc.bounded, hc.size_eq.trans hsize⟩
    refine ⟨fun s hreach => ?_, fun s t hs hreach => ?_, fun s t u hs ht hreach => ?_⟩
    · obtain ⟨hb, hsize⟩ := hinv s hreach
      exact hsize ▸ (vectorStep_safe hb (hno s hreach)).1
    · obtain ⟨hb, hsize⟩ := hvec s hs
      exact hsize ▸ safe_of_spec (fun s h => (asciiStep_spec h).imp_right fun h => ⟨_, h⟩) hb hreach
    · obtain ⟨hb, hsize⟩ := hvec s hs
      obtain ⟨t', ht', hc⟩ := asciiLoop_continues hb
      obtain rfl : t' = t := Except.ok.inj (ht'.symm.trans ht)
      exact (hc.size_eq.trans hsize) ▸ safe_of_spec
        (fun s h => (utfStep_spec 0 h).imp_right fun ⟨e, h, _⟩ => ⟨e, h⟩) hc.bounded hreach

/-- No block that starts with characters overdraws. -/
theorem BlocksSpell.not_overdrawn (h : Bounded source s)
    (hb : BlocksSpell s.len.toNat (rest source s)) : ¬ OverdrawnAt source s := by
  intro ho
  obtain ⟨s', hstep, hlt⟩ := ho.backward h
  have := (vectorStep_continues h hb hstep).1.dst_le
  omega

/-- Along a run over blocks that start with characters there is none that overdraws. -/
theorem not_overdrawn_of_blocksSpell {off : ℤ} (h0 : 0 ≤ off) (h1 : off ≤ source.length)
    {target : List CodeUnit} (hb : BlocksSpell target.length (source.drop off.toNat))
    (hreach : Loop.Reaches (vectorStep source) (entry source target off) s) :
    ¬ OverdrawnAt source s := by
  have hinv : Bounded source s ∧ BlocksSpell s.len.toNat (rest source s) := by
    refine hreach.preserves
      (I := fun s => Bounded source s ∧ BlocksSpell s.len.toNat (rest source s)) ?_
      ⟨bounded_entry h0 h1 target, hb⟩
    rintro u u' - hstep ⟨hu, hbu⟩
    obtain ⟨hc, hb'⟩ := vectorStep_continues hu hbu hstep
    exact ⟨hc.bounded, hb'⟩
  exact hinv.2.not_overdrawn hinv.1

/-- Twenty characters of two bytes, of which the vector loop decodes two blocks. -/
theorem safe_accents :
    SafeCall (List.replicate 20 [0xC3#8, 0xA9#8]).flatten (List.replicate 20 0) 0 := by
  refine (safe_iff (by decide) (by decide) _).mpr fun s hreach => ?_
  refine not_overdrawn_of_blocksSpell (le_refl 0) (by decide) ?_ hreach
  exact blocksSpell_accents

/-- A safe call returns. -/
theorem SafeCall.returns {target : List CodeUnit} {off : ℤ} (h : SafeCall source target off) :
    ∃ d, utf8BytesToArray source target off = .ok d := by
  obtain ⟨s, hreach, hdone⟩ := Loop.exec_reaches (vectorStep_decreases source)
    (entry source target off)
  have hvec : ∃ s, vectorLoop source (entry source target off) = .ok s := by
    rcases hr : vectorLoop source (entry source target off) with f | s
    · exact absurd (hr ▸ hdone) ((h.vector s hreach).no_fault f)
    · exact ⟨s, rfl⟩
  obtain ⟨s, hs⟩ := hvec
  obtain ⟨e, he, -⟩ := SCALAR_LOOP_yields off (h.ascii s s hs (Loop.Reaches.refl s)).bounded
  refine ⟨e.decoded off, ?_⟩
  rw [utf8BytesToArray, hs]
  change (do let e ← SCALAR_LOOP source s; return e.decoded off) = _
  rw [he]
  rfl

/-- A block that is decoded and announces nineteen trailing bytes. -/
def overdrawnBlock : List Byte :=
  [0xE1, 0xE1, 0xE1, 0x80, 0xE1, 0xE1, 0xE1, 0x80, 0xC2, 0xE1, 0xE1, 0x80, 0x80, 0xE1, 0x80, 0x80]

/-- Behind such a block the next one is stored below the target array. -/
theorem not_safe_overdrawn :
    ¬ SafeCall (overdrawnBlock ++ overdrawnBlock) (List.replicate 16 0) 0 := by
  intro h
  have hb : Bounded (overdrawnBlock ++ overdrawnBlock)
      (entry (overdrawnBlock ++ overdrawnBlock) (List.replicate 16 0) 0) :=
    bounded_entry (le_refl 0) (by decide) _
  have hacc : accepts (block (overdrawnBlock ++ overdrawnBlock)) = true :=
    accepts_of_lanes _ (by decide +kernel) (by decide +kernel)
  have ho : OverdrawnAt (overdrawnBlock ++ overdrawnBlock)
      (entry (overdrawnBlock ++ overdrawnBlock) (List.replicate 16 0) 0) :=
    ⟨by decide, by decide, by decide +kernel, hacc, by decide +kernel⟩
  obtain ⟨s', hstep, hlt⟩ := ho.backward hb
  have hle := (h.vector _ (Loop.Reaches.refl _)).forward s' hstep
  omega

end Native

end HzResearch
