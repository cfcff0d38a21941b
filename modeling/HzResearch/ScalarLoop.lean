import HzResearch.Utf8

/-!
# The scalar loop decodes

`Bounded` is the invariant of all three loops: the cursors stay inside their
arrays and `rem` and `len` count what is left. `Continues source s s'` says that
the turns from `s` to `s'` decoded the front of what `scalarDecode` makes of the
bytes left at `s`, and `Yields` that a call which is at `s` ends the way
`scalarDecode` says; `Continues` pulls `Yields` back, so that a loop is correct as
soon as each of its turns continues and its last state yields.

`SCALAR_LOOP_yields` is the result: from bounded cursors `SCALAR_LOOP` stays
inside its arrays and yields.
-/

namespace HzResearch

namespace Native

open Utf8

variable {source : List Byte} {s s' s'' : Cursors}

/-- The cursors are inside their arrays and agree with what is left. -/
structure Bounded (source : List Byte) (s : Cursors) : Prop where
  /-- `src` does not point below the source array -/
  src_nonneg : 0 ≤ s.src
  /-- `rem` bytes are left from `src` on -/
  src_rem : s.src + s.rem = source.length
  /-- `rem` is not negative -/
  rem_nonneg : 0 ≤ s.rem
  /-- `dst` does not point below the target array -/
  dst_nonneg : 0 ≤ s.dst
  /-- `len` units are left from `dst` on -/
  dst_len : s.dst + s.len = s.target.length
  /-- `len` is not negative -/
  len_nonneg : 0 ≤ s.len

/-- The source cursor is inside its array and agrees with what is left. -/
structure Readable (source : List Byte) (s : Cursors) : Prop where
  /-- `src` does not point below the source array -/
  src_nonneg : 0 ≤ s.src
  /-- `rem` bytes are left from `src` on -/
  src_rem : s.src + s.rem = source.length
  /-- `rem` is not negative -/
  rem_nonneg : 0 ≤ s.rem

theorem Bounded.readable (h : Bounded source s) : Readable source s :=
  ⟨h.src_nonneg, h.src_rem, h.rem_nonneg⟩

/-- The bytes left. -/
def rest (source : List Byte) (s : Cursors) : List Byte := source.drop s.src.toNat

/-- What the scalar loop makes of the bytes left. -/
def reading (source : List Byte) (s : Cursors) : Reading :=
  scalarDecode s.len.toNat (rest source s)

theorem Readable.length_rest (h : Readable source s) :
    (rest source s).length = s.rem.toNat := by
  have := h.src_nonneg
  have := h.src_rem
  rw [rest, List.length_drop]
  omega

theorem Bounded.length_rest (h : Bounded source s) : (rest source s).length = s.rem.toNat :=
  h.readable.length_rest

/-- The bytes left once `n` of them are read. -/
theorem rest_add (h : 0 ≤ s.src) {n : ℕ} (hs : s'.src = s.src + n) :
    rest source s' = (rest source s).drop n := by
  rw [rest, rest, List.drop_drop, hs]
  congr 1
  omega

/-- At the entry the cursors are bounded. -/
theorem bounded_entry {off : ℤ} (h0 : 0 ≤ off) (h1 : off ≤ source.length)
    (target : List CodeUnit) : Bounded source (entry source target off) where
  src_nonneg := h0
  src_rem := by
    change off + (source.length - off) = source.length
    omega
  rem_nonneg := by
    change 0 ≤ (source.length : ℤ) - off
    omega
  dst_nonneg := le_refl 0
  dst_len := by
    change (0 : ℤ) + target.length = target.length
    omega
  len_nonneg := Int.natCast_nonneg _

/-! ## What turns decode -/

/-- The turns from `s` to `s'` have decoded `us` from `n` bytes. -/
structure Decodes (s s' : Cursors) (us : List CodeUnit) (n : ℕ) : Prop where
  /-- the bytes are read -/
  src : s'.src = s.src + n
  /-- the units are written -/
  dst : s'.dst = s.dst + us.length
  /-- fewer units are left -/
  len : s'.len = s.len - us.length
  /-- fewer bytes are left -/
  rem : s'.rem = s.rem - n
  /-- the units stand behind what was decoded before -/
  front : s'.target.take s'.dst.toNat = s.target.take s.dst.toNat ++ us
  /-- the target array keeps its length -/
  size : s'.target.length = s.target.length

theorem Decodes.refl (s : Cursors) : Decodes s s [] 0 where
  src := by simp
  dst := by simp
  len := by simp
  rem := by simp
  front := by simp
  size := rfl

theorem Decodes.trans {us vs : List CodeUnit} {n m : ℕ} (h : Decodes s s' us n)
    (h' : Decodes s' s'' vs m) : Decodes s s'' (us ++ vs) (n + m) where
  src := by
    rw [h'.src, h.src]
    omega
  dst := by
    rw [h'.dst, h.dst, List.length_append]
    omega
  len := by
    rw [h'.len, h.len, List.length_append]
    omega
  rem := by
    rw [h'.rem, h.rem]
    omega
  front := by rw [h'.front, h.front, List.append_assoc]
  size := h'.size.trans h.size

/-- The turns from `s` to `s'` have decoded the front of what is to be decoded. -/
structure Continues (source : List Byte) (s s' : Cursors) : Prop where
  /-- the cursors stay bounded -/
  bounded : Bounded source s'
  /-- what was decoded, and that the scalar loop would have decoded it too -/
  decodes : ∃ us n, Decodes s s' us n ∧ reading source s = (reading source s').after us n

theorem Continues.refl (h : Bounded source s) : Continues source s s where
  bounded := h
  decodes := ⟨[], 0, Decodes.refl s, (Reading.after_nil _).symm⟩

theorem Continues.trans (h : Continues source s s') (h' : Continues source s' s'') :
    Continues source s s'' where
  bounded := h'.bounded
  decodes := by
    obtain ⟨us, n, hd, hr⟩ := h.decodes
    obtain ⟨vs, m, hd', hr'⟩ := h'.decodes
    exact ⟨us ++ vs, n + m, hd.trans hd', by rw [hr, hr', Reading.after_after]⟩

/-- Turns that have decoded from what is left keep the cursors bounded. -/
theorem Bounded.decodes (h : Bounded source s) {us : List CodeUnit} {n : ℕ}
    (hd : Decodes s s' us n) (hn : n ≤ s.rem) (hus : us.length ≤ s.len) : Bounded source s' where
  src_nonneg := by
    have := hd.src
    have := h.src_nonneg
    omega
  src_rem := by
    have := hd.src
    have := hd.rem
    have := h.src_rem
    omega
  rem_nonneg := by
    have := hd.rem
    omega
  dst_nonneg := by
    have := hd.dst
    have := h.dst_nonneg
    omega
  dst_len := by
    have := hd.dst
    have := hd.len
    have := hd.size
    have := h.dst_len
    omega
  len_nonneg := by
    have := hd.len
    omega

/-- Turns that have decoded what the bytes they read spell. -/
theorem Continues.of_spells (h : Bounded source s) {us : List CodeUnit} {n : ℕ}
    (hd : Decodes s s' us n) (hn : n ≤ s.rem) (hus : us.length ≤ s.len)
    (hsp : Spells ((rest source s).take n) us) : Continues source s s' where
  bounded := h.decodes hd hn hus
  decodes := by
    refine ⟨us, n, hd, ?_⟩
    have hlen : ((rest source s).take n).length = n := by
      rw [List.length_take, h.length_rest]
      omega
    have hr := scalarDecode_spelled hsp s.len.toNat ((rest source s).drop n) (by omega)
    rw [List.take_append_drop, hlen] at hr
    rw [reading, reading, rest_add h.src_nonneg hd.src, hr, hd.len]
    congr 2
    omega

/-! ## How a call ends -/

/-- A call that is at `s` and ends with `d` ends the way the scalar loop would. -/
structure Yields (source : List Byte) (off : ℤ) (s : Cursors) (d : Decoded) : Prop where
  /-- the bytes read, or `-1` -/
  value : d.value = (reading source s).value (s.src - off)
  /-- the units decoded -/
  count : d.count = s.dst + (reading source s).units.length
  /-- the units stand behind what was decoded before -/
  front : d.target.take d.count.toNat = s.target.take s.dst.toNat ++ (reading source s).units
  /-- the target array keeps its length -/
  size : d.target.length = s.target.length

/-- A call that goes on to `s'` and yields there yields from where it started. -/
theorem Yields.of_continues {off : ℤ} {d : Decoded} (h : Continues source s s')
    (hy : Yields source off s' d) : Yields source off s d := by
  obtain ⟨us, n, hd, hr⟩ := h.decodes
  refine ⟨?_, ?_, ?_, hy.size.trans hd.size⟩
  · rw [hy.value, hr, hd.src, Reading.value_after]
    congr 1
    omega
  · rw [hy.count, hr, hd.dst, Reading.after, List.length_append]
    omega
  · rw [hy.front, hr, hd.front, Reading.after, List.append_assoc]

/-! ## Loads and stores in bounds -/

theorem loadChar_ok {i : ℤ} {b : Byte} {bs : List Byte} (hi : 0 ≤ i)
    (h : source.drop i.toNat = b :: bs) : loadChar source i = .ok (b.signExtend 16) := by
  have hlt : i.toNat < source.length := by
    have := congrArg List.length h
    rw [List.length_drop, List.length_cons] at this
    omega
  have hb : source.getD i.toNat 0 = b := by
    have := congrArg (fun l => l[0]?) h
    rw [List.getElem?_drop, Nat.add_zero] at this
    rw [List.getD_eq_getElem?_getD, this]
    rfl
  rw [loadChar, if_pos ⟨hi, by omega⟩, hb]

/-- The bytes left behind the next one. -/
theorem drop_succ {i : ℤ} {b : Byte} {bs : List Byte} (hi : 0 ≤ i)
    (h : source.drop i.toNat = b :: bs) : source.drop (i + 1).toNat = bs := by
  have h1 : (i + 1).toNat = i.toNat + 1 := by omega
  rw [h1, ← List.drop_drop, h]
  rfl

/-- Storing the next unit, and the step over it. -/
theorem storeUnit_ok (h : Bounded source s) (hlen : 0 < s.len) (c : CodeUnit) (n : ℕ) :
    ∃ target, storeUnit s.target s.dst c = .ok target ∧
      Decodes s ⟨s.src + n, s.dst + 1, s.len - 1, s.rem - n, target⟩ [c] n := by
  have hd := h.dst_nonneg
  have hdl := h.dst_len
  refine ⟨splice s.target s.dst.toNat [c], if_pos ⟨hd, by omega⟩, rfl, rfl, rfl, rfl, ?_, ?_⟩
  · have h1 : (s.dst + 1).toNat = s.dst.toNat + [c].length := by
      rw [List.length_singleton]
      omega
    rw [← take_splice_end (by omega), ← h1]
  · exact length_splice (by simp; omega)

/-! ## One character -/

/-- Where bytes are left, the first of them. -/
theorem Readable.rest_eq_cons (h : Readable source s) (hrem : 0 < s.rem) :
    ∃ b bs, rest source s = b :: bs := by
  have hl := h.length_rest
  rcases hr : rest source s with _ | ⟨b, bs⟩
  · rw [hr, List.length_nil] at hl
    omega
  · exact ⟨b, bs, rfl⟩

/-- Where the loop condition fails nothing is left to decode. -/
theorem Readable.reading_finished (h : Readable source s) (hc : ¬ (0 < s.len ∧ 0 < s.rem)) :
    reading source s = ⟨[], some 0⟩ := by
  rcases Nat.eq_zero_or_pos s.len.toNat with h0 | hlen
  · rw [reading, h0, scalarDecode_zero]
  · have hl := h.length_rest
    have hr : rest source s = [] := List.length_eq_zero_iff.mp (by omega)
    rw [reading, hr, scalarDecode_nil]

/-- The scalar loop reads the unit `c` from the next `n` bytes. -/
structure NextIs (source : List Byte) (s : Cursors) (c : CodeUnit) (n : ℕ) : Prop where
  /-- there is room for it -/
  room : 0 < s.len
  /-- its bytes are left -/
  left : n ≤ s.rem
  /-- it is read first -/
  reading : reading source s =
    (scalarDecode (s.len.toNat - 1) ((rest source s).drop n)).after [c] n

/-- The end of a turn that has read the unit `c` from `n` bytes. -/
def putUnit {ρ : Type} (s : Cursors) (c : CodeUnit) (n : ℕ) : Outcome Cursors (Except Fault ρ) :=
  access (storeUnit s.target s.dst c) fun target =>
    .next ⟨s.src + n, s.dst + 1, s.len - 1, s.rem - n, target⟩

/-- A turn that decodes a character continues. -/
theorem putUnit_continues {ρ : Type} (h : Bounded source s) {c : CodeUnit} {n : ℕ}
    (hc : NextIs source s c n) :
    ∃ s', (putUnit s c n : Outcome Cursors (Except Fault ρ)) = .next s' ∧
      Continues source s s' := by
  obtain ⟨hlen, hn, hr⟩ := hc
  obtain ⟨target, hstore, hd⟩ := storeUnit_ok h hlen c n
  refine ⟨_, access_ok hstore, h.decodes hd hn (by simp; omega), [c], n, hd, ?_⟩
  have hlen' := hd.len
  rw [List.length_singleton] at hlen'
  rw [hr, reading, rest_add h.src_nonneg hd.src, hlen']
  congr 2
  omega

/-- A turn that goes on behind a character, wherever it has stored it. -/
theorem putUnit_eq_next {ρ : Type} (h : Readable source s) {c : CodeUnit} {n : ℕ}
    (hc : NextIs source s c n)
    (hstep : (putUnit s c n : Outcome Cursors (Except Fault ρ)) = .next s') :
    Readable source s' ∧ reading source s = (reading source s').after [c] n := by
  obtain ⟨hlen, hn, hr⟩ := hc
  obtain ⟨target, -, hnext⟩ := access_eq_next hstep
  cases hnext
  have hsrc := h.src_nonneg
  have hsr := h.src_rem
  refine ⟨⟨?_, ?_, ?_⟩, ?_⟩
  · change 0 ≤ s.src + n
    omega
  · change s.src + n + (s.rem - n) = _
    omega
  · change 0 ≤ s.rem - n
    omega
  · have hrest : rest source ⟨s.src + n, s.dst + 1, s.len - 1, s.rem - n, target⟩ =
        (rest source s).drop n := rest_add hsrc rfl
    have hlen' : (s.len - 1).toNat = s.len.toNat - 1 := by omega
    rw [hr, reading, hrest, hlen']

theorem putUnit_ne_done {ρ : Type} {c : CodeUnit} {n : ℕ} {r : ρ} :
    (putUnit s c n : Outcome Cursors (Except Fault ρ)) ≠ .done (.ok r) := by
  intro h
  obtain ⟨target, -, h⟩ := access_eq_done h
  cases h

/-- What the scalar loops test and keep of a signed `char`. -/
theorem signExtend_char : ∀ b : Byte, (¬ 0x7F < b.signExtend 16 ↔ b ≤ 0x7F) ∧
    (b ≤ 0x7F → b.signExtend 16 = oneUnit b) ∧ b.signExtend 16 &&& 0xFF = b.setWidth 16 ∧
    (b.signExtend 16 : CodeUnit) &&& 0x3F = b.setWidth 16 &&& 0x3F ∧
    ((b.setWidth 16 : CodeUnit) >>> 4 < 14 ↔ b < 0xE0) := by
  decide +kernel

theorem and_ff_signExtend (b : Byte) : b.signExtend 16 &&& 0xFF = b.setWidth 16 :=
  (signExtend_char b).2.2.1

theorem and_3f_signExtend (b : Byte) :
    (b.signExtend 16 : CodeUnit) &&& 0x3F = b.setWidth 16 &&& 0x3F :=
  (signExtend_char b).2.2.2.1

theorem shift_lt_lead3 (b : Byte) : (b.setWidth 16 : CodeUnit) >>> 4 < 14 ↔ b < 0xE0 :=
  (signExtend_char b).2.2.2.2

theorem setWidth_le_ascii (b : Byte) : b.setWidth 16 ≤ (0x7F : CodeUnit) ↔ b ≤ 0x7F := by
  bv_omega

/-! ## The first loop -/

/-- One turn of the first loop: it leaves the loop where it stands, or decodes a character. -/
theorem asciiStep_reads (h : Readable source s) :
    asciiStep source s = .done (.ok s) ∨
      ∃ c n, asciiStep source s = putUnit s c n ∧ NextIs source s c n := by
  rw [asciiStep]
  split
  case isFalse => exact .inl rfl
  case isTrue hc =>
    obtain ⟨b, bs, hr⟩ := h.rest_eq_cons hc.2
    rw [access_ok (loadChar_ok h.src_nonneg hr)]
    split
    case isTrue => exact .inl rfl
    case isFalse hb =>
      have hascii := (signExtend_char b).1.mp hb
      have hroom : s.len.toNat = (s.len.toNat - 1) + 1 := by omega
      rw [(signExtend_char b).2.1 hascii]
      refine .inr ⟨oneUnit b, 1, rfl, hc.1, by omega, ?_⟩
      rw [reading, hroom, hr, scalarDecode_one hascii]
      rfl

/-- One turn of the first loop from bounded cursors. -/
theorem asciiStep_spec (h : Bounded source s) :
    (∃ s', asciiStep source s = .next s' ∧ Continues source s s') ∨
      asciiStep source s = .done (.ok s) := by
  obtain hdone | ⟨c, n, hstep, hc⟩ := asciiStep_reads h.readable
  · exact .inr hdone
  · rw [hstep]
    exact .inl (putUnit_continues h hc)

/-- The first loop ends, in a state that continues. -/
theorem asciiLoop_continues (h : Bounded source s) :
    ∃ s', asciiLoop source s = .ok s' ∧ Continues source s s' := by
  refine Loop.exec_induction (asciiStep_decreases source)
    (C := fun s r => Bounded source s → ∃ s', r = .ok s' ∧ Continues source s s') ?_ ?_ s h
  · intro s r hdone h
    obtain ⟨s', hnext, -⟩ | hstep := asciiStep_spec h
    · rw [hnext] at hdone
      cases hdone
    · rw [hstep] at hdone
      cases hdone
      exact ⟨s, rfl, Continues.refl h⟩
  · intro s s' r hnext ih h
    obtain ⟨t, hstep, hc⟩ | hstep := asciiStep_spec h
    · rw [hnext] at hstep
      cases hstep
      obtain ⟨s'', rfl, hc'⟩ := ih hc.bounded
      exact ⟨s'', rfl, hc.trans hc'⟩
    · rw [hnext] at hstep
      cases hstep

/-! ## The second loop -/

theorem Yields.finished {off : ℤ} (hr : reading source s = ⟨[], some 0⟩) :
    Yields source off s ((ScalarExit.finished s).decoded off) := by
  refine ⟨?_, ?_, ?_, rfl⟩ <;> rw [hr] <;> simp [ScalarExit.decoded, Reading.value]

/-- `return -1`, wherever `src` got. -/
theorem Yields.returned {off : ℤ} (hr : reading source s = ⟨[], none⟩) (src len rem : ℤ) :
    Yields source off s
      ((ScalarExit.returned ⟨src, s.dst, len, rem, s.target⟩).decoded off) := by
  refine ⟨?_, ?_, ?_, rfl⟩ <;> rw [hr] <;> simp [ScalarExit.decoded, Reading.value]

/-- One turn of the second loop: it leaves the loop where nothing is left to decode or inside a
character, or decodes a character. -/
theorem utfStep_reads (h : Readable source s) :
    (utfStep source s = .done (.ok (.finished s)) ∧ reading source s = ⟨[], some 0⟩) ∨
    (∃ src len rem, utfStep source s = .done (.ok (.returned ⟨src, s.dst, len, rem, s.target⟩)) ∧
      reading source s = ⟨[], none⟩) ∨
    ∃ c n, utfStep source s = putUnit s c n ∧ NextIs source s c n := by
  rw [utfStep]
  split
  case isFalse hc => exact .inl ⟨rfl, h.reading_finished hc⟩
  case isTrue hc =>
    obtain ⟨b, bs, hr⟩ := h.rest_eq_cons hc.2
    have hl := h.length_rest
    have hsrc := h.src_nonneg
    have hroom : s.len.toNat = (s.len.toNat - 1) + 1 := by omega
    rw [access_ok (loadChar_ok hsrc hr), and_ff_signExtend]
    dsimp only
    split
    case isTrue hb =>
      -- a character of one byte
      refine .inr (.inr ⟨oneUnit b, 1, rfl, hc.1, by omega, ?_⟩)
      rw [reading, hroom, hr, scalarDecode_one ((setWidth_le_ascii b).mp hb)]
      rfl
    case isFalse hb =>
      rw [setWidth_le_ascii] at hb
      split
      case isTrue hb2 =>
        rw [shift_lt_lead3] at hb2
        split
        case isFalse hrem =>
          -- the source ends behind a lead of two: `return -1`
          rcases bs with _ | ⟨k, bs⟩
          · refine .inr (.inl ⟨_, _, _, rfl, ?_⟩)
            rw [reading, hroom, hr, scalarDecode_cut_two hb]
          · rw [hr, List.length_cons, List.length_cons] at hl
            omega
        case isTrue hrem =>
          rcases bs with _ | ⟨k, bs⟩
          · rw [hr, List.length_singleton] at hl
            omega
          · have hnext : source.drop (s.src + 1).toNat = k :: bs := drop_succ hsrc hr
            rw [access_ok (loadChar_ok (by omega) hnext), and_3f_signExtend]
            refine .inr (.inr ⟨twoUnit b k, 2, ?_, hc.1, by omega, ?_⟩)
            · rw [putUnit, show s.src + ((2 : ℕ) : ℤ) = s.src + 1 + 1 by omega,
                show s.rem - ((2 : ℕ) : ℤ) = s.rem - 1 - 1 by omega]
              rfl
            · rw [reading, hroom, hr, scalarDecode_two hb hb2]
              rfl
      case isFalse hb2 =>
        rw [shift_lt_lead3] at hb2
        split
        case isFalse hrem =>
          -- the source ends behind the first or the second byte of three: `return -1`
          rcases bs with _ | ⟨m, _ | ⟨k, bs⟩⟩
          · refine .inr (.inl ⟨_, _, _, rfl, ?_⟩)
            rw [reading, hroom, hr, scalarDecode_cut_two hb]
          · refine .inr (.inl ⟨_, _, _, rfl, ?_⟩)
            rw [reading, hroom, hr, scalarDecode_cut_three hb2]
          · rw [hr, List.length_cons, List.length_cons, List.length_cons] at hl
            omega
        case isTrue hrem =>
          rcases bs with _ | ⟨m, _ | ⟨k, bs⟩⟩
          · rw [hr, List.length_singleton] at hl
            omega
          · rw [hr, List.length_cons, List.length_singleton] at hl
            omega
          · have hnext : source.drop (s.src + 1).toNat = m :: k :: bs := drop_succ hsrc hr
            have hnext2 : source.drop (s.src + 1 + 1).toNat = k :: bs :=
              drop_succ (by omega) hnext
            rw [access_ok (loadChar_ok (by omega) hnext), access_ok (loadChar_ok (by omega) hnext2),
              and_3f_signExtend, and_3f_signExtend]
            refine .inr (.inr ⟨threeUnit b m k, 3, ?_, hc.1, by omega, ?_⟩)
            · rw [putUnit, show s.src + ((3 : ℕ) : ℤ) = s.src + 1 + 2 by omega,
                show s.rem - ((3 : ℕ) : ℤ) = s.rem - 1 - 2 by omega]
              rfl
            · rw [reading, hroom, hr, scalarDecode_three hb2]
              rfl

/-- One turn of the second loop from bounded cursors: it continues, or leaves the loop with what
the scalar reading says. -/
theorem utfStep_spec (off : ℤ) (h : Bounded source s) :
    (∃ s', utfStep source s = .next s' ∧ Continues source s s') ∨
      ∃ e, utfStep source s = .done (.ok e) ∧ Yields source off s (e.decoded off) := by
  obtain ⟨hdone, hr⟩ | ⟨src, len, rem, hdone, hr⟩ | ⟨c, n, hstep, hc⟩ := utfStep_reads h.readable
  · exact .inr ⟨_, hdone, Yields.finished hr⟩
  · exact .inr ⟨_, hdone, Yields.returned hr src len rem⟩
  · rw [hstep]
    exact .inl (putUnit_continues h hc)

/-- The second loop ends the way the scalar reading says. -/
theorem utfLoop_yields (off : ℤ) (h : Bounded source s) :
    ∃ e, utfLoop source s = .ok e ∧ Yields source off s (e.decoded off) := by
  refine Loop.exec_induction (utfStep_decreases source)
    (C := fun s r => Bounded source s → ∃ e, r = .ok e ∧ Yields source off s (e.decoded off))
    ?_ ?_ s h
  · intro s r hdone h
    obtain ⟨s', hnext, -⟩ | ⟨e, hstep, hy⟩ := utfStep_spec off h
    · rw [hnext] at hdone
      cases hdone
    · rw [hstep] at hdone
      cases hdone
      exact ⟨e, rfl, hy⟩
  · intro s s' r hnext ih h
    obtain ⟨t, hstep, hc⟩ | ⟨e, hstep, -⟩ := utfStep_spec off h
    · rw [hnext] at hstep
      cases hstep
      obtain ⟨e, rfl, hy⟩ := ih hc.bounded
      exact ⟨e, rfl, hy.of_continues hc⟩
    · rw [hnext] at hstep
      cases hstep

/-- **`SCALAR_LOOP` yields**: from bounded cursors it stays inside its arrays and ends the way
`scalarDecode` says. -/
theorem SCALAR_LOOP_yields (off : ℤ) (h : Bounded source s) :
    ∃ e, SCALAR_LOOP source s = .ok e ∧ Yields source off s (e.decoded off) := by
  obtain ⟨s', hascii, hc⟩ := asciiLoop_continues h
  obtain ⟨e, hutf, hy⟩ := utfLoop_yields off hc.bounded
  refine ⟨e, ?_, hy.of_continues hc⟩
  rw [SCALAR_LOOP, hascii]
  exact hutf

end Native

end HzResearch
