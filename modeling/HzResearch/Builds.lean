import HzResearch.DecoderResults

/-!
# The guards of the vector loop

The vector loop leaves a block to the scalar loop where a guard says so: four tests before the
stores of the block and one after them, which is written in two ways, for SSE4.2 and without it.
The two do not agree: without SSE4.2 the ends of the range U+FDD0 to U+FDEF are let through
(`nonCharacterSSE41_iff`).

On text this does not matter, and neither do the other tests: `decodeWith_text` is the round trip
for the decoder with any guards whatever. They are there for bytes that are not characters.
-/

namespace HzResearch

namespace Native

open Simd Utf8

variable {source : List Byte} {s s' : Cursors} {n : ℕ} {left : List Byte}

/-! ## The decoder with its guards left open -/

/-- What the vector loop asks of a block. -/
structure Guards where
  /-- the loop is left before the stores -/
  before : Vec → Bool
  /-- the loop is left after the stores -/
  after : Vec → Bool

/-- The guards of the build with `__SSE4_2__`. -/
def guardsSSE42 : Guards := ⟨fun chunk => !passes chunk, nonCharacter⟩

/-- The last test of the build without `__SSE4_2__`. -/
def nonCharacterSSE41 (chunk : Vec) : Bool :=
  let chunk_low := mm_shuffle_epi8 (chunk_low chunk) (shuf chunk)
  let chunk_high := mm_shuffle_epi8 (chunk_high chunk) (shuf chunk)
  !mm_testz_si128 (mm_cmpeq_epi8 (mm_set1_epi8 0xfd) chunk_high)
      (mm_and_si128 (mm_cmplt_epi8 (mm_set1_epi8 0xd0) chunk_low)
        (mm_cmpgt_epi8 (mm_set1_epi8 0xef) chunk_low)) ||
    !mm_testz_si128 (mm_cmpeq_epi8 (mm_set1_epi8 0xff) chunk_high)
      (mm_or_si128 (mm_cmpeq_epi8 (mm_set1_epi8 0xfe) chunk_low)
        (mm_cmpeq_epi8 (mm_set1_epi8 0xff) chunk_low))

/-- The guards of the build without it. -/
def guardsSSE41 : Guards := ⟨fun chunk => !passes chunk, nonCharacterSSE41⟩

variable (g : Guards)

/-- One turn of the vector loop. -/
def vectorStepWith (source : List Byte) (s : Cursors) : Outcome Cursors (Except Fault Cursors) :=
  if GS_CHUNK_SIZE ≤ s.len ∧ GS_CHUNK_SIZE ≤ s.rem then
    access (loadVecU source s.src) fun chunk =>
      if mm_movemask_epi8 chunk = 0 then
        access (storePair s.target s.dst (zeroExtendLow chunk) (zeroExtendHigh chunk)) fun target =>
          .next
            { src := s.src + GS_CHUNK_SIZE, dst := s.dst + GS_CHUNK_SIZE,
              len := s.len - GS_CHUNK_SIZE, rem := s.rem - GS_CHUNK_SIZE, target }
      else if g.before chunk then .done (.ok s)
      else
        access (storePair s.target s.dst (utf16_low chunk) (utf16_high chunk)) fun target =>
          if g.after chunk then .done (.ok { s with target })
          else
            .next
              { src := s.src + src_adv chunk, dst := s.dst + dst_adv chunk,
                len := s.len - dst_adv chunk, rem := s.rem - src_adv chunk, target }
  else .done (.ok s)

/-- The vector loop of the model is the one with the guards for SSE4.2. -/
theorem vectorStepWith_sse42 : vectorStepWith guardsSSE42 = vectorStep := by
  funext source s
  rw [vectorStepWith, vectorStep]
  congr 1
  congr 1
  funext chunk
  rw [ite_passes]
  cases hp : passes chunk
  · simp [guardsSSE42, hp]
  · simp only [guardsSSE42, hp]
    rfl

variable {g}

/-- What a turn that goes on has done. -/
theorem vectorStepWith_eq_next (h : vectorStepWith g source s = .next s') :
    16 ≤ s.len ∧ 16 ≤ s.rem ∧ ∃ chunk, loadVecU source s.src = .ok chunk ∧
      ((mm_movemask_epi8 chunk = 0 ∧ ∃ target,
          storePair s.target s.dst (zeroExtendLow chunk) (zeroExtendHigh chunk) = .ok target ∧
          s' = ⟨s.src + 16, s.dst + 16, s.len - 16, s.rem - 16, target⟩) ∨
       ∃ target, storePair s.target s.dst (utf16_low chunk) (utf16_high chunk) = .ok target ∧
          s' = ⟨s.src + src_adv chunk, s.dst + dst_adv chunk, s.len - dst_adv chunk,
            s.rem - src_adv chunk, target⟩) := by
  unfold vectorStepWith GS_CHUNK_SIZE at h
  split at h
  case isFalse => cases h
  case isTrue hc =>
    obtain ⟨chunk, hload, h⟩ := access_eq_next h
    refine ⟨hc.1, hc.2, chunk, hload, ?_⟩
    split at h
    case isTrue hascii =>
      obtain ⟨target, hstore, h⟩ := access_eq_next h
      cases h
      exact .inl ⟨hascii, target, hstore, rfl⟩
    case isFalse =>
      split at h
      · cases h
      obtain ⟨target, hstore, h⟩ := access_eq_next h
      split at h
      · cases h
      · cases h
        exact .inr ⟨target, hstore, rfl⟩

theorem vectorStepWith_decreases (g : Guards) (source : List Byte) :
    Loop.Decreases (vectorStepWith g source) fun s => s.rem.toNat := by
  intro s s' h
  obtain ⟨-, hrem, chunk, -, h⟩ := vectorStepWith_eq_next h
  obtain ⟨-, target, -, rfl⟩ | ⟨target, -, rfl⟩ := h
  · change (s.rem - 16).toNat < s.rem.toNat
    omega
  · change (s.rem - src_adv chunk).toNat < s.rem.toNat
    have := src_adv_cases chunk
    omega

/-- The vector loop. -/
def vectorLoopWith (g : Guards) (source : List Byte) (s : Cursors) : Except Fault Cursors :=
  Loop.exec (vectorStepWith g source) (fun s => s.rem.toNat) (vectorStepWith_decreases g source) s

/-- `Java_com_nc_gs_io_UTF8Util_utf8BytesToArray` -/
def utf8BytesToArrayWith (g : Guards) (source : List Byte) (target : List CodeUnit) (off : ℤ) :
    Except Fault Decoded := do
  let s ← vectorLoopWith g source (entry source target off)
  let e ← SCALAR_LOOP source s
  return e.decoded off

theorem utf8BytesToArrayWith_sse42 : utf8BytesToArrayWith guardsSSE42 = utf8BytesToArray := by
  have hloop : vectorLoopWith guardsSSE42 = vectorLoop := by
    funext source s
    unfold vectorLoopWith vectorLoop
    congr 1
    exact congrFun vectorStepWith_sse42 source
  funext source target off
  rw [utf8BytesToArrayWith, utf8BytesToArray, hloop]

/-! ## The two ways to find a noncharacter -/

/-- Two registers share a bit in some lane. -/
theorem testz_eq_false_iff (a b : Vec) :
    mm_testz_si128 a b = false ↔ ∃ i, a i &&& b i ≠ 0 := by
  rw [mm_testz_si128, decide_eq_false_iff_not]
  push Not
  rfl

theorem laneMask_and (p q : Bool) : laneMask p &&& laneMask q = laneMask (p && q) := by
  cases p <;> cases q <;> rfl

theorem laneMask_or (p q : Bool) : laneMask p ||| laneMask q = laneMask (p || q) := by
  cases p <;> cases q <;> rfl

theorem laneMask_ne_zero (p : Bool) : laneMask p ≠ 0 ↔ p = true := by
  cases p <;> simp [laneMask]

/-- The comparisons are signed, and strict. -/
theorem slt_range : ∀ lo : Byte, BitVec.slt 0xd0 lo = true ∧ BitVec.slt lo 0xef = true ↔
    0xD1 ≤ lo ∧ lo ≤ 0xEE := by
  decide +kernel

/-- What the test without SSE4.2 looks for. -/
theorem inner_iff (hi lo : Byte) :
    (0xfd = hi ∧ BitVec.slt 0xd0 lo = true ∧ BitVec.slt lo 0xef = true ∨
        0xff = hi ∧ (0xfe = lo ∨ 0xff = lo)) ↔
      IsNonCharacter (hi ++ lo) ∧ hi ++ lo ≠ 0xFDD0#16 ∧ hi ++ lo ≠ 0xFDEF#16 := by
  have hword : (hi ++ lo).toNat = hi.toNat * 256 + lo.toNat := by
    rw [BitVec.toNat_append, ← Nat.shiftLeft_add_eq_or_of_lt lo.isLt, Nat.shiftLeft_eq]
  have hlo := lo.isLt
  have hhi := hi.isLt
  rw [slt_range, IsNonCharacter]
  simp only [BitVec.le_def, ne_eq, ← BitVec.toNat_inj, hword, BitVec.ofNat_eq_ofNat,
    BitVec.toNat_ofNat, Nat.reducePow, Nat.reduceMod]
  omega

/-- The stored units lane by lane. -/
theorem exists_storedUnits (chunk : Vec) (P : CodeUnit → Prop) :
    (∃ u ∈ storedUnits chunk, P u) ↔ ∃ i : Fin 16,
      P (mm_shuffle_epi8 (chunk_high chunk) (shuf chunk) i ++
        mm_shuffle_epi8 (chunk_low chunk) (shuf chunk) i) := by
  have hunit : ∀ i : Fin 16, (storedUnits chunk)[i.val]? =
      some (mm_shuffle_epi8 (chunk_high chunk) (shuf chunk) i ++
        mm_shuffle_epi8 (chunk_low chunk) (shuf chunk) i) := by
    intro i
    rw [storedUnits, utf16_low, utf16_high, getElem?_units_unpack _ _ i.isLt, lane_val, lane_val]
  constructor
  · rintro ⟨u, hu, hP⟩
    obtain ⟨k, hk⟩ := List.getElem?_of_mem hu
    have h16 : k < 16 := by
      have := (List.getElem?_eq_some_iff.mp hk).1
      simpa [storedUnits] using this
    obtain rfl := Option.some.inj ((hunit ⟨k, h16⟩).symm.trans hk)
    exact ⟨⟨k, h16⟩, hP⟩
  · rintro ⟨i, hP⟩
    exact ⟨_, List.mem_of_getElem? (hunit i), hP⟩

/-- The test without SSE4.2 looks at the units that are stored, too, but leaves out the first and
the last noncharacter of the range. -/
theorem nonCharacterSSE41_iff (chunk : Vec) : nonCharacterSSE41 chunk = true ↔
    ∃ u ∈ storedUnits chunk, IsNonCharacter u ∧ u ≠ 0xFDD0 ∧ u ≠ 0xFDEF := by
  rw [exists_storedUnits, nonCharacterSSE41, Bool.or_eq_true, Bool.not_eq_true', Bool.not_eq_true',
    testz_eq_false_iff, testz_eq_false_iff, ← exists_or]
  refine exists_congr fun i => ?_
  simp only [mm_cmpeq_epi8, mm_and_si128, mm_or_si128, mm_cmplt_epi8, mm_cmpgt_epi8, mm_set1_epi8,
    laneMask_and, laneMask_or, laneMask_ne_zero, Bool.and_eq_true, Bool.or_eq_true, beq_iff_eq]
  exact inner_iff _ _

/-! ## Text -/

/-- What is left is the front of bytes that spell units, or starts with such bytes and there is room
for just their units. -/
def TextLeft (n : ℕ) (left : List Byte) : Prop :=
  ∃ bs us, Spells bs us ∧ (left <+: bs ∨ bs <+: left ∧ us.length = n)

/-- Behind the bytes of some of the characters text is left. -/
theorem TextLeft.drop {bs : List Byte} {us : List CodeUnit}
    (hleft : left <+: bs ∨ bs <+: left ∧ us.length = n) {k m : ℕ}
    (hsp : Spells (bs.drop k) (us.drop m)) : TextLeft (n - m) (left.drop k) := by
  refine ⟨_, _, hsp, hleft.imp (fun hfront => hfront.drop k) fun hbehind => ⟨hbehind.1.drop k, ?_⟩⟩
  rw [List.length_drop, hbehind.2]

/-- A block of text is a block of the bytes that spell it. -/
theorem take_of_left {bs : List Byte} {us : List CodeUnit} (hsp : Spells bs us)
    (hleft : left <+: bs ∨ bs <+: left ∧ us.length = n) (hn : 16 ≤ n) (hlen : 16 ≤ left.length) :
    16 ≤ bs.length ∧ ∀ k, k ≤ 16 → left.take k = bs.take k := by
  have hle := hsp.length_le
  rcases hleft with ⟨r, rfl⟩ | ⟨⟨r, rfl⟩, hus⟩
  · exact ⟨by rw [List.length_append]; omega,
      fun k hk => (List.take_append_of_le_length (by omega)).symm⟩
  · exact ⟨by omega, fun k hk => List.take_append_of_le_length (by omega)⟩

/-- Behind sixteen ASCII characters. -/
theorem TextLeft.ascii (h : TextLeft n left) (hn : 16 ≤ n) (hlen : 16 ≤ left.length)
    (hascii : mm_movemask_epi8 (block left) = 0) : TextLeft (n - 16) (left.drop 16) := by
  obtain ⟨bs, us, hsp, hleft⟩ := h
  obtain ⟨h16, htake⟩ := take_of_left hsp hleft hn hlen
  have hall := ascii_of_movemask hascii
  rw [bytes_block hlen, htake 16 (le_refl 16)] at hall
  exact .drop hleft (hsp.drop_ascii 16 h16 hall).2

/-- Every other block starts with the characters that the loop would advance over. -/
theorem TextLeft.advance (h : TextLeft n left) (hn : 16 ≤ n) (hlen : 16 ≤ left.length) :
    ∃ us, Spells (left.take (src_adv (block left)).toNat) us ∧
      TextLeft (n - us.length) (left.drop (src_adv (block left)).toNat) := by
  obtain ⟨bs, us, hsp, hleft⟩ := h
  obtain ⟨h16, htake⟩ := take_of_left hsp hleft hn hlen
  obtain ⟨bs₁, bs₂, us₁, us₂, rfl, rfl, h₁, h₂, hcut⟩ := hsp.cut 16 h16
  have hbytes : bytes (block left) = (bs₁ ++ bs₂).take 16 := by
    rw [bytes_block hlen, htake 16 (le_refl 16)]
  have hadv := src_adv_of_spells h₁ hcut hbytes
  have hsrc := src_adv_cases (block left)
  rw [hadv, Int.toNat_natCast]
  refine ⟨us₁, ?_, ?_⟩
  · rw [htake _ (by omega), List.take_left' rfl]
    exact h₁
  · refine .drop hleft ?_
    rw [List.drop_left' rfl, List.drop_left' rfl]
    exact h₂

/-- The loop is left without a fault, and has decoded nothing in its last turn. -/
theorem vectorStepWith_done (h : Bounded source s) {r : Except Fault Cursors}
    (hstep : vectorStepWith g source s = .done r) : ∃ s', r = .ok s' ∧ Continues source s s' := by
  unfold vectorStepWith GS_CHUNK_SIZE at hstep
  split at hstep
  case isFalse =>
    cases hstep
    exact ⟨s, rfl, Continues.refl h⟩
  case isTrue hc =>
    rw [access_ok (loadVecU_ok h.readable hc.2)] at hstep
    split at hstep
    case isTrue =>
      rw [access_ok (storePair_ok h hc.1 _ _)] at hstep
      cases hstep
    case isFalse =>
      split at hstep
      case isTrue =>
        cases hstep
        exact ⟨s, rfl, Continues.refl h⟩
      case isFalse =>
        rw [access_ok (storePair_ok h hc.1 _ _)] at hstep
        split at hstep
        case isTrue =>
          cases hstep
          exact ⟨_, rfl, Continues.of_stores h hc.1 (storePair_ok h hc.1 _ _)⟩
        case isFalse => cases hstep

/-- A turn that goes on decodes characters of the text, and text is left. -/
theorem vectorStepWith_next (h : Bounded source s)
    (ht : TextLeft s.len.toNat (rest source s)) (hstep : vectorStepWith g source s = .next s') :
    Continues source s s' ∧ TextLeft s'.len.toNat (rest source s') := by
  obtain ⟨hlen, hrem, chunk, hload, hs⟩ := vectorStepWith_eq_next hstep
  rw [loadVecU_ok h.readable hrem] at hload
  cases hload
  have hl := h.length_rest
  obtain ⟨hascii, target, hstore, rfl⟩ | ⟨target, hstore, rfl⟩ := hs
  · refine ⟨Continues.of_ascii h hlen hrem hascii hstore, ?_⟩
    rw [rest_add (n := 16) h.src_nonneg rfl]
    change TextLeft (s.len - 16).toNat _
    rw [show (s.len - 16).toNat = s.len.toNat - 16 by omega]
    exact ht.ascii (by omega) (by omega) hascii
  · obtain ⟨hsize, hfront⟩ := storePair_front h hlen hstore
    obtain ⟨us, hsp, hleft⟩ := ht.advance (by omega) (by omega)
    have hadv : Advances (block (rest source s)) s
        ⟨s.src + src_adv (block (rest source s)), s.dst + dst_adv (block (rest source s)),
          s.len - dst_adv (block (rest source s)), s.rem - src_adv (block (rest source s)),
          target⟩ := ⟨rfl, rfl, rfl, rfl, hfront, hsize⟩
    obtain ⟨hd, hc⟩ := Continues.of_advances h hlen hrem hadv hsp
    refine ⟨hc, ?_⟩
    have hlen' := hd.len
    rw [rest_add h.src_nonneg hd.src, hlen', show (s.len - us.length).toNat =
      s.len.toNat - us.length by omega]
    exact hleft

/-- The loop goes on to where the scalar loop decodes what it would have decoded from the start. -/
theorem vectorLoopWith_continues (g : Guards) (h : Bounded source s)
    (ht : TextLeft s.len.toNat (rest source s)) :
    ∃ s', vectorLoopWith g source s = .ok s' ∧ Continues source s s' := by
  refine Loop.exec_induction (vectorStepWith_decreases g source)
    (C := fun s r => Bounded source s → TextLeft s.len.toNat (rest source s) →
      ∃ s', r = .ok s' ∧ Continues source s s') ?_ ?_ s h ht
  · intro s r hstep h _
    exact vectorStepWith_done h hstep
  · intro s s' r hstep ih h ht
    obtain ⟨hc, ht'⟩ := vectorStepWith_next h ht hstep
    obtain ⟨s'', rfl, hc'⟩ := ih hc.bounded ht'
    exact ⟨s'', rfl, hc.trans hc'⟩

/-- **The guards do not matter on text**: with any tests whatever, before and after the stores, the
decoder reads bytes that spell units as these units, into an array with room for just these — or for
more of them, if nothing lies behind. -/
theorem decodeWith_text (g : Guards) {off : ℤ} (h0 : 0 ≤ off) (h1 : off ≤ source.length)
    {bs tail : List Byte} {us target : List CodeUnit} (hdrop : source.drop off.toNat = bs ++ tail)
    (hsp : Spells bs us)
    (hroom : us.length = target.length ∨ us.length ≤ target.length ∧ tail = []) :
    ∃ d, utf8BytesToArrayWith g source target off = .ok d ∧ d.value = bs.length ∧
      d.count = us.length ∧ d.target.take us.length = us ∧ d.target.length = target.length := by
  have htext : TextLeft target.length (source.drop off.toNat) := by
    refine ⟨bs, us, hsp, ?_⟩
    rw [hdrop]
    rcases hroom with hus | ⟨-, rfl⟩
    · exact .inr ⟨List.prefix_append bs tail, hus⟩
    · rw [List.append_nil]
      exact .inl (List.prefix_refl bs)
  obtain ⟨s, hvec, hc⟩ := vectorLoopWith_continues g (bounded_entry h0 h1 target) htext
  obtain ⟨e, hscalar, hyields⟩ := SCALAR_LOOP_yields off hc.bounded
  have hy := hyields.of_continues hc
  have hrun : utf8BytesToArrayWith g source target off = .ok (e.decoded off) := by
    rw [utf8BytesToArrayWith, hvec]
    change (do let e ← SCALAR_LOOP source s; return e.decoded off) = _
    rw [hscalar]
    rfl
  have hread : reading source (entry source target off) = ⟨us, some bs.length⟩ := by
    have hbehind : scalarDecode (target.length - us.length) tail = ⟨[], some 0⟩ := by
      rcases hroom with hus | ⟨-, rfl⟩
      · rw [hus, Nat.sub_self, scalarDecode_zero]
      · exact scalarDecode_nil _
    change scalarDecode target.length (source.drop off.toNat) = _
    rw [hdrop, scalarDecode_spelled hsp _ _ (by omega), hbehind]
    simp [Reading.after]
  have hcount : (e.decoded off).count = us.length := by
    rw [hy.count, hread]
    exact Int.zero_add _
  have hfront := hy.front
  rw [hcount, hread] at hfront
  refine ⟨e.decoded off, hrun, ?_, hcount, ?_, hy.size⟩
  · rw [hy.value, hread]
    simp [entry, Reading.value]
  · simpa [entry] using hfront

/-- Without SSE4.2, characters that the test with it would not let through. -/
theorem decodeWith_text_sse41 :
    ∃ d, utf8BytesToArrayWith guardsSSE41 (encode (List.replicate 20 0xFDD0) ++ [0xFF])
        (List.replicate 20 0) 0 = .ok d ∧
      d.value = (encode (List.replicate 20 0xFDD0)).length ∧ d.count = 20 ∧
        d.target.take 20 = List.replicate 20 0xFDD0 ∧ d.target.length = 20 :=
  decodeWith_text guardsSSE41 (le_refl 0) (Int.natCast_nonneg _) rfl
    (spells_encode (List.replicate 20 0xFDD0)) (.inl rfl)

end Native

end HzResearch
