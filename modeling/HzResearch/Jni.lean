import HzResearch.DecoderResults
import HzResearch.ReadExtent

/-!
# The decoder behind the Java native interface

What the native method does with the arrays of the virtual machine. A critical
section hands out the storage of an array or a private copy, as the machine
chooses (`GetPrimitiveArrayCritical`), and is closed in a mode that copies a private
copy back or discards it (`ReleasePrimitiveArrayCritical`). The method opens one
section for each of its arrays, runs the loops of `utf8BytesToArray` on the memory it
is handed, and closes both at its end — but not where `SCALAR_LOOP` returns
(`ScalarExit.call`).

* `balanced_iff` — when a call that returns has closed its sections.
* `reachesJava_iff` — when the decoded units are what Java sees.
-/

namespace HzResearch

namespace Native

open Simd Utf8

/-! ## Arrays of the virtual machine -/

/-- An array of the virtual machine. -/
structure JArray (α : Type) where
  /-- the elements that Java sees -/
  elements : List α
  /-- whether the machine grants access to a private copy -/
  copies : Bool
  /-- the private copy that is handed out -/
  copy : Option (List α)
  /-- how many critical sections are open -/
  holds : ℤ
  deriving DecidableEq

/-- The last argument of `ReleasePrimitiveArrayCritical`. -/
inductive ReleaseMode : Type where
  /-- `0`: a private copy is copied back -/
  | copyBack
  /-- `JNI_ABORT`: a private copy is discarded -/
  | JNI_ABORT
  deriving DecidableEq

namespace JArray

variable {α : Type}

/-- `GetPrimitiveArrayCritical` -/
def GetPrimitiveArrayCritical (a : JArray α) : JArray α :=
  { a with copy := if a.copies then some a.elements else none, holds := a.holds + 1 }

/-- What the pointer of the open section points to. -/
def memory (a : JArray α) : List α := a.copy.getD a.elements

/-- The memory the pointer points to holds `xs` now. -/
def setMemory (a : JArray α) (xs : List α) : JArray α :=
  match a.copy with
  | some _ => { a with copy := some xs }
  | none => { a with elements := xs }

/-- `ReleasePrimitiveArrayCritical` -/
def ReleasePrimitiveArrayCritical (a : JArray α) (mode : ReleaseMode) : JArray α :=
  { a with
    elements := match mode with
      | .copyBack => a.memory
      | .JNI_ABORT => a.elements
    copy := none
    holds := a.holds - 1 }

@[simp] theorem memory_get (a : JArray α) : a.GetPrimitiveArrayCritical.memory = a.elements := by
  rw [GetPrimitiveArrayCritical, memory]
  split <;> rfl

@[simp] theorem holds_get (a : JArray α) : a.GetPrimitiveArrayCritical.holds = a.holds + 1 := rfl

@[simp] theorem holds_setMemory (a : JArray α) (xs : List α) :
    (a.setMemory xs).holds = a.holds := by
  rw [setMemory]
  split <;> rfl

@[simp] theorem holds_release (a : JArray α) (mode : ReleaseMode) :
    (a.ReleasePrimitiveArrayCritical mode).holds = a.holds - 1 := rfl

/-- What Java sees of the memory of an open section: all of it, or nothing. -/
theorem elements_setMemory_get (a : JArray α) (xs : List α) :
    (a.GetPrimitiveArrayCritical.setMemory xs).elements =
      if a.copies then a.elements else xs := by
  rw [GetPrimitiveArrayCritical, setMemory]
  cases a.copies <;> rfl

end JArray

variable {source : List Byte} {s s' : Cursors}

/-! ## How `SCALAR_LOOP` is left -/

theorem read_after_eq_none (r : Reading) (us : List CodeUnit) (n : ℕ) :
    (r.after us n).read = none ↔ r.read = none :=
  Option.map_eq_none_iff

/-- `SCALAR_LOOP` is left by `return -1`. -/
def ScalarExit.Returned : ScalarExit → Prop
  | .finished _ => False
  | .returned _ => True

theorem asciiLoop_reading (h : Readable source s) (hloop : asciiLoop source s = .ok s') :
    Readable source s' ∧ ((reading source s).read = none ↔ (reading source s').read = none) := by
  refine Loop.exec_induction (asciiStep_decreases source)
    (C := fun s r => Readable source s → ∀ s', r = .ok s' → Readable source s' ∧
      ((reading source s).read = none ↔ (reading source s').read = none)) ?_ ?_ s h s' hloop
  · rintro s r hdone h s' rfl
    obtain rfl := asciiStep_eq_done hdone
    exact ⟨h, Iff.rfl⟩
  · rintro s t r hnext ih h s' rfl
    obtain hdone | ⟨c, n, hstep, hc⟩ := asciiStep_reads h
    · rw [hdone] at hnext
      cases hnext
    · rw [hstep] at hnext
      obtain ⟨ht, hread⟩ := putUnit_eq_next h hc hnext
      obtain ⟨hs', hiff⟩ := ih ht s' rfl
      refine ⟨hs', ?_⟩
      rw [hread, read_after_eq_none, hiff]

theorem utfLoop_returned {e : ScalarExit} (h : Readable source s)
    (hloop : utfLoop source s = .ok e) : e.Returned ↔ (reading source s).read = none := by
  refine Loop.exec_induction (utfStep_decreases source)
    (C := fun s r => Readable source s → ∀ e, r = .ok e →
      (e.Returned ↔ (reading source s).read = none)) ?_ ?_ s h e hloop
  · rintro s r hdone h e rfl
    obtain ⟨hstep, hr⟩ | ⟨src, len, rem, hstep, hr⟩ | ⟨c, n, hstep, hc⟩ := utfStep_reads h
    · rw [hstep] at hdone
      cases hdone
      rw [hr]
      exact iff_of_false id (by simp)
    · rw [hstep] at hdone
      cases hdone
      rw [hr]
      exact iff_of_true trivial rfl
    · rw [hstep] at hdone
      exact absurd hdone putUnit_ne_done
  · rintro s t r hnext ih h e rfl
    obtain ⟨hstep, -⟩ | ⟨src, len, rem, hstep, -⟩ | ⟨c, n, hstep, hc⟩ := utfStep_reads h
    · rw [hstep] at hnext
      cases hnext
    · rw [hstep] at hnext
      cases hnext
    · rw [hstep] at hnext
      obtain ⟨ht, hread⟩ := putUnit_eq_next h hc hnext
      rw [hread, read_after_eq_none, ih ht e rfl]

/-- `SCALAR_LOOP` returns exactly where the bytes left end inside a character, wherever it
stores. -/
theorem SCALAR_LOOP_returned {e : ScalarExit} (h : Readable source s)
    (hloop : SCALAR_LOOP source s = .ok e) :
    e.Returned ↔ (reading source s).read = none := by
  rw [SCALAR_LOOP] at hloop
  rcases hascii : asciiLoop source s with f | s' <;> rw [hascii] at hloop
  · cases hloop
  · obtain ⟨h', hread⟩ := asciiLoop_reading h hascii
    rw [hread]
    exact utfLoop_returned h' hloop

/-- With room for `n` units, the bytes that the vector loop leaves of `bs` end inside a character
before there is no more room. -/
inductive EndsInside : ℤ → List Byte → Prop where
  /-- there is no block left -/
  | short {n : ℤ} {bs : List Byte} : ¬ (16 ≤ n ∧ 16 ≤ bs.length) →
      (scalarDecode n.toNat bs).read = none → EndsInside n bs
  /-- one of the tests leaves the block to the scalar loop -/
  | rejected {n : ℤ} {bs : List Byte} : mm_movemask_epi8 (block bs) ≠ 0 →
      accepts (block bs) = false → (scalarDecode n.toNat bs).read = none → EndsInside n bs
  /-- the block is ASCII -/
  | ascii {n : ℤ} {bs : List Byte} : 16 ≤ n → 16 ≤ bs.length → mm_movemask_epi8 (block bs) = 0 →
      EndsInside (n - 16) (bs.drop 16) → EndsInside n bs
  /-- the block is decoded -/
  | decoded {n : ℤ} {bs : List Byte} : 16 ≤ n → 16 ≤ bs.length →
      mm_movemask_epi8 (block bs) ≠ 0 → accepts (block bs) = true →
      EndsInside (n - dst_adv (block bs)) (bs.drop (src_adv (block bs)).toNat) → EndsInside n bs

/-- Where the vector loop is left. -/
theorem endsInside_left {n : ℤ} {bs : List Byte} (h : ¬ (16 ≤ n ∧ 16 ≤ bs.length) ∨
    mm_movemask_epi8 (block bs) ≠ 0 ∧ accepts (block bs) = false) :
    EndsInside n bs ↔ (scalarDecode n.toNat bs).read = none := by
  constructor
  · intro he
    cases he with
    | short _ hread => exact hread
    | rejected _ _ hread => exact hread
    | ascii hn hbs hzero _ =>
      obtain hshort | ⟨hne, -⟩ := h
      · exact absurd ⟨hn, hbs⟩ hshort
      · exact absurd hzero hne
    | decoded hn hbs _ hacc _ =>
      obtain hshort | ⟨-, hrej⟩ := h
      · exact absurd ⟨hn, hbs⟩ hshort
      · rw [hrej] at hacc
        cases hacc
  · intro hread
    obtain hshort | ⟨hne, hrej⟩ := h
    · exact .short hshort hread
    · exact .rejected hne hrej hread

/-- Where the vector loop goes on. -/
theorem endsInside_next {n : ℤ} {bs : List Byte} (hn : 16 ≤ n) (hbs : 16 ≤ bs.length) :
    (mm_movemask_epi8 (block bs) = 0 → (EndsInside n bs ↔ EndsInside (n - 16) (bs.drop 16))) ∧
    (mm_movemask_epi8 (block bs) ≠ 0 → accepts (block bs) = true → (EndsInside n bs ↔
      EndsInside (n - dst_adv (block bs)) (bs.drop (src_adv (block bs)).toNat))) := by
  refine ⟨fun hascii => ⟨fun he => ?_, .ascii hn hbs hascii⟩,
    fun hascii hacc => ⟨fun he => ?_, .decoded hn hbs hascii hacc⟩⟩
  · cases he with
    | short hshort _ => exact absurd ⟨hn, hbs⟩ hshort
    | rejected hne _ _ => exact absurd hascii hne
    | ascii _ _ _ he => exact he
    | decoded _ _ hne _ _ => exact absurd hascii hne
  · cases he with
    | short hshort _ => exact absurd ⟨hn, hbs⟩ hshort
    | rejected _ hrej _ =>
      rw [hrej] at hacc
      cases hacc
    | ascii _ _ hzero _ => exact absurd hzero hascii
    | decoded _ _ _ _ he => exact he

/-- A turn that reads `n` of the bytes left keeps the source cursor in its array. -/
theorem Readable.of_turn (h : Readable source s) {n : ℤ} (h0 : 0 ≤ n) (hn : n ≤ s.rem)
    (hsrc : s'.src = s.src + n) (hrem : s'.rem = s.rem - n) :
    Readable source s' ∧ rest source s' = (rest source s).drop n.toNat := by
  have h1 := h.src_nonneg
  have h2 := h.src_rem
  exact ⟨⟨by omega, by omega, by omega⟩, rest_add h1 (by omega)⟩

/-- The vector loop leaves bytes that end inside a character exactly if its blocks do. -/
theorem vectorLoop_endsInside (h : Readable source s) (hloop : vectorLoop source s = .ok s') :
    Readable source s' ∧
      (EndsInside s.len (rest source s) ↔ (reading source s').read = none) := by
  refine Loop.exec_induction (vectorStep_decreases source)
    (C := fun s r => Readable source s → ∀ s', r = .ok s' → Readable source s' ∧
      (EndsInside s.len (rest source s) ↔ (reading source s').read = none)) ?_ ?_ s h s' hloop
  -- the loop is left: `EndsInside` is about what the scalar loop reads from here
  · rintro s r hdone h s' rfl
    have hl := h.length_rest
    obtain ⟨hshort, rfl⟩ | ⟨-, hrem, chunk, hload, hascii, hs⟩ := vectorStep_eq_done hdone
    · exact ⟨h, endsInside_left (.inl (by omega))⟩
    · rw [loadVecU_ok h hrem] at hload
      cases hload
      obtain ⟨hpass, rfl⟩ | ⟨-, hnon, target, -, rfl⟩ := hs
      · exact ⟨h, endsInside_left (.inr ⟨hascii, by rw [accepts, hpass, Bool.false_and]⟩)⟩
      · have hrej : accepts (block (rest source s)) = false := by
          rw [accepts, hnon, Bool.not_true, Bool.and_false]
        exact ⟨⟨h.src_nonneg, h.src_rem, h.rem_nonneg⟩, endsInside_left (.inr ⟨hascii, hrej⟩)⟩
  -- a turn takes its block from the bytes left
  · rintro s t r hnext ih h s' rfl
    have hl := h.length_rest
    obtain ⟨hlen, hrem, chunk, hload, ⟨hascii, target, -, ht⟩ | ⟨hascii, hacc, target, -, ht⟩⟩ :=
      vectorStep_eq_next hnext
    · rw [loadVecU_ok h hrem] at hload
      cases hload
      have hsrc : t.src = s.src + 16 := by rw [ht]
      obtain ⟨hread, hrest⟩ := h.of_turn (by omega) hrem hsrc (by rw [ht])
      obtain ⟨hs', hiff⟩ := ih hread s' rfl
      refine ⟨hs', ?_⟩
      rw [(endsInside_next hlen (by omega)).1 hascii, ← hiff, hrest, ht]
      rfl
    · rw [loadVecU_ok h hrem] at hload
      cases hload
      have hadv := src_adv_cases (block (rest source s))
      have hsrc : t.src = s.src + src_adv (block (rest source s)) := by rw [ht]
      obtain ⟨hread, hrest⟩ := h.of_turn (by omega) (by omega) hsrc (by rw [ht])
      obtain ⟨hs', hiff⟩ := ih hread s' rfl
      refine ⟨hs', ?_⟩
      rw [(endsInside_next hlen (by omega)).2 hascii hacc, ← hiff, hrest, ht]

/-! ## The native method -/

/-- What a call of the native method leaves. -/
structure Call where
  /-- the `jint` returned -/
  value : ℤ
  /-- the source array -/
  source : JArray Byte
  /-- the target array -/
  target : JArray CodeUnit
  deriving DecidableEq

/-- The end of the method: both sections are closed, unless `SCALAR_LOOP` has returned. -/
def ScalarExit.call (source : JArray Byte) (target : JArray CodeUnit) (off : ℤ) :
    ScalarExit → Call
  | .finished s =>
    { value := s.src - off
      source := source.ReleasePrimitiveArrayCritical .JNI_ABORT
      target := (target.setMemory s.target).ReleasePrimitiveArrayCritical .JNI_ABORT }
  | .returned s => { value := -1, source, target := target.setMemory s.target }

/-- `Java_com_nc_gs_io_UTF8Util_utf8BytesToArray`, on arrays of the virtual machine. -/
def Java_com_nc_gs_io_UTF8Util_utf8BytesToArray (source : JArray Byte) (target : JArray CodeUnit)
    (off : ℤ) : Except Fault Call := do
  let source := source.GetPrimitiveArrayCritical
  let target := target.GetPrimitiveArrayCritical
  let s ← vectorLoop source.memory (entry source.memory target.memory off)
  let e ← SCALAR_LOOP source.memory s
  return e.call source target off

/-- The two loops of a call, on the elements of its arrays. -/
theorem call_eq_ok {source : JArray Byte} {target : JArray CodeUnit} {off : ℤ} {r : Call}
    (h : Java_com_nc_gs_io_UTF8Util_utf8BytesToArray source target off = .ok r) :
    ∃ s e, vectorLoop source.elements (entry source.elements target.elements off) = .ok s ∧
      SCALAR_LOOP source.elements s = .ok e ∧
      r = e.call source.GetPrimitiveArrayCritical target.GetPrimitiveArrayCritical off := by
  rw [Java_com_nc_gs_io_UTF8Util_utf8BytesToArray] at h
  simp only [JArray.memory_get] at h
  rcases hvec : vectorLoop source.elements (entry source.elements target.elements off)
    with f | s <;> rw [hvec] at h
  · cases h
  change (do let e ← SCALAR_LOOP source.elements s; return e.call _ _ off) = _ at h
  rcases hscalar : SCALAR_LOOP source.elements s with f | e <;> rw [hscalar] at h
  · cases h
  · cases h
    exact ⟨s, e, rfl, hscalar, rfl⟩

/-- A call of the native method runs `utf8BytesToArray` on the elements of its arrays. -/
theorem call_run {source : JArray Byte} {target : JArray CodeUnit} {off : ℤ} {d : Decoded}
    (h : utf8BytesToArray source.elements target.elements off = .ok d) :
    ∃ e : ScalarExit, d = e.decoded off ∧
      Java_com_nc_gs_io_UTF8Util_utf8BytesToArray source target off =
      .ok (e.call source.GetPrimitiveArrayCritical target.GetPrimitiveArrayCritical off) := by
  obtain ⟨s, e, hvec, hscalar, hd⟩ := utf8BytesToArray_eq_ok h
  refine ⟨e, hd, ?_⟩
  rw [Java_com_nc_gs_io_UTF8Util_utf8BytesToArray]
  simp only [JArray.memory_get]
  rw [hvec]
  change (do let e ← SCALAR_LOOP source.elements s; return e.call _ _ off) = _
  rw [hscalar]
  rfl

/-! ## Balance -/

/-- The critical sections that a call has opened are closed again. -/
def Balanced (source : JArray Byte) (target : JArray CodeUnit) (r : Call) : Prop :=
  r.source.holds = source.holds ∧ r.target.holds = target.holds

/-- The sections are closed unless `SCALAR_LOOP` returns. -/
theorem balanced_call_iff (source : JArray Byte) (target : JArray CodeUnit) (off : ℤ)
    (e : ScalarExit) : Balanced source target
      (e.call source.GetPrimitiveArrayCritical target.GetPrimitiveArrayCritical off) ↔
        ¬ e.Returned := by
  cases e with
  | finished s =>
    refine iff_of_true ⟨?_, ?_⟩ id
    · simp [ScalarExit.call]
    · simp [ScalarExit.call]
  | returned s =>
    refine iff_of_false ?_ (not_not_intro trivial)
    rintro ⟨hsource, -⟩
    simp [ScalarExit.call] at hsource

/-- **The critical sections are balanced** for every call that returns, unless the bytes that the
vector loop leaves end inside a character. -/
theorem balanced_iff {source : JArray Byte} {target : JArray CodeUnit} {off : ℤ} (h0 : 0 ≤ off)
    (h1 : off ≤ source.elements.length) {r : Call}
    (h : Java_com_nc_gs_io_UTF8Util_utf8BytesToArray source target off = .ok r) :
    Balanced source target r ↔
      ¬ EndsInside target.elements.length (source.elements.drop off.toNat) := by
  obtain ⟨s, e, hvec, hscalar, rfl⟩ := call_eq_ok h
  have hread := (bounded_entry h0 h1 target.elements).readable
  obtain ⟨hs, hends⟩ := vectorLoop_endsInside hread hvec
  rw [balanced_call_iff, SCALAR_LOOP_returned hs hscalar, ← hends]
  rfl

/-- A letter and an accented letter. -/
theorem balanced_accent :
    Balanced ⟨[0x41, 0xC3, 0xA9], false, none, 0⟩ ⟨[0, 0], true, none, 0⟩
        ⟨3, ⟨[0x41, 0xC3, 0xA9], false, none, 0⟩, ⟨[0, 0], true, none, 0⟩⟩ ↔
      ¬ EndsInside 2 [0x41, 0xC3, 0xA9] :=
  balanced_iff (le_refl 0) (by decide) (by decide +kernel)

/-- A call that meets the end of the source inside a character leaves both sections open. -/
theorem not_balanced_cut : ∃ r, Java_com_nc_gs_io_UTF8Util_utf8BytesToArray
    ⟨[0xC3], false, none, 0⟩ ⟨[0], false, none, 0⟩ 0 = .ok r ∧
      ¬ Balanced ⟨[0xC3], false, none, 0⟩ ⟨[0], false, none, 0⟩ r :=
  ⟨⟨-1, ⟨[0xC3], false, none, 1⟩, ⟨[0], false, none, 1⟩⟩, by decide +kernel, by
    rintro ⟨hsource, -⟩
    cases hsource⟩

/-! ## What Java sees -/

/-- A call that returns a number of bytes leaves the memory of its target to Java only where that
is the array's own storage, and never changes the source. -/
theorem elements_call {e : ScalarExit} {off : ℤ} (hvalue : (e.decoded off).value ≠ -1)
    (source : JArray Byte) (target : JArray CodeUnit) :
    (e.call source.GetPrimitiveArrayCritical target.GetPrimitiveArrayCritical off).source.elements =
        source.elements ∧
      (e.call source.GetPrimitiveArrayCritical
        target.GetPrimitiveArrayCritical off).target.elements =
          if target.copies then target.elements else (e.decoded off).target := by
  cases e with
  | finished s => exact ⟨rfl, target.elements_setMemory_get s.target⟩
  | returned s => exact absurd rfl hvalue

/-- After the call Java sees the units in the target and the old bytes in the source. -/
def ReachesJava (units : List CodeUnit) (source : JArray Byte) (target : JArray CodeUnit)
    (off : ℤ) : Prop :=
  ∃ r, Java_com_nc_gs_io_UTF8Util_utf8BytesToArray source target off = .ok r ∧
    r.target.elements = units ∧ r.source.elements = source.elements

/-- **The decoded units reach Java** exactly if the machine grants access to the target array's own
storage, or that array holds these units already. -/
theorem reachesJava_iff (units : List CodeUnit) (before behind : List Byte) {source : JArray Byte}
    {target : JArray CodeUnit} (hsource : source.elements = before ++ encode units ++ behind)
    (htarget : target.elements.length = units.length) :
    ReachesJava units source target before.length ↔
      target.copies = false ∨ target.elements = units := by
  have hdrop : source.elements.drop (before.length : ℤ).toNat = encode units ++ behind := by
    rw [hsource, List.append_assoc, Int.toNat_natCast, List.drop_left' rfl]
  obtain ⟨d, hd, hvalue, hfront, hsize⟩ := utf8BytesToArray_spelled (Int.natCast_nonneg _)
    (by rw [hsource]; simp only [List.length_append]; omega) hdrop (spells_encode units)
    (.inl htarget.symm)
  rw [List.take_of_length_le (by omega)] at hfront
  obtain ⟨e, rfl, hcall⟩ := call_run hd
  have hread : (e.decoded before.length).value ≠ -1 := by
    rw [hvalue]
    omega
  obtain ⟨hsame, helements⟩ := elements_call hread source target
  -- a private copy is discarded, and Java sees what it saw before
  have hreaches : ReachesJava units source target before.length ↔
      (if target.copies then target.elements else (e.decoded before.length).target) = units := by
    constructor
    · rintro ⟨r, hr, helem, -⟩
      rw [hcall] at hr
      cases hr
      rw [← helements, helem]
    · intro helem
      exact ⟨_, hcall, by rw [helements, helem], hsame⟩
  rw [hreaches, hfront]
  cases target.copies with
  | false => simp
  | true => simp

/-- An accented letter, decoded in place. -/
theorem reachesJava_accent :
    ReachesJava [0xE9] ⟨[0x41, 0xC3, 0xA9], true, none, 0⟩ ⟨[0], false, none, 0⟩ 1 ↔
      false = false ∨ [0] = [(0xE9 : CodeUnit)] :=
  reachesJava_iff [0xE9] [0x41] [] rfl rfl

/-- From a private copy the letter is discarded. -/
theorem not_reachesJava_copy :
    ¬ ReachesJava [0x61] ⟨[0x61], false, none, 0⟩ ⟨[0], true, none, 0⟩ 0 := by
  have hcall : Java_com_nc_gs_io_UTF8Util_utf8BytesToArray ⟨[0x61], false, none, 0⟩
      ⟨[0], true, none, 0⟩ 0 =
        .ok ⟨1, ⟨[0x61], false, none, 0⟩, ⟨[0], true, none, 0⟩⟩ := by decide +kernel
  rintro ⟨r, hr, helem, -⟩
  rw [hcall] at hr
  cases hr
  exact absurd helem (by decide)

end Native

end HzResearch
