import HzResearch.PlainText
import HzResearch.ScalarLoop

/-!
# The loops of the reader and `SCALAR_LOOP`

`readUTF` and `inflateUTF` decode with the same loop, into `charBuffer` and into an array
of the caller (`readChars_decodes`, `inflateChars_decodes`). `scalarDecode`, the meaning of
`SCALAR_LOOP`, reads whatever that loop reads: a lead the loop accepts has the same
trailing bytes and the same unit (`scalarDecode_nextChar`), and the two stop in the same
place where bytes are missing (`scalarDecode_eof`). They differ only on the leads that
`Bits.readUtf8Char` rejects, which `SCALAR_LOOP` takes for leads of two or three bytes.

`scalar_refines` is the result: `SCALAR_LOOP` refines both loops.
-/

namespace HzResearch

open Java

namespace Utf8

/-! ## The two meanings -/

/-- The scalar loop decodes a character the reader accepts. -/
theorem scalarDecode_nextChar {bs : List Byte} {c : CodeUnit} {k : ℕ}
    (h : nextChar bs = .ok (c, k)) (n : ℕ) :
    scalarDecode (n + 1) bs = (scalarDecode n (bs.drop k)).after [c] k := by
  unfold nextChar at h
  split at h
  case h_1 => cases h
  case h_2 b bs =>
  split at h
  case isTrue h1 =>
    cases h
    exact scalarDecode_one h1 n bs
  case isFalse h1 =>
  split at h
  case isTrue h2 =>
    split at h
    case h_2 => cases h
    case h_1 k tail =>
    cases h
    exact scalarDecode_two h1 (by have := h2.2; bv_omega) n k tail
  case isFalse h2 =>
  split at h
  case isFalse => cases h
  case isTrue h3 =>
    split at h
    case h_2 => cases h
    case h_1 m k tail =>
    cases h
    exact scalarDecode_three (by have := h3.1; bv_omega) n m k tail

/-- Where bytes are missing the scalar loop ends, or returns inside the character. -/
theorem scalarDecode_eof {bs : List Byte} {message : Option String}
    (h : nextChar bs = .error (.EOFException message)) (n : ℕ) :
    scalarDecode (n + 1) bs = ⟨[], if bs = [] then some 0 else none⟩ := by
  unfold nextChar at h
  split at h
  case h_1 => rfl
  case h_2 b bs =>
  rw [if_neg (List.cons_ne_nil b bs)]
  split at h
  case isTrue => cases h
  case isFalse h1 =>
  split at h
  case isTrue h2 =>
    split at h
    case h_1 => cases h
    case h_2 => exact scalarDecode_cut_two h1 n
  case isFalse h2 =>
  split at h
  case isFalse => cases h
  case isTrue h3 =>
    split at h
    case h_1 => cases h
    case h_2 hshort =>
    have hb : ¬ b < 0xE0 := by
      have := h3.1
      bv_omega
    rcases bs with _ | ⟨m, _ | ⟨k, tail⟩⟩
    · exact scalarDecode_cut_two h1 n
    · exact scalarDecode_cut_three hb n m
    · exact absurd rfl (hshort m k tail)

/-- The scalar loop decodes a text the reader accepts. -/
theorem scalarDecode_plainText (n m : ℕ) : ∀ {bs : List Byte} {us : List CodeUnit} {k : ℕ},
    plainText m bs = .ok (us, k) →
      scalarDecode (m + n) bs = (scalarDecode n (bs.drop k)).after us k := by
  induction m with
  | zero =>
    intro bs us k h
    cases h
    rw [Nat.zero_add, List.drop_zero, Reading.after_nil]
  | succ m ih =>
    intro bs us k h
    rcases plainText_succ m bs with ⟨x, -, hx⟩ | ⟨c, l, hc, ⟨x, -, hx⟩ | ⟨vs, j, hvs, hok⟩⟩
    · rw [hx] at h
      cases h
    · rw [hx] at h
      cases h
    rw [hok] at h
    cases h
    rw [Nat.add_right_comm, scalarDecode_nextChar hc, ih hvs, Reading.after_after, List.drop_drop,
      Nat.add_comm l j]
    rfl

end Utf8

open Utf8

namespace ByteArrayObjectDataInput

variable {s : ByteArrayObjectDataInput} {bits : Bits}

/-! ## The loop of `inflateUTF` -/

theorem beside_ok {α : Type} {m : In α} {a : α} {s' : ByteArrayObjectDataInput}
    (h : m s = .ok a s') (dst : List CodeUnit) : beside m (s, dst) = .ok a (s', dst) := by
  simp only [beside, h]

theorem beside_error {α : Type} {m : In α} {e : Stop} {s' : ByteArrayObjectDataInput}
    (h : m s = .error e s') (dst : List CodeUnit) : beside m (s, dst) = .error e (s', dst) := by
  simp only [beside, h]

theorem beside_bind {α β : Type} (m : In α) (f : α → In β) :
    beside (m >>= f) = (do let a ← beside m; beside (f a)) := by
  funext ⟨s, dst⟩
  rcases h : m s with ⟨a, s'⟩ | ⟨e, s'⟩
  · rw [bind_ok (beside_ok h dst)]
    simp only [beside, bind_ok h]
  · rw [bind_error (beside_error h dst), beside_error (bind_error h)]

/-- One character of the stream, beside an array. -/
theorem inflateChars_eq (bits : Bits) (i : ℕ) :
    inflateChars bits i = (do let c ← beside (nextUnit bits); storeDst i c) := by
  rw [inflateChars, nextUnit]
  rw [beside_bind, bind_assoc]
  congr 1
  funext b
  split
  case isFalse => rfl
  case isTrue hb =>
    -- `readUtf8Char` calls nothing but `readByte`
    suffices h : bits.readUtf8Char (beside readByte) b = beside (bits.readUtf8Char readByte b) by
      rw [h]
    rw [toInt_neg_iff] at hb
    by_cases h2 : 0xC0 ≤ b ∧ b ≤ 0xDF
    · rw [bits.readUtf8Char_two _ h2.1 h2.2, bits.readUtf8Char_two _ h2.1 h2.2, beside_bind]
      rfl
    by_cases h3 : 0xE0 ≤ b ∧ b ≤ 0xEF
    · rw [bits.readUtf8Char_three _ h3.1 h3.2, bits.readUtf8Char_three _ h3.1 h3.2, beside_bind]
      simp only [beside_bind]
      rfl
    · rw [bits.readUtf8Char_other _ (by bv_omega) (by bv_omega),
        bits.readUtf8Char_other _ (by bv_omega) (by bv_omega)]
      rfl

theorem storeDst_run {dst : List CodeUnit} {i : ℤ} (h0 : 0 ≤ i) (hi : i < dst.length)
    (c : CodeUnit) : storeDst i c (s, dst) = .ok () (s, splice dst i.toNat [c]) := by
  simp only [storeDst, store_ok h0 hi c]

variable (bits) in
/-- The loop of `inflateUTF` decodes into the array of the caller. -/
theorem inflateChars_decodes (h : InBounds s) :
    DecodesInto s.rest (inflateChars bits) fun n dst => (s.moved n, dst) where
  ok := by
    intro n i k dst c hn hi hc
    have hin := h.moved (n := n) (by omega) (by omega)
    rw [← h.rest_moved n] at hc
    rw [inflateChars_eq, bind_ok (beside_ok (nextUnit_ok hin hc) dst), moved_moved, Nat.cast_add]
    exact storeDst_run (by omega) (by omega) c
  error := by
    intro n i dst x hn hx
    have hin := h.moved (n := n) (by omega) (by omega)
    rw [← h.rest_moved n] at hx
    obtain ⟨s', hrun⟩ := nextUnit_error bits hin hx
    rw [inflateChars_eq]
    exact ⟨(s', dst), bind_error (beside_error hrun dst)⟩

/-! ## Refinement -/

open Native (SCALAR_LOOP entry)

/-- `SCALAR_LOOP`, from the byte `pos t` on and with room for as many units as `target` has, does
what the loop of these turns does: `chars` is the array the turns store into. -/
structure Refines {σ : Type} (source : List Byte) (target : List CodeUnit)
    (turn : ℕ → Java σ Unit) (pos : σ → ℤ) (chars : σ → List CodeUnit) (t : σ) : Prop where
  /-- where the loop completes, the same units are stored and as many bytes read -/
  completes : ∀ t', forEach turn (List.range target.length) t = .ok () t' →
    ∃ e, SCALAR_LOOP source (entry source target (pos t)) = .ok e ∧
      (e.decoded (pos t)).count = target.length ∧
      (e.decoded (pos t)).target = (chars t').take target.length ∧
      (e.decoded (pos t)).value = pos t' - pos t
  /-- where it ends in `EOFException` in turn `m`, the units of the turns before are stored, and
  either all bytes are read or the value is `-1`, as the turn found a byte or not -/
  ends : ∀ message t', forEach turn (List.range target.length) t =
      .error (.throws (.EOFException message)) t' →
    ∃ m t₁, m < target.length ∧ forEach turn (List.range m) t = .ok () t₁ ∧
      turn m t₁ = .error (.throws (.EOFException message)) t' ∧
      ∃ e, SCALAR_LOOP source (entry source target (pos t)) = .ok e ∧
        (e.decoded (pos t)).count = m ∧
        (e.decoded (pos t)).target.take m = (chars t₁).take m ∧
        (e.decoded (pos t)).value = if pos t₁ = source.length then source.length - pos t else -1

section Refines

variable {σ : Type} {turn : ℕ → Java σ Unit} {place : ℕ → List CodeUnit → σ} (pos : σ → ℤ)
  (chars : σ → List CodeUnit) {target buffer : List CodeUnit}

/-- `SCALAR_LOOP` at the cursor of a reader. -/
theorem InBounds.SCALAR_LOOP_run (h : InBounds s) (target : List CodeUnit) :
    ∃ e, SCALAR_LOOP s.bytes (entry s.bytes target s.pos) = .ok e ∧
      (e.decoded s.pos).count = (scalarDecode target.length s.rest).units.length ∧
      (e.decoded s.pos).target.take (scalarDecode target.length s.rest).units.length =
        (scalarDecode target.length s.rest).units ∧
      (e.decoded s.pos).target.length = target.length ∧
      (e.decoded s.pos).value = (scalarDecode target.length s.rest).value 0 := by
  have hle := h.pos_le
  rw [h.size_eq_length] at hle
  obtain ⟨e, he, hy⟩ :=
    Native.SCALAR_LOOP_yields s.pos (Native.bounded_entry h.pos_nonneg hle target)
  have hread : Native.reading s.bytes (entry s.bytes target s.pos) =
      scalarDecode target.length s.rest := rfl
  obtain ⟨hvalue, hcount, hfront, hsize⟩ := hy
  rw [hread] at hvalue hcount hfront
  have hzero : (entry s.bytes target s.pos).dst = 0 := rfl
  have hsrc : (entry s.bytes target s.pos).src = s.pos := rfl
  rw [hzero, Int.zero_add] at hcount
  rw [hcount, hzero, Int.toNat_natCast, Int.toNat_zero, List.take_zero, List.nil_append] at hfront
  rw [hsrc, Int.sub_self] at hvalue
  exact ⟨e, he, hcount, hfront, hsize, hvalue⟩

/-- A loop whose turns decode the bytes that remain into an array is refined by `SCALAR_LOOP`. -/
theorem DecodesInto.refines (h : InBounds s) (hdec : DecodesInto s.rest turn place)
    (hpos : ∀ n buffer, pos (place n buffer) = s.pos + n)
    (hchars : ∀ n buffer, chars (place n buffer) = buffer) (hroom : target.length ≤ buffer.length) :
    Refines s.bytes target turn pos chars (place 0 buffer) := by
  have hstart : pos (place 0 buffer) = s.pos := by rw [hpos, Nat.cast_zero, Int.add_zero]
  have hlen := h.length_rest
  have hsize := h.size_eq_length
  have htake : ∀ us : List CodeUnit, us.length ≤ buffer.length →
      (splice buffer 0 us).take us.length = us := by
    intro us _
    rw [splice, List.take_zero, List.nil_append, List.take_left' rfl]
  obtain ⟨e, he, hcount, hfront, hkept, hvalue⟩ := h.SCALAR_LOOP_run target
  constructor
  -- the loop returns: the text is there, and `SCALAR_LOOP` decodes it
  · intro t' hrun
    rcases htext : plainText target.length s.rest with x | ⟨us, k⟩
    · obtain ⟨m, us, k, s', -, -, -, -, herr⟩ := hdec.run_error buffer (n := 0) (i := 0)
        (Nat.zero_le _) (by omega) htext
      rw [List.range_eq_range', herr] at hrun
      cases hrun
    · have hloop := hdec.run_ok target.length buffer (n := 0) (i := 0) (Nat.zero_le _)
        (by omega) htext
      rw [List.range_eq_range', hloop, Nat.zero_add] at hrun
      cases hrun
      have hus := (plainText_ok htext).1
      have hread : scalarDecode target.length s.rest = ⟨us, some k⟩ := by
        have hdecode := scalarDecode_plainText 0 target.length htext
        rw [Nat.add_zero, scalarDecode_zero] at hdecode
        simpa [Reading.after] using hdecode
      rw [hread] at hcount hfront hvalue
      rw [hstart, hpos, hchars, ← hus, htake us (by omega)]
      refine ⟨e, he, hcount, ?_, ?_⟩
      · rwa [List.take_of_length_le (by simp only; omega)] at hfront
      · rw [hvalue, Reading.value_some]
        omega
  -- the loop throws `EOFException`: both stop at the same character
  · intro message t' hrun
    rcases htext : plainText target.length s.rest with x | ⟨us, k⟩
    swap
    · have hloop := hdec.run_ok target.length buffer (n := 0) (i := 0) (Nat.zero_le _)
        (by omega) htext
      rw [List.range_eq_range', hloop] at hrun
      cases hrun
    obtain ⟨m, us, k, s', hm, hus, hnext, hturn, herr⟩ := hdec.run_error buffer (n := 0)
      (i := 0) (Nat.zero_le _) (by omega) htext
    rw [List.range_eq_range', herr] at hrun
    cases hrun
    rw [List.drop_zero] at hus
    simp only [Nat.zero_add] at hturn hnext
    obtain ⟨hlength, hle⟩ := plainText_ok hus
    have hfirst := hdec.run_ok m buffer (n := 0) (i := 0) (Nat.zero_le _) (by omega) hus
    rw [Nat.zero_add, ← List.range_eq_range'] at hfirst
    obtain ⟨j, hj⟩ : ∃ j, target.length = m + (j + 1) := ⟨target.length - m - 1, by omega⟩
    have hread : scalarDecode target.length s.rest =
        ⟨us, if s.rest.drop k = [] then some k else none⟩ := by
      rw [hj, scalarDecode_plainText (j + 1) m hus, scalarDecode_eof hnext]
      split <;> simp [Reading.after]
    rw [hread] at hcount hfront hvalue
    have hend : s.rest.drop k = [] ↔ s.pos + k = s.bytes.length := by
      rw [List.drop_eq_nil_iff]
      omega
    rw [hstart]
    refine ⟨m, _, hm, hfirst, hturn, e, he, by rw [hcount, hlength], ?_, ?_⟩
    · rw [hchars, ← hlength, htake us (by omega)]
      exact hfront
    · rw [hvalue, hpos]
      by_cases hnil : s.rest.drop k = []
      · rw [if_pos hnil, if_pos (hend.mp hnil), Reading.value_some]
        have := hend.mp hnil
        omega
      · rw [if_neg hnil, if_neg (mt hend.mpr hnil)]
        rfl

end Refines

/-- **The scalar loops are one decoder**: for all bytes and every number of units, `SCALAR_LOOP`
refines the loop of `readUTF`, whose buffer has room, and the loop of `inflateUTF`, whose array
has. -/
theorem scalar_refines (bits : Bits) (h : InBounds s) (target : List CodeUnit) :
    (∀ buffer, s.charBuffer = some buffer → target.length ≤ buffer.length →
      Refines s.bytes target (readChars bits) (fun t => t.pos) (fun t => t.charBuffer.getD []) s) ∧
    (∀ dst : List CodeUnit, target.length ≤ dst.length →
      Refines s.bytes target (inflateChars bits) (fun t => t.1.pos) (fun t => t.2) (s, dst)) := by
  constructor
  · intro buffer hb hroom
    have hplace : s.withBuffer 0 buffer = s := by
      rw [withBuffer, moved, Nat.cast_zero, Int.add_zero, ← hb]
    have href := (readChars_decodes bits h).refines (fun t => t.pos)
      (fun t => t.charBuffer.getD []) h (fun _ _ => rfl) (fun _ _ => rfl) hroom
    rwa [hplace] at href
  · intro dst hroom
    have hplace : s.moved ((0 : ℕ) : ℤ) = s := by
      rw [moved, Nat.cast_zero, Int.add_zero]
    have href := (inflateChars_decodes bits h).refines (fun t => t.1.pos)
      (fun t => t.2) h (fun _ _ => rfl) (fun _ _ => rfl) hroom
    rwa [hplace] at href

/-- An overlong character and one that is cut off. -/
theorem scalar_refines_overlong :
    Refines [0xC0, 0x41, 0xE4, 0xB8] [0, 0] (inflateChars Bits.standard) (fun t => t.1.pos)
      (fun t => t.2) (new (some [0xC0, 0x41, 0xE4, 0xB8]) 0 .BIG_ENDIAN, [7, 7]) :=
  (scalar_refines Bits.standard (inBounds_new (by decide) .BIG_ENDIAN) [0, 0]).2 [7, 7] (by decide)

end ByteArrayObjectDataInput

end HzResearch
