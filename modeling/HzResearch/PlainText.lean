import HzResearch.ReaderSpec

/-!
# What the plain string reader accepts

`plainText n bs` is the meaning of the loop of `readUTF` on the bytes that remain: `n`
characters and the number of bytes they take, or the exception of the character that
is cut off or that `Bits.readUtf8Char` rejects. On bytes that spell characters it
decodes them, and on a proper prefix of such bytes it ends in `EOFException`.

`DecodesInto` says of a loop that its turns decode such characters into an array, whatever
fields the loop works on; the loop of `readUTF` does (`readChars_decodes`), so that
`readUTF` is `readInt` followed by `plainText`, whatever the buffer for characters held
before (`readUTF_ok`, `readUTF_error`).
-/

namespace HzResearch

open Java

namespace Utf8

/-! ## Characters one by one -/

/-- The first character and its length. -/
def nextChar : List Byte → Except Throwable (CodeUnit × ℕ)
  | [] => .error (.EOFException none)
  | b :: bs =>
    if b ≤ 0x7F then .ok (oneUnit b, 1)
    else if 0xC0 ≤ b ∧ b ≤ 0xDF then
      match bs with
      | k :: _ => .ok (twoUnit b k, 2)
      | [] => .error (.EOFException none)
    else if 0xE0 ≤ b ∧ b ≤ 0xEF then
      match bs with
      | m :: k :: _ => .ok (threeUnit b m k, 3)
      | _ => .error (.EOFException none)
    else .error .UTFDataFormatException

/-- `n` characters and their length. -/
def plainText : ℕ → List Byte → Except Throwable (List CodeUnit × ℕ)
  | 0, _ => .ok ([], 0)
  | n + 1, bs =>
    match nextChar bs with
    | .error x => .error x
    | .ok (c, k) =>
      match plainText n (bs.drop k) with
      | .error x => .error x
      | .ok (us, m) => .ok (c :: us, m + k)

theorem nextChar_one {b : Byte} (h : b ≤ 0x7F) (bs : List Byte) :
    nextChar (b :: bs) = .ok (oneUnit b, 1) := if_pos h

theorem nextChar_two {b : Byte} (h : 0xC0 ≤ b) (h' : b ≤ 0xDF) (k : Byte) (bs : List Byte) :
    nextChar (b :: k :: bs) = .ok (twoUnit b k, 2) := by
  rw [nextChar, if_neg (by bv_omega), if_pos ⟨h, h'⟩]

theorem nextChar_three {b : Byte} (h : 0xE0 ≤ b) (h' : b ≤ 0xEF) (m k : Byte) (bs : List Byte) :
    nextChar (b :: m :: k :: bs) = .ok (threeUnit b m k, 3) := by
  rw [nextChar, if_neg (by bv_omega), if_neg (by bv_omega), if_pos ⟨h, h'⟩]

/-- A character needs bytes, and takes no more than there are. -/
theorem nextChar_le {bs : List Byte} {c : CodeUnit} {k : ℕ} (h : nextChar bs = .ok (c, k)) :
    0 < k ∧ k ≤ bs.length := by
  unfold nextChar at h
  split at h
  · cases h
  split at h
  · cases h
    simp
  split at h
  · split at h
    · cases h
      simp
    · cases h
  split at h
  · split at h
    · cases h
      simp
    · cases h
  · cases h

/-- What a character throws. -/
theorem nextChar_error {bs : List Byte} {x : Throwable} (h : nextChar bs = .error x) :
    x = .EOFException none ∨ x = .UTFDataFormatException := by
  unfold nextChar at h
  split at h
  · cases h
    exact .inl rfl
  split at h
  · cases h
  split at h
  · split at h
    · cases h
    · cases h
      exact .inl rfl
  split at h
  · split at h
    · cases h
    · cases h
      exact .inl rfl
  · cases h
    exact .inr rfl

/-! ## Texts -/

theorem plainText_cons_ok {n k m : ℕ} {bs : List Byte} {c : CodeUnit} {us : List CodeUnit}
    (hc : nextChar bs = .ok (c, k)) (hus : plainText n (bs.drop k) = .ok (us, m)) :
    plainText (n + 1) bs = .ok (c :: us, m + k) := by
  rw [plainText, hc]
  simp only [hus]

theorem plainText_cons_error {n k : ℕ} {bs : List Byte} {c : CodeUnit} {x : Throwable}
    (hc : nextChar bs = .ok (c, k)) (hx : plainText n (bs.drop k) = .error x) :
    plainText (n + 1) bs = .error x := by
  rw [plainText, hc]
  simp only [hx]

theorem plainText_error {n : ℕ} {bs : List Byte} {x : Throwable} (h : nextChar bs = .error x) :
    plainText (n + 1) bs = .error x := by
  rw [plainText, h]

/-- How a text ends: at its first character or behind it. -/
theorem plainText_succ (n : ℕ) (bs : List Byte) :
    (∃ x, nextChar bs = .error x ∧ plainText (n + 1) bs = .error x) ∨
    ∃ c k, nextChar bs = .ok (c, k) ∧
      ((∃ x, plainText n (bs.drop k) = .error x ∧ plainText (n + 1) bs = .error x) ∨
        ∃ us m, plainText n (bs.drop k) = .ok (us, m) ∧
          plainText (n + 1) bs = .ok (c :: us, m + k)) := by
  rcases hc : nextChar bs with x | ⟨c, k⟩
  · exact .inl ⟨x, rfl, plainText_error hc⟩
  · refine .inr ⟨c, k, rfl, ?_⟩
    rcases hus : plainText n (bs.drop k) with x | ⟨us, m⟩
    · exact .inl ⟨x, rfl, plainText_cons_error hc hus⟩
    · exact .inr ⟨us, m, rfl, plainText_cons_ok hc hus⟩

/-- A text of `n` characters has `n` characters, and takes no more bytes than there are. -/
theorem plainText_ok {n : ℕ} : ∀ {bs : List Byte} {us : List CodeUnit} {k : ℕ},
    plainText n bs = .ok (us, k) → us.length = n ∧ k ≤ bs.length := by
  induction n with
  | zero =>
    intro bs us k h
    cases h
    exact ⟨rfl, Nat.zero_le _⟩
  | succ n ih =>
    intro bs us k h
    rcases plainText_succ n bs with ⟨x, -, hx⟩ | ⟨c, i, hc, ⟨x, -, hx⟩ | ⟨vs, m, hvs, hok⟩⟩
    · rw [hx] at h
      cases h
    · rw [hx] at h
      cases h
    · rw [hok] at h
      cases h
      obtain ⟨hlen, hle⟩ := ih hvs
      have hk := (nextChar_le hc).2
      rw [List.length_drop] at hle
      exact ⟨by rw [List.length_cons, hlen], by omega⟩

/-- A text is cut off at the first character that is missing or not accepted. -/
theorem plainText_split {n : ℕ} : ∀ {bs : List Byte} {x : Throwable}, plainText n bs = .error x →
    ∃ m us k, m < n ∧ plainText m bs = .ok (us, k) ∧ nextChar (bs.drop k) = .error x := by
  induction n with
  | zero =>
    intro bs x h
    cases h
  | succ n ih =>
    intro bs x h
    rcases plainText_succ n bs with ⟨y, hy, hx⟩ | ⟨c, i, hc, ⟨y, hy, hx⟩ | ⟨vs, m, hvs, hok⟩⟩
    · rw [hx] at h
      cases h
      exact ⟨0, [], 0, Nat.succ_pos n, rfl, hy⟩
    · rw [hx] at h
      cases h
      obtain ⟨m, us, k, hm, hus, hnext⟩ := ih hy
      refine ⟨m + 1, c :: us, k + i, by omega, plainText_cons_ok hc hus, ?_⟩
      rwa [List.drop_drop, Nat.add_comm] at hnext
    · rw [hok] at h
      cases h

/-- What a text throws. -/
theorem plainText_throws {n : ℕ} {bs : List Byte} {x : Throwable} (h : plainText n bs = .error x) :
    x = .EOFException none ∨ x = .UTFDataFormatException := by
  obtain ⟨m, us, k, -, -, hx⟩ := plainText_split h
  exact nextChar_error hx

/-- Characters that are spelled are decoded. -/
theorem plainText_spelled {bs : List Byte} {us : List CodeUnit} (h : Spells bs us)
    (tail : List Byte) : plainText us.length (bs ++ tail) = .ok (us, bs.length) := by
  induction h with
  | nil => rfl
  | one ha _ ih =>
    exact plainText_cons_ok (nextChar_one ha _) ih
  | two hl _ _ ih =>
    have h1 := hl.1
    exact plainText_cons_ok (k := 2) (nextChar_two (by bv_omega) hl.2 _ _) ih
  | three hl _ _ _ ih =>
    exact plainText_cons_ok (k := 3) (nextChar_three hl.1 hl.2 _ _ _) ih

/-- Characters that are cut off end in `EOFException`. -/
theorem plainText_prefix {bs : List Byte} {us : List CodeUnit} (h : Spells bs us) :
    ∀ {front tail : List Byte}, bs = front ++ tail → tail ≠ [] →
      plainText us.length front = .error (.EOFException none) := by
  induction h with
  | nil =>
    intro front tail hb htail
    obtain ⟨-, rfl⟩ := List.append_eq_nil_iff.1 hb.symm
    exact absurd rfl htail
  | one ha _ ih =>
    intro front tail hb htail
    rcases front with _ | ⟨a, front⟩
    · exact plainText_error rfl
    · simp only [List.cons_append, List.cons.injEq] at hb
      obtain ⟨rfl, hb⟩ := hb
      exact plainText_cons_error (nextChar_one ha _) (ih hb htail)
  | two hl _ _ ih =>
    intro front tail hb htail
    have h1 := hl.1
    have h2 := hl.2
    rcases front with _ | ⟨l, _ | ⟨k, front⟩⟩
    · exact plainText_error rfl
    · simp only [List.cons_append, List.cons.injEq] at hb
      obtain ⟨rfl, -⟩ := hb
      refine plainText_error ?_
      rw [nextChar, if_neg (by bv_omega), if_pos ⟨by bv_omega, h2⟩]
    · simp only [List.cons_append, List.cons.injEq] at hb
      obtain ⟨rfl, rfl, hb⟩ := hb
      exact plainText_cons_error (nextChar_two (by bv_omega) h2 _ _) (ih hb htail)
  | three hl _ _ _ ih =>
    intro front tail hb htail
    have h1 := hl.1
    have h2 := hl.2
    rcases front with _ | ⟨l, _ | ⟨m, _ | ⟨k, front⟩⟩⟩
    · exact plainText_error rfl
    · simp only [List.cons_append, List.cons.injEq] at hb
      obtain ⟨rfl, -⟩ := hb
      refine plainText_error ?_
      rw [nextChar, if_neg (by bv_omega), if_neg (by bv_omega), if_pos ⟨h1, h2⟩]
    · simp only [List.cons_append, List.cons.injEq] at hb
      obtain ⟨rfl, -⟩ := hb
      refine plainText_error ?_
      rw [nextChar, if_neg (by bv_omega), if_neg (by bv_omega), if_pos ⟨h1, h2⟩]
    · simp only [List.cons_append, List.cons.injEq] at hb
      obtain ⟨rfl, rfl, rfl, hb⟩ := hb
      exact plainText_cons_error (nextChar_three h1 h2 _ _ _) (ih hb htail)

end Utf8

open Utf8

namespace ByteArrayObjectDataInput

variable {s s' s'' : ByteArrayObjectDataInput} {bits : Bits}

/-! ## Further on in the stream -/

/-- The reader `s'` is `s`, `n` bytes further; the buffer for characters may differ. -/
structure Past (s : ByteArrayObjectDataInput) (n : ℕ) (s' : ByteArrayObjectDataInput) : Prop where
  /-- the same data -/
  data_eq : s'.data = s.data
  /-- the same size -/
  size_eq : s'.size = s.size
  /-- `bigEndian` is final -/
  bigEndian_eq : s'.bigEndian = s.bigEndian
  /-- `n` bytes further -/
  pos_eq : s'.pos = s.pos + n

theorem Past.refl (s : ByteArrayObjectDataInput) : Past s 0 s := ⟨rfl, rfl, rfl, by simp⟩

theorem Past.trans {n m : ℕ} (h : Past s n s') (h' : Past s' m s'') : Past s (n + m) s'' :=
  ⟨h'.data_eq.trans h.data_eq, h'.size_eq.trans h.size_eq, h'.bigEndian_eq.trans h.bigEndian_eq,
    by rw [h'.pos_eq, h.pos_eq, Int.natCast_add, Int.add_assoc]⟩

theorem past_moved (s : ByteArrayObjectDataInput) (n : ℕ) : Past s n (s.moved n) :=
  ⟨rfl, rfl, rfl, rfl⟩

theorem Past.rest_eq {n : ℕ} (h : Past s n s') (h0 : 0 ≤ s.pos) : s'.rest = s.rest.drop n := by
  rw [rest, rest, bytes, bytes, h.data_eq, h.pos_eq, List.drop_drop]
  congr 1
  omega

theorem Past.inBounds {n : ℕ} (h : Past s n s') (hs : InBounds s) (hn : n ≤ s.rest.length) :
    InBounds s' := by
  have hlen := hs.length_rest
  have h0 := hs.pos_nonneg
  exact ⟨by rw [h.size_eq, h.data_eq, hs.size_eq], by rw [h.size_eq]; exact hs.size_le,
    by rw [h.pos_eq]; omega, by rw [h.pos_eq, h.size_eq]; omega⟩

/-! ## The loop of `readUTF` -/

/-- A byte that is negative as a `byte`. -/
theorem toInt_neg_iff (b : Byte) : b.toInt < 0 ↔ ¬ b ≤ 0x7F := by
  rw [BitVec.toInt_neg_iff]
  bv_omega

/-- One character of the stream. -/
def nextUnit (bits : Bits) : In CodeUnit := do
  let b ← readByte
  if b.toInt < 0 then bits.readUtf8Char readByte b else return oneUnit b

theorem readChars_eq (bits : Bits) (i : ℕ) :
    readChars bits i = (do let c ← nextUnit bits; storeChar i c) := by
  rw [readChars, nextUnit]
  rw [bind_assoc]
  congr 1
  funext b
  split
  · rfl
  · rw [pure_bind]

theorem moved_moved (n m : ℤ) : (s.moved n).moved m = s.moved (n + m) := by
  simp only [moved, Int.add_assoc]

/-- The readers at the bytes behind the first ones. -/
theorem InBounds.step (h : InBounds s) {b : Byte} {bs : List Byte} (hrest : s.rest = b :: bs) :
    readByte s = .ok b (s.moved 1) ∧ InBounds (s.moved 1) ∧ (s.moved 1).rest = bs := by
  refine ⟨h.readByte_cons hrest, h.moved (by omega) ?_, ?_⟩
  · rw [hrest, List.length_cons]
    omega
  · have := h.rest_moved 1
    rwa [hrest] at this

theorem nextUnit_ok (h : InBounds s) {c : CodeUnit} {k : ℕ} (hc : nextChar s.rest = .ok (c, k)) :
    nextUnit bits s = .ok c (s.moved k) := by
  unfold nextChar at hc
  split at hc
  case h_1 => cases hc
  case h_2 b bs hrest =>
  obtain ⟨hrun, hin, hbs⟩ := h.step hrest
  rw [nextUnit, bind_ok hrun]
  simp only [toInt_neg_iff]
  split at hc
  case isTrue h1 =>
    cases hc
    rw [if_neg (not_not_intro h1)]
    rfl
  case isFalse h1 =>
  rw [if_pos h1]
  split at hc
  case isTrue h2 =>
    rw [bits.readUtf8Char_two _ h2.1 h2.2]
    split at hc
    case h_2 => cases hc
    case h_1 k₂ tail =>
    cases hc
    obtain ⟨hrun₂, -, -⟩ := hin.step hbs
    rw [bind_ok hrun₂, moved_moved]
    rfl
  case isFalse h2 =>
  split at hc
  case isFalse => cases hc
  case isTrue h3 =>
    rw [bits.readUtf8Char_three _ h3.1 h3.2]
    split at hc
    case h_2 => cases hc
    case h_1 k₂ k₃ tail =>
    cases hc
    obtain ⟨hrun₂, hin₂, hbs₂⟩ := hin.step hbs
    obtain ⟨hrun₃, -, -⟩ := hin₂.step hbs₂
    rw [bind_ok hrun₂, bind_ok hrun₃, moved_moved, moved_moved]
    rfl

variable (bits) in
theorem nextUnit_error (h : InBounds s) {x : Throwable} (hx : nextChar s.rest = .error x) :
    ∃ s', nextUnit bits s = .error (.throws x) s' := by
  unfold nextChar at hx
  split at hx
  case h_1 hrest =>
    cases hx
    exact ⟨s, bind_error (h.readByte_nil hrest)⟩
  case h_2 b bs hrest =>
  obtain ⟨hrun, hin, hbs⟩ := h.step hrest
  rw [nextUnit, bind_ok hrun]
  simp only [toInt_neg_iff]
  split at hx
  case isTrue => cases hx
  case isFalse h1 =>
  rw [if_pos h1]
  split at hx
  case isTrue h2 =>
    rw [bits.readUtf8Char_two _ h2.1 h2.2]
    split at hx
    case h_1 => cases hx
    case h_2 =>
    cases hx
    exact ⟨_, bind_error (hin.readByte_nil hbs)⟩
  case isFalse h2 =>
  split at hx
  case isFalse h3 =>
    cases hx
    rw [bits.readUtf8Char_other _ (by bv_omega) (by bv_omega)]
    exact ⟨_, rfl⟩
  case isTrue h3 =>
    rw [bits.readUtf8Char_three _ h3.1 h3.2]
    split at hx
    case h_1 => cases hx
    case h_2 hshort =>
    cases hx
    rcases bs with _ | ⟨m, _ | ⟨k, tail⟩⟩
    · exact ⟨_, bind_error (hin.readByte_nil hbs)⟩
    · obtain ⟨hrun₂, hin₂, hbs₂⟩ := hin.step hbs
      rw [bind_ok hrun₂]
      exact ⟨_, bind_error (hin₂.readByte_nil hbs₂)⟩
    · exact absurd rfl (hshort m k tail)

/-! ## Loops that decode into an array -/

/-- Each turn of a loop decodes one of the characters of `bytes` into an array: `place n buffer` are
the fields when `n` bytes have been read and the array is `buffer`. -/
structure DecodesInto {σ : Type} (bytes : List Byte) (turn : ℕ → Java σ Unit)
    (place : ℕ → List CodeUnit → σ) : Prop where
  /-- a character is stored -/
  ok : ∀ {n i k : ℕ} {buffer : List CodeUnit} {c : CodeUnit}, n ≤ bytes.length →
    i < buffer.length → nextChar (bytes.drop n) = .ok (c, k) →
      turn i (place n buffer) = .ok () (place (n + k) (splice buffer i [c]))
  /-- what a character throws is thrown -/
  error : ∀ {n : ℕ} (i : ℕ) (buffer : List CodeUnit) {x : Throwable}, n ≤ bytes.length →
    nextChar (bytes.drop n) = .error x → ∃ s', turn i (place n buffer) = .error (.throws x) s'

section Loop

variable {σ : Type} {bytes : List Byte} {turn : ℕ → Java σ Unit} {place : ℕ → List CodeUnit → σ}

/-- The loop stores the text. -/
theorem DecodesInto.run_ok (h : DecodesInto bytes turn place) (j : ℕ) :
    ∀ (buffer : List CodeUnit) {n i k : ℕ} {us : List CodeUnit}, n ≤ bytes.length →
      i + j ≤ buffer.length →
      plainText j (bytes.drop n) = .ok (us, k) →
        forEach turn (List.range' i j) (place n buffer) =
          .ok () (place (n + k) (splice buffer i us)) := by
  induction j with
  | zero =>
    intro buffer n i k us _ _ hus
    cases hus
    rw [splice_nil]
    rfl
  | succ j ih =>
    intro buffer n i k us hn hi hus
    rcases plainText_succ j (bytes.drop n) with
      ⟨x, -, hx⟩ | ⟨c, l, hc, ⟨x, -, hx⟩ | ⟨vs, m, hvs, hok⟩⟩
    · rw [hx] at hus
      cases hus
    · rw [hx] at hus
      cases hus
    rw [hok] at hus
    cases hus
    have hlen : (splice buffer i [c]).length = buffer.length :=
      length_splice (by rw [List.length_singleton]; omega)
    have hle := (nextChar_le hc).2
    rw [List.length_drop] at hle
    rw [List.drop_drop] at hvs
    have hcons : splice (splice buffer i [c]) (i + 1) vs = splice buffer i ([c] ++ vs) :=
      splice_splice (by omega)
    rw [List.range'_succ, forEach, bind_ok (h.ok hn (by omega) hc),
      ih _ (by omega) (by omega) hvs, hcons, show n + l + m = n + (m + l) by omega]
    rfl

/-- The loop throws what the text throws, behind the characters before. -/
theorem DecodesInto.run_error (h : DecodesInto bytes turn place) (buffer : List CodeUnit)
    {j n i : ℕ} {x : Throwable} (hn : n ≤ bytes.length) (hi : i + j ≤ buffer.length)
    (hx : plainText j (bytes.drop n) = .error x) :
    ∃ m us k s', m < j ∧ plainText m (bytes.drop n) = .ok (us, k) ∧
      nextChar (bytes.drop (n + k)) = .error x ∧
      turn (i + m) (place (n + k) (splice buffer i us)) = .error (.throws x) s' ∧
      forEach turn (List.range' i j) (place n buffer) = .error (.throws x) s' := by
  obtain ⟨m, us, k, hm, hus, hnext⟩ := plainText_split hx
  have hle := (plainText_ok hus).2
  rw [List.length_drop] at hle
  rw [List.drop_drop] at hnext
  obtain ⟨s', hturn⟩ := h.error (i + m) (splice buffer i us) (by omega) hnext
  refine ⟨m, us, k, s', hm, hus, hnext, hturn, ?_⟩
  -- the turns before the bad character, its own, and those that are not reached
  have hsplit : List.range' i j =
      List.range' i m ++ (i + m) :: List.range' (i + m + 1) (j - m - 1) := by
    have hfront : List.range' i m ++ List.range' (i + m) (j - m) = List.range' i (m + (j - m)) :=
      List.range'_append_1
    rw [Nat.add_sub_cancel' hm.le] at hfront
    rw [← hfront, ← List.range'_succ, Nat.sub_add_cancel (by omega)]
  rw [hsplit, forEach_append, bind_ok (h.run_ok m buffer hn (by omega) hus), forEach]
  exact bind_error hturn

end Loop

/-- The reader `n` bytes further, with this buffer. -/
def withBuffer (s : ByteArrayObjectDataInput) (n : ℕ) (buffer : List CodeUnit) :
    ByteArrayObjectDataInput :=
  { s.moved n with charBuffer := some buffer }

theorem InBounds.withBuffer (h : InBounds s) {n : ℕ} (hn : n ≤ s.rest.length)
    (buffer : List CodeUnit) : InBounds (s.withBuffer n buffer) := by
  have hin := h.moved (n := n) (by omega) (by omega)
  exact ⟨hin.size_eq, hin.size_le, hin.pos_nonneg, hin.pos_le⟩

theorem InBounds.rest_withBuffer (h : InBounds s) (n : ℕ) (buffer : List CodeUnit) :
    (s.withBuffer n buffer).rest = s.rest.drop n := h.rest_moved n

theorem past_withBuffer (n : ℕ) (buffer : List CodeUnit) : Past s n (s.withBuffer n buffer) :=
  ⟨rfl, rfl, rfl, rfl⟩

variable (bits) in
/-- The loop of `readUTF` decodes into the buffer. -/
theorem readChars_decodes (h : InBounds s) :
    DecodesInto s.rest (readChars bits) s.withBuffer where
  ok := by
    intro n i k buffer c hn hi hc
    rw [← h.rest_withBuffer n buffer] at hc
    rw [readChars_eq, bind_ok (nextUnit_ok (h.withBuffer hn buffer) hc)]
    refine (storeChar_run buffer rfl (by omega) (by omega) c).trans ?_
    rw [ByteArrayObjectDataInput.withBuffer, ByteArrayObjectDataInput.withBuffer, Nat.cast_add,
      ← moved_moved]
    rfl
  error := by
    intro n i buffer x hn hx
    rw [← h.rest_withBuffer n buffer] at hx
    obtain ⟨s', hrun⟩ := nextUnit_error bits (h.withBuffer hn buffer) hx
    rw [readChars_eq]
    exact ⟨s', bind_error hrun⟩

/-! ## `readUTF` -/

variable (bits) in
/-- The number of characters announced where `readInt` succeeds. -/
theorem InBounds.readInt_ok (h : InBounds s) (hroom : 4 ≤ s.rest.length) :
    ∃ v, bits.int.layout s.bigEndian v = s.rest.take 4 ∧
      readInt bits s = .ok v (s.moved (4 : ℕ)) :=
  h.readFixed_ok bits.int (n := INT_SIZE_IN_BYTES) rfl (by decide) hroom s.bigEndian

/-- The length of the buffer for characters, 0 for null. -/
def capacity (s : ByteArrayObjectDataInput) : ℕ := (s.charBuffer.getD []).length

/-- Behind a length the buffer has room for that many characters. -/
theorem ensureCharBuffer_ok {n : ℤ} (h0 : 0 ≤ n) :
    ∃ buffer : List CodeUnit, buffer.length = max s.capacity n.toNat ∧
      ensureCharBuffer n s = .ok () { s with charBuffer := some buffer } := by
  by_cases hroom : Room n s
  · obtain ⟨buffer, hb, hn⟩ := hroom
    have hsame : { s with charBuffer := some buffer } = s := by rw [← hb]
    refine ⟨buffer, ?_, by rw [hsame, ensureCharBuffer_room ⟨buffer, hb, hn⟩]⟩
    rw [capacity, hb, Option.getD_some]
    omega
  · refine ⟨_, ?_, ensureCharBuffer_new hroom h0⟩
    have hle : s.capacity ≤ n.toNat := by
      rcases hb : s.charBuffer with _ | old
      · rw [capacity, hb]
        exact Nat.zero_le _
      · have : (old.length : ℤ) < n := by
          by_contra hle
          exact hroom ⟨old, hb, by omega⟩
        rw [capacity, hb, Option.getD_some]
        omega
    rw [List.length_replicate]
    omega

section ReadUTF

variable {v : BitVec 32}

/-- `readUTF` of null. -/
theorem readUTF_null (hrun : readInt bits s = .ok v s') (hv : v.toInt = NULL_ARRAY_LENGTH) :
    readUTF bits s = .ok none s' := by
  rw [readUTF, bind_ok hrun, if_pos hv]
  rfl

/-- `readUTF` of a text that is there. -/
theorem readUTF_ok (hrun : readInt bits s = .ok v s') (h : InBounds s') (hv : 0 ≤ v.toInt)
    {us : List CodeUnit} {k : ℕ} (hus : plainText v.toInt.toNat s'.rest = .ok (us, k)) :
    ∃ s'', readUTF bits s = .ok (some us) s'' ∧ Past s' k s'' := by
  have hne : v.toInt ≠ NULL_ARRAY_LENGTH := by
    rw [NULL_ARRAY_LENGTH]
    omega
  obtain ⟨buffer, hlen, hbuffer⟩ := ensureCharBuffer_ok (s := s') hv
  have hplace : { s' with charBuffer := some buffer } = s'.withBuffer 0 buffer := by
    rw [withBuffer, moved, Nat.cast_zero, Int.add_zero]
  have hloop := (readChars_decodes bits h).run_ok v.toInt.toNat buffer (n := 0) (i := 0)
    (Nat.zero_le _) (by omega) hus
  rw [Nat.zero_add] at hloop
  have hcount := (plainText_ok hus).1
  have hsplice : (splice buffer 0 us).length = buffer.length := length_splice (by omega)
  have hstring := newString_run (s := s'.withBuffer k (splice buffer 0 us)) (n := v.toInt) rfl hv
    (by omega)
  have htake : (splice buffer 0 us).take v.toInt.toNat = us := by
    rw [← hcount, splice, List.take_zero, List.nil_append, List.take_left' rfl]
  rw [htake] at hstring
  rw [readUTF, bind_ok hrun, if_neg hne, bind_ok hbuffer, hplace, List.range_eq_range',
    bind_ok hloop, hstring]
  exact ⟨_, rfl, past_withBuffer k _⟩

/-- `readUTF` of a text that is not. -/
theorem readUTF_error (hrun : readInt bits s = .ok v s') (h : InBounds s') (hv : 0 ≤ v.toInt)
    {x : Throwable} (hx : plainText v.toInt.toNat s'.rest = .error x) :
    ∃ s'', readUTF bits s = .error (.throws x) s'' := by
  have hne : v.toInt ≠ NULL_ARRAY_LENGTH := by
    rw [NULL_ARRAY_LENGTH]
    omega
  obtain ⟨buffer, hlen, hbuffer⟩ := ensureCharBuffer_ok (s := s') hv
  have hplace : { s' with charBuffer := some buffer } = s'.withBuffer 0 buffer := by
    rw [withBuffer, moved, Nat.cast_zero, Int.add_zero]
  obtain ⟨m, us, k, t, -, -, -, -, hloop⟩ := (readChars_decodes bits h).run_error buffer
    (n := 0) (i := 0) (Nat.zero_le _) (by omega) hx
  rw [readUTF, bind_ok hrun, if_neg hne, bind_ok hbuffer, hplace, List.range_eq_range']
  exact ⟨t, bind_error hloop⟩

end ReadUTF

end ByteArrayObjectDataInput

end HzResearch
