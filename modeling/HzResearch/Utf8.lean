import HzResearch.NativeDecoder

/-!
# The byte form of code units

What the decoder is for, in its own terms. `encode` is the byte form the writer
emits: every UTF-16 code unit on its own, in one, two or three bytes, surrogates
included. `Spells bs us` says that the bytes `bs` are characters of one, two or
three bytes that spell the units `us`; it is what a sequence of complete
characters looks like to the decoder, and is wider than `encode` (overlong forms
spell too).

`scalarDecode` is the meaning of `SCALAR_LOOP` on the list of bytes left: the
units it decodes, and the bytes it reads, or none where it gives up inside a
character. On bytes that spell units the two agree (`scalarDecode_spelled`).
-/

namespace HzResearch

namespace Utf8

/-! ## The encoding -/

/-- The bytes of one code unit. -/
def encodeUnit (c : CodeUnit) : List Byte :=
  if c ≤ 0x7F then [c.setWidth 8]
  else if c ≤ 0x7FF then [0xC0#8 ||| (c >>> 6).setWidth 8, 0x80#8 ||| (c.setWidth 8 &&& 0x3F)]
  else
    [0xE0#8 ||| (c >>> 12).setWidth 8, 0x80#8 ||| ((c >>> 6).setWidth 8 &&& 0x3F),
      0x80#8 ||| (c.setWidth 8 &&& 0x3F)]

/-- The bytes of a sequence of code units. -/
def encode (s : List CodeUnit) : List Byte := s.flatMap encodeUnit

@[simp] theorem encode_nil : encode [] = [] := rfl

@[simp] theorem encode_cons (c : CodeUnit) (s : List CodeUnit) :
    encode (c :: s) = encodeUnit c ++ encode s := rfl

theorem encode_append (s t : List CodeUnit) : encode (s ++ t) = encode s ++ encode t :=
  List.flatMap_append

/-- A code unit takes one, two or three bytes. -/
theorem length_encodeUnit (c : CodeUnit) :
    1 ≤ (encodeUnit c).length ∧ (encodeUnit c).length ≤ 3 := by
  rw [encodeUnit]
  split
  · simp
  split <;> simp

theorem length_le_encode (s : List CodeUnit) : s.length ≤ (encode s).length := by
  induction s with
  | nil => exact le_refl 0
  | cons c s ih =>
    have := (length_encodeUnit c).1
    rw [encode_cons, List.length_append, List.length_cons]
    omega

theorem length_encode_le (s : List CodeUnit) : (encode s).length ≤ 3 * s.length := by
  induction s with
  | nil => exact le_refl 0
  | cons c s ih =>
    have := (length_encodeUnit c).2
    rw [encode_cons, List.length_append, List.length_cons]
    omega

/-! ## Characters -/

/-- The unit of a one-byte character. -/
def oneUnit (a : Byte) : CodeUnit := a.setWidth 16

/-- The unit of a two-byte character. -/
def twoUnit (l k : Byte) : CodeUnit :=
  (l.setWidth 16 &&& 0x1F) <<< 6 ||| (k.setWidth 16 &&& 0x3F)

/-- The unit of a three-byte character. -/
def threeUnit (l m k : Byte) : CodeUnit :=
  (l.setWidth 16 &&& 0x0F) <<< 12 ||| (m.setWidth 16 &&& 0x3F) <<< 6 ||| (k.setWidth 16 &&& 0x3F)

/-- The lead of a two-byte character. -/
def IsLead2 (l : Byte) : Prop := 0xC2 ≤ l ∧ l ≤ 0xDF

/-- The lead of a three-byte character. -/
def IsLead3 (l : Byte) : Prop := 0xE0 ≤ l ∧ l ≤ 0xEF

/-- A byte that continues a character behind the byte `p`. The bytes `0xC0` and `0xC1` pass for
one only where they repeat the lowest bit of `p`, which is then set. -/
def Trails (p k : Byte) : Prop :=
  0x80 ≤ k ∧ k ≤ 0xC1 ∧ (0xC0 ≤ k → p.getLsbD 0 = true)

instance (l : Byte) : Decidable (IsLead2 l) := inferInstanceAs (Decidable (_ ∧ _))

instance (l : Byte) : Decidable (IsLead3 l) := inferInstanceAs (Decidable (_ ∧ _))

instance (p k : Byte) : Decidable (Trails p k) := inferInstanceAs (Decidable (_ ∧ _ ∧ _))

/-- A sequence of complete characters and the units they spell. -/
inductive Spells : List Byte → List CodeUnit → Prop where
  /-- no character -/
  | nil : Spells [] []
  /-- a character of one byte -/
  | one {a : Byte} {bs : List Byte} {us : List CodeUnit} :
      a ≤ 0x7F → Spells bs us → Spells (a :: bs) (oneUnit a :: us)
  /-- a character of two bytes -/
  | two {l k : Byte} {bs : List Byte} {us : List CodeUnit} :
      IsLead2 l → Trails l k → Spells bs us → Spells (l :: k :: bs) (twoUnit l k :: us)
  /-- a character of three bytes -/
  | three {l m k : Byte} {bs : List Byte} {us : List CodeUnit} :
      IsLead3 l → Trails l m → Trails m k → Spells bs us →
        Spells (l :: m :: k :: bs) (threeUnit l m k :: us)

/-- The bytes the encoder emits, a mark beside the bits of the unit. -/
theorem encoded_range : ∀ x : Byte, (2 ≤ x → x < 32 → IsLead2 (0xC0#8 ||| x)) ∧
    (x < 16 → IsLead3 (0xE0#8 ||| x)) ∧
    0x80 ≤ 0x80#8 ||| (x &&& 0x3F) ∧ 0x80#8 ||| (x &&& 0x3F) ≤ 0xBF := by
  decide +kernel

/-- What the encoder emits behind a lead continues a character. -/
theorem trails_encoded (p x : Byte) : Trails p (0x80#8 ||| (x &&& 0x3F)) := by
  have h := (encoded_range x).2.2
  refine ⟨h.1, ?_, fun hc => ?_⟩
  · bv_omega
  · bv_omega

/-- A two-byte character spells the unit it was made from. -/
theorem twoUnit_encoded {c : CodeUnit} (h : c ≤ 0x7FF) :
    twoUnit (0xC0#8 ||| (c >>> 6).setWidth 8) (0x80#8 ||| (c.setWidth 8 &&& 0x3F)) = c := by
  have hlt : c.toNat < 2 ^ 11 := by
    have : c.toNat ≤ 0x7FF := h
    omega
  have hhigh : ∀ i, 11 ≤ i → c.getLsbD i = false := by
    intro i hi
    rw [← BitVec.testBit_toNat]
    exact Nat.testBit_lt_two_pow (Nat.lt_of_lt_of_le hlt (Nat.pow_le_pow_right (by decide) hi))
  ext i hi
  rw [← BitVec.getLsbD_eq_getElem, ← BitVec.getLsbD_eq_getElem]
  simp only [twoUnit, BitVec.getLsbD_or, BitVec.getLsbD_shiftLeft, BitVec.getLsbD_and,
    BitVec.getLsbD_setWidth, BitVec.getLsbD_ushiftRight]
  interval_cases i <;> simp [hhigh, -BitVec.getLsbD_eq_getElem]

/-- A three-byte character spells the unit it was made from. -/
theorem threeUnit_encoded (c : CodeUnit) :
    threeUnit (0xE0#8 ||| (c >>> 12).setWidth 8) (0x80#8 ||| ((c >>> 6).setWidth 8 &&& 0x3F))
      (0x80#8 ||| (c.setWidth 8 &&& 0x3F)) = c := by
  ext i hi
  rw [← BitVec.getLsbD_eq_getElem, ← BitVec.getLsbD_eq_getElem]
  simp only [threeUnit, BitVec.getLsbD_or, BitVec.getLsbD_shiftLeft, BitVec.getLsbD_and,
    BitVec.getLsbD_setWidth, BitVec.getLsbD_ushiftRight]
  interval_cases i <;> simp

/-- The bytes of a code unit are one character that spells it. -/
inductive Spelling (c : CodeUnit) : List Byte → Prop where
  /-- of one byte -/
  | one {a : Byte} : a ≤ 0x7F → oneUnit a = c → Spelling c [a]
  /-- of two bytes -/
  | two {l k : Byte} : IsLead2 l → Trails l k → twoUnit l k = c → Spelling c [l, k]
  /-- of three bytes -/
  | three {l m k : Byte} : IsLead3 l → Trails l m → Trails m k → threeUnit l m k = c →
      Spelling c [l, m, k]

theorem spelling_encodeUnit (c : CodeUnit) : Spelling c (encodeUnit c) := by
  rw [encodeUnit]
  split
  case isTrue h1 =>
    refine .one (by bv_omega) ?_
    apply BitVec.eq_of_toNat_eq
    have : c.toNat ≤ 0x7F := h1
    simp only [oneUnit, BitVec.toNat_setWidth]
    omega
  case isFalse h1 =>
    split
    case isTrue h2 =>
      have hl : IsLead2 (0xC0#8 ||| (c >>> 6).setWidth 8) := by
        apply (encoded_range _).1
        · bv_omega
        · bv_omega
      exact .two hl (trails_encoded _ (c.setWidth 8)) (twoUnit_encoded h2)
    case isFalse h2 =>
      have hl : IsLead3 (0xE0#8 ||| (c >>> 12).setWidth 8) := by
        apply (encoded_range _).2.1
        bv_omega
      exact .three hl (trails_encoded _ ((c >>> 6).setWidth 8)) (trails_encoded _ (c.setWidth 8))
        (threeUnit_encoded c)

theorem spells_encodeUnit (c : CodeUnit) {bs : List Byte} {us : List CodeUnit}
    (h : Spells bs us) : Spells (encodeUnit c ++ bs) (c :: us) := by
  generalize hb : encodeUnit c = b
  cases hb ▸ spelling_encodeUnit c with
  | one ha hc => exact hc ▸ .one ha h
  | two hl hk hc => exact hc ▸ .two hl hk h
  | three hl hm hk hc => exact hc ▸ .three hl hm hk h

/-- The encoding of a sequence spells it. -/
theorem spells_encode (s : List CodeUnit) : Spells (encode s) s := by
  induction s with
  | nil => exact .nil
  | cons c s ih => exact spells_encodeUnit c ih

theorem Spells.length_le {bs : List Byte} {us : List CodeUnit} (h : Spells bs us) :
    us.length ≤ bs.length := by
  induction h with
  | nil => exact le_refl 0
  | one _ _ ih =>
    rw [List.length_cons, List.length_cons]
    omega
  | two _ _ _ ih =>
    rw [List.length_cons, List.length_cons, List.length_cons]
    omega
  | three _ _ _ _ ih =>
    rw [List.length_cons, List.length_cons, List.length_cons, List.length_cons]
    omega

/-- Bytes below `0x80` spell themselves. -/
theorem spells_ascii {bs : List Byte} (h : ∀ b ∈ bs, b ≤ 0x7F) : Spells bs (bs.map oneUnit) := by
  induction bs with
  | nil => exact .nil
  | cons b bs ih =>
    exact .one (h b List.mem_cons_self) (ih fun b hb => h b (List.mem_cons_of_mem _ hb))

/-- The first `N` bytes are characters of their own if they are all ASCII. -/
theorem Spells.drop_ascii {bs : List Byte} {us : List CodeUnit} (h : Spells bs us) :
    ∀ N, N ≤ bs.length → (∀ b ∈ bs.take N, b ≤ 0x7F) →
      N ≤ us.length ∧ Spells (bs.drop N) (us.drop N) := by
  induction h with
  | nil =>
    intro N hN _
    obtain rfl : N = 0 := Nat.le_zero.mp hN
    exact ⟨le_refl 0, .nil⟩
  | one ha htail ih =>
    intro N hN hascii
    match N with
    | 0 => exact ⟨Nat.zero_le _, .one ha htail⟩
    | N + 1 =>
      obtain ⟨hle, h⟩ := ih N (by simpa using hN) fun b hb =>
        hascii b (List.mem_cons_of_mem _ hb)
      exact ⟨by simpa using hle, h⟩
  | two hl hk htail _ =>
    intro N hN hascii
    match N with
    | 0 => exact ⟨Nat.zero_le _, .two hl hk htail⟩
    | N + 1 =>
      have := hascii _ List.mem_cons_self
      have := hl.1
      bv_omega
  | three hl hm hk htail _ =>
    intro N hN hascii
    match N with
    | 0 => exact ⟨Nat.zero_le _, .three hl hm hk htail⟩
    | N + 1 =>
      have := hascii _ List.mem_cons_self
      have := hl.1
      bv_omega

/-- How the bytes from the last whole character below `N` on look: a character starts at `N`, or
one that started one or two bytes before goes on over it. -/
inductive Straddles (N : ℕ) : ℕ → List Byte → Prop where
  /-- a character starts at `N` -/
  | none {bs : List Byte} : Straddles N N bs
  /-- a lead of more bytes is the last byte before `N` -/
  | one {m : ℕ} {l : Byte} {bs : List Byte} :
      m + 1 = N → IsLead2 l ∨ IsLead3 l → Straddles N m (l :: bs)
  /-- two bytes of three are the last bytes before `N` -/
  | two {m : ℕ} {l k : Byte} {bs : List Byte} :
      m + 2 = N → IsLead3 l → Trails l k → Straddles N m (l :: k :: bs)

theorem Straddles.le {N m : ℕ} {bs : List Byte} (h : Straddles N m bs) : m ≤ N := by
  cases h with
  | none => exact le_refl _
  | one hm _ => omega
  | two hm _ _ => omega

/-- At most two bytes of the character that goes on are below `N`. -/
theorem Straddles.length_cases {N m : ℕ} {bs : List Byte} (h : Straddles N m bs) :
    m = N ∨ m = N - 1 ∨ m = N - 2 := by
  cases h with
  | none => exact .inl rfl
  | one hm _ => exact .inr (.inl (by omega))
  | two hm _ _ => exact .inr (.inr (by omega))

theorem Straddles.add {N m : ℕ} {bs : List Byte} (h : Straddles N m bs) (n : ℕ) :
    Straddles (N + n) (m + n) bs := by
  cases h with
  | none => exact .none
  | one hm hl => exact .one (by omega) hl
  | two hm hl hk => exact .two (by omega) hl hk

/-- Characters can be cut at the last one that ends at or before the byte `N`. -/
theorem Spells.cut {bs : List Byte} {us : List CodeUnit} (h : Spells bs us) :
    ∀ N, N ≤ bs.length → ∃ bs₁ bs₂ us₁ us₂, bs = bs₁ ++ bs₂ ∧ us = us₁ ++ us₂ ∧
      Spells bs₁ us₁ ∧ Spells bs₂ us₂ ∧ Straddles N bs₁.length bs₂ := by
  induction h with
  | nil =>
    intro N hN
    obtain rfl : N = 0 := Nat.le_zero.mp hN
    exact ⟨[], [], [], [], rfl, rfl, .nil, .nil, .none⟩
  | one ha htail ih =>
    intro N hN
    match N with
    | 0 => exact ⟨[], _, [], _, rfl, rfl, .nil, .one ha htail, .none⟩
    | N + 1 =>
      obtain ⟨bs₁, bs₂, us₁, us₂, rfl, rfl, h₁, h₂, hcut⟩ := ih N (by simpa using hN)
      exact ⟨_ :: bs₁, bs₂, _ :: us₁, us₂, rfl, rfl, .one ha h₁, h₂, hcut.add 1⟩
  | two hl hk htail ih =>
    intro N hN
    match N with
    | 0 => exact ⟨[], _, [], _, rfl, rfl, .nil, .two hl hk htail, .none⟩
    | 1 => exact ⟨[], _, [], _, rfl, rfl, .nil, .two hl hk htail, .one rfl (.inl hl)⟩
    | N + 2 =>
      obtain ⟨bs₁, bs₂, us₁, us₂, rfl, rfl, h₁, h₂, hcut⟩ := ih N (by simpa using hN)
      exact ⟨_ :: _ :: bs₁, bs₂, _ :: us₁, us₂, rfl, rfl, .two hl hk h₁, h₂, hcut.add 2⟩
  | three hl hm hk htail ih =>
    intro N hN
    match N with
    | 0 => exact ⟨[], _, [], _, rfl, rfl, .nil, .three hl hm hk htail, .none⟩
    | 1 => exact ⟨[], _, [], _, rfl, rfl, .nil, .three hl hm hk htail, .one rfl (.inr hl)⟩
    | 2 => exact ⟨[], _, [], _, rfl, rfl, .nil, .three hl hm hk htail, .two rfl hl hm⟩
    | N + 3 =>
      obtain ⟨bs₁, bs₂, us₁, us₂, rfl, rfl, h₁, h₂, hcut⟩ := ih N (by simpa using hN)
      exact ⟨_ :: _ :: _ :: bs₁, bs₂, _ :: us₁, us₂, rfl, rfl, .three hl hm hk h₁, h₂, hcut.add 3⟩

/-! ## The meaning of the scalar loop -/

/-- What the scalar loop makes of the bytes left. -/
structure Reading where
  /-- the units decoded -/
  units : List CodeUnit
  /-- the bytes read, none where the loop returns inside a character -/
  read : Option ℕ

/-- The reading of `n` more bytes in front, decoded to `us`. -/
def Reading.after (us : List CodeUnit) (n : ℕ) (r : Reading) : Reading :=
  ⟨us ++ r.units, r.read.map (n + ·)⟩

theorem Reading.after_nil (r : Reading) : r.after [] 0 = r := by
  obtain ⟨us, _ | n⟩ := r
  · rfl
  · simp [Reading.after]

theorem Reading.after_after (us vs : List CodeUnit) (n m : ℕ) (r : Reading) :
    (r.after vs m).after us n = r.after (us ++ vs) (n + m) := by
  obtain ⟨ws, _ | k⟩ := r
  · simp [Reading.after]
  · simp [Reading.after, Nat.add_assoc]

/-- The value a call returns that is `i` bytes past its offset. -/
def Reading.value (r : Reading) (i : ℤ) : ℤ :=
  match r.read with
  | some n => i + n
  | none => -1

theorem Reading.value_some (us : List CodeUnit) (n : ℕ) (i : ℤ) :
    Reading.value ⟨us, some n⟩ i = i + n := rfl

theorem Reading.value_after (us : List CodeUnit) (n : ℕ) (r : Reading) (i : ℤ) :
    (r.after us n).value i = r.value (i + n) := by
  obtain ⟨ws, _ | k⟩ := r
  · rfl
  · simp [Reading.after, Reading.value, Int.add_assoc]

theorem Reading.value_ge (r : Reading) (i : ℤ) : r.value i = -1 ∨ i ≤ r.value i := by
  obtain ⟨us, _ | n⟩ := r
  · exact .inl rfl
  · exact .inr (by simp [Reading.value])

/-- `SCALAR_LOOP` on a list: decode at most `n` units. Bytes from `0x80` to `0xDF` start a
character of two bytes, those above one of three, whatever the bytes behind them are. -/
def scalarDecode : ℕ → List Byte → Reading
  | 0, _ => ⟨[], some 0⟩
  | _ + 1, [] => ⟨[], some 0⟩
  | n + 1, b :: bs =>
    if b ≤ 0x7F then (scalarDecode n bs).after [oneUnit b] 1
    else if b < 0xE0 then
      match bs with
      | k :: bs => (scalarDecode n bs).after [twoUnit b k] 2
      | [] => ⟨[], none⟩
    else
      match bs with
      | m :: k :: bs => (scalarDecode n bs).after [threeUnit b m k] 3
      | _ => ⟨[], none⟩

theorem scalarDecode_nil (n : ℕ) : scalarDecode n [] = ⟨[], some 0⟩ := by
  cases n <;> rfl

theorem scalarDecode_zero (bs : List Byte) : scalarDecode 0 bs = ⟨[], some 0⟩ := rfl

theorem scalarDecode_one {b : Byte} (h : b ≤ 0x7F) (n : ℕ) (bs : List Byte) :
    scalarDecode (n + 1) (b :: bs) = (scalarDecode n bs).after [oneUnit b] 1 := by
  rw [scalarDecode.eq_def]
  exact if_pos h

theorem scalarDecode_two {b : Byte} (h : ¬ b ≤ 0x7F) (h' : b < 0xE0) (n : ℕ) (k : Byte)
    (bs : List Byte) :
    scalarDecode (n + 1) (b :: k :: bs) = (scalarDecode n bs).after [twoUnit b k] 2 := by
  rw [scalarDecode.eq_def]
  exact (if_neg h).trans (if_pos h')

theorem scalarDecode_three {b : Byte} (h : ¬ b < 0xE0) (n : ℕ) (m k : Byte) (bs : List Byte) :
    scalarDecode (n + 1) (b :: m :: k :: bs) = (scalarDecode n bs).after [threeUnit b m k] 3 := by
  have h' : ¬ b ≤ 0x7F := by bv_omega
  rw [scalarDecode.eq_def]
  exact (if_neg h').trans (if_neg h)

/-- The loop returns where a character of two bytes has one. -/
theorem scalarDecode_cut_two {b : Byte} (h : ¬ b ≤ 0x7F) (n : ℕ) :
    scalarDecode (n + 1) [b] = ⟨[], none⟩ := by
  rw [scalarDecode.eq_def]
  refine (if_neg h).trans ?_
  split <;> rfl

/-- The loop returns where a character of three bytes has two. -/
theorem scalarDecode_cut_three {b : Byte} (h : ¬ b < 0xE0) (n : ℕ) (k : Byte) :
    scalarDecode (n + 1) [b, k] = ⟨[], none⟩ := by
  have h' : ¬ b ≤ 0x7F := by bv_omega
  rw [scalarDecode.eq_def]
  exact (if_neg h').trans (if_neg h)

/-- Where bytes and room are left the scalar loop returns inside a character or reads on. -/
theorem scalarDecode_value_cons {n : ℕ} (hn : 0 < n) (b : Byte) (bs : List Byte) (i : ℤ) :
    (scalarDecode n (b :: bs)).value i = -1 ∨ i < (scalarDecode n (b :: bs)).value i := by
  have hafter : ∀ (us : List CodeUnit) (k : ℕ) (r : Reading), 0 < k →
      (r.after us k).value i = -1 ∨ i < (r.after us k).value i := by
    intro us k r hk
    rw [Reading.value_after]
    exact (r.value_ge (i + k)).imp_right fun h => by omega
  obtain ⟨n, rfl⟩ : ∃ n', n = n' + 1 := ⟨n - 1, by omega⟩
  by_cases h1 : b ≤ 0x7F
  · rw [scalarDecode_one h1]
    exact hafter _ _ _ (by omega)
  rcases bs with _ | ⟨k, bs⟩
  · rw [scalarDecode_cut_two h1]
    exact .inl rfl
  by_cases h2 : b < 0xE0
  · rw [scalarDecode_two h1 h2]
    exact hafter _ _ _ (by omega)
  rcases bs with _ | ⟨m, bs⟩
  · rw [scalarDecode_cut_three h2]
    exact .inl rfl
  · rw [scalarDecode_three h2]
    exact hafter _ _ _ (by omega)

/-- Over characters the scalar loop decodes what they spell. -/
theorem scalarDecode_spelled {bs : List Byte} {us : List CodeUnit} (h : Spells bs us) :
    ∀ (n : ℕ) (rest : List Byte), us.length ≤ n →
      scalarDecode n (bs ++ rest) = (scalarDecode (n - us.length) rest).after us bs.length := by
  induction h with
  | nil =>
    intro n rest _
    exact (Reading.after_nil _).symm
  | @one a bs us ha _ ih =>
    intro n rest hn
    obtain ⟨n, rfl⟩ : ∃ n', n = n' + 1 := ⟨n - 1, by simp at hn; omega⟩
    rw [List.cons_append, scalarDecode_one ha, ih n rest (by simpa using hn),
      Reading.after_after, List.length_cons, List.length_cons, Nat.add_sub_add_right,
      Nat.add_comm 1]
    rfl
  | @two l k bs us hl hk _ ih =>
    intro n rest hn
    obtain ⟨n, rfl⟩ : ∃ n', n = n' + 1 := ⟨n - 1, by simp at hn; omega⟩
    have hl1 := hl.1
    have hl2 := hl.2
    rw [List.cons_append, List.cons_append, scalarDecode_two (by bv_omega) (by bv_omega),
      ih n rest (by simpa using hn), Reading.after_after, List.length_cons, List.length_cons,
      List.length_cons, Nat.add_sub_add_right, Nat.add_comm 2]
    rfl
  | @three l m k bs us hl hm hk _ ih =>
    intro n rest hn
    obtain ⟨n, rfl⟩ : ∃ n', n = n' + 1 := ⟨n - 1, by simp at hn; omega⟩
    have hl1 := hl.1
    rw [List.cons_append, List.cons_append, List.cons_append,
      scalarDecode_three (by bv_omega), ih n rest (by simpa using hn), Reading.after_after,
      List.length_cons, List.length_cons, List.length_cons, List.length_cons,
      Nat.add_sub_add_right, Nat.add_comm 3]
    rfl

/-- Bytes spell one sequence of units. -/
theorem Spells.unique {bs : List Byte} {us vs : List CodeUnit} (h : Spells bs us)
    (h' : Spells bs vs) : us = vs := by
  have hus := scalarDecode_spelled h (us.length + vs.length) [] (by omega)
  have hvs := scalarDecode_spelled h' (us.length + vs.length) [] (by omega)
  rw [hus, scalarDecode_nil, scalarDecode_nil] at hvs
  have hunits := congrArg Reading.units hvs
  simpa [Reading.after] using hunits

end Utf8

end HzResearch
