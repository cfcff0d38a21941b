import HzResearch.BulkReads
import HzResearch.Codec
import HzResearch.Parser

/-!
# The grammar of the stream

What the reader accepts, on lists of bytes: a `Grammar` is a parser without lookahead whose errors
are the `Fault`s of a stream. `Accepts` and `Rejects` say what a method of the reader has to do with
a grammar: where the grammar finds a value, the method returns it and stops behind it, and where the
grammar finds a fault, the method throws an exception that shows it. Which exception a negative
length is depends on what the reader has read before, because its buffer for characters is kept.

Both are closed under sequencing and repetition. Only `readByteArray` does not reject what it
should: it returns an array that is cut off.
-/

namespace HzResearch

open Java Utf8

/-! ## Faults -/

/-- What is wrong with a stream. -/
inductive Fault : Type where
  /-- it is too short -/
  | ended
  /-- a byte that begins no character -/
  | malformed
  /-- a string of negative length -/
  | negative
  deriving DecidableEq

/-- The exceptions that show a fault. -/
inductive Fault.Shows : Fault → Throwable → Prop
  | ended (message : Option String) : Shows .ended (.EOFException message)
  | malformed : Shows .malformed .UTFDataFormatException
  /-- the array for the characters cannot be allocated -/
  | array : Shows .negative .NegativeArraySizeException
  /-- the string cannot be taken from the array that is there -/
  | string : Shows .negative .StringIndexOutOfBoundsException

/-- A parser of bytes. -/
abbrev Grammar (α : Type) : Type := Parser Byte Fault.ended α

namespace Grammar

/-- The value of these bytes. -/
def decode {w size : ℕ} (f : FixedWidth w size) (e : Bool) (bs : List Byte) :
    Except Fault (BitVec w) :=
  match f.read bs 0 e with
  | .error _ => .error .malformed
  | .ok v => .ok v

/-- A value of a fixed width. -/
def fixed {w size : ℕ} (f : FixedWidth w size) (e : Bool) : Grammar (BitVec w) :=
  Parser.fixed size (decode f e)

/-- A byte that is not zero. -/
def boolean : Grammar Bool := Parser.token.map fun b => b ≠ 0

/-- A character of one, two or three bytes; what continues it is not checked. -/
def unit : Grammar CodeUnit :=
  Parser.token.bind fun b =>
    if b ≤ 0x7F then .pure (oneUnit b)
    else if 0xC0 ≤ b ∧ b ≤ 0xDF then Parser.token.map (twoUnit b)
    else if 0xE0 ≤ b ∧ b ≤ 0xEF then
      Parser.token.bind fun m => Parser.token.map (threeUnit b m)
    else .fail .malformed

section

variable (bits : Bits) (e : Bool)

/-- A length, and so many values; lengths below null's count as zero. -/
def array {α : Type} (p : Grammar α) : Grammar (Option (List α)) :=
  (fixed bits.int e).bind fun v =>
    if v.toInt = NULL_ARRAY_LENGTH then .pure none
    else if v.toInt > 0 then (p.times v.toInt.toNat).map some
    else .pure (some [])

/-- A length, and so many characters. -/
def utf : Grammar (Option (List CodeUnit)) :=
  (fixed bits.int e).bind fun v =>
    if v.toInt = NULL_ARRAY_LENGTH then .pure none
    else if v.toInt < 0 then .fail .negative
    else (unit.times v.toInt.toNat).map some

end

/-! ## Values of a fixed width -/

section Fixed

variable {w size : ℕ} (f : FixedWidth w size) (e : Bool) {bs : List Byte} {v : BitVec w} {n : ℕ}

/-- The value whose bytes come first. -/
theorem fixed_ok (h : size ≤ bs.length) :
    ∃ v, f.layout e v = bs.take size ∧ (fixed f e).run bs = .ok (v, size) := by
  have hlen : (bs.take size).length = size := by
    rw [List.length_take]
    exact Nat.min_eq_left h
  have hin : (0 : ℤ) + size ≤ (bs.take size).length := by
    rw [hlen]
    omega
  obtain ⟨v, hread, hlayout⟩ := f.read_in e (le_refl 0) hin
  rw [Int.toNat_zero, List.drop_zero, List.take_take, Nat.min_self] at hlayout
  have hdecode : decode f e (bs.take size) = .ok v := by rw [decode, hread]
  exact ⟨v, hlayout, Parser.runFixed_ok h hdecode⟩

theorem fixed_short (h : bs.length < size) : (fixed f e).run bs = .error .ended :=
  (Parser.runFixed_short h : Parser.runFixed Fault.ended size (decode f e) bs = _)

theorem fixed_eq_ok (h : (fixed f e).run bs = .ok (v, n)) :
    n = size ∧ size ≤ bs.length ∧ f.layout e v = bs.take size := by
  rcases le_or_gt size bs.length with hle | hlt
  · obtain ⟨v', hv', hrun⟩ := fixed_ok f e hle
    rw [h] at hrun
    cases hrun
    exact ⟨rfl, hle, hv'⟩
  · rw [fixed_short f e hlt] at h
    cases h

end Fixed

/-! ## Characters -/

/-- The fault that a character throws. -/
def ofThrowable : Throwable → Fault
  | .UTFDataFormatException => .malformed
  | _ => .ended

theorem token_cons (b : Byte) (bs : List Byte) :
    (Parser.token : Grammar Byte).run (b :: bs) = .ok (b, 1) := rfl

/-- The characters of the plain reader are those of the grammar. -/
theorem unit_run (bs : List Byte) : unit.run bs = (nextChar bs).mapError ofThrowable := by
  rcases bs with _ | ⟨b, bs⟩
  · rfl
  rw [unit, Parser.run_bind, Parser.runBind, token_cons, nextChar.eq_def]
  simp only [List.drop_succ_cons, List.drop_zero]
  by_cases h1 : b ≤ 0x7F
  · simp only [if_pos h1]
    rfl
  by_cases h2 : 0xC0 ≤ b ∧ b ≤ 0xDF
  · simp only [if_neg h1, if_pos h2]
    rcases bs with _ | ⟨k, bs⟩
    · rfl
    · rfl
  by_cases h3 : 0xE0 ≤ b ∧ b ≤ 0xEF
  · simp only [if_neg h1, if_neg h2, if_pos h3]
    rcases bs with _ | ⟨m, _ | ⟨k, bs⟩⟩
    · rfl
    · rfl
    · rfl
  · simp only [if_neg h1, if_neg h2, if_neg h3]
    rfl

/-- The texts of the plain reader are those of the grammar. -/
theorem times_unit_run (n : ℕ) : ∀ bs : List Byte,
    (unit.times n).run bs = (plainText n bs).mapError ofThrowable := by
  induction n with
  | zero => exact fun _ => rfl
  | succ n ih =>
    intro bs
    rw [Parser.times, Parser.run_bind, Parser.runBind, unit_run, plainText]
    rcases nextChar bs with x | ⟨c, k⟩
    · rfl
    simp only [Except.mapError]
    rw [Parser.map, Parser.run_bind, Parser.runBind, ih]
    rcases plainText n (bs.drop k) with x | ⟨us, m⟩
    · rfl
    · simp only [Except.mapError, Parser.pure, Nat.add_zero, Nat.add_comm k m]

end Grammar

namespace ByteArrayObjectDataInput

variable {α β : Type} {s s' : ByteArrayObjectDataInput} {e : Bool} {bits : Bits} {m : In α}
  {f : α → In β} {p : Grammar α} {g : α → Grammar β}

/-! ## Methods and grammars -/

/-- Where the grammar finds a value the method returns it and stops behind it. -/
def Accepts (e : Bool) (m : In α) (p : Grammar α) : Prop :=
  ∀ ⦃s : ByteArrayObjectDataInput⦄ ⦃a : α⦄ ⦃n : ℕ⦄, InBounds s → s.bigEndian = e →
    p.run s.rest = .ok (a, n) → ∃ s', m s = .ok a s' ∧ Past s n s'

/-- Where the grammar finds a fault the method throws an exception that shows it. -/
def Rejects (e : Bool) (m : In α) (p : Grammar α) : Prop :=
  ∀ ⦃s : ByteArrayObjectDataInput⦄ ⦃x : Fault⦄, InBounds s → s.bigEndian = e →
    p.run s.rest = .error x → ∃ t s', x.Shows t ∧ m s = .error (.throws t) s'

/-- The method is the grammar. -/
structure Parses (e : Bool) (m : In α) (p : Grammar α) : Prop where
  /-- it returns what the grammar finds -/
  accepts : Accepts e m p
  /-- it throws where the grammar finds a fault -/
  rejects : Rejects e m p

/-- Behind what the grammar has taken the reader is in its bounds, at the bytes that are left. -/
theorem Past.behind {a : α} {n : ℕ} (h : Past s n s') (hs : InBounds s)
    (hp : p.run s.rest = .ok (a, n)) : InBounds s' ∧ s'.rest = s.rest.drop n :=
  ⟨h.inBounds hs (p.run_le hp), h.rest_eq hs.pos_nonneg⟩

theorem Accepts.pure (a : α) : Accepts e (Pure.pure a : In α) (.pure a) := by
  intro s b n _ _ h
  cases h
  exact ⟨s, rfl, Past.refl s⟩

theorem Accepts.bind (hm : Accepts e m p) (hf : ∀ a, Accepts e (f a) (g a)) :
    Accepts e (m >>= f) (p.bind g) := by
  intro s b n hs he h
  obtain ⟨a, i, j, hp, hg, rfl⟩ := Parser.bind_eq_ok h
  obtain ⟨s', hrun, hpast⟩ := hm hs he hp
  obtain ⟨hs', hrest⟩ := hpast.behind hs hp
  rw [← hrest] at hg
  obtain ⟨s'', hrun', hpast'⟩ := hf a hs' (hpast.bigEndian_eq.trans he) hg
  exact ⟨s'', by rw [bind_ok hrun, hrun'], hpast.trans hpast'⟩

theorem Parses.pure (a : α) : Parses e (Pure.pure a : In α) (.pure a) := by
  refine ⟨Accepts.pure a, fun s x _ _ h => ?_⟩
  cases h

theorem Parses.bind (hm : Parses e m p) (hf : ∀ a, Parses e (f a) (g a)) :
    Parses e (m >>= f) (p.bind g) := by
  refine ⟨hm.accepts.bind fun a => (hf a).accepts, fun s x hs he h => ?_⟩
  rcases Parser.bind_cases p g s.rest with ⟨y, hp, hx⟩ | ⟨a, n, hp, hg⟩
  · rw [hx] at h
    cases h
    obtain ⟨t, s', ht, hrun⟩ := hm.rejects hs he hp
    exact ⟨t, s', ht, bind_error hrun⟩
  · obtain ⟨s', hrun, hpast⟩ := hm.accepts hs he hp
    obtain ⟨hs', hrest⟩ := hpast.behind hs hp
    rcases hg with ⟨y, hg, hx⟩ | ⟨b, m', -, hok⟩
    · rw [hx] at h
      cases h
      rw [← hrest] at hg
      obtain ⟨t, s'', ht, hrun'⟩ := (hf a).rejects hs' (hpast.bigEndian_eq.trans he) hg
      exact ⟨t, s'', ht, by rw [bind_ok hrun, hrun']⟩
    · rw [hok] at h
      cases h

theorem Parses.map {b : α → β} (hm : Parses e m p) (hf : ∀ a, f a = Pure.pure (b a)) :
    Parses e (m >>= f) (p.map b) := by
  refine hm.bind fun a => ?_
  rw [hf a]
  exact .pure (b a)

theorem Parses.times (hm : Parses e m p) (n : ℕ) : Parses e (times m n) (p.times n) := by
  induction n with
  | zero => exact .pure []
  | succ n ih => exact hm.bind fun a => ih.map fun _ => rfl

/-- A read in the order of the stream. -/
theorem Parses.order {m : Bool → In α} (hm : Parses e (m e) p) :
    Parses e (do m (← get).bigEndian) p := by
  refine ⟨fun s a n hs he h => ?_, fun s x hs he h => ?_⟩
  · rw [bind_ok (get_run s), he]
    exact hm.accepts hs he h
  · rw [bind_ok (get_run s), he]
    exact hm.rejects hs he h

/-! ## Single values -/

theorem readByte_parses : Parses e readByte .token := by
  refine ⟨fun s a n hs _ h => ?_, fun s x hs _ h => ?_⟩
  · rcases hrest : s.rest with _ | ⟨b, bs⟩
    · rw [hrest] at h
      cases h
    · rw [hrest] at h
      cases h
      exact ⟨_, hs.readByte_cons hrest, past_moved s 1⟩
  · rcases hrest : s.rest with _ | ⟨b, bs⟩
    · rw [hrest] at h
      cases h
      exact ⟨_, s, .ended none, hs.readByte_nil hrest⟩
    · rw [hrest] at h
      cases h

theorem readBoolean_parses : Parses e readBoolean Grammar.boolean := by
  refine ⟨fun s a n hs _ h => ?_, fun s x hs _ h => ?_⟩
  · rcases hrest : s.rest with _ | ⟨b, bs⟩
    · rw [hrest] at h
      cases h
    · rw [hrest] at h
      cases h
      refine ⟨s.moved 1, ?_, past_moved s 1⟩
      have hzero : (b.toNat : ℤ) ≠ 0 ↔ b ≠ 0 := by
        constructor <;> bv_omega
      rw [readBoolean, bind_ok (hs.read_cons hrest), if_neg (by omega), decide_eq_decide.2 hzero]
      rfl
  · rcases hrest : s.rest with _ | ⟨b, bs⟩
    · rw [hrest] at h
      cases h
      refine ⟨_, s, .ended none, ?_⟩
      rw [readBoolean, bind_ok (hs.read_nil hrest)]
      rfl
    · rw [hrest] at h
      cases h

theorem readFixed_parses {w size : ℕ} (f : FixedWidth w size) {n : ℤ} (hn : n = size)
    (hsize : 0 < size) (e' : Bool) : Parses e (readFixed f n e') (Grammar.fixed f e') := by
  refine ⟨fun s a k hs _ h => ?_, fun s x hs _ h => ?_⟩
  · obtain ⟨rfl, hle, hlayout⟩ := Grammar.fixed_eq_ok f e' h
    obtain ⟨v, hv, hrun⟩ := hs.readFixed_ok f hn hsize hle e'
    rw [← hlayout] at hv
    cases f.layout_injective e' hv
    exact ⟨_, hrun, by rw [hn]; exact past_moved s k⟩
  · rcases le_or_gt size s.rest.length with hle | hlt
    · obtain ⟨v, -, hok⟩ := Grammar.fixed_ok f e' hle
      rw [h] at hok
      cases hok
    · rw [Grammar.fixed_short f e' hlt] at h
      cases h
      obtain ⟨message, hrun⟩ := hs.readFixed_eof f hn hlt e'
      exact ⟨_, s, .ended message, hrun⟩

theorem readInt_parses : Parses e (readInt bits) (Grammar.fixed bits.int e) :=
  .order (m := readFixed bits.int INT_SIZE_IN_BYTES) (readFixed_parses _ rfl (by decide) e)

theorem readLong_parses : Parses e (readLong bits) (Grammar.fixed bits.long e) :=
  .order (m := readFixed bits.long LONG_SIZE_IN_BYTES) (readFixed_parses _ rfl (by decide) e)

theorem readShort_parses : Parses e (readShort bits) (Grammar.fixed bits.short e) :=
  .order (m := readFixed bits.short SHORT_SIZE_IN_BYTES) (readFixed_parses _ rfl (by decide) e)

theorem readChar_parses : Parses e (readChar bits) (Grammar.fixed bits.char e) :=
  .order (m := readFixed bits.char CHAR_SIZE_IN_BYTES) (readFixed_parses _ rfl (by decide) e)

/-! ## Arrays and strings -/

theorem readArray_parses (hm : Parses e m p) :
    Parses e (readArray bits m) (Grammar.array bits e p) := by
  refine readInt_parses.bind fun v => ?_
  dsimp only
  split
  case isTrue => exact .pure none
  case isFalse =>
    split
    case isTrue => exact (hm.times _).map fun _ => rfl
    case isFalse => exact .pure (some [])

/-- A text that is found is read. -/
theorem readText_ok {v : BitVec 32} {n : ℕ} {us : List CodeUnit} (hs : InBounds s')
    (hrun : readInt bits s = .ok v s') (h0 : 0 ≤ v.toInt)
    (h : (Grammar.unit.times v.toInt.toNat).run s'.rest = .ok (us, n)) :
    ∃ s'', readUTF bits s = .ok (some us) s'' ∧ Past s' n s'' := by
  rw [Grammar.times_unit_run] at h
  rcases htext : plainText v.toInt.toNat s'.rest with x | ⟨vs, k⟩
  · rw [htext] at h
    cases h
  · rw [htext] at h
    cases h
    exact readUTF_ok hrun hs h0 htext

/-- A text that is not found is refused. -/
theorem readText_error {v : BitVec 32} {x : Fault} (hs : InBounds s')
    (hrun : readInt bits s = .ok v s') (h0 : 0 ≤ v.toInt)
    (h : (Grammar.unit.times v.toInt.toNat).run s'.rest = .error x) :
    ∃ t s'', x.Shows t ∧ readUTF bits s = .error (.throws t) s'' := by
  rw [Grammar.times_unit_run] at h
  rcases htext : plainText v.toInt.toNat s'.rest with y | ⟨vs, k⟩
  · rw [htext] at h
    cases h
    obtain ⟨s'', hrun'⟩ := readUTF_error hrun hs h0 htext
    refine ⟨y, s'', ?_, hrun'⟩
    rcases plainText_throws htext with rfl | rfl
    · exact .ended none
    · exact .malformed
  · rw [htext] at h
    cases h

/-- A negative length is refused, by either exception. -/
theorem readUTF_refused {v : BitVec 32} (hrun : readInt bits s = .ok v s')
    (hne : v.toInt ≠ NULL_ARRAY_LENGTH) (hneg : v.toInt < 0) :
    ∃ t s'', Fault.negative.Shows t ∧ readUTF bits s = .error (.throws t) s'' := by
  rw [readUTF, bind_ok hrun, if_neg hne]
  rcases hb : s'.charBuffer with _ | buffer
  · exact ⟨_, s', .array, bind_error (ensureCharBuffer_negative hb hneg)⟩
  · -- the buffer is kept, no turn of the loop is made, and the string is refused
    have hroom : Room v.toInt s' := ⟨buffer, hb, by omega⟩
    have hzero : v.toInt.toNat = 0 := by omega
    have hloop : forEach (readChars bits) (List.range 0) s' = .ok () s' := rfl
    refine ⟨_, s', .string, ?_⟩
    rw [bind_ok (ensureCharBuffer_room hroom), hzero, bind_ok hloop, newString,
      bind_ok (get_run s'), hb]
    exact congrFun (if_pos (.inl hneg)) s'

theorem readUTF_parses : Parses e (readUTF bits) (Grammar.utf bits e) := by
  refine ⟨fun s a n hs he h => ?_, fun s x hs he h => ?_⟩
  · obtain ⟨v, i, j, hv, hg, rfl⟩ := Parser.bind_eq_ok h
    obtain ⟨s', hrun, hpast⟩ := readInt_parses.accepts hs he hv
    obtain ⟨hs', hrest⟩ := hpast.behind hs hv
    rw [← hrest] at hg
    split at hg
    case isTrue hnull =>
      cases hg
      exact ⟨s', readUTF_null hrun hnull, hpast⟩
    split at hg
    case isTrue => cases hg
    case isFalse h0 =>
      obtain ⟨us, hus, rfl⟩ := Parser.map_eq_ok hg
      obtain ⟨s'', hrun', hpast'⟩ := readText_ok hs' hrun (by omega) hus
      exact ⟨s'', hrun', hpast.trans hpast'⟩
  · rcases Parser.bind_cases (Grammar.fixed bits.int e) _ s.rest with
      ⟨y, hv, hx⟩ | ⟨v, i, hv, hg⟩
    · rw [Grammar.utf, hx] at h
      cases h
      obtain ⟨t, s', ht, hrun⟩ := readInt_parses.rejects hs he hv
      exact ⟨t, s', ht, bind_error hrun⟩
    obtain ⟨s', hrun, hpast⟩ := readInt_parses.accepts hs he hv
    obtain ⟨hs', hrest⟩ := hpast.behind hs hv
    rcases hg with ⟨y, hg, hx⟩ | ⟨b, j, -, hok⟩
    · rw [Grammar.utf, hx] at h
      cases h
      rw [← hrest] at hg
      split at hg
      case isTrue => cases hg
      case isFalse hne =>
      split at hg
      case isTrue hneg =>
        cases hg
        exact readUTF_refused hrun hne hneg
      case isFalse h0 => exact readText_error hs' hrun (by omega) (Parser.map_eq_error hg)
    · rw [Grammar.utf, hok] at h
      cases h

/-- A `byte[]` that is there is read. -/
theorem readByteArray_accepts :
    Accepts e (readByteArray bits) (Grammar.array bits e Parser.token) := by
  intro s a n hs he h
  obtain ⟨v, i, j, hv, hg, rfl⟩ := Parser.bind_eq_ok h
  obtain ⟨s', hrun, hpast⟩ := readInt_parses.accepts hs he hv
  obtain ⟨hs', hrest⟩ := hpast.behind hs hv
  rw [← hrest] at hg
  rw [readByteArray, bind_ok hrun]
  split at hg
  case isTrue hnull =>
    cases hg
    rw [if_pos hnull]
    exact ⟨s', rfl, hpast⟩
  case isFalse hne =>
  rw [if_neg hne]
  split at hg
  case isFalse h0 =>
    cases hg
    rw [if_neg h0]
    exact ⟨s', rfl, hpast⟩
  case isTrue h0 =>
    obtain ⟨bs, hbs, rfl⟩ := Parser.map_eq_ok hg
    obtain ⟨rfl, hle, rfl⟩ := Parser.times_token_eq_ok _ hbs
    have hlt := BitVec.toInt_lt (x := v)
    have hr : InArray (List.replicate v.toInt.toNat 0) 0 v.toInt :=
      inArray_new (by omega) (by rw [MAX_VALUE]; omega)
    have hlength : ((List.replicate v.toInt.toNat (0 : Byte)).length : ℤ) = v.toInt := by
      rw [List.length_replicate]
      omega
    have hall : splice (List.replicate v.toInt.toNat 0) (0 : ℤ).toNat
        (s'.rest.take v.toInt.toNat) = s'.rest.take v.toInt.toNat := by
      rw [splice, Int.toNat_zero, List.take_zero, List.nil_append, Nat.zero_add,
        List.drop_eq_nil_of_le, List.append_nil]
      rw [List.length_replicate, List.length_take]
      omega
    have hread := hs'.readFullyRange_run hr (by omega)
    rw [hall] at hread
    rw [if_pos h0, readFully_eq, hlength, bind_ok hread]
    refine ⟨_, rfl, hpast.trans ?_⟩
    exact ⟨rfl, rfl, rfl, by rw [moved_pos]; omega⟩

end ByteArrayObjectDataInput

end HzResearch
