import HzResearch.PlainText

/-!
# Reading back what was written

`Decodes e m bs a`: wherever the bytes `bs` are next in a stream of endianness `e`, the
method `m` returns `a` and stops behind them. `Starves e m bs`: wherever a proper front
of `bs` is all that is left, `m` throws `EOFException`. Together they are `Reads`. Both
are closed under sequencing and repetition, so that a reader of the class is shown to
read its encoding the way it is put together.
-/

namespace HzResearch

open Java Utf8

namespace ByteArrayObjectDataInput

variable {α β : Type} {s s' : ByteArrayObjectDataInput} {e : Bool} {bs bs' tail : List Byte}
  {a : α} {b : β} {m : In α} {f : α → In β}

/-! ## The two halves -/

/-- Where `bs` comes next the method returns `a` and stops behind `bs`. -/
def Decodes (e : Bool) (m : In α) (bs : List Byte) (a : α) : Prop :=
  ∀ ⦃s : ByteArrayObjectDataInput⦄ ⦃tail : List Byte⦄, InBounds s → s.bigEndian = e →
    s.rest = bs ++ tail → ∃ s', m s = .ok a s' ∧ Past s bs.length s'

/-- Where the stream ends inside `bs` the method throws `EOFException`. -/
def Starves (e : Bool) (m : In α) (bs : List Byte) : Prop :=
  ∀ ⦃s : ByteArrayObjectDataInput⦄ ⦃tail : List Byte⦄, InBounds s → s.bigEndian = e →
    bs = s.rest ++ tail → tail ≠ [] →
      ∃ message s', m s = .error (.throws (.EOFException message)) s'

/-- The method reads `bs` as `a`, and misses it where it is cut off. -/
structure Reads (e : Bool) (m : In α) (bs : List Byte) (a : α) : Prop where
  /-- it is there -/
  decodes : Decodes e m bs a
  /-- it is cut off -/
  starves : Starves e m bs

/-- A method that has decoded is in its bounds. -/
theorem Past.inBounds_of_append (h : Past s bs.length s') (hs : InBounds s)
    (hrest : s.rest = bs ++ tail) : InBounds s' ∧ s'.rest = tail := by
  refine ⟨h.inBounds hs ?_, ?_⟩
  · rw [hrest, List.length_append]
    omega
  · rw [h.rest_eq hs.pos_nonneg, hrest, List.drop_left' rfl]

theorem Decodes.pure (a : α) : Decodes e (Pure.pure a : In α) [] a :=
  fun s _ _ _ _ => ⟨s, rfl, Past.refl s⟩

theorem Decodes.bind (hm : Decodes e m bs a) (hf : Decodes e (f a) bs' b) :
    Decodes e (m >>= f) (bs ++ bs') b := by
  intro s tail hs he hrest
  rw [List.append_assoc] at hrest
  obtain ⟨s', hrun, hpast⟩ := hm hs he hrest
  obtain ⟨hs', hrest'⟩ := hpast.inBounds_of_append hs hrest
  obtain ⟨s'', hrun', hpast'⟩ := hf hs' (hpast.bigEndian_eq.trans he) hrest'
  refine ⟨s'', by rw [bind_ok hrun, hrun'], ?_⟩
  rw [List.length_append]
  exact hpast.trans hpast'

/-- A value made from one that is read. -/
theorem Decodes.map (hm : Decodes e m bs a) (hf : ∀ s, f a s = .ok b s) :
    Decodes e (m >>= f) bs b := by
  have hnil : Decodes e (f a) [] b := fun s _ _ _ _ => ⟨s, hf s, Past.refl s⟩
  have h := hm.bind hnil
  rwa [List.append_nil] at h

/-- A stream that ends inside two parts ends inside the first, or behind it inside the second. -/
theorem cut_append {r : List Byte} (h : bs ++ bs' = r ++ tail) :
    (∃ front, r = bs ++ front ∧ bs' = front ++ tail) ∨ ∃ front, front ≠ [] ∧ bs = r ++ front := by
  rcases List.append_eq_append_iff.1 h with ⟨front, hr, hbs'⟩ | ⟨front, hbs, htail'⟩
  · exact .inl ⟨front, hr, hbs'⟩
  · by_cases hfront : front = []
    · subst hfront
      rw [List.append_nil] at hbs
      exact .inl ⟨[], by rw [List.append_nil, hbs], htail'.symm⟩
    · exact .inr ⟨front, hfront, hbs⟩

theorem Starves.bind (hm : Reads e m bs a) (hf : Starves e (f a) bs') :
    Starves e (m >>= f) (bs ++ bs') := by
  intro s tail hs he hcut htail
  rcases cut_append hcut with ⟨front, hrest, hbs'⟩ | ⟨front, hfront, hbs⟩
  · obtain ⟨s', hrun, hpast⟩ := hm.decodes hs he hrest
    obtain ⟨hs', hrest'⟩ := hpast.inBounds_of_append hs hrest
    rw [← hrest'] at hbs'
    obtain ⟨message, s'', hrun'⟩ := hf hs' (hpast.bigEndian_eq.trans he) hbs' htail
    exact ⟨message, s'', by rw [bind_ok hrun, hrun']⟩
  · obtain ⟨message, s', hrun⟩ := hm.starves hs he hbs hfront
    exact ⟨message, s', bind_error hrun⟩

theorem Starves.nil : Starves e m [] := by
  intro s tail _ _ hcut htail
  exact absurd (List.append_eq_nil_iff.1 hcut.symm).2 htail

theorem Reads.pure (a : α) : Reads e (Pure.pure a : In α) [] a := ⟨Decodes.pure a, Starves.nil⟩

theorem Reads.bind (hm : Reads e m bs a) (hf : Reads e (f a) bs' b) :
    Reads e (m >>= f) (bs ++ bs') b := ⟨hm.decodes.bind hf.decodes, Starves.bind hm hf.starves⟩

theorem Reads.map (hm : Reads e m bs a) (hf : ∀ s, f a s = .ok b s) : Reads e (m >>= f) bs b := by
  refine ⟨hm.decodes.map hf, ?_⟩
  have h := Starves.bind (f := f) hm Starves.nil
  rwa [List.append_nil] at h

/-- A read in the order of the stream. -/
theorem Reads.order {m : Bool → In α} (hm : Reads e (m e) bs a) :
    Reads e (do m (← get).bigEndian) bs a where
  decodes := by
    intro s tail hs he hrest
    rw [bind_ok (get_run s), he]
    exact hm.decodes hs he hrest
  starves := by
    intro s tail hs he hcut htail
    rw [bind_ok (get_run s), he]
    exact hm.starves hs he hcut htail

/-- Values one after the other. -/
theorem Reads.times {enc : α → List Byte} (xs : List α) (hm : ∀ x ∈ xs, Reads e m (enc x) x) :
    Reads e (times m xs.length) (xs.flatMap enc) xs := by
  induction xs with
  | nil => exact Reads.pure []
  | cons x xs ih =>
    refine (hm x List.mem_cons_self).bind ?_
    exact (ih fun y hy => hm y (List.mem_cons_of_mem x hy)).map fun _ => rfl

/-! ## Single values -/

theorem readByte_reads (x : Byte) : Reads e readByte [x] x where
  decodes := by
    intro s tail hs _ hrest
    exact ⟨_, hs.readByte_cons hrest, past_moved s 1⟩
  starves := by
    intro s tail hs _ hcut htail
    rcases hrest : s.rest with _ | ⟨y, ys⟩
    · exact ⟨none, s, hs.readByte_nil hrest⟩
    · rw [hrest, List.cons_append, List.cons.injEq] at hcut
      exact absurd (List.append_eq_nil_iff.1 hcut.2.symm).2 htail

theorem readBoolean_reads (x : Bool) : Reads e readBoolean [if x then 1 else 0] x where
  decodes := by
    intro s tail hs _ hrest
    refine ⟨s.moved 1, ?_, past_moved s 1⟩
    rw [readBoolean, bind_ok (hs.read_cons hrest)]
    cases x <;> rfl
  starves := by
    intro s tail hs _ hcut htail
    rcases hrest : s.rest with _ | ⟨y, ys⟩
    · refine ⟨none, s, ?_⟩
      rw [readBoolean, bind_ok (hs.read_nil hrest)]
      rfl
    · rw [hrest, List.cons_append, List.cons.injEq] at hcut
      exact absurd (List.append_eq_nil_iff.1 hcut.2.symm).2 htail

theorem readFixed_reads {w size : ℕ} (f : FixedWidth w size) {n : ℤ} (hn : n = size)
    (hsize : 0 < size) (e' : Bool) (v : BitVec w) :
    Reads e (readFixed f n e') (f.layout e' v) v where
  decodes := by
    intro s tail hs _ hrest
    have hlen := f.length_layout e' v
    obtain ⟨v', hv', hrun⟩ := hs.readFixed_ok f hn hsize
      (by rw [hrest, List.length_append]; omega) e'
    rw [hrest, List.take_left' hlen] at hv'
    cases f.layout_injective e' hv'
    exact ⟨_, hrun, by rw [hlen, hn]; exact past_moved s size⟩
  starves := by
    intro s tail hs _ hcut htail
    have hlen := congrArg List.length hcut
    rw [f.length_layout, List.length_append] at hlen
    have := List.length_pos_iff.2 htail
    obtain ⟨message, hrun⟩ := hs.readFixed_eof f hn (by omega) e'
    exact ⟨message, s, hrun⟩

section Bits

variable {bits : Bits}

theorem readInt_reads (v : BitVec 32) : Reads e (readInt bits) (bits.int.layout e v) v :=
  .order (m := readFixed bits.int INT_SIZE_IN_BYTES) (readFixed_reads _ rfl (by decide) e v)

theorem readLong_reads (v : BitVec 64) : Reads e (readLong bits) (bits.long.layout e v) v :=
  .order (m := readFixed bits.long LONG_SIZE_IN_BYTES) (readFixed_reads _ rfl (by decide) e v)

theorem readShort_reads (v : BitVec 16) : Reads e (readShort bits) (bits.short.layout e v) v :=
  .order (m := readFixed bits.short SHORT_SIZE_IN_BYTES) (readFixed_reads _ rfl (by decide) e v)

theorem readChar_reads (v : CodeUnit) : Reads e (readChar bits) (bits.char.layout e v) v :=
  .order (m := readFixed bits.char CHAR_SIZE_IN_BYTES) (readFixed_reads _ rfl (by decide) e v)

/-! ## Arrays and strings -/

/-- A length that is an `int` comes back as it was. -/
theorem toInt_ofInt {len : ℤ} (h0 : NULL_ARRAY_LENGTH ≤ len) (h : len ≤ MAX_VALUE) :
    (BitVec.ofInt 32 len).toInt = len := by
  unfold NULL_ARRAY_LENGTH at h0
  unfold MAX_VALUE at h
  rw [BitVec.toInt_ofInt]
  exact Int.bmod_eq_of_le (by omega) (by omega)

theorem lengthOrNull_ge {xs : Option (List α)} : NULL_ARRAY_LENGTH ≤ lengthOrNull xs := by
  rcases xs with _ | l
  · exact le_refl _
  · simp only [lengthOrNull, NULL_ARRAY_LENGTH, Option.elim_some]
    omega

/-- The encoding of an array with these elements. -/
def arrayBytes (bits : Bits) (e : Bool) (enc : α → List Byte) (xs : Option (List α)) : List Byte :=
  bits.int.layout e (BitVec.ofInt 32 (lengthOrNull xs)) ++ (xs.getD []).flatMap enc

theorem readArray_reads {enc : α → List Byte} {xs : Option (List α)}
    (hlen : lengthOrNull xs ≤ MAX_VALUE) (hm : ∀ x ∈ xs.getD [], Reads e m (enc x) x) :
    Reads e (readArray bits m) (arrayBytes bits e enc xs) xs := by
  refine (readInt_reads _).bind ?_
  rw [toInt_ofInt lengthOrNull_ge hlen]
  rcases xs with _ | _ | ⟨x, xs⟩
  · exact .pure none
  · exact .pure (some [])
  · have hlength : lengthOrNull (some (x :: xs)) = (x :: xs).length := rfl
    have hpos : lengthOrNull (some (x :: xs)) > 0 := by
      rw [hlength, List.length_cons]
      omega
    rw [if_neg (by rw [NULL_ARRAY_LENGTH]; omega), if_pos hpos, hlength, Int.toNat_natCast]
    exact (Reads.times (x :: xs) hm).map fun _ => rfl

/-- The encoding of a string. -/
def utfBytes (bits : Bits) (e : Bool) (str : Option (List CodeUnit)) : List Byte :=
  bits.int.layout e (BitVec.ofInt 32 (lengthOrNull str)) ++ encode (str.getD [])

theorem readUTF_reads {str : Option (List CodeUnit)} (hlen : lengthOrNull str ≤ MAX_VALUE) :
    Reads e (readUTF bits) (utfBytes bits e str) str := by
  have hv := toInt_ofInt lengthOrNull_ge hlen
  have hint : Reads e (readInt bits) _ _ := readInt_reads (BitVec.ofInt 32 (lengthOrNull str))
  rcases str with _ | us
  · -- null is the length alone
    have hbytes : utfBytes bits e none =
        bits.int.layout e (BitVec.ofInt 32 (lengthOrNull (none : Option (List CodeUnit)))) := by
      rw [utfBytes, Option.getD_none, encode_nil, List.append_nil]
    rw [hbytes]
    refine ⟨fun s tail hs he hrest => ?_, fun s tail hs he hcut htail => ?_⟩
    · obtain ⟨s', hrun, hpast⟩ := hint.decodes hs he hrest
      exact ⟨s', readUTF_null hrun hv, hpast⟩
    · obtain ⟨message, s', hrun⟩ := hint.starves hs he hcut htail
      exact ⟨message, s', bind_error hrun⟩
  · have hn : (BitVec.ofInt 32 (lengthOrNull (some us))).toInt = us.length := hv
    have hsp := spells_encode us
    refine ⟨fun s tail hs he hrest => ?_, fun s tail hs he hcut htail => ?_⟩
    · rw [utfBytes, List.append_assoc] at hrest
      obtain ⟨s', hrun, hpast⟩ := hint.decodes hs he hrest
      obtain ⟨hs', hrest'⟩ := hpast.inBounds_of_append hs hrest
      have htext := plainText_spelled hsp tail
      rw [Option.getD_some] at hrest'
      rw [← hrest', ← Int.toNat_natCast us.length, ← hn] at htext
      obtain ⟨s'', hrun', hpast'⟩ := readUTF_ok hrun hs' (by omega) htext
      refine ⟨s'', hrun', ?_⟩
      rw [utfBytes, List.length_append]
      exact hpast.trans hpast'
    · rcases cut_append hcut with ⟨front, hrest, htext⟩ | ⟨front, hfront, hbs⟩
      · obtain ⟨s', hrun, hpast⟩ := hint.decodes hs he hrest
        obtain ⟨hs', hrest'⟩ := hpast.inBounds_of_append hs hrest
        have hx := plainText_prefix hsp htext htail
        rw [← hrest', ← Int.toNat_natCast us.length, ← hn] at hx
        obtain ⟨s'', hrun'⟩ := readUTF_error hrun hs' (by omega) hx
        exact ⟨none, s'', hrun'⟩
      · obtain ⟨message, s', hrun⟩ := hint.starves hs he hbs hfront
        exact ⟨message, s', bind_error hrun⟩

/-- An array whose elements take bytes has no more of them than bytes. -/
theorem lengthOrNull_le_arrayBytes {α : Type} {enc : α → List Byte} (henc : ∀ x, enc x ≠ [])
    (xs : Option (List α)) : lengthOrNull xs ≤ (arrayBytes bits e enc xs).length := by
  rcases xs with _ | l
  · exact (by decide : (-1 : ℤ) ≤ 0).trans (Int.natCast_nonneg _)
  · have hle : l.length ≤ (l.flatMap enc).length := by
      induction l with
      | nil => exact Nat.zero_le _
      | cons x l ih =>
        have := List.length_pos_iff.2 (henc x)
        rw [List.flatMap_cons, List.length_append, List.length_cons]
        omega
    rw [arrayBytes, List.length_append, Option.getD_some]
    simp only [lengthOrNull, Option.elim_some]
    omega

theorem lengthOrNull_le_utfBytes (s : Option (List CodeUnit)) :
    lengthOrNull s ≤ (utfBytes bits e s).length := by
  rcases s with _ | us
  · exact (by decide : (-1 : ℤ) ≤ 0).trans (Int.natCast_nonneg _)
  · have := length_le_encode us
    rw [utfBytes, List.length_append, Option.getD_some]
    simp only [lengthOrNull, Option.elim_some]
    omega

theorem layout_ne_nil {w size : ℕ} (f : FixedWidth w size) (hsize : 0 < size) (v : BitVec w) :
    f.layout e v ≠ [] := by
  rw [← List.length_pos_iff, f.length_layout]
  exact hsize

theorem utfBytes_ne_nil (s : Option (List CodeUnit)) : utfBytes bits e s ≠ [] := by
  rw [utfBytes]
  exact List.append_ne_nil_of_left_ne_nil (layout_ne_nil bits.int (by decide) _) _

/-- A `byte[]` comes back where all of it is there. -/
theorem readByteArray_decodes {xs : Option (List Byte)} (hlen : lengthOrNull xs ≤ MAX_VALUE) :
    Decodes e (readByteArray bits) (arrayBytes bits e (fun x => [x]) xs) xs := by
  rw [arrayBytes, List.flatMap_singleton']
  refine (readInt_reads _).decodes.bind ?_
  rw [toInt_ofInt lengthOrNull_ge hlen]
  rcases xs with _ | _ | ⟨x, xs⟩
  · exact .pure none
  · exact .pure (some [])
  · have hlength : lengthOrNull (some (x :: xs)) = (x :: xs).length := rfl
    have hpos : 0 < (x :: xs).length := List.length_pos_iff.2 (List.cons_ne_nil x xs)
    rw [if_neg (by rw [NULL_ARRAY_LENGTH]; omega), if_pos (by omega), hlength,
      Int.toNat_natCast, Option.getD_some]
    generalize x :: xs = l at hlength hpos
    refine Decodes.map (a := l) (fun s tail hs he hrest => ?_) fun _ => rfl
    have hleft := hs.length_rest
    have hmax := hs.size_le
    have h0 := hs.pos_nonneg
    rw [hrest, List.length_append] at hleft
    have hzeros : (List.replicate l.length (0 : Byte)).length = l.length := List.length_replicate
    have hroom : (l.length : ℤ) ≤ jint ((List.replicate l.length (0 : Byte)).length - 0) := by
      rw [hzeros, Int.sub_zero, jint_of_range (by omega) (by omega)]
    obtain ⟨n, hn, hrun⟩ := hs.readRange_run (le_refl 0) (by omega) (by omega) hroom
      (by rw [← List.length_pos_iff, hrest, List.length_append]; omega) (by omega)
    obtain rfl : n = l.length := by
      rw [hrest, List.length_append] at hn
      omega
    have hl : splice (List.replicate l.length 0) (0 : ℤ).toNat (s.rest.take l.length) = l := by
      rw [hrest, List.take_left' rfl, splice, Int.toNat_zero, List.take_zero, List.nil_append,
        Nat.zero_add, List.drop_eq_nil_of_le (by rw [hzeros]), List.append_nil]
    rw [hl] at hrun
    have hall : readAll (some (List.replicate l.length 0)) s =
        .ok ((l.length : ℤ), l) (s.moved l.length) := by
      rw [readAll, hzeros, hrun]
    refine ⟨_, ?_, past_moved s l.length⟩
    rw [readFully, bind_ok hall]
    exact congrFun (if_neg (by omega)) _

end Bits

end ByteArrayObjectDataInput

end HzResearch
