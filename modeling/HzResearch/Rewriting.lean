import HzResearch.Fields

/-!
# Reading and writing again

What a reader has accepted need not have been written by the writer: characters may be longer than
they have to be, `boolean`s may be any byte but zero, lengths may be negative, NaNs may have any
bits. Written again, all of it takes the bytes that the writer chooses, never more than before
(`Grammar.Covers`), and reads as the same values, the NaNs aside (`readFields_rewritten`).
-/

namespace HzResearch

open Java Utf8
open ByteArrayObjectDataOutput (Write flat inOrder floatToIntBits doubleToLongBits flat_exact)
open ByteArrayObjectDataInput (Reads Decodes arrayBytes utfBytes)

/-! ## The room that values need -/

namespace Grammar

variable {α β : Type} {bits : Bits} {e e' : Bool} {p : Grammar α} {enc : α → List Byte}

/-- The bytes that a value is written in are not more than those it has been found in. -/
def Covers (p : Grammar α) (enc : α → List Byte) : Prop :=
  ∀ ⦃bs : List Byte⦄ ⦃a : α⦄ ⦃n : ℕ⦄, p.run bs = .ok (a, n) → (enc a).length ≤ n

theorem Covers.pure {a : α} (h : enc a = []) : Covers (.pure a) enc := by
  intro bs b n hb
  cases hb
  rw [h]
  exact Nat.zero_le 0

theorem Covers.map {g : α → β} {enc : β → List Byte} (h : Covers p fun a => enc (g a)) :
    Covers (p.map g) enc := by
  intro bs b n hb
  obtain ⟨a, ha, rfl⟩ := Parser.map_eq_ok hb
  exact h ha

theorem Covers.times (h : Covers p enc) (k : ℕ) : Covers (p.times k) (List.flatMap enc) := by
  induction k with
  | zero => exact .pure rfl
  | succ k ih =>
    intro bs as n has
    obtain ⟨a, i, j, ha, hrest, rfl⟩ := Parser.bind_eq_ok has
    obtain ⟨as', has', rfl⟩ := Parser.map_eq_ok hrest
    have hi := h ha
    have hj := ih has'
    rw [List.flatMap_cons, List.length_append]
    omega

theorem covers_token {enc : Byte → List Byte} (henc : ∀ b, (enc b).length = 1) :
    Covers (Parser.token : Grammar Byte) enc := by
  intro bs b n hb
  rcases bs with _ | ⟨c, bs⟩
  · cases hb
  · cases hb
    rw [henc]

theorem covers_fixed {w size : ℕ} (f : FixedWidth w size) {enc : BitVec w → List Byte}
    (henc : ∀ v, (enc v).length = size) : Covers (fixed f e) enc := by
  intro bs v n hv
  obtain ⟨rfl, -, -⟩ := fixed_eq_ok f e hv
  rw [henc]

/-- An array whose elements are covered. -/
theorem Covers.array (h : Covers p enc) :
    Covers (Grammar.array bits e p) (arrayBytes bits e' enc) := by
  intro bs xs n hxs
  obtain ⟨v, i, j, hv, hg, rfl⟩ := Parser.bind_eq_ok hxs
  obtain ⟨rfl, -, -⟩ := fixed_eq_ok _ _ hv
  rw [arrayBytes, List.length_append, bits.int.length_layout]
  refine Nat.add_le_add_left ?_ 4
  split at hg
  case isTrue =>
    cases hg
    exact Nat.zero_le _
  split at hg
  case isTrue =>
    obtain ⟨as, has, rfl⟩ := Parser.map_eq_ok hg
    exact h.times _ has
  case isFalse =>
    cases hg
    exact Nat.zero_le _

/-- The unit of a character of two bytes fits into eleven bits. -/
theorem twoUnit_le (l k : Byte) : twoUnit l k ≤ 0x7FF := by
  have hhigh : (l.setWidth 16 &&& 0x1F).toNat < 2 ^ 5 := by
    rw [BitVec.toNat_and]
    exact Nat.and_lt_two_pow _ (by decide)
  have hlow : (k.setWidth 16 &&& 0x3F).toNat < 2 ^ 6 := by
    rw [BitVec.toNat_and]
    exact Nat.and_lt_two_pow _ (by decide)
  have hlt : (twoUnit l k).toNat < 2 ^ 11 := by
    rw [twoUnit, BitVec.toNat_or, BitVec.toNat_shiftLeft, Nat.shiftLeft_eq]
    refine Nat.or_lt_two_pow ?_ (hlow.trans (by decide))
    rw [Nat.mod_eq_of_lt] <;> omega
  change (twoUnit l k).toNat ≤ 0x7FF
  omega

/-- A character that is found needs no more bytes than it has. -/
theorem length_encodeUnit_le {bs : List Byte} {c : CodeUnit} {k : ℕ}
    (h : nextChar bs = .ok (c, k)) : (encodeUnit c).length ≤ k := by
  rcases bs with _ | ⟨b, bs⟩
  · cases h
  rw [nextChar.eq_def] at h
  by_cases h1 : b ≤ 0x7F
  · simp only [if_pos h1] at h
    cases h
    have hone : oneUnit b ≤ 0x7F := by
      rw [oneUnit]
      bv_omega
    rw [encodeUnit, if_pos hone]
    exact le_refl 1
  by_cases h2 : 0xC0 ≤ b ∧ b ≤ 0xDF
  · simp only [if_neg h1, if_pos h2] at h
    rcases bs with _ | ⟨m, bs⟩
    · cases h
    · cases h
      rw [encodeUnit]
      split
      · exact Nat.le_succ 1
      · rw [if_pos (twoUnit_le b m)]
        exact le_refl 2
  by_cases h3 : 0xE0 ≤ b ∧ b ≤ 0xEF
  · simp only [if_neg h1, if_neg h2, if_pos h3] at h
    rcases bs with _ | ⟨m, _ | ⟨l, bs⟩⟩
    · cases h
    · cases h
    · cases h
      exact (length_encodeUnit _).2
  · simp only [if_neg h1, if_neg h2, if_neg h3] at h
    cases h

theorem covers_unit : Covers unit encodeUnit := by
  intro bs c n hc
  rw [unit_run] at hc
  rcases h : nextChar bs with x | ⟨c', k⟩
  · rw [h] at hc
    cases hc
  · rw [h] at hc
    cases hc
    exact length_encodeUnit_le h

theorem covers_utf : Covers (utf bits e) (utfBytes bits e') := by
  intro bs us n hus
  obtain ⟨v, i, j, hv, hg, rfl⟩ := Parser.bind_eq_ok hus
  obtain ⟨rfl, -, -⟩ := fixed_eq_ok _ _ hv
  rw [utfBytes, List.length_append, bits.int.length_layout]
  refine Nat.add_le_add_left ?_ 4
  split at hg
  case isTrue =>
    cases hg
    exact Nat.zero_le _
  split at hg
  case isTrue => cases hg
  case isFalse =>
    obtain ⟨cs, hcs, rfl⟩ := Parser.map_eq_ok hg
    exact covers_unit.times _ hcs

end Grammar

/-! ## The values that come back -/

/-- The value that is read where this one was written: of an unsigned number the low bits, of a
NaN the one that the writer has. -/
def Field.normal : (f : Field) → f.Value → f.Value
  | .unsignedByte, v => (fun x : BitVec 32 => (x.setWidth 8).setWidth 32) v
  | .unsignedShort, v => (fun x : BitVec 32 => (x.setWidth 16).setWidth 32) v
  | .float _, v => floatToIntBits v
  | .double _, v => doubleToLongBits v
  | .floatArray, v => Option.map (List.map floatToIntBits) v
  | .doubleArray, v => Option.map (List.map doubleToLongBits) v
  | _, v => v

/-- The entry that is read where this one was written. -/
def Entry.normal (entry : Entry) : Entry := ⟨entry.field, entry.field.normal entry.value⟩

/-- The item of the same bytes. -/
def Entry.item : Entry → Item
  | ⟨.boolean, v⟩ => ⟨.boolean, v⟩
  | ⟨.byte, v⟩ => ⟨.byte, v⟩
  | ⟨.unsignedByte, v⟩ => ⟨.byte, BitVec.setWidth 8 v⟩
  | ⟨.char, v⟩ => ⟨.char, v⟩
  | ⟨.short o, v⟩ => ⟨.short o, v⟩
  | ⟨.unsignedShort, v⟩ => ⟨.short none, BitVec.setWidth 16 v⟩
  | ⟨.int o, v⟩ => ⟨.int o, v⟩
  | ⟨.long o, v⟩ => ⟨.long o, v⟩
  | ⟨.float o, v⟩ => ⟨.int o, floatToIntBits v⟩
  | ⟨.double o, v⟩ => ⟨.long o, doubleToLongBits v⟩
  | ⟨.booleanArray, v⟩ => ⟨.booleanArray, v⟩
  | ⟨.byteArray, v⟩ => ⟨.byteArray, v⟩
  | ⟨.charArray, v⟩ => ⟨.charArray, v⟩
  | ⟨.shortArray, v⟩ => ⟨.shortArray, v⟩
  | ⟨.intArray, v⟩ => ⟨.intArray, v⟩
  | ⟨.longArray, v⟩ => ⟨.longArray, v⟩
  | ⟨.floatArray, v⟩ => ⟨.intArray, Option.map (List.map floatToIntBits) v⟩
  | ⟨.doubleArray, v⟩ => ⟨.longArray, Option.map (List.map doubleToLongBits) v⟩
  | ⟨.utf, v⟩ => ⟨.utf, v⟩
  | ⟨.utfArray, v⟩ => ⟨.utfArray, v⟩

variable {bits : Bits} {e e' : Bool}

theorem arrayBytes_map {α β : Type} (enc : β → List Byte) (g : α → β) (xs : Option (List α)) :
    arrayBytes bits e enc (xs.map (List.map g)) = arrayBytes bits e (fun x => enc (g x)) xs := by
  rcases xs with _ | xs
  · rfl
  · simp only [arrayBytes, Option.map_some, Option.getD_some, lengthOrNull, Option.elim_some,
      List.length_map, List.flatMap_map]

/-- **The writes of an entry store the layout of its item.** -/
theorem Entry.encoding_eq (entry : Entry) :
    entry.encoding bits e = entry.item.layout bits e := by
  obtain ⟨f, v⟩ := entry
  cases f with
  | boolean => exact Item.encoding_eq ⟨.boolean, v⟩
  | byte => exact Item.encoding_eq ⟨.byte, v⟩
  | unsignedByte => exact flat_exact _
  | char => exact Item.encoding_eq ⟨.char, v⟩
  | short o => exact Item.encoding_eq ⟨.short o, v⟩
  | unsignedShort => exact flat_exact _
  | int o => exact Item.encoding_eq ⟨.int o, v⟩
  | long o => exact Item.encoding_eq ⟨.long o, v⟩
  | float o => exact flat_exact _
  | double o => exact flat_exact _
  | booleanArray => exact Item.encoding_eq ⟨.booleanArray, v⟩
  | byteArray => exact Item.encoding_eq ⟨.byteArray, v⟩
  | charArray => exact Item.encoding_eq ⟨.charArray, v⟩
  | shortArray => exact Item.encoding_eq ⟨.shortArray, v⟩
  | intArray => exact Item.encoding_eq ⟨.intArray, v⟩
  | longArray => exact Item.encoding_eq ⟨.longArray, v⟩
  | floatArray =>
    refine (flat_arrayChunks _ v).trans ?_
    simp only [flat_exact]
    exact (arrayBytes_map (bits.int.layout e) floatToIntBits v).symm
  | doubleArray =>
    refine (flat_arrayChunks _ v).trans ?_
    simp only [flat_exact]
    exact (arrayBytes_map (bits.long.layout e) doubleToLongBits v).symm
  | utf => exact Item.encoding_eq ⟨.utf, v⟩
  | utfArray => exact Item.encoding_eq ⟨.utfArray, v⟩

/-- Every field but byte arrays is read the way it was written. -/
theorem Entry.reads (entry : Entry) (hs : entry.item.Sized) (hf : entry.field ≠ .byteArray) :
    Reads e (entry.field.read bits) (entry.encoding bits e) (entry.field.normal entry.value) := by
  rw [entry.encoding_eq, ← Item.encoding_eq]
  obtain ⟨f, v⟩ := entry
  cases f with
  | boolean => exact Item.reads ⟨.boolean, v⟩ hs (by simp)
  | byte => exact Item.reads ⟨.byte, v⟩ hs (by simp)
  | unsignedByte => exact (Item.reads ⟨.byte, BitVec.setWidth 8 v⟩ hs (by simp)).map fun _ => rfl
  | char => exact Item.reads ⟨.char, v⟩ hs (by simp)
  | short o => cases o <;> exact Item.reads ⟨.short _, v⟩ hs (by simp)
  | unsignedShort =>
    exact (Item.reads ⟨.short none, BitVec.setWidth 16 v⟩ hs (by simp)).map fun _ => rfl
  | int o => cases o <;> exact Item.reads ⟨.int _, v⟩ hs (by simp)
  | long o => cases o <;> exact Item.reads ⟨.long _, v⟩ hs (by simp)
  | float o => cases o <;> exact Item.reads ⟨.int _, floatToIntBits v⟩ hs (by simp)
  | double o => cases o <;> exact Item.reads ⟨.long _, doubleToLongBits v⟩ hs (by simp)
  | booleanArray => exact Item.reads ⟨.booleanArray, v⟩ hs (by simp)
  | byteArray => exact absurd rfl hf
  | charArray => exact Item.reads ⟨.charArray, v⟩ hs (by simp)
  | shortArray => exact Item.reads ⟨.shortArray, v⟩ hs (by simp)
  | intArray => exact Item.reads ⟨.intArray, v⟩ hs (by simp)
  | longArray => exact Item.reads ⟨.longArray, v⟩ hs (by simp)
  | floatArray => exact Item.reads ⟨.intArray, Option.map (List.map floatToIntBits) v⟩ hs (by simp)
  | doubleArray =>
    exact Item.reads ⟨.longArray, Option.map (List.map doubleToLongBits) v⟩ hs (by simp)
  | utf => exact Item.reads ⟨.utf, v⟩ hs (by simp)
  | utfArray => exact Item.reads ⟨.utfArray, v⟩ hs (by simp)

/-- **Written again a value takes no more bytes**, also in the other byte order. -/
theorem Field.covers (f : Field) :
    (f.grammar bits e).Covers fun v => (⟨f, v⟩ : Entry).encoding bits e' := by
  simp only [Entry.encoding_eq]
  open Grammar in
  cases f with
  | boolean => exact .map (covers_token fun _ => rfl)
  | byte => exact covers_token fun _ => rfl
  | unsignedByte => exact .map (covers_token fun _ => rfl)
  | char => exact covers_fixed _ (bits.char.length_layout e')
  | short o => exact covers_fixed _ (bits.short.length_layout _)
  | unsignedShort => exact .map (covers_fixed _ fun _ => bits.short.length_layout _ _)
  | int o => exact covers_fixed _ (bits.int.length_layout _)
  | long o => exact covers_fixed _ (bits.long.length_layout _)
  | float o => exact covers_fixed _ fun _ => bits.int.length_layout _ _
  | double o => exact covers_fixed _ fun _ => bits.long.length_layout _ _
  | booleanArray => exact .array (.map (covers_token fun _ => rfl))
  | byteArray => exact .array (covers_token fun _ => rfl)
  | charArray => exact .array (covers_fixed _ (bits.char.length_layout e'))
  | shortArray => exact .array (covers_fixed _ (bits.short.length_layout e'))
  | intArray => exact .array (covers_fixed _ (bits.int.length_layout e'))
  | longArray => exact .array (covers_fixed _ (bits.long.length_layout e'))
  | floatArray =>
    have hmap : (array bits e (fixed bits.int e)).Covers fun v =>
        arrayBytes bits e' (bits.int.layout e') (v.map (List.map floatToIntBits)) := by
      simp only [arrayBytes_map]
      exact .array (covers_fixed _ fun _ => bits.int.length_layout e' _)
    exact hmap
  | doubleArray =>
    have hmap : (array bits e (fixed bits.long e)).Covers fun v =>
        arrayBytes bits e' (bits.long.layout e') (v.map (List.map doubleToLongBits)) := by
      simp only [arrayBytes_map]
      exact .array (covers_fixed _ fun _ => bits.long.length_layout e' _)
    exact hmap
  | utf => exact covers_utf
  | utfArray => exact .array covers_utf

theorem fieldsGrammar_covers (fs : List Field) :
    (fieldsGrammar bits e fs).Covers (encodeEntries bits e') := by
  induction fs with
  | nil => exact .pure rfl
  | cons f fs ih =>
    intro bs entries n h
    obtain ⟨v, i, j, hv, hrest, rfl⟩ := Parser.bind_eq_ok h
    obtain ⟨entries', hentries, rfl⟩ := Parser.map_eq_ok hrest
    have hi : ((⟨f, v⟩ : Entry).encoding bits e').length ≤ i := f.covers hv
    have hj : (encodeEntries bits e' entries').length ≤ j := ih hentries
    have hcons : encodeEntries bits e' (⟨f, v⟩ :: entries') =
        (⟨f, v⟩ : Entry).encoding bits e' ++ encodeEntries bits e' entries' := List.flatMap_cons
    rw [hcons, List.length_append]
    omega

/-! ## Streams -/

/-- The entries of fields have these fields. -/
theorem map_field_of_grammar {fs : List Field} : ∀ {bs : List Byte} {entries : List Entry} {n : ℕ},
    (fieldsGrammar bits e fs).run bs = .ok (entries, n) → entries.map Entry.field = fs := by
  induction fs with
  | nil =>
    intro bs entries n h
    cases h
    rfl
  | cons f fs ih =>
    intro bs entries n h
    obtain ⟨v, i, j, -, hrest, rfl⟩ := Parser.bind_eq_ok h
    obtain ⟨entries', hentries, rfl⟩ := Parser.map_eq_ok hrest
    rw [List.map_cons, ih hentries]

/-- The entries of a stream that fits into an array. -/
theorem sized_of_encodeEntries {entries : List Entry}
    (h : (encodeEntries bits e entries).length ≤ MAX_VALUE) :
    ∀ entry ∈ entries, entry.item.Sized := by
  intro entry hentry
  refine entry.item.sized_of_layout (?_ : (entry.item.layout bits e).length ≤ MAX_VALUE)
  rw [← entry.encoding_eq]
  have hsub : (entry.encoding bits e).length ≤ (encodeEntries bits e entries).length :=
    (List.sublist_flatten_of_mem (List.mem_map_of_mem hentry)).length_le
  omega

/-- The reads of entries return what has become of them. -/
theorem readFields_reads (entries : List Entry) (hs : ∀ entry ∈ entries, entry.item.Sized)
    (hf : ∀ entry ∈ entries, entry.field ≠ .byteArray) :
    Reads e (readFields bits (entries.map Entry.field)) (encodeEntries bits e entries)
      (entries.map Entry.normal) := by
  induction entries with
  | nil => exact Reads.pure []
  | cons entry entries ih =>
    have hmem := List.mem_cons_self (a := entry) (l := entries)
    refine (entry.reads (hs entry hmem) (hf entry hmem)).bind ?_
    exact (ih (fun x hx => hs x (List.mem_cons_of_mem entry hx))
      fun x hx => hf x (List.mem_cons_of_mem entry hx)).map fun _ => rfl

theorem Entry.accepted (entry : Entry) : entry.write.Accepted := by
  obtain ⟨f, v⟩ := entry
  cases f <;> exact trivial

variable (bits) in
theorem writeEntries_writes (entries : List Entry) :
    ByteArrayObjectDataOutput.Writes e (writeEntries bits entries)
      (entries.flatMap fun entry => entry.write.chunks bits e) :=
  ByteArrayObjectDataOutput.Writes.forEach (fun entry => entry.write.writes bits entry.accepted)
    entries

theorem floatToIntBits_idem (v : BitVec 32) :
    floatToIntBits (floatToIntBits v) = floatToIntBits v := by
  by_cases h : 0x7F800000 < v &&& 0x7FFFFFFF
  · rw [floatToIntBits, floatToIntBits, if_pos h]
    decide
  · rw [floatToIntBits, floatToIntBits, if_neg h, if_neg h]

theorem doubleToLongBits_idem (v : BitVec 64) :
    doubleToLongBits (doubleToLongBits v) = doubleToLongBits v := by
  by_cases h : 0x7FF0000000000000 < v &&& 0x7FFFFFFFFFFFFFFF
  · rw [doubleToLongBits, doubleToLongBits, if_pos h]
    decide
  · rw [doubleToLongBits, doubleToLongBits, if_neg h, if_neg h]

theorem setWidth_low {n : ℕ} (hn : n ≤ 32) (v : BitVec 32) :
    ((v.setWidth n).setWidth 32).setWidth n = v.setWidth n := by
  rw [BitVec.setWidth_setWidth_of_le _ hn, BitVec.setWidth_eq]

theorem map_map_idem {α : Type} {g : α → α} (hg : ∀ x, g (g x) = g x) (xs : Option (List α)) :
    (xs.map (List.map g)).map (List.map g) = xs.map (List.map g) := by
  rw [Option.map_map, List.map_comp_map]
  congr 2
  funext x
  exact hg x

/-- What comes back is written in the same bytes. -/
theorem Entry.item_normal (entry : Entry) : entry.normal.item = entry.item := by
  obtain ⟨f, v⟩ := entry
  cases f with
  | unsignedByte => exact congrArg (Item.mk .byte) (setWidth_low (by decide) v)
  | unsignedShort => exact congrArg (Item.mk (.short none)) (setWidth_low (by decide) v)
  | float o => exact congrArg (Item.mk (.int o)) (floatToIntBits_idem v)
  | double o => exact congrArg (Item.mk (.long o)) (doubleToLongBits_idem v)
  | floatArray => exact congrArg (Item.mk .intArray) (map_map_idem floatToIntBits_idem v)
  | doubleArray => exact congrArg (Item.mk .longArray) (map_map_idem doubleToLongBits_idem v)
  | _ => rfl

theorem encodeEntries_normal (entries : List Entry) :
    encodeEntries bits e (entries.map Entry.normal) = encodeEntries bits e entries := by
  rw [encodeEntries, List.flatMap_map]
  congr 1
  funext entry
  rw [entry.encoding_eq, entry.normal.encoding_eq, entry.item_normal]

/-- **What the reader has accepted can be written again**, in either byte order: that takes no more
bytes, and what is read from them is the same but for the NaNs and is written in the same bytes from
then on. -/
theorem readFields_rewritten (bits : Bits) {fs : List Field} (hfs : .byteArray ∉ fs)
    {data : List Byte} (hmax : data.length ≤ MAX_VALUE) {order order' : ByteOrder}
    {entries : List Entry} {s' : ByteArrayObjectDataInput}
    (hrun : readFields bits fs (ByteArrayObjectDataInput.new (some data) 0 order) = .ok entries s')
    {size : ℤ} (h0 : 0 ≤ size) (h : size ≤ MAX_VALUE)
    (hpeak : (after (writeEntries bits entries)
      (ByteArrayObjectDataOutput.new size order')).peak ≤ MAX_VALUE) :
    ∃ w data' s'',
      writeEntries bits entries (ByteArrayObjectDataOutput.new size order') = .ok () w ∧
      ByteArrayObjectDataOutput.toByteArray w = .ok data' w ∧ (data'.length : ℤ) ≤ s'.pos ∧
        readFields bits fs (ByteArrayObjectDataInput.new (some data') 0 order') =
          .ok (entries.map Entry.normal) s'' ∧ s''.pos = data'.length ∧
          encodeEntries bits (order' == .BIG_ENDIAN) (entries.map Entry.normal) = data' := by
  obtain ⟨n, hgrammar, hpast⟩ := readFields_eq_ok hfs
    (ByteArrayObjectDataInput.inBounds_new hmax order) hrun
  have hpos : s'.pos = n := hpast.pos_eq.trans (Int.zero_add _)
  have hcovers : (encodeEntries bits (order' == .BIG_ENDIAN) entries).length ≤ n :=
    fieldsGrammar_covers fs hgrammar
  have hn : n ≤ data.length := Parser.run_le _ hgrammar
  have hflat : flat (entries.flatMap fun entry => entry.write.chunks bits (order' == .BIG_ENDIAN)) =
      encodeEntries bits (order' == .BIG_ENDIAN) entries :=
    ByteArrayObjectDataOutput.flat_flatMap _ entries
  rcases (writeEntries_writes bits entries).run
      (ByteArrayObjectDataOutput.new_sane h0 h order') rfl with ⟨w, hok, -⟩ | ⟨x, w, herr, -, hbad⟩
  · obtain ⟨hbytes, hlen⟩ := (writeEntries_writes bits entries).toByteArray_new h0 h hok
    rw [hflat] at hbytes hlen
    have hfields := map_field_of_grammar hgrammar
    have hne : ∀ entry ∈ entries, entry.field ≠ .byteArray := by
      intro entry hentry hbyte
      refine hfs ?_
      rw [← hfields, ← hbyte]
      exact List.mem_map_of_mem hentry
    obtain ⟨s'', hread, hpast'⟩ :=
      (readFields_reads entries (sized_of_encodeEntries hlen) hne).decodes
        (ByteArrayObjectDataInput.inBounds_new hlen order') rfl (List.append_nil _).symm
    rw [hfields] at hread
    exact ⟨w, _, s'', hok, hbytes, by omega, hread, hpast'.pos_eq.trans (Int.zero_add _),
      encodeEntries_normal entries⟩
  · rw [after_error herr] at hpeak
    have := hbad hpeak
    simp [ByteArrayObjectDataOutput.new] at this

/-- A `boolean` of 7, a NaN, a character longer than it has to be and a negative length, written
again in the other order. -/
theorem readFields_rewritten_strange :
    ∃ w data' s'', writeEntries Bits.standard
        [⟨.boolean, true⟩, ⟨.float none, 0xFFFFFFFF#32⟩, ⟨.utf, some [0x41]⟩, ⟨.intArray, some []⟩]
        (ByteArrayObjectDataOutput.new 3 .LITTLE_ENDIAN) = .ok () w ∧
      ByteArrayObjectDataOutput.toByteArray w = .ok data' w ∧ (data'.length : ℤ) ≤ 15 ∧
        readFields Bits.standard [.boolean, .float none, .utf, .intArray]
            (ByteArrayObjectDataInput.new (some data') 0 .LITTLE_ENDIAN) =
          .ok [⟨.boolean, true⟩, ⟨.float none, 0x7FC00000#32⟩, ⟨.utf, some [0x41]⟩,
            ⟨.intArray, some []⟩] s'' ∧ s''.pos = data'.length ∧
          encodeEntries Bits.standard false [⟨.boolean, true⟩, ⟨.float none, 0x7FC00000#32⟩,
            ⟨.utf, some [0x41]⟩, ⟨.intArray, some []⟩] = data' := by
  have hrun : readFields Bits.standard [.boolean, .float none, .utf, .intArray]
      (ByteArrayObjectDataInput.new
        (some [7, 0xFF, 0xFF, 0xFF, 0xFF, 0, 0, 0, 1, 0xC1, 0x81, 0xFF, 0xFF, 0xFF, 0xFB]) 0
        .BIG_ENDIAN) =
      .ok [⟨.boolean, true⟩, ⟨.float none, 0xFFFFFFFF#32⟩, ⟨.utf, some [0x41]⟩,
          ⟨.intArray, some []⟩]
        ⟨some [7, 0xFF, 0xFF, 0xFF, 0xFF, 0, 0, 0, 1, 0xC1, 0x81, 0xFF, 0xFF, 0xFF, 0xFB], 15, 15,
          0, some [0x41], true⟩ := rfl
  exact readFields_rewritten Bits.standard (by decide) (by decide) hrun (by decide) (by decide)
    (by decide +kernel)

end HzResearch
