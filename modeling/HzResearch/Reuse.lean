import HzResearch.Oblivious
import HzResearch.Seek

/-!
# A cleared writer is used again

`clear()` resets `pos` and keeps the buffer, and `position` moves `pos` anywhere inside
it. So what was written before can be seen again. Two writers that are `Alike` differ
only in the contents of their buffers; every method is `Oblivious`: it ends alike on
both, and leaves at each index either the same byte or the byte that stood there.

An index is `Exposed` by a sequence of operations if they show what stood there, which a
run over zeros and a run over ones tell apart. `clear_reveals_iff` compares the runs of
two cleared writers: they end alike, and `toByteArray` is the same in both exactly if the
old contents are the same at the exposed indices. A caller who moves `pos` only over what
has been written since exposes nothing (`SeeksBack`).
-/

namespace HzResearch

open Java

/-- The writers of `Bits` do not look at the array they write to. -/
structure Bits.Oblivious (bits : Bits) : Prop where
  /-- `writeChar` -/
  char : ∀ i v e, ObliviousArray (bits.char.write i v e)
  /-- `writeShort` -/
  short : ∀ i v e, ObliviousArray (bits.short.write i v e)
  /-- `writeInt` -/
  int : ∀ i v e, ObliviousArray (bits.int.write i v e)
  /-- `writeLong` -/
  long : ∀ i v e, ObliviousArray (bits.long.write i v e)
  /-- `writeUtf8Char` -/
  utf8Char : ∀ i c, ObliviousArray (bits.writeUtf8Char i c)

theorem Bits.standard_oblivious : Bits.standard.Oblivious where
  char i _ _ := storeAll_oblivious _ i
  short i _ _ := storeAll_oblivious _ i
  int i _ _ := storeAll_oblivious _ i
  long i _ _ := storeAll_oblivious _ i
  utf8Char i _ := (storeAll_oblivious _ i).bind fun _ => .pure _

namespace ByteArrayObjectDataOutput

variable {bits : Bits} {w v : ByteArrayObjectDataOutput} {b : List Byte} {α β : Type}

/-! ## Writers that differ only in their contents -/

/-- The fields are the same, and so is the length of the buffer. -/
structure Alike (w v : ByteArrayObjectDataOutput) : Prop where
  /-- `initialSize` -/
  initialSize_eq : w.initialSize = v.initialSize
  /-- `isBigEndian` -/
  isBigEndian_eq : w.isBigEndian = v.isBigEndian
  /-- `pos` -/
  pos_eq : w.pos = v.pos
  /-- the length of the buffer, none for null -/
  capacity_eq : w.buffer.map List.length = v.buffer.map List.length

theorem Alike.refl (w : ByteArrayObjectDataOutput) : Alike w w := ⟨rfl, rfl, rfl, rfl⟩

theorem Alike.symm (h : Alike w v) : Alike v w :=
  ⟨h.initialSize_eq.symm, h.isBigEndian_eq.symm, h.pos_eq.symm, h.capacity_eq.symm⟩

theorem Alike.trans {u : ByteArrayObjectDataOutput} (h : Alike w v) (h' : Alike v u) : Alike w u :=
  ⟨h.initialSize_eq.trans h'.initialSize_eq, h.isBigEndian_eq.trans h'.isBigEndian_eq,
    h.pos_eq.trans h'.pos_eq, h.capacity_eq.trans h'.capacity_eq⟩

theorem Alike.buffer_none (h : Alike w v) (hb : w.buffer = none) : v.buffer = none := by
  have hcap := h.capacity_eq
  rw [hb, Option.map_none] at hcap
  exact Option.map_eq_none_iff.1 hcap.symm

theorem Alike.buffer_some (h : Alike w v) (hb : w.buffer = some b) :
    ∃ b', v.buffer = some b' ∧ b.length = b'.length := by
  have hcap := h.capacity_eq
  rw [hb, Option.map_some] at hcap
  obtain ⟨b', hb', hlen⟩ := Option.map_eq_some_iff.1 hcap.symm
  exact ⟨b', hb', hlen.symm⟩

theorem Alike.length_eq (h : Alike w v) : w.bytes.length = v.bytes.length := by
  rcases hb : w.buffer with _ | b
  · rw [bytes_none hb, bytes_none (h.buffer_none hb)]
  · obtain ⟨b', hb', hlen⟩ := h.buffer_some hb
    rw [bytes_some hb, bytes_some hb', hlen]

theorem Alike.available_eq (h : Alike w v) : w.available = v.available := by
  rcases hb : w.buffer with _ | b
  · rw [available, hb, available, h.buffer_none hb]
  · obtain ⟨b', hb', hlen⟩ := h.buffer_some hb
    rw [available, hb, available, hb']
    simp only [hlen, h.pos_eq]

/-- The byte at an index of the buffer. -/
def byteAt (w : ByteArrayObjectDataOutput) (i : ℕ) : Option Byte := w.bytes[i]?

/-- The writers are alike, and hold the same bytes below `pos`. -/
def AlikeBelow (w v : ByteArrayObjectDataOutput) : Prop :=
  Alike w v ∧ ∀ i : ℕ, (i : ℤ) < w.pos → w.byteAt i = v.byteAt i

/-- The method does not look at the contents, and moves `pos` only over bytes that it stores. -/
structure Blind (m : Out α) : Prop where
  /-- it does not look at the contents -/
  oblivious : Oblivious Alike byteAt m
  /-- the bytes below `pos` stay the same in two runs -/
  below : Lockstep AlikeBelow m

theorem Blind.pure (a : α) : Blind (pure a) := ⟨.pure a, .pure a⟩

theorem Blind.raise (e : Throwable) : Blind (raise e : Out α) := ⟨.raise e, .raise e⟩

theorem Blind.bind {m : Out α} {f : α → Out β} (hm : Blind m) (hf : ∀ a, Blind (f a)) :
    Blind (m >>= f) :=
  ⟨hm.oblivious.bind fun a => (hf a).oblivious, hm.below.bind fun a => (hf a).below⟩

theorem Blind.forEach {f : α → Out Unit} (hf : ∀ a, Blind (f a)) (xs : List α) :
    Blind (forEach f xs) := by
  induction xs with
  | nil => exact .pure ()
  | cons x xs ih => exact (hf x).bind fun _ => ih

/-- The endianness is looked up. -/
theorem Blind.order {f : Bool → Out α} (hf : ∀ e, Blind (f e)) :
    Blind (do f (← get).isBigEndian) where
  oblivious := .reads (fun _ _ h => by rw [h.isBigEndian_eq]) fun w => (hf w.isBigEndian).oblivious
  below := .reads (fun _ _ h => by rw [h.1.isBigEndian_eq]) fun w => (hf w.isBigEndian).below

/-- What a method stores where it moves `pos` forward is the same in two runs. -/
theorem Blind.of_passed {m : Out α} (hm : Oblivious Alike byteAt m)
    (hpassed : ∀ ⦃w v⦄, Alike w v → ∀ i : ℕ, w.pos ≤ i → (i : ℤ) < (after m w).pos →
      (after m w).byteAt i = (after m v).byteAt i) : Blind m := by
  refine ⟨hm, fun w v h => ?_⟩
  obtain ⟨hout, halike⟩ := hm.lockstep h.1
  refine ⟨hout, halike, fun i hi => ?_⟩
  by_cases hlt : (i : ℤ) < w.pos
  · exact hm.agree (Alike.refl w) h.1 (h.2 i hlt)
  · exact hpassed h.1 i (not_lt.1 hlt) hi

/-- A method that does not move `pos` forward. -/
theorem Blind.of_oblivious {m : Out α} (hm : Oblivious Alike byteAt m)
    (hpos : ∀ w, (after m w).pos ≤ max 0 w.pos) : Blind m := by
  refine .of_passed hm fun w v h i hle hi => ?_
  have := hpos w
  omega

/-! ## The primitives -/

theorem capacity_blind (x : ℤ) : Blind (capacity x) := by
  refine .of_oblivious ⟨fun w v h => ⟨rfl, ?_⟩, fun w i => .inr fun v h => rfl⟩ fun w => ?_
  · exact ⟨h.initialSize_eq, h.isBigEndian_eq, h.pos_eq, h.capacity_eq⟩
  · exact le_max_right _ _

theorem advance_oblivious (n : ℤ) : Oblivious Alike byteAt (advance n) := by
  refine ⟨fun w v h => ⟨rfl, ?_⟩, fun w i => .inr fun v h => rfl⟩
  exact ⟨h.initialSize_eq, h.isBigEndian_eq, congrArg (· + n) h.pos_eq, h.capacity_eq⟩

theorem outcome_onBuffer {m : Java (List Byte) α} (hb : w.buffer = some b) :
    outcome (onBuffer m) w = outcome m b := by
  rcases hm : m b with ⟨a, b'⟩ | ⟨e, b'⟩
  · rw [outcome_ok (onBuffer_ok hb hm), outcome_ok hm]
  · rw [outcome_error (onBuffer_error hb hm), outcome_error hm]

theorem after_onBuffer {m : Java (List Byte) α} (hb : w.buffer = some b) :
    after (onBuffer m) w = { w with buffer := some (after m b) } := by
  rcases hm : m b with ⟨a, b'⟩ | ⟨e, b'⟩
  · rw [after_ok (onBuffer_ok hb hm), after_ok hm]
  · rw [after_error (onBuffer_error hb hm), after_error hm]

theorem onBuffer_oblivious {m : Java (List Byte) α} (hm : ObliviousArray m) :
    Oblivious Alike byteAt (onBuffer m) := by
  refine ⟨fun w v h => ?_, fun w i => ?_⟩
  · rcases hb : w.buffer with _ | b
    · have hw := onBuffer_none (m := m) hb
      have hv := onBuffer_none (m := m) (h.buffer_none hb)
      rw [outcome_error hw, outcome_error hv, after_error hw, after_error hv]
      exact ⟨rfl, h⟩
    · obtain ⟨b', hb', hlen⟩ := h.buffer_some hb
      obtain ⟨hout, hafter⟩ := hm.lockstep hlen
      rw [outcome_onBuffer hb, outcome_onBuffer hb', after_onBuffer hb, after_onBuffer hb']
      exact ⟨hout, h.initialSize_eq, h.isBigEndian_eq, h.pos_eq, congrArg some hafter⟩
  · rcases hb : w.buffer with _ | b
    · refine .inr fun v h => ?_
      rw [after_error (onBuffer_none (h.buffer_none hb))]
    · rcases hm.fixed_or_kept b i with ⟨c, hc⟩ | hkept
      · refine .inl ⟨c, fun v h => ?_⟩
        obtain ⟨b', hb', hlen⟩ := h.buffer_some hb
        rw [after_onBuffer hb']
        exact hc b' hlen
      · refine .inr fun v h => ?_
        obtain ⟨b', hb', hlen⟩ := h.buffer_some hb
        rw [after_onBuffer hb', byteAt, byteAt, bytes_some hb']
        exact hkept b' hlen

theorem onBuffer_blind {m : Java (List Byte) α} (hm : ObliviousArray m) : Blind (onBuffer m) := by
  refine .of_oblivious (onBuffer_oblivious hm) fun w => le_max_of_le_right ?_
  rcases hb : w.buffer with _ | b
  · rw [after_error (onBuffer_none hb)]
  · rw [after_onBuffer hb]

/-- A store at `pos`, whose bytes depend on the endianness only, and the step over them. -/
theorem Blind.of_stores (st : Bool → ℤ → Java (List Byte) α) (n : α → ℤ) (bs : Bool → List Byte)
    {m : Out Unit} (hst : ∀ e i, ObliviousArray (st e i))
    (hok : ∀ {e i b a b'}, st e i b = .ok a b' → n a = (bs e).length ∧ 0 ≤ i ∧
      i + (bs e).length ≤ b.length ∧ b' = splice b i.toNat (bs e))
    (hm : ∀ w, m w = (do let a ← onBuffer (st w.isBigEndian w.pos); advance (n a)) w) :
    Blind m := by
  have hobl : Oblivious Alike byteAt m := by
    have heq : m = (do
        let w ← get
        let a ← onBuffer (st w.isBigEndian w.pos)
        advance (n a)) := funext fun w => by rw [hm, bind_ok (get_run w)]
    rw [heq]
    refine .reads (fun w v h => by rw [h.isBigEndian_eq, h.pos_eq]) fun w => ?_
    exact (onBuffer_oblivious (hst _ _)).bind fun a => advance_oblivious _
  refine .of_passed hobl fun w v h i hle hi => ?_
  -- `pos` has moved over `i`, so the store is successful on both
  rcases hb : w.buffer with _ | b
  · rw [after_error ((hm w).trans (bind_error (onBuffer_none hb)))] at hi
    exact absurd hi (not_lt.2 hle)
  rcases hrun : st w.isBigEndian w.pos b with ⟨a, c⟩ | ⟨x, c⟩
  swap
  · rw [after_error ((hm w).trans (bind_error (onBuffer_error hb hrun)))] at hi
    exact absurd hi (not_lt.2 hle)
  obtain ⟨b', hb', hlen⟩ := h.buffer_some hb
  have hout := ((hst w.isBigEndian w.pos).lockstep hlen).1
  rw [outcome_ok hrun] at hout
  have hrun' := run_of_outcome_ok hout.symm
  obtain ⟨hn, h0, hin, rfl⟩ := hok hrun
  obtain ⟨-, -, hin', hsplice⟩ := hok hrun'
  rw [hsplice, h.isBigEndian_eq, h.pos_eq] at hrun'
  rw [h.isBigEndian_eq, h.pos_eq] at hin'
  have hw := (hm w).trans (bind_ok (onBuffer_ok hb hrun))
  have hv := (hm v).trans (bind_ok (onBuffer_ok hb' hrun'))
  rw [advance_run, hn] at hw
  rw [advance_run] at hv
  rw [after_ok hw] at hi ⊢
  rw [after_ok hv]
  simp only at hi
  obtain ⟨k, rfl⟩ := Nat.exists_eq_add_of_le (show w.pos.toNat ≤ i by omega)
  rw [byteAt, byteAt, bytes_some rfl, bytes_some rfl, ← h.isBigEndian_eq, ← h.pos_eq,
    getElem?_splice_of_mem (by omega) (by omega), getElem?_splice_of_mem (by omega) (by omega)]

/-- `buffer[pos++] = x` leaves `x` at the index below `pos`, if there is one. -/
theorem byteAt_put {i : ℕ} (hi : (i : ℤ) = w.pos) (x : Byte) :
    (after (put x) w).byteAt i = if i < w.bytes.length then some x else none := by
  rcases hb : w.buffer with _ | b
  · have hrun : put x w = .error (.throws .NullPointerException) { w with pos := w.pos + 1 } :=
      (put_run x w).trans (onBuffer_none hb)
    rw [after_error hrun, byteAt, bytes_none hb, bytes_none (w := { w with pos := w.pos + 1 }) hb]
    rfl
  · have hrun : after (put x) w =
        { w with pos := w.pos + 1, buffer := some (after (store w.pos x) b) } :=
      (after_congr (put_run x w)).trans (after_onBuffer (w := { w with pos := w.pos + 1 }) hb)
    rw [hrun, byteAt, bytes_some hb, bytes_some rfl, ← hi]
    split
    case isTrue hin =>
      rw [after_ok (store_ok (Int.natCast_nonneg i) (Int.ofNat_lt.2 hin) x), Int.toNat_natCast]
      have hlast : (splice b i [x])[i + 0]? = [x][0]? := getElem?_splice_of_mem hin.le (by simp)
      rwa [Nat.add_zero] at hlast
    case isFalse hout =>
      rw [after_error (store_error (by omega) x), List.getElem?_eq_none (by omega)]

theorem put_blind (x : Byte) : Blind (put x) := by
  have hobl : Oblivious Alike byteAt (put x) := by
    refine .reads (fun w v h => by rw [h.pos_eq]) fun w => ?_
    exact (advance_oblivious 1).bind fun _ => onBuffer_oblivious (store_oblivious _ x)
  refine .of_passed hobl fun w v h i hle hi => ?_
  have hpos : (after (put x) w).pos = w.pos + 1 := by
    rcases hb : w.buffer with _ | b
    · rw [after_congr (put_run x w),
        after_error (onBuffer_none (w := { w with pos := w.pos + 1 }) hb)]
    · rw [after_congr (put_run x w), after_onBuffer (w := { w with pos := w.pos + 1 }) hb]
  have hat : (i : ℤ) = w.pos := by omega
  rw [byteAt_put hat, byteAt_put (hat.trans h.pos_eq), h.length_eq]

/-! ## Replacing the buffer -/

/-- `B` makes a buffer out of the old one, index by index the same byte for all writers like `w` or
the one that stood there. -/
structure Carries (w : ByteArrayObjectDataOutput)
    (B : ByteArrayObjectDataOutput → Option (List Byte)) : Prop where
  /-- the lengths are the same -/
  capacity_eq : ∀ v, Alike w v → (B w).map List.length = (B v).map List.length
  /-- what becomes of an index -/
  fixed_or_kept : ∀ i : ℕ, (∃ c, ∀ v, Alike w v → ((B v).getD [])[i]? = c) ∨
    ∀ v, Alike w v → ((B v).getD [])[i]? = v.byteAt i

theorem carries_buffer (w : ByteArrayObjectDataOutput) : Carries w buffer :=
  ⟨fun _ h => h.capacity_eq, fun _ => .inr fun _ _ => rfl⟩

theorem carries_new (w : ByteArrayObjectDataOutput) (b : Option (List Byte)) :
    Carries w fun _ => b :=
  ⟨fun _ _ => rfl, fun i => .inl ⟨(b.getD [])[i]?, fun _ _ => rfl⟩⟩

/-- The bytes below `pos` are copied, and zeros stand behind them. -/
theorem carries_front (cap : ℤ) (hfits : w.pos ≤ w.bytes.length) : Carries w fun v =>
    some (v.bytes.take w.pos.toNat ++ List.replicate (cap - w.pos).toNat 0) := by
  have hlen : ∀ v, Alike w v → (v.bytes.take w.pos.toNat).length = w.pos.toNat := by
    intro v h
    have := h.length_eq
    rw [List.length_take]
    omega
  refine ⟨fun v h => ?_, fun i => ?_⟩
  · simp only [Option.map_some, List.length_append, hlen w (Alike.refl w), hlen v h]
  by_cases hi : i < w.pos.toNat
  · refine .inr fun v h => ?_
    rw [Option.getD_some, List.getElem?_append_left (by rwa [hlen v h]), List.getElem?_take,
      if_pos hi, byteAt]
  · refine .inl ⟨(List.replicate (cap - w.pos).toNat (0 : Byte))[i - w.pos.toNat]?, fun v h => ?_⟩
    rw [Option.getD_some, List.getElem?_append_right (by rw [hlen v h]; omega), hlen v h]

/-- On all writers like `w` the method ends with `r`, and sets `pos` to `q` and the buffer to what
`B` makes of it. -/
structure Sets (w : ByteArrayObjectDataOutput) (m : Out α) (r : Except Stop α) (q : ℤ)
    (B : ByteArrayObjectDataOutput → Option (List Byte)) : Prop where
  /-- the contents carry over -/
  carries : Carries w B
  /-- the outcome -/
  outcome_eq : ∀ v, Alike w v → outcome m v = r
  /-- the fields -/
  after_eq : ∀ v, Alike w v → ∃ peak, after m v = { v with pos := q, buffer := B v, peak }

section Sets

variable {m : Out α}

theorem Sets.of_ok {a : α} {q : ℤ} {B : ByteArrayObjectDataOutput → Option (List Byte)}
    (hB : Carries w B)
    (h : ∀ v, Alike w v → ∃ peak, m v = .ok a { v with pos := q, buffer := B v, peak }) :
    Sets w m (.ok a) q B where
  carries := hB
  outcome_eq v hv := by
    obtain ⟨peak, hrun⟩ := h v hv
    exact outcome_ok hrun
  after_eq v hv := by
    obtain ⟨peak, hrun⟩ := h v hv
    exact ⟨peak, after_ok hrun⟩

theorem Sets.of_error {x : Stop} {q : ℤ}
    (h : ∀ v, Alike w v → ∃ peak, m v = .error x { v with pos := q, peak }) :
    Sets w m (.error x) q buffer where
  carries := carries_buffer w
  outcome_eq v hv := by
    obtain ⟨peak, hrun⟩ := h v hv
    exact outcome_error hrun
  after_eq v hv := by
    obtain ⟨peak, hrun⟩ := h v hv
    exact ⟨peak, after_error hrun⟩

theorem oblivious_of_sets (h : ∀ w, ∃ r q B, Sets w m r q B) : Oblivious Alike byteAt m := by
  refine ⟨fun w v hv => ?_, fun w i => ?_⟩
  · obtain ⟨r, q, B, hsets⟩ := h w
    obtain ⟨peak, hw⟩ := hsets.after_eq w (Alike.refl w)
    obtain ⟨peak', hv'⟩ := hsets.after_eq v hv
    rw [hsets.outcome_eq w (Alike.refl w), hsets.outcome_eq v hv, hw, hv']
    exact ⟨rfl, hv.initialSize_eq, hv.isBigEndian_eq, rfl, hsets.carries.capacity_eq v hv⟩
  · obtain ⟨r, q, B, hsets⟩ := h w
    have hbytes : ∀ v, Alike w v → (after m v).byteAt i = ((B v).getD [])[i]? := by
      intro v hv
      obtain ⟨peak, hrun⟩ := hsets.after_eq v hv
      rw [hrun]
      rfl
    rcases hsets.carries.fixed_or_kept i with ⟨c, hc⟩ | hkept
    · exact .inl ⟨c, fun v hv => by rw [hbytes v hv, hc v hv]⟩
    · exact .inr fun v hv => by rw [hbytes v hv, hkept v hv]

theorem Blind.of_sets (h : ∀ w, ∃ r q B, Sets w m r q B ∧ q ≤ max 0 w.pos) : Blind m := by
  refine .of_oblivious (oblivious_of_sets fun w => ?_) fun w => ?_
  · obtain ⟨r, q, B, hsets, -⟩ := h w
    exact ⟨r, q, B, hsets⟩
  · obtain ⟨r, q, B, hsets, hq⟩ := h w
    obtain ⟨peak, hw⟩ := hsets.after_eq w (Alike.refl w)
    rw [hw]
    exact hq

end Sets

/-- What `ensureAvailable` does depends on the lengths and on `pos`: nothing, an exception, a blank
buffer, or one with the bytes below `pos` copied. -/
theorem ensureAvailable_sets (len : ℤ) (w : ByteArrayObjectDataOutput) :
    ∃ r B, Sets w (ensureAvailable len) r w.pos B := by
  rcases le_or_gt len w.available with hn | hn
  · refine ⟨_, _, .of_ok (a := ()) (carries_buffer w) fun v h => ⟨v.peak, ?_⟩⟩
    rw [h.available_eq] at hn
    rw [ensureAvailable_room hn, h.pos_eq]
  rcases hb : w.buffer with _ | b
  · have hrun : ∀ v, Alike w v → ∃ peak, ensureAvailable len v =
        if 0 ≤ freshCapacity w.initialSize len then
          .ok () { v with
            pos := w.pos
            buffer := some (List.replicate (freshCapacity w.initialSize len).toNat 0)
            peak }
        else .error (.throws .NegativeArraySizeException) { v with pos := w.pos, peak } := by
      intro v h
      rw [h.available_eq] at hn
      obtain ⟨peak, -, -, hrun⟩ := ensureAvailable_none (h.buffer_none hb) hn
      exact ⟨peak, by rw [hrun, h.pos_eq, h.initialSize_eq]⟩
    by_cases h0 : 0 ≤ freshCapacity w.initialSize len
    · simp only [if_pos h0] at hrun
      exact ⟨_, _, .of_ok (carries_new w _) hrun⟩
    · simp only [if_neg h0] at hrun
      exact ⟨_, _, .of_error hrun⟩
  · have hrun : ∀ v, Alike w v → ∃ peak, ensureAvailable len v =
        if 0 ≤ grownCapacity b len then
          if 0 ≤ w.pos ∧ w.pos ≤ b.length ∧ w.pos ≤ grownCapacity b len then
            .ok () { v with
              pos := w.pos
              buffer := some (v.bytes.take w.pos.toNat ++
                List.replicate (grownCapacity b len - w.pos).toNat 0)
              peak }
          else .error (.throws .ArrayIndexOutOfBoundsException) { v with pos := w.pos, peak }
        else .error (.throws .NegativeArraySizeException) { v with pos := w.pos, peak } := by
      intro v h
      rw [h.available_eq] at hn
      obtain ⟨b', hb', hlen⟩ := h.buffer_some hb
      obtain ⟨peak, -, -, hrun⟩ := ensureAvailable_some hb' hn
      have hcap : grownCapacity b' len = grownCapacity b len := by
        rw [grownCapacity, grownCapacity, hlen]
      rw [hcap, ← hlen, ← h.pos_eq] at hrun
      exact ⟨peak, by rw [hrun, bytes_some hb', h.pos_eq]⟩
    by_cases h0 : 0 ≤ grownCapacity b len
    swap
    · simp only [if_neg h0] at hrun
      exact ⟨_, _, .of_error hrun⟩
    simp only [if_pos h0] at hrun
    by_cases hcopy : 0 ≤ w.pos ∧ w.pos ≤ b.length ∧ w.pos ≤ grownCapacity b len
    · simp only [if_pos hcopy] at hrun
      refine ⟨_, _, .of_ok (carries_front (grownCapacity b len) ?_) hrun⟩
      rw [bytes_some hb]
      exact hcopy.2.1
    · simp only [if_neg hcopy] at hrun
      exact ⟨_, _, .of_error hrun⟩

theorem ensureAvailable_blind (len : ℤ) : Blind (ensureAvailable len) := by
  refine .of_sets fun w => ?_
  obtain ⟨r, B, hsets⟩ := ensureAvailable_sets len w
  exact ⟨r, w.pos, B, hsets, le_max_right _ _⟩

/-- `clear` keeps the buffer, or allocates a blank one. -/
theorem clear_blind : Blind clear := by
  refine .of_sets fun w => ?_
  rcases hb : w.buffer with _ | b
  · refine ⟨_, 0, _, .of_ok (a := ()) (carries_buffer w) fun v h => ⟨v.peak, ?_⟩, le_max_left _ _⟩
    exact clear_none (h.buffer_none hb)
  have hrun : ∀ v, Alike w v → ∃ peak, clear v =
      if b.length > jint (w.initialSize * 8) then
        if 0 ≤ jint (w.initialSize * 8) then
          .ok () { v with
            pos := 0, buffer := some (List.replicate (jint (w.initialSize * 8)).toNat 0), peak }
        else .error (.throws .NegativeArraySizeException) { v with pos := 0, peak }
      else .ok () { v with pos := 0, peak } := by
    intro v h
    obtain ⟨b', hb', hlen⟩ := h.buffer_some hb
    exact ⟨max v.peak (v.initialSize * 8), by rw [clear_some hb', hlen, h.initialSize_eq]⟩
  by_cases hbig : b.length > jint (w.initialSize * 8)
  swap
  · simp only [if_neg hbig] at hrun
    exact ⟨_, 0, _, .of_ok (carries_buffer w) hrun, le_max_left _ _⟩
  simp only [if_pos hbig] at hrun
  by_cases h0 : 0 ≤ jint (w.initialSize * 8)
  · simp only [if_pos h0] at hrun
    exact ⟨_, 0, _, .of_ok (carries_new w _) hrun, le_max_left _ _⟩
  · simp only [if_neg h0] at hrun
    exact ⟨_, 0, _, .of_error hrun, le_max_left _ _⟩

theorem close_blind : Blind close :=
  .of_sets fun w =>
    ⟨_, 0, _, .of_ok (a := ()) (carries_new w none) fun v _ => ⟨v.peak, rfl⟩, le_max_left _ _⟩

/-- `position` moves `pos` anywhere inside the buffer. -/
theorem position_oblivious (newPos : ℤ) : Oblivious Alike byteAt (position newPos) := by
  refine oblivious_of_sets fun w => ?_
  rcases hb : w.buffer with _ | b
  · refine ⟨_, w.pos, _, .of_error (x := .throws .NullPointerException) fun v h => ⟨v.peak, ?_⟩⟩
    rw [position_none (h.buffer_none hb), h.pos_eq]
  by_cases hbad : newPos > b.length ∨ newPos < 0
  · refine ⟨_, w.pos, _, .of_error (x := .throws (.IllegalArgumentException none)) fun v h =>
      ⟨v.peak, ?_⟩⟩
    obtain ⟨b', hb', hlen⟩ := h.buffer_some hb
    rw [position_some hb', ← hlen, if_pos hbad, h.pos_eq]
  · refine ⟨_, newPos, _, .of_ok (a := ()) (carries_buffer w) fun v h => ⟨v.peak, ?_⟩⟩
    obtain ⟨b', hb', hlen⟩ := h.buffer_some hb
    rw [position_some hb', ← hlen, if_neg hbad]

/-! ## The methods -/

theorem write_blind (b : BitVec 32) : Blind (write b) :=
  (ensureAvailable_blind 1).bind fun _ => put_blind _

theorem copy_oblivious (l : List Byte) (off i len : ℤ) :
    ObliviousArray (do
      let buffer ← get
      let buffer ← eval (arraycopy l off buffer i len)
      set buffer : Java (List Byte) Unit) := by
  refine .of_splice fun n => ?_
  by_cases hin : 0 ≤ off ∧ 0 ≤ i ∧ 0 ≤ len ∧ off + len ≤ l.length ∧ i + len ≤ n
  · obtain ⟨hoff, h0, hlen, hl, hn⟩ := hin
    have hbytes : (((l.drop off.toNat).take len.toNat).length : ℤ) = len := by
      rw [List.length_take, List.length_drop]
      omega
    exact .inl ⟨(), i.toNat, _, by omega, fun a ha =>
      (stores_range hoff hlen hl).inside h0 (by omega)⟩
  · refine .inr ⟨_, fun a ha => copy_error (if_neg ?_)⟩
    rwa [ha]

theorem writeRange_blind (b : Option (List Byte)) (off len : ℤ) : Blind (writeRange b off len) := by
  unfold writeRange
  split
  · exact .raise _
  rcases b with _ | l
  · exact .raise _
  dsimp only
  split
  · exact .raise _
  split
  · exact .pure _
  refine (ensureAvailable_blind len).bind fun _ => Blind.of_stores _ (fun _ => len)
    (fun _ => (l.drop off.toNat).take len.toNat) (fun _ i => copy_oblivious l off i len)
    (fun hrun => ?_) fun w => rfl
  obtain ⟨hoff, h0, hlen, hl, hin, hsplice⟩ := copy_eq_ok hrun
  have hbytes : (((l.drop off.toNat).take len.toNat).length : ℤ) = len := by
    rw [List.length_take, List.length_drop]
    omega
  exact ⟨hbytes.symm, h0, by omega, hsplice⟩

theorem writeAll_blind (b : Option (List Byte)) : Blind (writeAll b) := by
  cases b with
  | none => exact .raise _
  | some l => exact writeRange_blind (some l) 0 l.length

theorem writeZeroBytes_blind (count : ℤ) : Blind (writeZeroBytes count) :=
  .forEach (fun _ => write_blind 0) _

theorem writeBytes_blind (s : Option (List CodeUnit)) : Blind (writeBytes s) := by
  cases s with
  | none => exact .raise _
  | some s => exact (ensureAvailable_blind _).bind fun _ => .forEach (fun c => put_blind _) s

/-- The store of a value of fixed width at `pos`, and the step over it. -/
theorem fixed_blind {k size : ℕ} (f : FixedWidth k size)
    (hf : ∀ i v e, ObliviousArray (f.write i v e)) {n : ℤ} (hn : n = size) (v : BitVec k)
    (order : Bool → Bool) {m : Out Unit}
    (hm : ∀ w, m w = (do onBuffer (f.write w.pos v (order w.isBigEndian)); advance n) w) :
    Blind m := by
  refine Blind.of_stores (fun e i => f.write i v (order e)) (fun _ => n)
    (fun e => f.layout (order e) v) (fun e i => hf i v (order e)) (fun {e i b a b'} hrun => ?_) hm
  obtain ⟨-, h0, hin, hsplice⟩ := (stores_fixed f v (order e)).of_ok hrun
  exact ⟨by rw [hn, f.length_layout], h0, hin, hsplice⟩

theorem writeFixed_blind {k size : ℕ} {f : FixedWidth k size}
    (hf : ∀ i v e, ObliviousArray (f.write i v e)) {n : ℤ} (hn : n = size) (v : BitVec k)
    (e : Bool) : Blind (writeFixed f n v e) :=
  (ensureAvailable_blind n).bind fun _ => fixed_blind f hf hn v (fun _ => e) fun _ => rfl

section Bits

variable (hbits : bits.Oblivious)

include hbits

theorem writeInt_blind (v : BitVec 32) : Blind (writeInt bits v) :=
  .order fun e => writeFixed_blind hbits.int rfl v e

theorem writeLong_blind (v : BitVec 64) : Blind (writeLong bits v) :=
  .order fun e => writeFixed_blind hbits.long rfl v e

theorem writeShort_blind (v : BitVec 32) : Blind (writeShort bits v) :=
  .order fun e => writeFixed_blind hbits.short rfl (v.setWidth 16) e

theorem writeChar_blind (v : BitVec 32) : Blind (writeChar bits v) :=
  .order fun e => writeFixed_blind hbits.char rfl (v.setWidth 16) e

theorem writeChars_blind (s : Option (List CodeUnit)) : Blind (writeChars bits s) := by
  cases s with
  | none => exact .raise _
  | some s =>
    refine (capacity_blind _).bind fun room => (ensureAvailable_blind room).bind fun _ =>
      .forEach (fun c => ?_) s
    exact fixed_blind bits.char hbits.char rfl ((c.setWidth 32).setWidth 16) id fun _ => rfl

/-- A length, and what follows if it is positive. -/
theorem withLength_blind (len : ℤ) {m : Out Unit} (hm : Blind m) :
    Blind (do
      writeInt bits (BitVec.ofInt 32 len)
      if len > 0 then m) := by
  refine (writeInt_blind hbits _).bind fun _ => ?_
  split
  · exact hm
  · exact .pure _

theorem writeUTF_blind (str : Option (List CodeUnit)) : Blind (writeUTF bits str) := by
  refine withLength_blind hbits _ ((capacity_blind _).bind fun room =>
    (ensureAvailable_blind room).bind fun _ => .forEach (fun c => ?_) _)
  refine Blind.of_stores (fun _ i => bits.writeUtf8Char i c) id
    (fun _ => Utf8.encodeUnit c) (fun _ i => hbits.utf8Char i c) (fun hrun => ?_) fun _ => rfl
  exact (stores_utf8Char bits c).of_ok hrun

theorem writeArray_blind {f : α → Out Unit} (hf : ∀ a, Blind (f a)) (xs : Option (List α)) :
    Blind (writeArray bits f xs) :=
  withLength_blind hbits _ (.forEach hf _)

theorem writeByteArray_blind (bytes : Option (List Byte)) : Blind (writeByteArray bits bytes) :=
  withLength_blind hbits _ (writeAll_blind bytes)

/-- **Sequential writes do not look.** -/
theorem Write.blind (c : Write) : Blind (c.run bits) := by
  cases c with
  | write b => exact write_blind b
  | writeRange b off len => exact writeRange_blind b off.toInt len.toInt
  | writeAll b => exact writeAll_blind b
  | writeBoolean v => exact write_blind _
  | writeByte v => exact write_blind v
  | writeZeroBytes count => exact writeZeroBytes_blind count.toInt
  | writeBytes s => exact writeBytes_blind s
  | writeChar v => exact writeChar_blind hbits v
  | writeChars s => exact writeChars_blind hbits s
  | writeShort v o =>
    cases o with
    | none => exact writeShort_blind hbits v
    | some o => exact writeFixed_blind hbits.short rfl _ _
  | writeInt v o =>
    cases o with
    | none => exact writeInt_blind hbits v
    | some o => exact writeFixed_blind hbits.int rfl _ _
  | writeLong v o =>
    cases o with
    | none => exact writeLong_blind hbits v
    | some o => exact writeFixed_blind hbits.long rfl _ _
  | writeFloat v o =>
    cases o with
    | none => exact writeInt_blind hbits _
    | some o => exact writeFixed_blind hbits.int rfl _ _
  | writeDouble v o =>
    cases o with
    | none => exact writeLong_blind hbits _
    | some o => exact writeFixed_blind hbits.long rfl _ _
  | writeUTF str => exact writeUTF_blind hbits str
  | writeByteArray bytes => exact writeByteArray_blind hbits bytes
  | writeBooleanArray xs => exact writeArray_blind hbits (fun v => write_blind _) xs
  | writeCharArray xs => exact writeArray_blind hbits (fun c => writeChar_blind hbits _) xs
  | writeShortArray xs => exact writeArray_blind hbits (fun v => writeShort_blind hbits _) xs
  | writeIntArray xs => exact writeArray_blind hbits (writeInt_blind hbits) xs
  | writeLongArray xs => exact writeArray_blind hbits (writeLong_blind hbits) xs
  | writeFloatArray xs => exact writeArray_blind hbits (fun v => writeInt_blind hbits _) xs
  | writeDoubleArray xs => exact writeArray_blind hbits (fun v => writeLong_blind hbits _) xs
  | writeUTFArray xs => exact writeArray_blind hbits (writeUTF_blind hbits) xs
  | writeData payload => exact writeByteArray_blind hbits payload

/-- Positional writes do not look. -/
theorem WriteAt.blind (c : WriteAt) (position : ℤ) : Blind (c.run bits position) := by
  cases c with
  | write b => exact onBuffer_blind (store_oblivious _ _)
  | writeBoolean v => exact onBuffer_blind (store_oblivious _ _)
  | writeByte v => exact onBuffer_blind (store_oblivious _ _)
  | writeChar v => exact .order fun e => onBuffer_blind (hbits.char _ _ e)
  | writeShort v o =>
    cases o with
    | none => exact .order fun e => onBuffer_blind (hbits.short _ _ e)
    | some o => exact onBuffer_blind (hbits.short _ _ _)
  | writeInt v o =>
    cases o with
    | none => exact .order fun e => onBuffer_blind (hbits.int _ _ e)
    | some o => exact onBuffer_blind (hbits.int _ _ _)
  | writeLong v o =>
    cases o with
    | none => exact .order fun e => onBuffer_blind (hbits.long _ _ e)
    | some o => exact onBuffer_blind (hbits.long _ _ _)
  | writeFloat v o =>
    cases o with
    | none => exact .order fun e => onBuffer_blind (hbits.int _ _ e)
    | some o => exact onBuffer_blind (hbits.int _ _ _)
  | writeDouble v o =>
    cases o with
    | none => exact .order fun e => onBuffer_blind (hbits.long _ _ e)
    | some o => exact onBuffer_blind (hbits.long _ _ _)

end Bits

/-- The operation is a seek. -/
def Op.IsSeek : Op → Prop
  | .position _ => True
  | _ => False

section Bits

variable (hbits : bits.Oblivious)

include hbits

theorem Op.blind {o : Op} (ho : ¬ o.IsSeek) : Blind (o.run bits) := by
  cases o with
  | call c =>
    cases c with
    | write c => exact c.blind hbits
    | clear => exact clear_blind
    | close => exact close_blind
  | writeAt c i => exact c.blind hbits i.toInt
  | position newPos => exact absurd trivial ho

/-- **No operation looks at the contents.** -/
theorem Op.oblivious (o : Op) : Oblivious Alike byteAt (o.run bits) := by
  cases o with
  | position newPos => exact position_oblivious newPos.toInt
  | call c => exact (Op.blind hbits (o := .call c) id).oblivious
  | writeAt c i => exact (Op.blind hbits (o := .writeAt c i) id).oblivious

end Bits

/-! ## Runs -/

section Runs

variable (bits)

/-- The operations one after the other, each with its outcome; an exception is caught by the caller,
who goes on. -/
def Op.runAll : List Op → Out (List (Except Stop Unit))
  | [] => pure []
  | o :: os => do
    let x ← attempt (o.run bits)
    let xs ← Op.runAll os
    return x :: xs

/-- The writer after some operations on a new writer, the last of which is `clear`. -/
def Cleared (size : ℤ) (order : ByteOrder) (w : ByteArrayObjectDataOutput) : Prop :=
  ∃ before, w = after (Op.runAll bits (before ++ [.call .clear])) (new size order)

/-- What `toByteArray` returns, nothing where it throws. -/
def shown (w : ByteArrayObjectDataOutput) : List Byte :=
  match outcome toByteArray w with
  | .ok bs => bs
  | .error _ => []

/-- The writer with its buffer full of `x`. -/
def filledWith (w : ByteArrayObjectDataOutput) (x : Byte) : ByteArrayObjectDataOutput :=
  { w with buffer := w.buffer.map fun b => List.replicate b.length x }

/-- The operations show what stood at this index: over a buffer of zeros `toByteArray` returns
another byte there than over a buffer of ones. -/
def Exposed (ops : List Op) (w : ByteArrayObjectDataOutput) (i : ℕ) : Prop :=
  (after (Op.runAll bits ops) (w.filledWith 0)).shown[i]? ≠
    (after (Op.runAll bits ops) (w.filledWith 0xFF)).shown[i]?

instance (ops : List Op) (w : ByteArrayObjectDataOutput) (i : ℕ) :
    Decidable (Exposed bits ops w i) :=
  inferInstanceAs (Decidable (_ ≠ _))

/-- No seek leads beyond `top`, or beyond the largest `pos` since. -/
def SeeksBack : ℤ → List Op → ByteArrayObjectDataOutput → Prop
  | _, [], _ => True
  | top, o :: os, w => (o.IsSeek → (after (o.run bits) w).pos ≤ top) ∧
    SeeksBack (max top (after (o.run bits) w).pos) os (after (o.run bits) w)

end Runs

theorem after_runAll_cons (o : Op) (os : List Op) (w : ByteArrayObjectDataOutput) :
    after (Op.runAll bits (o :: os)) w =
      after (Op.runAll bits os) (after (o.run bits) w) := by
  rw [Op.runAll, after_bind]
  change after (Op.runAll bits os >>= _) (after (o.run bits) w) = _
  rw [after_bind]
  rcases hrun : Op.runAll bits os (after (o.run bits) w) with ⟨xs, w'⟩ | ⟨x, w'⟩
  · rw [after_ok hrun]
    rfl
  · rw [after_error hrun]

theorem after_runAll_append (os os' : List Op) : ∀ w : ByteArrayObjectDataOutput,
    after (Op.runAll bits (os ++ os')) w =
      after (Op.runAll bits os') (after (Op.runAll bits os) w) := by
  induction os with
  | nil => exact fun _ => rfl
  | cons o os ih =>
    intro w
    rw [List.cons_append, after_runAll_cons, after_runAll_cons, ih]

theorem runAll_keeps (os : List Op) : ∀ {w : ByteArrayObjectDataOutput}, Sane w →
    Keeps w (after (Op.runAll bits os) w) := by
  induction os with
  | nil => exact fun h => Keeps.refl h
  | cons o os ih =>
    intro w h
    have hk : Keeps w (after (o.run bits) w) := o.keeps h
    rw [after_runAll_cons]
    exact hk.trans (ih hk.sane)

theorem runAll_oblivious (hbits : bits.Oblivious) (ops : List Op) :
    Oblivious Alike byteAt (Op.runAll bits ops) := by
  induction ops with
  | nil => exact .pure _
  | cons o os ih =>
    exact (o.oblivious hbits).attempt.bind fun x => ih.bind fun xs => .pure _

/-! ## What is shown -/

theorem Alike.sane (h : Alike w v) (hw : Sane w) : Sane v where
  initialSize_nonneg := h.initialSize_eq ▸ hw.initialSize_nonneg
  initialSize_le := h.initialSize_eq ▸ hw.initialSize_le
  pos_nonneg := h.pos_eq ▸ hw.pos_nonneg
  pos_le := by
    rw [← h.pos_eq, ← h.length_eq]
    exact hw.pos_le
  length_le := by
    rw [← h.length_eq]
    exact hw.length_le
  pos_null hb := by
    rw [← h.pos_eq]
    exact hw.pos_null (h.symm.buffer_none hb)

theorem alike_filledWith (w : ByteArrayObjectDataOutput) (x : Byte) : Alike w (w.filledWith x) := by
  refine ⟨rfl, rfl, rfl, ?_⟩
  rcases hb : w.buffer with _ | b
  · simp [filledWith, hb]
  · simp [filledWith, hb]

theorem byteAt_filledWith (w : ByteArrayObjectDataOutput) (x : Byte) (i : ℕ) :
    (w.filledWith x).byteAt i = if i < w.bytes.length then some x else none := by
  rcases hb : w.buffer with _ | b
  · simp [byteAt, filledWith, bytes, hb]
  · simp [byteAt, filledWith, bytes, hb, List.getElem?_replicate]

/-- Behind the buffer `toByteArray` throws. -/
theorem toByteArray_error (h : Sane w) (hout : (w.bytes.length : ℤ) < w.pos) :
    toByteArray w = .error (.throws .ArrayIndexOutOfBoundsException) w := by
  have h0 := h.pos_nonneg
  rcases hb : w.buffer with _ | b
  · rw [bytes_none hb, h.pos_null hb] at hout
    simp at hout
  obtain ⟨initialSize, buffer, pos, e, peak⟩ := w
  cases hb
  rw [bytes_some rfl] at hout
  simp only at hout h0
  have hcopy : arraycopy b 0 (List.replicate pos.toNat 0) 0 pos =
      .error .ArrayIndexOutOfBoundsException :=
    (arraycopy_grown h0).trans (if_neg (by omega))
  rw [toByteArray, bind_ok (get_run _)]
  change (if pos = 0 then _ else _ : Out (List Byte)) _ = _
  rw [if_neg (by omega), bind_ok (newArray_ok h0 _), hcopy]
  rfl

theorem outcome_toByteArray (h : Sane w) : outcome toByteArray w =
    if w.pos ≤ w.bytes.length then .ok w.written
    else .error (.throws .ArrayIndexOutOfBoundsException) := by
  split
  case isTrue hin => exact outcome_ok (toByteArray_run h hin)
  case isFalse hout => exact outcome_error (toByteArray_error h (not_le.1 hout))

/-- What is shown is the bytes below `pos`. -/
theorem getElem?_shown (h : Sane w) (i : ℕ) : w.shown[i]? =
    if w.pos ≤ w.bytes.length ∧ (i : ℤ) < w.pos then w.byteAt i else none := by
  rw [shown, outcome_toByteArray h]
  by_cases hin : w.pos ≤ w.bytes.length
  · rw [if_pos hin]
    simp only [hin, true_and, written, List.getElem?_take, byteAt]
    split
    · rw [if_pos (by omega)]
    · rw [if_neg (by omega)]
  · rw [if_neg hin, if_neg fun hc => hin hc.1]
    rfl

/-- Writers that are alike return the same exactly if they show the same. -/
theorem outcome_toByteArray_iff (hw : Sane w) (h : Alike w v) :
    outcome toByteArray w = outcome toByteArray v ↔ ∀ i : ℕ, w.shown[i]? = v.shown[i]? := by
  rw [← List.ext_getElem?_iff, shown, shown, outcome_toByteArray hw,
    outcome_toByteArray (h.sane hw), h.pos_eq, h.length_eq]
  split
  · exact ⟨fun heq => Except.ok.inj heq, congrArg Except.ok⟩
  · exact iff_of_true rfl rfl

/-- **An index shows what stood there, or nothing of the old contents.** -/
theorem exposed_or_hidden (hbits : bits.Oblivious) (ops : List Op) (hw : Sane w) (i : ℕ) :
    (Exposed bits ops w i ∧
      ∀ v, Alike w v → (after (Op.runAll bits ops) v).shown[i]? = v.byteAt i) ∨
    (¬ Exposed bits ops w i ∧
      ∃ c, ∀ v, Alike w v → (after (Op.runAll bits ops) v).shown[i]? = c) := by
  have hrun := runAll_oblivious hbits ops
  have hzeros := alike_filledWith w 0
  have hones := alike_filledWith w 0xFF
  have hhidden : (∃ c, ∀ v, Alike w v → (after (Op.runAll bits ops) v).shown[i]? = c) →
      ¬ Exposed bits ops w i := by
    rintro ⟨c, hc⟩ hexposed
    exact hexposed ((hc _ hzeros).trans (hc _ hones).symm)
  have hshown : ∀ v, Alike w v → (after (Op.runAll bits ops) v).shown[i]? =
      if (after (Op.runAll bits ops) w).pos ≤ (after (Op.runAll bits ops) w).bytes.length ∧
        (i : ℤ) < (after (Op.runAll bits ops) w).pos
      then (after (Op.runAll bits ops) v).byteAt i else none := by
    intro v h
    have halike := (hrun.lockstep h).2
    rw [getElem?_shown (runAll_keeps ops (h.sane hw)).sane, halike.pos_eq, halike.length_eq]
  split at hshown
  case isFalse => exact .inr ⟨hhidden ⟨none, hshown⟩, none, hshown⟩
  case isTrue hin =>
    rcases hrun.fixed_or_kept w i with ⟨c, hc⟩ | hkept
    · have hfixed : ∀ v, Alike w v → (after (Op.runAll bits ops) v).shown[i]? = c :=
        fun v h => (hshown v h).trans (hc v h)
      exact .inr ⟨hhidden ⟨c, hfixed⟩, c, hfixed⟩
    have hold : ∀ v, Alike w v → (after (Op.runAll bits ops) v).shown[i]? = v.byteAt i :=
      fun v h => (hshown v h).trans (hkept v h)
    by_cases hi : i < w.bytes.length
    · refine .inl ⟨?_, hold⟩
      rw [Exposed, hold _ hzeros, hold _ hones, byteAt_filledWith, byteAt_filledWith, if_pos hi,
        if_pos hi]
      decide
    -- the index lies behind every buffer
    · have hnone : ∀ v, Alike w v → (after (Op.runAll bits ops) v).shown[i]? = none := by
        intro v h
        rw [hold v h, byteAt, List.getElem?_eq_none (by rw [← h.length_eq]; omega)]
      exact .inr ⟨hhidden ⟨none, hnone⟩, none, hnone⟩

/-! ## Seeks over what has been written -/

theorem SeeksBack.alike (hbits : bits.Oblivious) (ops : List Op) :
    ∀ {top : ℤ} {w v : ByteArrayObjectDataOutput}, SeeksBack bits top ops w → Alike w v →
      SeeksBack bits top ops v := by
  induction ops with
  | nil => exact fun _ _ => trivial
  | cons o os ih =>
    intro top w v hseeks h
    have hnext := ((o.oblivious hbits).lockstep h).2
    obtain ⟨hseek, hrest⟩ := hseeks
    rw [hnext.pos_eq] at hseek hrest
    exact ⟨hseek, ih hrest hnext⟩

/-- What two runs hold below the largest `pos` so far is the same. -/
theorem SeeksBack.agree (hbits : bits.Oblivious) (ops : List Op) :
    ∀ {top : ℤ} {w v : ByteArrayObjectDataOutput}, SeeksBack bits top ops w → Alike w v →
      w.pos ≤ top → (∀ i : ℕ, (i : ℤ) < top → w.byteAt i = v.byteAt i) →
        ∀ i : ℕ, (i : ℤ) < (after (Op.runAll bits ops) w).pos →
          (after (Op.runAll bits ops) w).byteAt i = (after (Op.runAll bits ops) v).byteAt i := by
  induction ops with
  | nil => exact fun _ _ hle hbelow i hi => hbelow i (lt_of_lt_of_le hi hle)
  | cons o os ih =>
    intro top w v hseeks h hle hbelow i hi
    obtain ⟨hseek, hrest⟩ := hseeks
    have hobl := o.oblivious hbits
    rw [after_runAll_cons] at hi
    rw [after_runAll_cons, after_runAll_cons]
    refine ih hrest (hobl.lockstep h).2 (le_max_right _ _) (fun j hj => ?_) i hi
    by_cases hjtop : (j : ℤ) < top
    · exact hobl.agree (Alike.refl w) h (hbelow j hjtop)
    -- only a write leads beyond `top`, over bytes that it stores
    · have hjpos : (j : ℤ) < (after (o.run bits) w).pos := by omega
      have ho : ¬ o.IsSeek := fun ho => by
        have := hseek ho
        omega
      exact ((Op.blind hbits ho).below ⟨h, fun k hk => hbelow k (by omega)⟩).2.2 j hjpos

/-- A caller who moves `pos` over what has been written since is shown nothing else. -/
theorem SeeksBack.not_exposed (hbits : bits.Oblivious) {ops : List Op} (hw : Sane w)
    (hpos : w.pos = 0) (hseeks : SeeksBack bits 0 ops w) (i : ℕ) : ¬ Exposed bits ops w i := by
  have hzeros := alike_filledWith w 0
  have hones := alike_filledWith w 0xFF
  have h := hzeros.symm.trans hones
  have hagree := (hseeks.alike hbits ops hzeros).agree hbits ops h hpos.le fun j hj => by omega
  have hafter := ((runAll_oblivious hbits ops).lockstep h).2
  refine not_not_intro ?_
  rw [getElem?_shown (runAll_keeps ops (hzeros.sane hw)).sane,
    getElem?_shown (runAll_keeps ops (hones.sane hw)).sane, ← hafter.pos_eq, ← hafter.length_eq]
  split
  case isTrue hin => exact hagree i hin.2
  case isFalse => rfl

/-! ## Two cleared writers -/

theorem Cleared.sane {size : ℤ} {order : ByteOrder} (h0 : 0 ≤ size) (h : size ≤ MAX_VALUE)
    (hw : Cleared bits size order w) : Keeps (new size order) w ∧ w.pos = 0 := by
  obtain ⟨before, rfl⟩ := hw
  have hkeeps : Keeps (new size order) (after (Op.runAll bits before) (new size order)) :=
    runAll_keeps before (new_sane h0 h order)
  obtain ⟨hclear, hpos, -⟩ := clear_run hkeeps.sane
  rw [after_runAll_append]
  exact ⟨hkeeps.trans hclear, hpos⟩

/-- **What a cleared writer reveals.** Two writers that are made alike, whatever has been done with
them before they are cleared, answer every sequence of operations alike if their buffers have the
same length. What `toByteArray` returns is the same for both exactly if the old bytes are the same
at every exposed index, where it returns them; no index is exposed if no seek leads beyond what has
been written since. -/
theorem clear_reveals_iff (bits : Bits) (hbits : bits.Oblivious) {size : ℤ} (h0 : 0 ≤ size)
    (h : size ≤ MAX_VALUE) (order : ByteOrder) {w w' : ByteArrayObjectDataOutput}
    (hw : Cleared bits size order w) (hw' : Cleared bits size order w')
    (hcap : w.buffer.map List.length = w'.buffer.map List.length) (ops : List Op) :
    outcome (Op.runAll bits ops) w = outcome (Op.runAll bits ops) w' ∧
    (outcome toByteArray (after (Op.runAll bits ops) w) =
        outcome toByteArray (after (Op.runAll bits ops) w') ↔
      ∀ i, Exposed bits ops w i → w.bytes[i]? = w'.bytes[i]?) ∧
    (∀ i, Exposed bits ops w i →
      (after (Op.runAll bits ops) w).shown[i]? = w.bytes[i]?) ∧
    (SeeksBack bits 0 ops w → ∀ i, ¬ Exposed bits ops w i) := by
  obtain ⟨hkeeps, hpos⟩ := hw.sane h0 h
  obtain ⟨hkeeps', hpos'⟩ := hw'.sane h0 h
  have halike : Alike w w' :=
    ⟨hkeeps.initialSize_eq.trans hkeeps'.initialSize_eq.symm,
      hkeeps.isBigEndian_eq.trans hkeeps'.isBigEndian_eq.symm, hpos.trans hpos'.symm, hcap⟩
  have hcases := exposed_or_hidden hbits ops hkeeps.sane
  obtain ⟨hout, hafter⟩ := (runAll_oblivious hbits ops).lockstep halike
  refine ⟨hout, ?_, fun i hi => ?_, fun hseeks => hseeks.not_exposed hbits hkeeps.sane hpos⟩
  · rw [outcome_toByteArray_iff (runAll_keeps ops hkeeps.sane).sane hafter]
    refine forall_congr' fun i => ?_
    rcases hcases i with ⟨hexposed, hold⟩ | ⟨hhidden, c, hc⟩
    · rw [hold w (Alike.refl w), hold w' halike]
      exact ⟨fun heq _ => heq, fun heq => heq hexposed⟩
    · rw [hc w (Alike.refl w), hc w' halike]
      exact iff_of_true rfl fun hexposed => absurd hexposed hhidden
  · rcases hcases i with ⟨-, hold⟩ | ⟨hhidden, -⟩
    · exact hold w (Alike.refl w)
    · exact absurd hi hhidden

/-- A byte is written to a new writer, which is then cleared. -/
def stale (b : BitVec 32) : ByteArrayObjectDataOutput :=
  after (Op.runAll Bits.standard ([.call (.write (.write b))] ++ [.call .clear]))
    (new 8 .BIG_ENDIAN)

/-- A seek to index 1 tells two such bytes apart; once a short has been written, no seek to that
index does. -/
theorem clear_reveals_stale :
    outcome toByteArray (after (Op.runAll Bits.standard [.position 1]) (stale 7)) ≠
        outcome toByteArray (after (Op.runAll Bits.standard [.position 1]) (stale 9)) ∧
      outcome toByteArray (after (Op.runAll Bits.standard
          [.call (.write (.writeShort 5 none)), .position 1]) (stale 7)) =
        outcome toByteArray (after (Op.runAll Bits.standard
          [.call (.write (.writeShort 5 none)), .position 1]) (stale 9)) := by
  have hcleared : ∀ b, Cleared Bits.standard 8 .BIG_ENDIAN (stale b) := fun b => ⟨_, rfl⟩
  obtain ⟨-, hseek, -, -⟩ := clear_reveals_iff Bits.standard Bits.standard_oblivious
    (by decide) (by decide) .BIG_ENDIAN (hcleared 7) (hcleared 9) rfl [.position 1]
  obtain ⟨-, hwrite, -, hhidden⟩ := clear_reveals_iff Bits.standard Bits.standard_oblivious
    (by decide) (by decide) .BIG_ENDIAN (hcleared 7) (hcleared 9) rfl
    [.call (.write (.writeShort 5 none)), .position 1]
  have hback : SeeksBack Bits.standard 0
      [.call (.write (.writeShort 5 none)), .position 1] (stale 7) :=
    ⟨False.elim, fun _ => by decide, trivial⟩
  refine ⟨fun hsame => ?_, hwrite.mpr fun i hi => absurd hi (hhidden hback i)⟩
  exact absurd (hseek.mp hsame 0 (by decide)) (by decide)

/-- Nothing written before `clear` can be seen afterwards: two cleared writers whose buffers have
the same length cannot be told apart. -/
def Forgets (bits : Bits) (size : ℤ) (order : ByteOrder) : Prop :=
  ∀ w w' : ByteArrayObjectDataOutput, Cleared bits size order w → Cleared bits size order w' →
    w.buffer.map List.length = w'.buffer.map List.length → ∀ ops : List Op,
      outcome (Op.runAll bits ops) w = outcome (Op.runAll bits ops) w' ∧
      outcome toByteArray (after (Op.runAll bits ops) w) =
        outcome toByteArray (after (Op.runAll bits ops) w')

/-- A seek to index 1 shows the byte that was written before. -/
theorem not_forgets : ¬ Forgets Bits.standard 8 .BIG_ENDIAN := by
  intro h
  have hsame := (h _ _ ⟨[.call (.write (.write 7))], rfl⟩ ⟨[], rfl⟩ rfl [.position 1]).2
  revert hsame
  decide

end ByteArrayObjectDataOutput

end HzResearch
