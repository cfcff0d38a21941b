import HzResearch.WriterSpec

/-!
# What a sequential write does

Every sequential write of the class is a sequence of chunks: `ensureAvailable` reserves
room, then bytes are stored at `pos` and `pos` moves behind them. The room reserved
and the bytes stored are a `Chunk`; for strings the two differ.

`Fills` describes the second half of a chunk, `Writes` a method that consists of
chunks, and `Writes.run` is the theorem about running one: it appends the bytes of its
chunks (`Wrote.front`), it keeps the bytes behind them if every reservation fits into
the buffer (`Wrote.kept`) and wipes them if one does not (`Wrote.wiped`), and it can fail
only after a capacity expression has exceeded the `int` range. `Keeps` holds also of
methods that throw.
-/

namespace HzResearch

open Java Utf8

namespace ByteArrayObjectDataOutput

variable {w w' w'' : ByteArrayObjectDataOutput} {b bs : List Byte} {e : Bool}

/-! ## Chunks -/

/-- Room reserved by `ensureAvailable`, and the bytes stored there. -/
structure Chunk where
  /-- the argument of `ensureAvailable` -/
  room : ℤ
  /-- the bytes -/
  bytes : List Byte

/-- A chunk that reserves the room it needs. -/
def Chunk.exact (bs : List Byte) : Chunk := ⟨bs.length, bs⟩

/-- The bytes of these chunks. -/
def flat (cs : List Chunk) : List Byte := cs.flatMap Chunk.bytes

@[simp] theorem flat_nil : flat [] = [] := rfl

@[simp] theorem flat_cons (c : Chunk) (cs : List Chunk) : flat (c :: cs) = c.bytes ++ flat cs := by
  rw [flat, List.flatMap_cons, flat]

@[simp] theorem flat_append (cs cs' : List Chunk) : flat (cs ++ cs') = flat cs ++ flat cs' := by
  rw [flat, List.flatMap_append, flat, flat]

theorem flat_flatMap {α : Type} (f : α → List Chunk) (xs : List α) :
    flat (xs.flatMap f) = xs.flatMap fun x => flat (f x) := by
  induction xs with
  | nil => rfl
  | cons x xs ih => rw [List.flatMap_cons, flat_append, ih, List.flatMap_cons]

@[simp] theorem bytes_exact (bs : List Byte) : (Chunk.exact bs).bytes = bs := rfl

@[simp] theorem flat_exact (bs : List Byte) : flat [.exact bs] = bs := by simp

/-- Every reservation fits into a buffer of this length, from `pos` on. -/
def Roomy (length pos : ℤ) : List Chunk → Prop
  | [] => True
  | c :: cs => c.room ≤ length - pos ∧ Roomy length (pos + c.bytes.length) cs

instance (length : ℤ) : ∀ (pos : ℤ) (cs : List Chunk), Decidable (Roomy length pos cs)
  | _, [] => .isTrue trivial
  | pos, c :: cs =>
    have := instDecidableRoomy length (pos + c.bytes.length) cs
    inferInstanceAs (Decidable (_ ∧ _))

theorem roomy_append (length pos : ℤ) (cs cs' : List Chunk) :
    Roomy length pos (cs ++ cs') ↔
      Roomy length pos cs ∧ Roomy length (pos + (flat cs).length) cs' := by
  induction cs generalizing pos with
  | nil => simp [Roomy]
  | cons c cs ih =>
    rw [List.cons_append, Roomy, Roomy, ih, flat_cons, List.length_append, and_assoc,
      Int.natCast_add, Int.add_assoc]

/-! ## What every method keeps -/

/-- What holds of the fields before and after a method, however it ends. -/
structure Keeps (w w' : ByteArrayObjectDataOutput) : Prop where
  /-- the fields stay sane -/
  sane : Sane w'
  /-- `initialSize` is final -/
  initialSize_eq : w'.initialSize = w.initialSize
  /-- `isBigEndian` is final -/
  isBigEndian_eq : w'.isBigEndian = w.isBigEndian
  /-- `peak` is a maximum -/
  peak_le : w.peak ≤ w'.peak

theorem Keeps.refl (h : Sane w) : Keeps w w := ⟨h, rfl, rfl, le_refl _⟩

theorem Keeps.trans (h : Keeps w w') (h' : Keeps w' w'') : Keeps w w'' :=
  ⟨h'.sane, h'.initialSize_eq.trans h.initialSize_eq, h'.isBigEndian_eq.trans h.isBigEndian_eq,
    h.peak_le.trans h'.peak_le⟩

/-- A capacity expression is evaluated. -/
theorem keeps_peak {peak : ℤ} (h : Sane w) (hpeak : w.peak ≤ peak) : Keeps w { w with peak } :=
  ⟨⟨h.initialSize_nonneg, h.initialSize_le, h.pos_nonneg, h.pos_le, h.length_le, h.pos_null⟩, rfl,
    rfl, hpeak⟩

/-- A store has failed: the bytes may have changed, and `pos` has moved one further at most. -/
structure Stuck (w w' : ByteArrayObjectDataOutput) : Prop where
  /-- the array has the same length -/
  length_eq : w'.bytes.length = w.bytes.length
  /-- without a buffer nothing changes -/
  null : w'.buffer = none → w' = w
  /-- `pos` is not negative -/
  pos_nonneg : 0 ≤ w'.pos
  /-- `pos` is inside the buffer, or one further -/
  pos_le : w'.pos ≤ w.bytes.length + 1
  /-- `initialSize` is final -/
  initialSize_eq : w'.initialSize = w.initialSize
  /-- `isBigEndian` is final -/
  isBigEndian_eq : w'.isBigEndian = w.isBigEndian
  /-- no capacity expression is evaluated -/
  peak_eq : w'.peak = w.peak

theorem Stuck.keeps (h : Stuck w w') (hs : Sane w) : Keeps w w' where
  sane :=
    { initialSize_nonneg := by rw [h.initialSize_eq]; exact hs.initialSize_nonneg
      initialSize_le := by rw [h.initialSize_eq]; exact hs.initialSize_le
      pos_nonneg := h.pos_nonneg
      pos_le := by rw [h.length_eq]; exact h.pos_le
      length_le := by rw [h.length_eq]; exact hs.length_le
      pos_null := by
        intro hnone
        have heq := h.null hnone
        rw [heq] at hnone ⊢
        exact hs.pos_null hnone }
  initialSize_eq := h.initialSize_eq
  isBigEndian_eq := h.isBigEndian_eq
  peak_le := by rw [h.peak_eq]

/-! ## Filling reserved room -/

/-- The writer once `bs` stands at `pos`. -/
def filled (w : ByteArrayObjectDataOutput) (b bs : List Byte) : ByteArrayObjectDataOutput :=
  { w with buffer := some (splice b w.pos.toNat bs), pos := w.pos + bs.length }

/-- The method stores `bs` from `pos` on if there is room, and fails otherwise. -/
structure Fills (e : Bool) (m : Out Unit) (bs : List Byte) : Prop where
  /-- there is room -/
  fills : ∀ {w : ByteArrayObjectDataOutput} {b : List Byte}, w.isBigEndian = e →
    w.buffer = some b → 0 ≤ w.pos → w.pos + bs.length ≤ b.length → m w = .ok () (filled w b bs)
  /-- there is none -/
  fails : ∀ {w : ByteArrayObjectDataOutput} {b : List Byte}, w.isBigEndian = e →
    w.buffer = some b → 0 ≤ w.pos → w.pos ≤ b.length → (b.length : ℤ) < w.pos + bs.length →
      ∃ x w', m w = .error x w' ∧ Stuck w w'

/-- Without a buffer, or with `pos` behind it, the method fails, unless it stores nothing. -/
def Refuses (e : Bool) (m : Out Unit) (bs : List Byte) : Prop :=
  ∀ w : ByteArrayObjectDataOutput, w.isBigEndian = e → Sane w →
    w.buffer = none ∨ (w.bytes.length : ℤ) < w.pos →
      (bs = [] ∧ m w = .ok () w) ∨ (bs ≠ [] ∧ ∃ x w', m w = .error x w' ∧ Stuck w w')

theorem Fills.nil : Fills e (pure ()) [] where
  fills := by
    intro w b _ hb _ _
    have hw : filled w b [] = w := by
      obtain ⟨initialSize, buffer, pos, e, peak⟩ := w
      simp only at hb
      simp [filled, hb]
    rw [hw]
    rfl
  fails := by
    intro w b _ _ _ hle hlt
    rw [List.length_nil] at hlt
    omega

theorem Fills.append {m m' : Out Unit} {bs' : List Byte} (h : Fills e m bs)
    (h' : Fills e m' bs') : Fills e (do m; m') (bs ++ bs') where
  fills := by
    intro w b he hb h0 hroom
    rw [List.length_append] at hroom
    have hlen : (splice b w.pos.toNat bs).length = b.length := length_splice (by omega)
    rw [bind_ok (h.fills he hb h0 (by omega)), h'.fills (w := filled w b bs) he rfl]
    · have hpos : (w.pos + bs.length).toNat = w.pos.toNat + bs.length := by omega
      simp only [filled, hpos, List.length_append]
      rw [splice_splice (by omega), Int.natCast_add, Int.add_assoc]
    · simp only [filled]
      omega
    · simp only [filled, hlen]
      omega
  fails := by
    intro w b he hb h0 hle hlt
    rw [List.length_append] at hlt
    by_cases hroom : w.pos + bs.length ≤ b.length
    · have hlen : (splice b w.pos.toNat bs).length = b.length := length_splice (by omega)
      obtain ⟨x, w', hrun, hs⟩ := h'.fails (w := filled w b bs) he rfl
        (by simp only [filled]; omega) (by simp only [filled, hlen]; omega)
        (by simp only [filled, hlen]; omega)
      refine ⟨x, w', by rw [bind_ok (h.fills he hb h0 hroom), hrun], ?_⟩
      have hbytes : (filled w b bs).bytes.length = w.bytes.length := by
        rw [bytes_some hb, bytes_some (w := filled w b bs) rfl, hlen]
      refine ⟨hs.length_eq.trans hbytes, ?_, hs.pos_nonneg, hbytes ▸ hs.pos_le, hs.initialSize_eq,
        hs.isBigEndian_eq, hs.peak_eq⟩
      intro hnone
      rw [hs.null hnone] at hnone
      cases hnone
    · obtain ⟨x, w', hrun, hs⟩ := h.fails he hb h0 hle (by omega)
      exact ⟨x, w', bind_error hrun, hs⟩

theorem Fills.forEach {α : Type} {f : α → Out Unit} {g : α → List Byte}
    (hf : ∀ a, Fills e (f a) (g a)) (xs : List α) : Fills e (forEach f xs) (xs.flatMap g) := by
  induction xs with
  | nil => exact Fills.nil
  | cons x xs ih => exact (hf x).append ih

theorem Refuses.forEach {α : Type} {f : α → Out Unit} {g : α → List Byte} (hg : ∀ a, g a ≠ [])
    (hf : ∀ a, Refuses e (f a) (g a)) (xs : List α) :
    Refuses e (forEach f xs) (xs.flatMap g) := by
  intro w he h hroom
  rcases xs with _ | ⟨x, xs⟩
  · exact .inl ⟨rfl, rfl⟩
  · rcases hf x w he h hroom with ⟨hnil, -⟩ | ⟨-, y, w', hrun, hstuck⟩
    · exact absurd hnil (hg x)
    · refine .inr ⟨by simp [hg x], y, w', ?_, hstuck⟩
      rw [Java.forEach, bind_error hrun]

/-- The method of the array stores `bs` at an index and returns `a`, or it fails. -/
structure Stores {α : Type} (st : ℤ → Java (List Byte) α) (a : α) (bs : List Byte) : Prop where
  /-- in range -/
  inside : ∀ {b : List Byte} {i : ℤ}, 0 ≤ i → i + bs.length ≤ b.length →
    st i b = .ok a (splice b i.toNat bs)
  /-- it returns only in range -/
  outside : ∀ {b b' : List Byte} {i : ℤ} {a' : α}, st i b = .ok a' b' →
    0 ≤ i ∧ i + bs.length ≤ b.length
  /-- arrays keep their length, also where it fails -/
  length_eq : ∀ b i, (after (st i) b).length = b.length

theorem stores_store (x : Byte) : Stores (fun i => store i x) () [x] where
  inside := by
    intro b i h0 h
    rw [List.length_singleton] at h
    exact store_ok h0 (by omega) x
  outside := by
    intro b b' i a' h
    by_cases hin : 0 ≤ i ∧ i < b.length
    · rw [List.length_singleton]
      omega
    · rw [store_error hin] at h
      cases h
  length_eq b i := length_store b i x

theorem stores_fixed {k size : ℕ} (f : FixedWidth k size) (v : BitVec k) (e : Bool) :
    Stores (fun i => f.write i v e) () (f.layout e v) where
  inside h0 h := f.write_in v e h0 (by rwa [f.length_layout] at h)
  outside h := by
    rw [f.length_layout]
    exact f.write_ok h
  length_eq b i := f.length_write b i v e

theorem stores_utf8Char (bits : Bits) (c : CodeUnit) :
    Stores (fun i => bits.writeUtf8Char i c) ((encodeUnit c).length : ℤ) (encodeUnit c) where
  inside h0 h := bits.writeUtf8Char_in c h0 h
  outside h := bits.writeUtf8Char_ok h
  length_eq b i := bits.length_writeUtf8Char b i c

/-- A store that is successful has stored the bytes. -/
theorem Stores.of_ok {α : Type} {st : ℤ → Java (List Byte) α} {a a' : α} (hst : Stores st a bs)
    {i : ℤ} (h : st i b = .ok a' b') :
    a' = a ∧ 0 ≤ i ∧ i + bs.length ≤ b.length ∧ b' = splice b i.toNat bs := by
  obtain ⟨h0, hin⟩ := hst.outside h
  rw [hst.inside h0 hin] at h
  cases h
  exact ⟨rfl, h0, hin, rfl⟩

/-- A failed store has left an array of the same length. -/
theorem Stores.stuck {α : Type} {st : ℤ → Java (List Byte) α} {a : α} (hst : Stores st a bs)
    {i : ℤ} {x : Stop} (hb : w.buffer = some b) (h : st i b = .error x b') (h0 : 0 ≤ w.pos)
    (hle : w.pos ≤ b.length + 1) : Stuck w { w with buffer := some b' } where
  length_eq := by
    have hlen := hst.length_eq b i
    rw [after_error h] at hlen
    rw [bytes_some hb, bytes_some rfl, hlen]
  null hnone := by cases hnone
  pos_nonneg := h0
  pos_le := by rwa [bytes_some hb]
  initialSize_eq := rfl
  isBigEndian_eq := rfl
  peak_eq := rfl

section Store

variable {α : Type} {st : ℤ → Java (List Byte) α} {a : α} {m : Out Unit} {n : α → ℤ}

/-- A store at `pos`, and the step over its bytes. -/
theorem Fills.of_stores (hst : Stores st a bs) (hn : n a = bs.length)
    (hm : ∀ w : ByteArrayObjectDataOutput, w.isBigEndian = e →
      m w = (do let a ← onBuffer (st w.pos); advance (n a)) w) : Fills e m bs where
  fills := by
    intro w b he hb h0 hroom
    rw [hm w he, bind_ok (onBuffer_ok hb (hst.inside h0 hroom)), advance_run, hn]
    rfl
  fails := by
    intro w b he hb h0 hle hlt
    rcases hrun : st w.pos b with ⟨a', b'⟩ | ⟨x, b'⟩
    · have := hst.outside hrun
      omega
    · refine ⟨x, _, ?_, hst.stuck hb hrun h0 (by omega)⟩
      rw [hm w he, bind_error (onBuffer_error hb hrun)]

/-- A store at `pos` is refused without a buffer and behind it. -/
theorem Refuses.of_stores (hst : Stores st a bs) (hne : bs ≠ [])
    (hm : ∀ w : ByteArrayObjectDataOutput, w.isBigEndian = e →
      m w = (do let a ← onBuffer (st w.pos); advance (n a)) w) : Refuses e m bs := by
  intro w he h hroom
  refine .inr ⟨hne, ?_⟩
  rcases hb : w.buffer with _ | b
  · refine ⟨.throws .NullPointerException, w, ?_, rfl, fun _ => rfl, h.pos_nonneg, h.pos_le, rfl,
      rfl, rfl⟩
    rw [hm w he, bind_error (onBuffer_none hb)]
  · have hle := h.pos_le
    rw [hb, bytes_some hb] at hroom
    rw [bytes_some hb] at hle
    rcases hrun : st w.pos b with ⟨a', b'⟩ | ⟨x, b'⟩
    · have := hst.outside hrun
      rcases hroom with hnone | hlt
      · cases hnone
      · omega
    · refine ⟨x, _, ?_, hst.stuck hb hrun h.pos_nonneg hle⟩
      rw [hm w he, bind_error (onBuffer_error hb hrun)]

end Store

theorem put_run (x : Byte) (w : ByteArrayObjectDataOutput) :
    put x w = onBuffer (store w.pos x) { w with pos := w.pos + 1 } := rfl

theorem put_fills (x : Byte) : Fills e (put x) [x] where
  fills := by
    intro w b _ hb h0 hroom
    rw [List.length_singleton] at hroom
    rw [put_run, onBuffer_ok (w := { w with pos := w.pos + 1 }) hb (store_ok h0 (by omega) x)]
    rfl
  fails := by
    intro w b _ hb h0 hle hlt
    rw [List.length_singleton] at hlt
    have herr : store w.pos x b = .error (.throws .ArrayIndexOutOfBoundsException) b :=
      store_error (by omega) x
    refine ⟨.throws .ArrayIndexOutOfBoundsException, { w with pos := w.pos + 1, buffer := some b },
      ?_, ?_, ?_, ?_, ?_, rfl, rfl, rfl⟩
    · rw [put_run, onBuffer_error (w := { w with pos := w.pos + 1 }) hb herr]
    · rw [bytes_some hb, bytes_some rfl]
    · intro hnone
      cases hnone
    · change 0 ≤ w.pos + 1
      omega
    · rw [bytes_some hb]
      change w.pos + 1 ≤ b.length + 1
      omega

/-! ## Running chunks -/

/-- `g` is the value of a reservation, and enough as long as no capacity expression exceeds the
`int` range. -/
def Reserves (g : Out ℤ) (c : Chunk) : Prop :=
  ∀ w : ByteArrayObjectDataOutput, ∃ peak, w.peak ≤ peak ∧ g w = .ok c.room { w with peak } ∧
    (peak ≤ MAX_VALUE → c.bytes.length ≤ c.room)

/-- The writer `w'` is `w` after these chunks. -/
structure Wrote (w : ByteArrayObjectDataOutput) (cs : List Chunk)
    (w' : ByteArrayObjectDataOutput) : Prop where
  /-- what every method keeps -/
  keeps : Keeps w w'
  /-- `pos` moves over the bytes -/
  pos_eq : w'.pos = w.pos + (flat cs).length
  /-- `pos` stays inside the buffer -/
  pos_le : w.pos ≤ w.bytes.length → w'.pos ≤ w'.bytes.length
  /-- the bytes are appended to those below `pos` -/
  front : w'.bytes.take w'.pos.toNat = w.bytes.take w.pos.toNat ++ flat cs
  /-- where all reservations fit, the bytes behind are kept -/
  kept : Roomy w.bytes.length w.pos cs → w'.bytes.length = w.bytes.length ∧
    ∀ i, w'.pos.toNat ≤ i → w'.bytes[i]? = w.bytes[i]?
  /-- where one does not, they are wiped -/
  wiped : ¬ Roomy w.bytes.length w.pos cs → w.pos ≤ w.bytes.length ∧
    ((∀ c ∈ cs, c.room ≤ MAX_VALUE) → w.bytes.length ≤ w'.bytes.length) ∧
      ∀ i, w'.pos.toNat ≤ i → w'.bytes.getD i 0 = 0

theorem Wrote.length_le {cs : List Chunk} (h : Wrote w cs w')
    (hcs : ∀ c ∈ cs, c.room ≤ MAX_VALUE) : w.bytes.length ≤ w'.bytes.length := by
  by_cases hroomy : Roomy w.bytes.length w.pos cs
  · exact (h.kept hroomy).1.ge
  · exact (h.wiped hroomy).2.1 hcs

theorem Wrote.nil (h : Sane w) : Wrote w [] w where
  keeps := Keeps.refl h
  pos_eq := by simp
  pos_le := id
  front := by simp
  kept _ := ⟨rfl, fun _ _ => rfl⟩
  wiped hn := absurd trivial hn

theorem Wrote.append {cs cs' : List Chunk} (h : Wrote w cs w') (h' : Wrote w' cs' w'') :
    Wrote w (cs ++ cs') w'' where
  keeps := h.keeps.trans h'.keeps
  pos_eq := by
    rw [h'.pos_eq, h.pos_eq, flat_append, List.length_append, Int.natCast_add, Int.add_assoc]
  pos_le hle := h'.pos_le (h.pos_le hle)
  front := by rw [h'.front, h.front, flat_append, List.append_assoc]
  kept := by
    rw [roomy_append]
    rintro ⟨hroomy, hroomy'⟩
    obtain ⟨hlen, hkept⟩ := h.kept hroomy
    rw [← h.pos_eq, ← hlen] at hroomy'
    obtain ⟨hlen', hkept'⟩ := h'.kept hroomy'
    have hpos := h'.pos_eq
    refine ⟨hlen'.trans hlen, fun i hi => ?_⟩
    rw [hkept' i hi, hkept i (by omega)]
  wiped := by
    intro hn
    have hpos' := h'.pos_eq
    have hpos := h.pos_eq
    refine ⟨?_, fun hcs => ?_, fun i hi => ?_⟩
    · by_cases hroomy : Roomy w.bytes.length w.pos cs
      · obtain ⟨hlen, -⟩ := h.kept hroomy
        rw [roomy_append, ← h.pos_eq, ← hlen] at hn
        have := (h'.wiped fun hroomy' => hn ⟨by rwa [hlen], hroomy'⟩).1
        omega
      · exact (h.wiped hroomy).1
    · exact (h.length_le fun c hc => hcs c (List.mem_append_left _ hc)).trans
        (h'.length_le fun c hc => hcs c (List.mem_append_right _ hc))
    · by_cases hroomy' : Roomy w'.bytes.length w'.pos cs'
      · -- the second half kept what the first has wiped
        have hfirst : ¬ Roomy w.bytes.length w.pos cs := by
          intro hroomy
          rw [(h.kept hroomy).1, h.pos_eq] at hroomy'
          exact hn ((roomy_append _ _ _ _).2 ⟨hroomy, hroomy'⟩)
        have := (h.wiped hfirst).2.2 i (by omega)
        rwa [List.getD_eq_getElem?_getD, (h'.kept hroomy').2 i hi, ← List.getD_eq_getElem?_getD]
      · exact (h'.wiped hroomy').2.2 i hi

/-- How a method ends that writes these chunks: it has written them, or it has failed, which needs
a capacity expression that exceeds the `int` range or a `pos` behind the buffer. -/
def Ends (w : ByteArrayObjectDataOutput) (cs : List Chunk) (m : Out Unit) : Prop :=
  (∃ w', m w = .ok () w' ∧ Wrote w cs w') ∨
    ∃ x w', m w = .error x w' ∧ Keeps w w' ∧ (w'.peak ≤ MAX_VALUE → w.bytes.length < w.pos)

@[simp] theorem filled_pos : (filled w b bs).pos = w.pos + bs.length := rfl

@[simp] theorem filled_bytes : (filled w b bs).bytes = splice b w.pos.toNat bs := rfl

/-- The writer over a buffer that has room, be it the old one or a new one. -/
def backed (w : ByteArrayObjectDataOutput) (b : List Byte) (peak : ℤ) : ByteArrayObjectDataOutput :=
  { w with buffer := some b, peak }

@[simp] theorem backed_pos {peak : ℤ} : (backed w b peak).pos = w.pos := rfl

theorem keeps_backed {peak : ℤ} (h : Sane w) (hpeak : w.peak ≤ peak) (hb : w.pos ≤ b.length)
    (hmax : b.length ≤ MAX_VALUE) : Keeps w (backed w b peak) where
  sane :=
    { initialSize_nonneg := h.initialSize_nonneg
      initialSize_le := h.initialSize_le
      pos_nonneg := h.pos_nonneg
      pos_le := hb.trans (by rw [bytes_some (w := backed w b peak) rfl]; omega)
      length_le := hmax
      pos_null := fun hnone => by cases hnone }
  initialSize_eq := rfl
  isBigEndian_eq := rfl
  peak_le := hpeak

theorem keeps_filled (h : Sane w) (hb : w.pos + bs.length ≤ b.length)
    (hmax : b.length ≤ MAX_VALUE) : Keeps w (filled w b bs) := by
  have h0 := h.pos_nonneg
  have hlen : (splice b w.pos.toNat bs).length = b.length := length_splice (by omega)
  refine ⟨⟨h.initialSize_nonneg, h.initialSize_le, ?_, ?_, ?_, fun hnone => by cases hnone⟩, rfl,
    rfl, le_refl _⟩
  · rw [filled_pos]
    omega
  · rw [filled_pos, filled_bytes]
    omega
  · rw [filled_bytes, hlen]
    exact hmax

/-- Storing into a buffer that has room, be it the old one or a new one. -/
theorem wrote_backed {n peak : ℤ} (h : Sane w) (hpeak : w.peak ≤ peak)
    (hb : w.pos + bs.length ≤ b.length) (hmax : b.length ≤ MAX_VALUE)
    (htake : b.take w.pos.toNat = w.bytes.take w.pos.toNat)
    (hkept : n ≤ w.bytes.length - w.pos → b = w.bytes)
    (hwiped : w.bytes.length - w.pos < n → w.pos ≤ w.bytes.length ∧
      (n ≤ MAX_VALUE → w.bytes.length ≤ b.length) ∧ ∀ i, w.pos.toNat ≤ i → b.getD i 0 = 0) :
    Wrote w [⟨n, bs⟩] (filled (backed w b peak) b bs) := by
  have h0 := h.pos_nonneg
  have hlen : (splice b w.pos.toNat bs).length = b.length := length_splice (by omega)
  have htoNat : (w.pos + bs.length).toNat = w.pos.toNat + bs.length := by omega
  have hbacked := keeps_backed h hpeak (by omega) hmax
  refine ⟨hbacked.trans (keeps_filled hbacked.sane hb hmax), ?_, fun _ => ?_, ?_,
    fun hroomy => ⟨?_, fun i hi => ?_⟩, fun hroomy => ?_⟩
  · simp
  · rw [filled_pos, filled_bytes, backed_pos, hlen]
    exact hb
  · rw [filled_pos, filled_bytes, backed_pos, htoNat, take_splice_end (by omega), htake]
    simp
  · rw [filled_bytes, backed_pos, hlen, hkept hroomy.1]
  · rw [filled_pos, backed_pos, htoNat] at hi
    rw [filled_bytes, backed_pos, getElem?_splice_of_not_mem (by omega) (.inr hi), hkept hroomy.1]
  -- the reservation did not fit, so the buffer is a new one
  · have hn : w.bytes.length - w.pos < n := by
      by_contra hle
      exact hroomy ⟨by simp only; omega, trivial⟩
    obtain ⟨hfits, hgrows, hzero⟩ := hwiped hn
    refine ⟨hfits, fun hroom => ?_, fun i hi => ?_⟩
    · rw [filled_bytes, backed_pos, hlen]
      exact hgrows (hroom _ (List.mem_singleton_self _))
    · rw [filled_pos, backed_pos, htoNat] at hi
      rw [filled_bytes, backed_pos, List.getD_eq_getElem?_getD,
        getElem?_splice_of_not_mem (by omega) (.inr hi), ← List.getD_eq_getElem?_getD]
      exact hzero i (by omega)

/-- How a chunk ends where the reservation finds enough room. -/
theorem ends_available {n : ℤ} {m : Out Unit} (hm : Fills e m bs) (h0 : 0 < n ∨ Refuses e m bs)
    (h : Sane w) (he : w.isBigEndian = e) (hn : n ≤ w.available)
    (henough : w.peak ≤ MAX_VALUE → bs.length ≤ n) : Ends w [⟨n, bs⟩] m := by
  rw [available_eq h] at hn
  by_cases hroom : w.buffer = none ∨ (w.bytes.length : ℤ) < w.pos
  · -- nothing can be stored here, and nothing is if the reservation is honest
    have hzero : n ≤ 0 := by
      rcases hroom with hnone | hlt
      · rw [bytes_none hnone, h.pos_null hnone] at hn
        simpa using hn
      · omega
    rcases h0 with h0 | h0
    · omega
    rcases h0 w he h hroom with ⟨rfl, hok⟩ | ⟨hne, x, w', hx, hstuck⟩
    · exact .inl ⟨w, hok, Keeps.refl h, by simp, id, by simp, fun _ => ⟨rfl, fun _ _ => rfl⟩,
        fun hnot => absurd ⟨hn, trivial⟩ hnot⟩
    · refine .inr ⟨x, w', hx, hstuck.keeps h, fun hmax => ?_⟩
      rw [hstuck.peak_eq] at hmax
      have hlen := henough hmax
      have := List.length_pos_iff.2 hne
      omega
  · rcases hb : w.buffer with _ | b
    · exact absurd (.inl hb) hroom
    have hmax := h.length_le
    rw [bytes_some hb] at hroom hn hmax
    by_cases hfit : w.pos + bs.length ≤ b.length
    · refine .inl ⟨_, hm.fills he hb h.pos_nonneg hfit, ?_⟩
      refine wrote_backed h (le_refl w.peak) hfit hmax ?_ (fun _ => ?_) fun hlt => ?_
      · rw [bytes_some hb]
      · rw [bytes_some hb]
      · rw [bytes_some hb] at hlt
        omega
    · obtain ⟨x, w', hx, hstuck⟩ := hm.fails he hb h.pos_nonneg (by omega) (by omega)
      refine .inr ⟨x, w', hx, hstuck.keeps h, fun hmax => ?_⟩
      rw [hstuck.peak_eq] at hmax
      have := henough hmax
      omega

/-- How a chunk ends where the reservation replaces the buffer. -/
theorem ends_grown {n cap peak : ℤ} {m : Out Unit} (hm : Fills e m bs) (h : Sane w)
    (he : w.isBigEndian = e) (hn : w.available < n) (hpeak : w.peak ≤ peak)
    (hfits : w.pos ≤ w.bytes.length) (hcap : w.pos ≤ cap) (hmax : cap ≤ MAX_VALUE)
    (hgrows : n ≤ MAX_VALUE → w.bytes.length ≤ cap)
    (henough : peak ≤ MAX_VALUE → w.pos + bs.length ≤ cap) :
    (∃ w', m (w.regrown cap peak) = .ok () w' ∧ Wrote w [⟨n, bs⟩] w') ∨
      ∃ x w', m (w.regrown cap peak) = .error x w' ∧ Keeps w w' ∧
        (w'.peak ≤ MAX_VALUE → w.bytes.length < w.pos) := by
  have h0 := h.pos_nonneg
  have hlen := length_regrown h hfits hcap peak
  rw [available_eq h] at hn
  by_cases hfit : w.pos + bs.length ≤ cap
  · refine .inl ⟨_, hm.fills he rfl h0 (by rw [← hlen] at hfit; exact hfit), ?_⟩
    refine wrote_backed (b := (w.regrown cap peak).bytes) h hpeak (by omega) (by omega)
      (take_regrown h hfits cap peak) (fun hle => by omega) fun _ => ⟨hfits, fun hnmax => ?_,
        fun i hi => getD_regrown h hfits cap peak hi⟩
    have := hgrows hnmax
    omega
  · have hkeeps : Keeps w (w.regrown cap peak) :=
      keeps_backed (b := (w.regrown cap peak).bytes) h hpeak (by omega) (by omega)
    obtain ⟨x, w', hx, hstuck⟩ := hm.fails (w := w.regrown cap peak) he rfl h0
      (by rw [← hlen] at hcap; exact hcap) (by rw [← hlen] at hfit; exact not_le.1 hfit)
    refine .inr ⟨x, w', hx, hkeeps.trans (hstuck.keeps hkeeps.sane), fun hle => ?_⟩
    rw [hstuck.peak_eq] at hle
    exact absurd (henough hle) hfit

/-- How a chunk ends once the size of the reservation is known. -/
theorem ends_reserved {n : ℤ} {m : Out Unit} (hm : Fills e m bs) (h0 : 0 < n ∨ Refuses e m bs)
    (h : Sane w) (he : w.isBigEndian = e) (henough : w.peak ≤ MAX_VALUE → bs.length ≤ n) :
    Ends w [⟨n, bs⟩] (do ensureAvailable n; m) := by
  have hmax := newCapacity_le h n
  rcases ensureAvailable_spec h n with
    ⟨hn, hrun⟩ | ⟨hn, peak, hpeak, hroom, ⟨hfits, hcap, hrun⟩ | ⟨hno, hrun⟩⟩
  · rw [Ends, bind_ok hrun]
    exact ends_available hm h0 h he hn henough
  · rw [Ends, bind_ok hrun]
    refine ends_grown hm h he hn hpeak hfits hcap hmax
      (fun hle => length_le_newCapacity h hfits hn hle (h.pos_nonneg.trans hcap)) fun hle => ?_
    have hlen := henough (by omega)
    have := hroom hle (by omega)
    omega
  · rw [Ends, bind_error hrun]
    refine .inr ⟨_, _, rfl, keeps_peak h hpeak, fun hle => ?_⟩
    have hlen := henough (hpeak.trans hle)
    have := hroom hle (by omega)
    omega

/-- **One chunk**: reserve, then store. -/
theorem ends_chunk {g : Out ℤ} {c : Chunk} {m : Out Unit} (hg : Reserves g c)
    (hm : Fills e m c.bytes) (h0 : 0 < c.room ∨ Refuses e m c.bytes) (h : Sane w)
    (he : w.isBigEndian = e) : Ends w [c] (do ensureAvailable (← g); m) := by
  obtain ⟨peak, hpeak, hrun, henough⟩ := hg w
  rw [Ends, bind_ok hrun]
  have hkeeps := keeps_peak h hpeak
  rcases ends_reserved hm h0 hkeeps.sane he henough with ⟨w', hok, hw⟩ | ⟨x, w', hx, hk, hmax⟩
  · exact .inl ⟨w', hok, hkeeps.trans hw.keeps, hw.pos_eq, hw.pos_le, hw.front, hw.kept, hw.wiped⟩
  · exact .inr ⟨x, w', hx, hkeeps.trans hk, hmax⟩

/-- Methods that are made of chunks, on writers of endianness `e`. -/
inductive Writes (e : Bool) : Out Unit → List Chunk → Prop
  /-- nothing is written -/
  | nothing : Writes e (pure ()) []
  /-- room is reserved and bytes are stored -/
  | chunk {g : Out ℤ} {c : Chunk} {m : Out Unit} : Reserves g c → Fills e m c.bytes →
      0 < c.room ∨ Refuses e m c.bytes → Writes e (do ensureAvailable (← g); m) [c]
  /-- the endianness of the writer is looked up -/
  | order {f : Bool → Out Unit} {cs : List Chunk} : Writes e (f e) cs →
      Writes e (do f (← get).isBigEndian) cs
  /-- one after the other -/
  | append {m m' : Out Unit} {cs cs' : List Chunk} : Writes e m cs → Writes e m' cs' →
      Writes e (do m; m') (cs ++ cs')

theorem reserves_exact (bs : List Byte) : Reserves (pure bs.length) (.exact bs) :=
  fun w => ⟨w.peak, le_refl _, rfl, fun _ => le_refl _⟩

/-- A capacity expression that is large enough before wrapping. -/
theorem reserves_capacity {x : ℤ} (h : bs.length ≤ x) : Reserves (capacity x) ⟨jint x, bs⟩ := by
  intro w
  refine ⟨max w.peak x, le_max_left _ _, rfl, fun hmax => ?_⟩
  rw [jint_of_range (by omega) ((le_max_right _ _).trans hmax)]
  exact h

/-- A chunk that reserves exactly its bytes. -/
theorem Writes.exact {n : ℤ} {m : Out Unit} (hn : n = bs.length) (hm : Fills e m bs)
    (h0 : bs ≠ [] ∨ Refuses e m bs) : Writes e (do ensureAvailable n; m) [.exact bs] := by
  rw [hn]
  exact Writes.chunk (reserves_exact bs) hm
    (h0.imp_left fun hne => Int.natCast_pos.2 (List.length_pos_iff.2 hne))

theorem Writes.forEach {α : Type} {f : α → Out Unit} {g : α → List Chunk}
    (hf : ∀ a, Writes e (f a) (g a)) (xs : List α) : Writes e (forEach f xs) (xs.flatMap g) := by
  induction xs with
  | nil => exact .nothing
  | cons x xs ih => exact (hf x).append ih

/-- **Running a method that is made of chunks.** -/
theorem Writes.run {m : Out Unit} {cs : List Chunk} (hm : Writes e m cs) :
    ∀ {w : ByteArrayObjectDataOutput}, Sane w → w.isBigEndian = e → Ends w cs m := by
  induction hm with
  | nothing => exact fun h _ => .inl ⟨_, rfl, Wrote.nil h⟩
  | chunk hg hm h0 => exact fun h he => ends_chunk hg hm h0 h he
  | order hm ih =>
    intro w h he
    rw [Ends, bind_ok (get_run w), he]
    exact ih h he
  | append hm hm' ih ih' =>
    intro w h he
    rcases ih h he with ⟨w', hrun, hw⟩ | ⟨x, w', hrun, hk, hpeak⟩
    · rw [Ends, bind_ok hrun]
      rcases ih' hw.keeps.sane (hw.keeps.isBigEndian_eq.trans he) with
        ⟨w'', hrun', hw'⟩ | ⟨x, w'', hrun', hk', hpeak'⟩
      · exact .inl ⟨w'', hrun', hw.append hw'⟩
      · refine .inr ⟨x, w'', hrun', hw.keeps.trans hk', fun hmax => ?_⟩
        by_contra hin
        have := hw.pos_le (by omega)
        have := hpeak' hmax
        omega
    · exact .inr ⟨x, w', bind_error hrun, hk, hpeak⟩

end ByteArrayObjectDataOutput

end HzResearch
