import HzResearch.Growth
import HzResearch.Inflate
import HzResearch.Replies

/-!
# The benchmark

`TestSSEDeserialization` writes a text, and then reads it again and again from the start of the
array of the writer, with `reset` in between: as a string, with a check of its length, and into
an array `dst`. `loops_return` says what its two loops come to. Every string that is read has
the length of the text, so neither loop fails; but at the end of `regularLoop` the text stands
in `dst`, and at the end of `jniLoop` nothing does.

What the loops print and measure, and the closing of the streams, is left out.
-/

namespace HzResearch

open Java Utf8

open ByteArrayObjectDataInput (InBounds Reads Onward utfBytes reset beside readUTF_reads
  readUTF_proceeds readUTFJNI_some inflateUTF_run inflateUTFJNI_run)

namespace TestSSEDeserialization

/-- A method that is called with `dst`. -/
abbrev Inflate : Type := Java (ByteArrayObjectDataInput × List CodeUnit) Unit

/-- The loop that reads strings: whether all of them have this length. -/
def readLoop (read : ByteArrayObjectDataInput.In (Option (List CodeUnit))) (len : ℕ) :
    ℕ → ByteArrayObjectDataInput.In Bool
  | 0 => return true
  | itrs + 1 => do
    match ← read with
    | none => raise .NullPointerException
    | some r =>
      if r.length ≠ len then return false
      else
        reset
        readLoop read len itrs

/-- The loop that inflates. -/
def inflateLoop (inflate : Inflate) : ℕ → Inflate
  | 0 => return
  | itrs + 1 => do
    inflate
    beside reset
    inflateLoop inflate itrs

/-- Both loops, over the array of the writer `out` once that has written `s`: `ok` and `dst` at the
end. -/
def loops (bits : Bits) (out : ByteArrayObjectDataOutput) (nativeOrder : ByteOrder)
    (read : ByteArrayObjectDataInput.In (Option (List CodeUnit))) (inflate : Inflate)
    (s : List CodeUnit) (itrs : ℕ) : Except Stop (Bool × List CodeUnit) :=
  match ByteArrayObjectDataOutput.writeUTF bits (some s) out with
  | .error e _ => .error e
  | .ok _ out =>
    match readLoop read s.length itrs (.new out.buffer 0 nativeOrder) with
    | .error e _ => .error e
    | .ok ok reader =>
      match inflateLoop inflate itrs (reader, List.replicate s.length 0) with
      | .error e _ => .error e
      | .ok _ (_, dst) => .ok (ok, dst)

/-- `regularLoop(s, itrs)` -/
def regularLoop (bits : Bits) (nativeOrder : ByteOrder) (s : List CodeUnit) (itrs : ℕ) :
    Except Stop (Bool × List CodeUnit) :=
  loops bits (.new (256 * 1024) nativeOrder) nativeOrder (ByteArrayObjectDataInput.readUTF bits)
    (ByteArrayObjectDataInput.inflateUTF bits) s itrs

/-- `jniLoop(s, itrs)` -/
def jniLoop (bits : Bits) (nativeOrder : ByteOrder) (s : List CodeUnit) (itrs : ℕ) :
    Except Stop (Bool × List CodeUnit) :=
  loops bits (.new (256 * 1024) nativeOrder) nativeOrder
    (ByteArrayObjectDataInput.readUTFJNI bits) (ByteArrayObjectDataInput.inflateUTFJNI bits) s itrs

/-! ## Turns of the loops -/

section Turns

variable {read : ByteArrayObjectDataInput.In (Option (List CodeUnit))} {us : List CodeUnit}
  {s t t' : ByteArrayObjectDataInput} {inflate : Inflate}

theorem readLoop_succ (hread : read s = .ok (some us) t) (hreset : reset t = .ok () t') (n : ℕ) :
    readLoop read us.length (n + 1) s = readLoop read us.length n t' := by
  rw [readLoop, bind_ok hread]
  simp only
  rw [if_neg (not_not_intro rfl), bind_ok hreset]

/-- Turns that lead from `I` to `J`, which is the stronger one, read strings of the right length. -/
theorem readLoop_run {I J : ByteArrayObjectDataInput → Prop} (hJ : ∀ s, J s → I s)
    (hread : ∀ s, I s → ∃ t t', read s = .ok (some us) t ∧ reset t = .ok () t' ∧ J t') (n : ℕ) :
    ∀ s, I s → ∃ t, readLoop read us.length (n + 1) s = .ok true t ∧ J t := by
  induction n with
  | zero =>
    intro s hs
    obtain ⟨t, t', hrun, hreset, ht⟩ := hread s hs
    exact ⟨t', readLoop_succ hrun hreset 0, ht⟩
  | succ n ih =>
    intro s hs
    obtain ⟨t, t', hrun, hreset, ht⟩ := hread s hs
    rw [readLoop_succ hrun hreset]
    exact ih t' (hJ t' ht)

theorem inflateLoop_succ {p q q' : ByteArrayObjectDataInput × List CodeUnit}
    (hinflate : inflate p = .ok () q) (hreset : beside reset q = .ok () q') (n : ℕ) :
    inflateLoop inflate (n + 1) p = inflateLoop inflate n q' := by
  rw [inflateLoop, bind_ok hinflate, bind_ok hreset]

/-- Turns that lead from `P` to `Q`, which is the stronger one. -/
theorem inflateLoop_run {P Q : ByteArrayObjectDataInput × List CodeUnit → Prop}
    (hQ : ∀ p, Q p → P p)
    (hinflate : ∀ p, P p → ∃ q q', inflate p = .ok () q ∧ beside reset q = .ok () q' ∧ Q q')
    (n : ℕ) : ∀ p, P p → ∃ q, inflateLoop inflate (n + 1) p = .ok () q ∧ Q q := by
  induction n with
  | zero =>
    intro p hp
    obtain ⟨q, q', hrun, hreset, hq⟩ := hinflate p hp
    exact ⟨q', inflateLoop_succ hrun hreset 0, hq⟩
  | succ n ih =>
    intro p hp
    obtain ⟨q, q', hrun, hreset, hq⟩ := hinflate p hp
    rw [inflateLoop_succ hrun hreset]
    exact ih q' (hQ q' hq)

end Turns

/-! ## At the start of the text -/

variable {bits : Bits} {us dst : List CodeUnit} {tail : List Byte} {s t : ByteArrayObjectDataInput}

/-- The reader and its mark are at the start of an array that begins with the text. -/
structure AtStart (bits : Bits) (us : List CodeUnit) (tail : List Byte)
    (s : ByteArrayObjectDataInput) : Prop where
  /-- inside the array -/
  inBounds : InBounds s
  /-- at the start -/
  pos_eq : s.pos = 0
  /-- the mark too -/
  mark_eq : s.mark = 0
  /-- the array begins with the text -/
  rest_eq : s.rest = utfBytes bits s.bigEndian (some us) ++ tail

theorem AtStart.buffer (h : AtStart bits us tail s) (charBuffer : Option (List CodeUnit)) :
    AtStart bits us tail { s with charBuffer } :=
  ⟨⟨h.inBounds.size_eq, h.inBounds.size_le, h.inBounds.pos_nonneg, h.inBounds.pos_le⟩, h.pos_eq,
    h.mark_eq, h.rest_eq⟩

/-- `reset` goes back to the start, and leaves the buffer for characters. -/
theorem AtStart.reset_eq (h : AtStart bits us tail s) (pos : ℤ)
    (charBuffer : Option (List CodeUnit)) :
    reset { s with pos, charBuffer } = .ok () { s with charBuffer } := by
  have hpos : s.pos = s.mark := h.pos_eq.trans h.mark_eq.symm
  change EStateM.Result.ok () { s with pos := s.mark, charBuffer } = _
  rw [← hpos]

/-- A turn with `readUTF`. -/
theorem AtStart.readUTF (h : AtStart bits us tail s) (hlen : us.length ≤ MAX_VALUE) :
    ∃ t t', ByteArrayObjectDataInput.readUTF bits s = .ok (some us) t ∧ reset t = .ok () t' ∧
      AtStart bits us tail t' := by
  have hreads : Reads s.bigEndian (ByteArrayObjectDataInput.readUTF bits) _ (some us) :=
    readUTF_reads hlen
  obtain ⟨t, hrun, -⟩ := hreads.decodes h.inBounds rfl h.rest_eq
  have hmoves : Onward s (after (ByteArrayObjectDataInput.readUTF bits) s) := readUTF_proceeds s
  rw [after_ok hrun] at hmoves
  have ht : t = { s with pos := t.pos, charBuffer := t.charBuffer } := by
    obtain ⟨hdata, hsize, hmark, horder, -⟩ := hmoves
    rw [← hdata, ← hsize, ← hmark, ← horder]
  refine ⟨t, _, hrun, ?_, h.buffer t.charBuffer⟩
  rw [ht]
  exact h.reset_eq _ _

/-- At the start of the text, with a buffer of its length. -/
def Buffered (bits : Bits) (us : List CodeUnit) (tail : List Byte) (s : ByteArrayObjectDataInput) :
    Prop :=
  AtStart bits us tail s ∧ ∃ buffer, s.charBuffer = some buffer ∧ buffer.length = us.length

/-- Where the text is decoded from. -/
theorem AtStart.text (h : AtStart bits us tail s) (hlen : us.length ≤ MAX_VALUE) :
    0 ≤ s.pos + 4 ∧ s.pos + 4 ≤ s.bytes.length ∧
      s.bytes.drop (s.pos + 4).toNat = encode us ++ tail := by
  obtain ⟨v, -, -, hin, hrest⟩ := h.inBounds.readInt_string hlen h.rest_eq
  have hle := hin.pos_le
  rw [hin.size_eq_length] at hle
  exact ⟨hin.pos_nonneg, hle, hrest⟩

/-- A turn with `readUTFJNI`. -/
theorem AtStart.readUTFJNI (h : AtStart bits us tail s) (hlen : us.length ≤ MAX_VALUE)
    (hcap : s.capacity ≤ us.length) :
    ∃ t t', ByteArrayObjectDataInput.readUTFJNI bits s = .ok (some us) t ∧ reset t = .ok () t' ∧
      Buffered bits us tail t' := by
  obtain ⟨h0, h1, hrest⟩ := h.text hlen
  obtain ⟨buffer, hbuf, -, -, -, hrun⟩ := readUTFJNI_some h.inBounds hlen h.rest_eq
  -- the buffer is as long as the text
  have hfit : us.length = buffer.length := by omega
  obtain ⟨d, hcall, -, hfront, hsize⟩ :=
    Native.utf8BytesToArray_spelled h0 h1 hrest (spells_encode us) (.inl hfit)
  rcases hrun with ⟨f, t, hfault, -⟩ | ⟨d', hcall', hrun⟩
  · cases hcall.symm.trans hfault
  · obtain rfl : d' = d := Except.ok.inj (hcall'.symm.trans hcall)
    rw [hfront] at hrun
    exact ⟨_, _, hrun, h.reset_eq _ _, h.buffer _, _, rfl, hsize.trans hfit.symm⟩

/-- A turn with `inflateUTF`. -/
theorem AtStart.inflateUTF (h : AtStart bits us tail s) (hlen : us.length ≤ MAX_VALUE)
    (hdst : dst.length = us.length) :
    ∃ q q', ByteArrayObjectDataInput.inflateUTF bits (s, dst) = .ok () q ∧
      beside reset q = .ok () q' ∧ AtStart bits us tail q'.1 ∧ q'.2 = us := by
  have hrun := inflateUTF_run h.inBounds hlen h.rest_eq hdst.ge
  rw [List.drop_of_length_le hdst.le, List.append_nil] at hrun
  exact ⟨_, _, hrun, ByteArrayObjectDataInput.beside_ok (h.reset_eq _ s.charBuffer) us, h, rfl⟩

/-- A turn with `inflateUTFJNI`. -/
theorem Buffered.inflateUTFJNI (h : Buffered bits us tail s) (hlen : us.length ≤ MAX_VALUE)
    (hdst : us.length ≤ dst.length) :
    ∃ q q', ByteArrayObjectDataInput.inflateUTFJNI bits (s, dst) = .ok () q ∧
      beside reset q = .ok () q' ∧ Buffered bits us tail q'.1 ∧ q'.2 = dst := by
  obtain ⟨h, buffer, hb, hfit⟩ := h
  obtain ⟨h0, h1, hrest⟩ := h.text hlen
  obtain ⟨d, hcall, -, -, hsize⟩ :=
    Native.utf8BytesToArray_spelled h0 h1 hrest (spells_encode us) (.inl hfit.symm)
  rcases inflateUTFJNI_run h.inBounds hlen h.rest_eq hdst with
    ⟨t, -, hfault⟩ | ⟨buffer', d', hb', hcall', hrun⟩
  · obtain ⟨f, hf⟩ := hfault buffer hb
    cases hcall.symm.trans hf
  · obtain rfl : buffer' = buffer := Option.some.inj (hb'.symm.trans hb)
    obtain rfl : d' = d := Except.ok.inj (hcall'.symm.trans hcall)
    exact ⟨_, _, hrun, ByteArrayObjectDataInput.beside_ok (h.reset_eq _ _) dst,
      ⟨h.buffer _, _, rfl, hsize.trans hfit⟩, rfl⟩

/-! ## Both loops -/

/-- The array of a writer that has written the text begins with it. -/
theorem atStart_new (bits : Bits) (nativeOrder : ByteOrder)
    (hmax : 6 * (4 + (encode us).length : ℤ) ≤ MAX_VALUE) :
    ∃ out tail, ByteArrayObjectDataOutput.writeUTF bits (some us) (.new (256 * 1024) nativeOrder) =
      .ok () out ∧ AtStart bits us tail (.new out.buffer 0 nativeOrder) := by
  have hsane : ByteArrayObjectDataOutput.Sane (.new (256 * 1024) nativeOrder) :=
    ByteArrayObjectDataOutput.new_sane (by decide) (by decide) nativeOrder
  have henc : ByteArrayObjectDataOutput.Write.encoding bits (nativeOrder == .BIG_ENDIAN)
      (.writeUTF (some us)) = utfBytes bits (nativeOrder == .BIG_ENDIAN) (some us) :=
    flat_utfChunks (some us)
  have hlen : (utfBytes bits (nativeOrder == .BIG_ENDIAN) (some us)).length =
      4 + (encode us).length := by
    rw [utfBytes, List.length_append, bits.int.length_layout, Option.getD_some]
  have hle := length_le_encode us
  have hshort : 6 * ((ByteArrayObjectDataOutput.Write.encoding bits
      (nativeOrder == ByteOrder.BIG_ENDIAN) (.writeUTF (some us))).length : ℤ) ≤ MAX_VALUE := by
    rw [henc, hlen]
    exact_mod_cast hmax
  obtain ⟨out, hrun, hkeeps, -, hwritten, -⟩ :=
    ByteArrayObjectDataOutput.Write.fits bits (.writeUTF (some us))
      ⟨show (us.length : ℤ) ≤ MAX_VALUE by omega, trivial⟩ hsane
      (ByteArrayObjectDataOutput.tight_new (by decide) (le_refl _) nativeOrder) hshort
  have hfront : out.bytes.take out.pos.toNat =
      utfBytes bits (nativeOrder == .BIG_ENDIAN) (some us) := hwritten.trans henc
  refine ⟨out, out.bytes.drop out.pos.toNat, hrun, ?_⟩
  have hmax' := hkeeps.sane.length_le
  rcases hb : out.buffer with _ | b
  · rw [ByteArrayObjectDataOutput.bytes_none hb, List.take_nil] at hfront
    rw [← hfront, List.length_nil] at hlen
    omega
  · rw [ByteArrayObjectDataOutput.bytes_some hb] at hfront hmax' ⊢
    refine ⟨ByteArrayObjectDataInput.inBounds_new hmax' nativeOrder, rfl, rfl, ?_⟩
    exact (List.take_append_drop out.pos.toNat b).symm.trans (by rw [hfront]; rfl)

theorem loops_eq {out out' : ByteArrayObjectDataOutput} {nativeOrder : ByteOrder}
    {read : ByteArrayObjectDataInput.In (Option (List CodeUnit))} {inflate : Inflate} {ok : Bool}
    {itrs : ℕ} {q : ByteArrayObjectDataInput × List CodeUnit}
    (hwrite : ByteArrayObjectDataOutput.writeUTF bits (some us) out = .ok () out')
    (hread : readLoop read us.length itrs (.new out'.buffer 0 nativeOrder) = .ok ok s)
    (hinflate : inflateLoop inflate itrs (s, List.replicate us.length 0) = .ok () q) :
    loops bits out nativeOrder read inflate us itrs = .ok (ok, q.2) := by
  simp only [loops, hwrite, hread, hinflate]

/-- **The benchmark does not notice**: whatever text it is given, and however often it reads it,
both loops find that every string has the length of the text. But where `regularLoop` leaves the
text in `dst`, `jniLoop` leaves `dst` as it was allocated. -/
theorem loops_return (bits : Bits) (nativeOrder : ByteOrder) {s : List CodeUnit}
    (hmax : 6 * (4 + (encode s).length : ℤ) ≤ MAX_VALUE) {itrs : ℕ} (hitrs : 0 < itrs) :
    regularLoop bits nativeOrder s itrs = .ok (true, s) ∧
      jniLoop bits nativeOrder s itrs = .ok (true, List.replicate s.length 0) := by
  obtain ⟨out, tail, hwrite, hstart⟩ := atStart_new bits nativeOrder hmax
  obtain ⟨n, rfl⟩ : ∃ n, itrs = n + 1 := ⟨itrs - 1, by omega⟩
  have hle := length_le_encode s
  have hlen : (s.length : ℤ) ≤ MAX_VALUE := by omega
  have hdst : (List.replicate s.length (0 : CodeUnit)).length = s.length :=
    List.length_replicate
  constructor
  -- the text stands in `dst` from the first turn on
  · obtain ⟨r, hread, hr⟩ := readLoop_run (fun _ h => h) (fun _ h => h.readUTF hlen) n _ hstart
    have hturn : ∀ p : ByteArrayObjectDataInput × List CodeUnit,
        AtStart bits s tail p.1 ∧ p.2.length = s.length →
          ∃ q q', ByteArrayObjectDataInput.inflateUTF bits p = .ok () q ∧
            beside reset q = .ok () q' ∧ AtStart bits s tail q'.1 ∧ q'.2 = s :=
      fun _ h => h.1.inflateUTF hlen h.2
    obtain ⟨q, hinflate, -, hq⟩ := inflateLoop_run
      (fun p h => ⟨h.1, congrArg List.length h.2⟩) hturn n (r, _) ⟨hr, hdst⟩
    rw [regularLoop, loops_eq hwrite hread hinflate, hq]
  -- the first turn allocates a buffer of the length of the text, and `dst` is left alone
  · have hcap : ∀ t, Buffered bits s tail t → AtStart bits s tail t ∧ t.capacity ≤ s.length := by
      rintro t ⟨ht, buffer, hb, hfit⟩
      refine ⟨ht, ?_⟩
      rw [ByteArrayObjectDataInput.capacity, hb, Option.getD_some, hfit]
    obtain ⟨r, hread, hr⟩ := readLoop_run hcap (fun _ h => h.1.readUTFJNI hlen h.2) n _
      ⟨hstart, Nat.zero_le _⟩
    have hturn : ∀ p : ByteArrayObjectDataInput × List CodeUnit,
        Buffered bits s tail p.1 ∧ p.2 = List.replicate s.length 0 →
          ∃ q q', ByteArrayObjectDataInput.inflateUTFJNI bits p = .ok () q ∧
            beside reset q = .ok () q' ∧ Buffered bits s tail q'.1 ∧
              q'.2 = List.replicate s.length 0 := by
      rintro ⟨t, _⟩ ⟨ht, rfl⟩
      exact ht.inflateUTFJNI hlen hdst.ge
    obtain ⟨q, hinflate, -, hq⟩ :=
      inflateLoop_run (fun _ h => h) hturn n (r, _) ⟨hr, rfl⟩
    rw [jniLoop, loops_eq hwrite hread hinflate, hq]

/-- Two turns over a text of two characters. -/
theorem loops_return_two :
    regularLoop Bits.standard .LITTLE_ENDIAN [0x41, 0xE9] 2 = .ok (true, [0x41, 0xE9]) ∧
      jniLoop Bits.standard .LITTLE_ENDIAN [0x41, 0xE9] 2 = .ok (true, [0, 0]) :=
  loops_return Bits.standard .LITTLE_ENDIAN (by decide) (by decide)

end TestSSEDeserialization

end HzResearch
