import HzResearch.Cursor
import HzResearch.Growth
import HzResearch.InPlace

/-!
# A writer and a reader that are reused

One writer writes a stream, hands out its bytes and is emptied for the next one; one reader
is given the bytes, reads the stream and is emptied too. `deliver_returns` says that the
streams come out of the reader as they have gone into the writer, whatever they were and
however both sides are emptied: nothing of an earlier stream is left in a buffer where it
could be seen, and no capacity expression wraps.
-/

namespace HzResearch

open Java

open ByteArrayObjectDataOutput (Out Sane Keeps Writes)
open ByteArrayObjectDataInput (In)

/-- How a writer or a reader is made ready for the next stream. -/
inductive Emptying : Type where
  | clear
  | close

/-- The method of the writer. -/
def Emptying.writer : Emptying → Out Unit
  | .clear => ByteArrayObjectDataOutput.clear
  | .close => ByteArrayObjectDataOutput.close

/-- The method of the reader. -/
def Emptying.reader (UTF_BUFFER_SIZE : ℤ) : Emptying → In Unit
  | .clear => ByteArrayObjectDataInput.clear UTF_BUFFER_SIZE
  | .close => ByteArrayObjectDataInput.close

/-- A stream, and how both sides are emptied behind it. -/
structure Delivery : Type where
  /-- the stream -/
  items : List Item
  /-- how the writer is emptied -/
  writer : Emptying
  /-- how the reader is emptied -/
  reader : Emptying

variable (bits : Bits) (UTF_BUFFER_SIZE : ℤ)

/-- The calls on the writer. -/
def Delivery.send (d : Delivery) : Out (List Byte) := do
  writeItems bits d.items
  let data ← ByteArrayObjectDataOutput.toByteArray
  d.writer.writer
  return data

/-- The calls on the reader. -/
def Delivery.receive (d : Delivery) (data : List Byte) : In (List Item) := do
  ByteArrayObjectDataInput.init (some data) 0
  let items ← readItems bits (d.items.map Item.kind)
  d.reader.reader UTF_BUFFER_SIZE
  return items

/-- One stream after the other, with the same writer and the same reader. -/
def deliver : List Delivery → ByteArrayObjectDataOutput → ByteArrayObjectDataInput →
    Except Stop (List (List Item))
  | [], _, _ => .ok []
  | d :: ds, out, reader =>
    match d.send bits out with
    | .error e _ => .error e
    | .ok data out =>
      match d.receive bits UTF_BUFFER_SIZE data reader with
      | .error e _ => .error e
      | .ok items reader =>
        match deliver ds out reader with
        | .error e => .error e
        | .ok streams => .ok (items :: streams)

/-! ## The writer -/

section Writer

variable {bits} {w : ByteArrayObjectDataOutput}

/-- The writer is ready for a stream. -/
structure Idle (w : ByteArrayObjectDataOutput) : Prop where
  /-- the fields are sane -/
  sane : Sane w
  /-- the array is not too long -/
  tight : w.extent.Tight (8 * w.initialSize)
  /-- nothing is written -/
  written_eq : w.written = []

theorem idle_new {size : ℤ} (h0 : 0 ≤ size) (h : 8 * size ≤ MAX_VALUE) (order : ByteOrder) :
    Idle (.new size order) :=
  ⟨ByteArrayObjectDataOutput.new_sane h0 (by omega) order,
    ByteArrayObjectDataOutput.tight_new h0 (show size ≤ 8 * size by omega) order, rfl⟩

/-- A writer that is emptied is ready. -/
theorem Emptying.writer_returns (a : Emptying) (h : Sane w) (hsize : 8 * w.initialSize ≤ MAX_VALUE)
    (hx : w.extent.Tight (8 * w.initialSize)) :
    ∃ w', a.writer w = .ok () w' ∧ Keeps w w' ∧ Idle w' := by
  have hcall : ∃ c : ByteArrayObjectDataOutput.Call, c.run Bits.standard = a.writer ∧ c.Proper ∧
      ∀ acc, c.contents Bits.standard w.isBigEndian acc = [] := by
    cases a with
    | clear => exact ⟨.clear, rfl, trivial, fun _ => rfl⟩
    | close => exact ⟨.close, rfl, trivial, fun _ => rfl⟩
  obtain ⟨c, hc, hproper, hempty⟩ := hcall
  obtain ⟨w', hrun, hkeeps, htight, hwritten⟩ := c.fits Bits.standard hproper h hsize hx
    (by rw [hempty]; decide)
  rw [hc] at hrun
  rw [← hkeeps.initialSize_eq] at htight
  rw [hempty] at hwritten
  exact ⟨w', hrun, hkeeps, hkeeps.sane, htight, hwritten⟩

variable (bits) in
/-- The bytes of a stream are handed out, and the writer is ready again. -/
theorem Idle.send (h : Idle w) (hsize : 8 * w.initialSize ≤ MAX_VALUE) (d : Delivery)
    (hmax : 6 * ((encodeItems bits w.isBigEndian d.items).length : ℤ) ≤ MAX_VALUE) :
    ∃ w', d.send bits w = .ok (encodeItems bits w.isBigEndian d.items) w' ∧ Keeps w w' ∧
      Idle w' := by
  have hitems : ∀ item ∈ d.items, item.Sized :=
    sized_of_encodeItems (show ((encodeItems bits w.isBigEndian d.items).length : ℤ) ≤ _ by omega)
  have hmodest : ∀ c ∈ d.items.flatMap fun item => item.write.chunks bits w.isBigEndian,
      (3 * c.bytes.length : ℤ) ≤ MAX_VALUE → c.Modest := by
    intro c hc
    obtain ⟨item, hitem, hc⟩ := List.mem_flatMap.1 hc
    exact item.write.modest bits w.isBigEndian (Item.sized_write (hitems item hitem)) c hc
  obtain ⟨w₁, hwrite, hw, htight, -⟩ := (writeItems_writes bits d.items).fits hmodest h.sane h.tight
    (by rw [h.written_eq, List.nil_append, flat_items]; exact hmax)
  have hin := htight.pos_le
  rw [ByteArrayObjectDataOutput.extent_pos, ByteArrayObjectDataOutput.extent_limit] at hin
  have hbytes : ByteArrayObjectDataOutput.toByteArray w₁ =
      .ok (encodeItems bits w.isBigEndian d.items) w₁ := by
    have hfront : w₁.written = w.written ++ _ := hw.front
    rw [h.written_eq, List.nil_append, flat_items] at hfront
    exact (ByteArrayObjectDataOutput.toByteArray_run hw.keeps.sane hin).trans
      (congrArg (EStateM.Result.ok · _) hfront)
  rw [← hw.keeps.initialSize_eq] at hsize htight
  obtain ⟨w₂, hempty, hkeeps, hidle⟩ := d.writer.writer_returns hw.keeps.sane hsize htight
  refine ⟨w₂, ?_, hw.keeps.trans hkeeps, hidle⟩
  rw [Delivery.send, bind_ok hwrite, bind_ok hbytes, bind_ok hempty]
  rfl

end Writer

/-! ## The reader -/

section Reader

variable {bits} {UTF_BUFFER_SIZE} {s : ByteArrayObjectDataInput}

theorem Emptying.reader_returns (hn : 0 ≤ jint (UTF_BUFFER_SIZE * 8)) (a : Emptying)
    (s : ByteArrayObjectDataInput) :
    ∃ s', a.reader UTF_BUFFER_SIZE s = .ok () s' ∧ s'.bigEndian = s.bigEndian := by
  cases a with
  | close => exact ⟨_, rfl, rfl⟩
  | clear =>
    obtain ⟨c, -, hrun | ⟨hneg, -⟩⟩ := ByteArrayObjectDataInput.clear_cases UTF_BUFFER_SIZE s
    · exact ⟨_, hrun, rfl⟩
    · omega

variable (bits) in
/-- Whatever the reader has been used for, it reads the stream. -/
theorem Delivery.receive_returns (hn : 0 ≤ jint (UTF_BUFFER_SIZE * 8)) (d : Delivery)
    (s : ByteArrayObjectDataInput)
    (hmax : ((encodeItems bits s.bigEndian d.items).length : ℤ) ≤ MAX_VALUE) :
    ∃ s', d.receive bits UTF_BUFFER_SIZE (encodeItems bits s.bigEndian d.items) s =
      .ok d.items s' ∧ s'.bigEndian = s.bigEndian := by
  have hin : ByteArrayObjectDataInput.InBounds { s with
      data := some (encodeItems bits s.bigEndian d.items)
      size := (encodeItems bits s.bigEndian d.items).length
      pos := 0 } := ⟨rfl, hmax, le_refl 0, Int.natCast_nonneg _⟩
  obtain ⟨s₁, hread, hpast⟩ := readItems_decodes d.items (sized_of_encodeItems hmax) hin rfl
    (List.append_nil _).symm
  obtain ⟨s₂, hempty, horder⟩ := d.reader.reader_returns hn s₁
  refine ⟨s₂, ?_, horder.trans hpast.bigEndian_eq⟩
  have hinit : ByteArrayObjectDataInput.init (some (encodeItems bits s.bigEndian d.items)) 0 s =
      .ok () _ := rfl
  rw [Delivery.receive, bind_ok hinit]
  exact (bind_ok hread).trans (bind_ok hempty)

end Reader

/-! ## Both -/

variable {UTF_BUFFER_SIZE}

/-- Deliveries from any idle writer to any reader of its order. -/
theorem deliver_idle (hn : 0 ≤ jint (UTF_BUFFER_SIZE * 8)) {e : Bool} (ds : List Delivery) :
    ∀ {w : ByteArrayObjectDataOutput} {s : ByteArrayObjectDataInput}, Idle w →
      8 * w.initialSize ≤ MAX_VALUE → w.isBigEndian = e → s.bigEndian = e →
        (∀ d ∈ ds, 6 * ((encodeItems bits e d.items).length : ℤ) ≤ MAX_VALUE) →
          deliver bits UTF_BUFFER_SIZE ds w s = .ok (ds.map Delivery.items) := by
  induction ds with
  | nil => exact fun _ _ _ _ _ => rfl
  | cons d ds ih =>
    intro w s h hsize hw hs hmax
    have hd := hmax d List.mem_cons_self
    obtain ⟨w', hsend, hkeeps, hidle⟩ := h.send bits hsize d (by rw [hw]; exact hd)
    obtain ⟨s', hreceive, horder⟩ := d.receive_returns bits hn s (by rw [hs]; omega)
    rw [hw] at hsend
    rw [hs] at hreceive
    have hrest := ih hidle (by rw [hkeeps.initialSize_eq]; exact hsize)
      (hkeeps.isBigEndian_eq.trans hw) (horder.trans hs)
      fun d' hd' => hmax d' (List.mem_cons_of_mem d hd')
    simp only [deliver, hsend, hreceive, hrest, List.map_cons]

/-- **Streams are delivered**: a writer and a reader that are cleared or closed behind every stream
deliver any number of them as they are, as long as eight times the initial size and six times the
length of each stream are `int`s. -/
theorem deliver_returns (hn : 0 ≤ jint (UTF_BUFFER_SIZE * 8)) {size : ℤ} (h0 : 0 ≤ size)
    (h : 8 * size ≤ MAX_VALUE) (order : ByteOrder) {ds : List Delivery}
    (hmax : ∀ d ∈ ds,
      6 * ((encodeItems bits (order == .BIG_ENDIAN) d.items).length : ℤ) ≤ MAX_VALUE) :
    deliver bits UTF_BUFFER_SIZE ds (.new size order) (.new none 0 order) =
      .ok (ds.map Delivery.items) :=
  deliver_idle bits hn ds (idle_new h0 h order) h rfl rfl hmax

/-- A string and a number, a shorter string, and nothing. -/
theorem deliver_returns_three :
    deliver Bits.standard 1024
        [⟨[⟨.utf, some [0x41, 0xE9]⟩, ⟨.int none, 7#32⟩], .clear, .close⟩,
          ⟨[⟨.utf, some [0x42]⟩], .close, .clear⟩, ⟨[], .clear, .clear⟩]
        (.new 1 .LITTLE_ENDIAN) (.new none 0 .LITTLE_ENDIAN) =
      .ok [[⟨.utf, some [0x41, 0xE9]⟩, ⟨.int none, 7#32⟩], [⟨.utf, some [0x42]⟩], []] :=
  deliver_returns Bits.standard (by decide) (by decide) (by decide) .LITTLE_ENDIAN (by decide)

end HzResearch
