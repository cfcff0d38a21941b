import HzResearch.File
import HzResearch.Reuse

/-!
# The writer as a file

Seeks, positional and sequential writes together make the writer a file of bytes: what has been
written is the contents, `pos` is the cursor (`Represents`). `Edits` says which calls the file
permits and what they do to it: seeks and positional writes stay inside the contents, and a
sequential write in front of data finds room for everything it reserves, or overwrites all of that
data. Calls that write no strings always do one or the other (`Edits.write_of_not_hasStrings`).

`runAll_represents` is the refinement over runs of calls.
-/

namespace HzResearch

open Java

namespace ByteArrayObjectDataOutput

variable {bits : Bits} {e : Bool} {w w' : ByteArrayObjectDataOutput} {b : List Byte}
  {f f' : File Byte}

/-! ## The file of a writer -/

/-- The writer holds the contents of the file from the first byte of its buffer on; what stands
behind them does not matter. -/
structure Represents (f : File Byte) (w : ByteArrayObjectDataOutput) : Prop where
  /-- the fields are sane -/
  sane : Sane w
  /-- `pos` is the cursor -/
  pos_eq : w.pos = f.cursor
  /-- the contents -/
  take_eq : w.bytes.take f.contents.length = f.contents

theorem Represents.length_le (h : Represents f w) : f.contents.length ≤ w.bytes.length := by
  have hlen := congrArg List.length h.take_eq
  rw [List.length_take] at hlen
  omega

theorem Represents.pos_le (h : Represents f w) : w.pos ≤ w.bytes.length := by
  have hcursor := f.cursor_le
  have hlen := h.length_le
  rw [h.pos_eq]
  omega

/-- A file that is not empty needs a buffer. -/
theorem Represents.buffer_some (h : Represents f w) (hne : f.contents ≠ []) :
    ∃ b, w.buffer = some b := by
  refine Option.ne_none_iff_exists'.1 fun hb => hne ?_
  rw [← h.take_eq, bytes_none hb, List.take_nil]

theorem Represents.written_eq (h : Represents f w) : w.written = f.contents.take f.cursor := by
  rw [written, h.pos_eq, Int.toNat_natCast]
  conv_rhs => rw [← h.take_eq]
  rw [List.take_take, Nat.min_eq_left f.cursor_le]

theorem Represents.toByteArray_eq (h : Represents f w) :
    toByteArray w = .ok (f.contents.take f.cursor) w := by
  rw [toByteArray_run h.sane h.pos_le, h.written_eq]

theorem represents_empty (h : Sane w) (hpos : w.pos = 0) : Represents .empty w where
  sane := h
  pos_eq := hpos
  take_eq := List.take_zero

/-! ## What a call does to the file -/

/-- The calls that the file permits, and the file after them. -/
inductive Edits (bits : Bits) (e : Bool) : Op → File Byte → File Byte → Prop
  /-- a sequential write with room for all reservations, or one that reaches the end -/
  | write {f : File Byte} {c : Write} : c.Accepted →
    Roomy f.contents.length f.cursor (c.chunks bits e) ∨
      f.contents.length ≤ f.cursor + (c.encoding bits e).length →
    Edits bits e (.call (.write c)) f (f.write (c.encoding bits e))
  | clear {f : File Byte} : Edits bits e (.call .clear) f .empty
  | close {f : File Byte} : Edits bits e (.call .close) f .empty
  /-- a positional write inside the contents -/
  | patch {f : File Byte} {c : WriteAt} {i : BitVec 32} : 0 ≤ i.toInt →
    (h : i.toInt.toNat + (c.bytes bits e).length ≤ f.contents.length) →
    Edits bits e (.writeAt c i) f (f.patch i.toInt.toNat (c.bytes bits e) h)
  /-- a seek inside the contents, or to their end -/
  | seek {f : File Byte} {i : BitVec 32} : f.contents ≠ [] → 0 ≤ i.toInt →
    (h : i.toInt.toNat ≤ f.contents.length) →
    Edits bits e (.position i) f (f.seek i.toInt.toNat h)

/-- The file before and after these calls. -/
inductive EditsAll (bits : Bits) (e : Bool) : List Op → File Byte → File Byte → Prop
  | nil {f : File Byte} : EditsAll bits e [] f f
  | cons {o : Op} {os : List Op} {f g f' : File Byte} : Edits bits e o f g →
    EditsAll bits e os g f' → EditsAll bits e (o :: os) f f'

theorem Edits.patch_of_eq {c : WriteAt} {i : BitVec 32} {n : ℕ} {xs : List Byte}
    (hi : i.toInt = n) (hxs : c.bytes bits e = xs) (h : n + xs.length ≤ f.contents.length) :
    Edits bits e (.writeAt c i) f (f.patch n xs h) := by
  obtain rfl : i.toInt.toNat = n := by omega
  subst hxs
  exact .patch (by omega) h

theorem Edits.seek_of_eq {i : BitVec 32} {n : ℕ} (hne : f.contents ≠ []) (hi : i.toInt = n)
    (h : n ≤ f.contents.length) : Edits bits e (.position i) f (f.seek n h) := by
  obtain rfl : i.toInt.toNat = n := by omega
  exact .seek hne (by omega) h

theorem EditsAll.append {ops ops' : List Op} {g : File Byte} (h : EditsAll bits e ops f g)
    (h' : EditsAll bits e ops' g f') : EditsAll bits e (ops ++ ops') f f' := by
  induction h with
  | nil => exact h'
  | cons ho _ ih => exact .cons ho (ih h')

/-- A call that writes no strings is permitted everywhere. -/
theorem Edits.write_of_not_hasStrings {c : Write} (hacc : c.Accepted) (hsized : c.Sized)
    (hs : ¬ c.HasStrings) (f : File Byte) :
    Edits bits e (.call (.write c)) f (f.write (c.encoding bits e)) := by
  refine .write hacc ?_
  have hexact : ∀ ch ∈ c.chunks bits e, ch.room ≤ ch.bytes.length := c.room_le_length hsized hs
  rcases roomy_or_of_exact hexact f.contents.length f.cursor with hroomy | hlt
  · exact .inl hroomy
  · refine .inr ?_
    rw [Write.encoding]
    omega

/-- Room in a buffer is room in a longer one. -/
theorem Roomy.mono {length length' : ℤ} (hle : length ≤ length') :
    ∀ {cs : List Chunk} {pos : ℤ}, Roomy length pos cs → Roomy length' pos cs
  | [], _, _ => trivial
  | _ :: _, _, ⟨hroom, hroomy⟩ => ⟨by omega, hroomy.mono hle⟩

theorem WriteAt.width_pos (c : WriteAt) : 0 < c.width := by
  cases c <;>
    simp [WriteAt.width, CHAR_SIZE_IN_BYTES, SHORT_SIZE_IN_BYTES, INT_SIZE_IN_BYTES,
      LONG_SIZE_IN_BYTES]

/-! ## One call -/

/-- Behind the bytes written the buffer is as it was. -/
theorem Wrote.drop_eq {cs : List Chunk} (hw : Wrote w cs w')
    (hroomy : Roomy w.bytes.length w.pos cs) :
    w'.bytes.drop w'.pos.toNat = w.bytes.drop w'.pos.toNat := by
  refine List.ext_getElem? fun i => ?_
  rw [List.getElem?_drop, List.getElem?_drop]
  exact (hw.kept hroomy).2 _ (Nat.le_add_right _ _)

theorem Represents.wrote {cs : List Chunk} (h : Represents f w) (hw : Wrote w cs w')
    (hroom : Roomy f.contents.length f.cursor cs ∨
      f.contents.length ≤ f.cursor + (flat cs).length) :
    Represents (f.write (flat cs)) w' := by
  have hpos : w'.pos = ((f.write (flat cs)).cursor : ℕ) := by
    rw [hw.pos_eq, h.pos_eq, File.cursor_write, Int.natCast_add]
  have hfront : w'.bytes.take (f.write (flat cs)).cursor = f.contents.take f.cursor ++ flat cs := by
    have hold : w.bytes.take w.pos.toNat = f.contents.take f.cursor := h.written_eq
    rw [← hold, ← hw.front, hpos, Int.toNat_natCast]
  refine ⟨hw.keeps.sane, hpos, ?_⟩
  by_cases hend : f.contents.length ≤ f.cursor + (flat cs).length
  · have hcursor : f.cursor + (flat cs).length = (f.write (flat cs)).contents.length := by
      rw [File.contents_write, File.length_splice_le f.cursor_le, Nat.max_eq_right hend]
    rw [← hcursor, File.contents_write_of_le hend, ← hfront]
    rfl
  · -- bytes of the file stand behind those written, and all reservations fit
    have hroomy : Roomy w.bytes.length w.pos cs := by
      rw [h.pos_eq]
      exact (hroom.resolve_right hend).mono (by exact_mod_cast h.length_le)
    have hback := hw.drop_eq hroomy
    rw [hpos, Int.toNat_natCast] at hback
    have hlen : (f.write (flat cs)).contents.length = f.contents.length := by
      rw [File.contents_write, length_splice (by omega)]
    have hsplit : f.contents.length = (f.write (flat cs)).cursor +
        (f.contents.length - (f.write (flat cs)).cursor) := by
      rw [File.cursor_write]
      omega
    rw [hlen]
    conv_lhs => rw [hsplit]
    rw [List.take_add, hfront, hback, ← List.drop_take, h.take_eq, File.contents_write, splice,
      File.cursor_write]

theorem Represents.patched {xs : List Byte} {i : ℕ} (h : Represents f w) (hb : w.buffer = some b)
    (hi : i + xs.length ≤ f.contents.length) :
    Represents (f.patch i xs hi) { w with buffer := some (splice b i xs) } := by
  have hle := h.length_le
  have htake := h.take_eq
  have hsane := h.sane
  rw [bytes_some hb] at hle htake
  have hlen : (splice b i xs).length = b.length := length_splice (by omega)
  refine ⟨⟨hsane.initialSize_nonneg, hsane.initialSize_le, hsane.pos_nonneg, ?_, ?_, fun hnone => by
    cases hnone⟩, h.pos_eq, ?_⟩
  · have hpos := hsane.pos_le
    rw [bytes_some hb] at hpos
    rw [bytes_some rfl, hlen]
    exact hpos
  · have hmax := hsane.length_le
    rw [bytes_some hb] at hmax
    rw [bytes_some rfl, hlen]
    exact hmax
  · have hsame : (f.patch i xs hi).contents.length = f.contents.length := length_splice hi
    rw [bytes_some rfl, hsame, File.take_splice hi hle, htake]
    rfl

/-- **One call that the file permits**, if no capacity expression exceeds the `int` range. -/
theorem Edits.run {o : Op} (ho : Edits bits e o f f') (h : Represents f w)
    (he : w.isBigEndian = e) (hpeak : (after (o.run bits) w).peak ≤ MAX_VALUE) :
    o.run bits w = .ok () (after (o.run bits) w) ∧ Represents f' (after (o.run bits) w) := by
  cases ho with
  | @write f c hacc hroom =>
    have hends : Ends w (c.chunks bits e) (c.run bits) := (c.writes bits hacc).run h.sane he
    change (after (c.run bits) w).peak ≤ MAX_VALUE at hpeak
    change c.run bits w = .ok () (after (c.run bits) w) ∧ Represents _ (after (c.run bits) w)
    rcases hends with ⟨w', hrun, hw⟩ | ⟨x, w', hrun, -, hbad⟩
    · rw [after_ok hrun]
      exact ⟨hrun, h.wrote hw hroom⟩
    · rw [after_error hrun] at hpeak
      have := hbad hpeak
      have := h.pos_le
      omega
  | clear =>
    obtain ⟨hkeeps, hpos, hok⟩ := clear_run h.sane
    exact ⟨hok hpeak, represents_empty hkeeps.sane hpos⟩
  | close => exact ⟨rfl, represents_empty (close_run h.sane).sane rfl⟩
  | @patch f c i h0 hin =>
    have hwidth : ((c.bytes bits e).length : ℤ) = c.width := c.length_bytes
    have hpos : 0 < c.width := c.width_pos
    have hle := h.length_le
    obtain ⟨b, hb⟩ := h.buffer_some (List.ne_nil_of_length_pos (by omega))
    rw [bytes_some hb] at hle
    have hrun : c.run bits i.toInt w = .ok () { w with
        buffer := some (splice b i.toInt.toNat (c.bytes bits w.isBigEndian)) } :=
      c.run_inside hb h0 (by omega)
    have horder : c.bytes bits w.isBigEndian = c.bytes bits e := by rw [he]
    rw [horder] at hrun
    change c.run bits i.toInt w = .ok () (after (c.run bits i.toInt) w) ∧
      Represents _ (after (c.run bits i.toInt) w)
    rw [after_ok hrun]
    exact ⟨hrun, h.patched hb hin⟩
  | @seek f i hne h0 hin =>
    have hle := h.length_le
    obtain ⟨b, hb⟩ := h.buffer_some hne
    rw [bytes_some hb] at hle
    have hrun : position i.toInt w = .ok () { w with pos := i.toInt } := by
      rw [position_some hb, if_neg (by omega)]
    have hkeeps : Keeps w (after (position i.toInt) w) := position_keeps h.sane i.toInt
    change position i.toInt w = .ok () (after (position i.toInt) w) ∧
      Represents _ (after (position i.toInt) w)
    rw [after_ok hrun] at hkeeps ⊢
    exact ⟨hrun, hkeeps.sane, (Int.toNat_of_nonneg h0).symm, h.take_eq⟩

/-! ## Runs -/

/-- The outcomes of calls that all return. -/
def returned (ops : List Op) : List (Except Stop Unit) := ops.map fun _ => .ok ()

theorem runAll_cons_ok {o : Op} {os : List Op} {xs : List (Except Stop Unit)}
    {w'' : ByteArrayObjectDataOutput} (hrun : o.run bits w = .ok () w')
    (hruns : Op.runAll bits os w' = .ok xs w'') :
    Op.runAll bits (o :: os) w = .ok (.ok () :: xs) w'' := by
  have hattempt : attempt (o.run bits) w = .ok (.ok ()) w' := by
    rw [attempt, outcome_ok hrun, after_ok hrun]
  rw [Op.runAll, bind_ok hattempt, bind_ok hruns]
  rfl

/-- **A run that the file permits**, from any writer that represents it. -/
theorem EditsAll.run {ops : List Op} (hops : EditsAll bits e ops f f') :
    ∀ {w : ByteArrayObjectDataOutput}, Represents f w → w.isBigEndian = e →
      (after (Op.runAll bits ops) w).peak ≤ MAX_VALUE →
        Op.runAll bits ops w = .ok (returned ops) (after (Op.runAll bits ops) w) ∧
          Represents f' (after (Op.runAll bits ops) w) := by
  induction hops with
  | nil => exact fun h _ _ => ⟨rfl, h⟩
  | @cons o os f g f' ho hos ih =>
    intro w h he hpeak
    rw [after_runAll_cons] at hpeak ⊢
    have hkeeps : Keeps w (after (o.run bits) w) := o.keeps h.sane
    obtain ⟨hrun, h'⟩ := ho.run h he ((runAll_keeps os hkeeps.sane).peak_le.trans hpeak)
    obtain ⟨hruns, h''⟩ := ih h' (hkeeps.isBigEndian_eq.trans he) hpeak
    exact ⟨runAll_cons_ok hrun hruns, h''⟩

theorem represents_new {size : ℤ} (h0 : 0 ≤ size) (h : size ≤ MAX_VALUE) (order : ByteOrder) :
    Represents .empty (new size order) :=
  represents_empty (new_sane h0 h order) rfl

/-- **The writer is a file**: whatever the initial size, as long as no capacity expression exceeds
the `int` range, every call of a run that the file permits returns, and the writer represents the
file that the calls lead to. `toByteArray` is the contents up to the cursor. -/
theorem runAll_represents (bits : Bits) {size : ℤ} (h0 : 0 ≤ size) (h : size ≤ MAX_VALUE)
    (order : ByteOrder) {ops : List Op} {f : File Byte}
    (hops : EditsAll bits (order == .BIG_ENDIAN) ops .empty f)
    (hpeak : (after (Op.runAll bits ops) (new size order)).peak ≤ MAX_VALUE) :
    ∃ w, Op.runAll bits ops (new size order) = .ok (returned ops) w ∧ Represents f w ∧
      toByteArray w = .ok (f.contents.take f.cursor) w := by
  obtain ⟨hrun, hrep⟩ := hops.run (represents_new h0 h order) rfl hpeak
  exact ⟨_, hrun, hrep, hrep.toByteArray_eq⟩

/-- Two numbers; the second half of the first is overwritten in place, then the second byte of the
second by a sequential write, and `pos` goes back behind the first. -/
def rewriting : List Op :=
  [.call (.write (.writeInt 0x01020304 none)), .call (.write (.writeShort 0x0506 none)),
    .writeAt (.writeShort 0x0708 none) 2, .position 5, .call (.write (.writeByte 9)), .position 4]

theorem runAll_represents_rewriting :
    ∃ (f : File Byte) (w : ByteArrayObjectDataOutput),
      Op.runAll Bits.standard rewriting (new 0 .BIG_ENDIAN) = .ok (returned rewriting) w ∧
        Represents f w ∧ f.contents = [1, 2, 7, 8, 5, 9] ∧ toByteArray w = .ok [1, 2, 7, 8] w := by
  have hops : EditsAll Bits.standard true rewriting .empty _ :=
    .cons (.write (c := .writeInt 0x01020304 none) trivial (.inr (by decide)))
      (.cons (.write (c := .writeShort 0x0506 none) trivial (.inr (by decide)))
        (.cons (.patch (c := .writeShort 0x0708 none) (i := 2) (by decide) (by decide))
          (.cons (.seek (i := 5) (by decide) (by decide) (by decide))
            (.cons (.write (c := .writeByte 9) trivial (.inl (by decide)))
              (.cons (.seek (i := 4) (by decide) (by decide) (by decide)) .nil)))))
  obtain ⟨w, hrun, hrep, hbytes⟩ :=
    runAll_represents Bits.standard (le_refl 0) (by decide) .BIG_ENDIAN hops (by decide)
  exact ⟨_, w, hrun, hrep, rfl, hbytes⟩

end ByteArrayObjectDataOutput

end HzResearch
