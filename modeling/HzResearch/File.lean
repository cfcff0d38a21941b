import HzResearch.Splice

/-!
# Files with a cursor

A `File` is a list with a cursor in it. `write` overwrites from the cursor on and extends the
contents where they end, `patch` overwrites in place, `seek` moves the cursor.

A file may consist of records. `splice_flatten` says what an overwrite of one record by another of
the same length is: the file of the records with that one replaced. The records behind it stay
where they were (`offset_congr`).
-/

namespace HzResearch

variable {α : Type}

/-- A list with a cursor in it. -/
structure File (α : Type) where
  /-- the elements -/
  contents : List α
  /-- where the next `write` goes -/
  cursor : ℕ
  /-- the cursor is inside, or at the end -/
  cursor_le : cursor ≤ contents.length

namespace File

/-- Nothing has been written. -/
def empty : File α := ⟨[], 0, Nat.le_refl 0⟩

/-- The length of a list that is overwritten, and extended where it ends. -/
theorem length_splice_le {l xs : List α} {i : ℕ} (h : i ≤ l.length) :
    (splice l i xs).length = max l.length (i + xs.length) := by
  rw [splice, List.length_append, List.length_append, List.length_take, List.length_drop]
  omega

/-- An overwrite inside a front of a list. -/
theorem take_splice {l xs : List α} {i n : ℕ} (h : i + xs.length ≤ n) (hn : n ≤ l.length) :
    (splice l i xs).take n = splice (l.take n) i xs := by
  have hlen : (l.take i ++ xs).length = i + xs.length := by
    rw [List.length_append, List.length_take]
    omega
  rw [splice, splice, List.take_append, hlen, List.take_of_length_le (by omega), List.take_take,
    Nat.min_eq_left (by omega), List.drop_take]

/-- Overwrite from the cursor on. -/
def write (f : File α) (xs : List α) : File α where
  contents := splice f.contents f.cursor xs
  cursor := f.cursor + xs.length
  cursor_le := by
    rw [length_splice_le f.cursor_le]
    exact Nat.le_max_right _ _

/-- Overwrite a range; the cursor stays. -/
def patch (f : File α) (i : ℕ) (xs : List α) (h : i + xs.length ≤ f.contents.length) : File α where
  contents := splice f.contents i xs
  cursor := f.cursor
  cursor_le := by
    rw [length_splice h]
    exact f.cursor_le

/-- Move the cursor. -/
def seek (f : File α) (i : ℕ) (h : i ≤ f.contents.length) : File α := ⟨f.contents, i, h⟩

@[simp] theorem contents_write (f : File α) (xs : List α) :
    (f.write xs).contents = splice f.contents f.cursor xs := rfl

@[simp] theorem cursor_write (f : File α) (xs : List α) :
    (f.write xs).cursor = f.cursor + xs.length := rfl

/-- A write that reaches the end leaves nothing of what stood behind the cursor. -/
theorem contents_write_of_le {f : File α} {xs : List α}
    (h : f.contents.length ≤ f.cursor + xs.length) :
    (f.write xs).contents = f.contents.take f.cursor ++ xs := by
  rw [contents_write, splice, List.drop_eq_nil_of_le h, List.append_nil]

/-- A write at the end appends. -/
theorem contents_write_end {f : File α} (h : f.cursor = f.contents.length) (xs : List α) :
    (f.write xs).contents = f.contents ++ xs := by
  rw [contents_write_of_le (by omega), h, List.take_length]

end File

/-! ## Records -/

/-- Where a record starts. -/
def offset (rs : List (List α)) (k : ℕ) : ℕ := (rs.take k).flatten.length

theorem offset_le (rs : List (List α)) (k : ℕ) : offset rs k ≤ rs.flatten.length := by
  have hflat : rs.flatten = (rs.take k).flatten ++ (rs.drop k).flatten := by
    rw [← List.flatten_append, List.take_append_drop]
  rw [offset, hflat, List.length_append]
  omega

/-- A file of records around one of them. -/
theorem flatten_eq_around {rs : List (List α)} {k : ℕ} (hk : k < rs.length) :
    rs.flatten = (rs.take k).flatten ++ rs[k] ++ (rs.drop (k + 1)).flatten := by
  conv_lhs => rw [← List.take_append_drop k rs, List.drop_eq_getElem_cons hk]
  rw [List.flatten_append, List.flatten_cons, List.append_assoc]

/-- A record lies inside the file. -/
theorem offset_add_le {rs : List (List α)} {k : ℕ} (hk : k < rs.length) :
    offset rs k + rs[k].length ≤ rs.flatten.length := by
  rw [flatten_eq_around hk, List.length_append, List.length_append, offset]
  omega

/-- **One record is overwritten by another of the same length.** -/
theorem splice_flatten {rs : List (List α)} {k : ℕ} (hk : k < rs.length) {x : List α}
    (hx : x.length = rs[k].length) :
    splice rs.flatten (offset rs k) x = (rs.set k x).flatten := by
  have hset : (rs.set k x).flatten = (rs.take k).flatten ++ x ++ (rs.drop (k + 1)).flatten := by
    rw [flatten_eq_around (by rw [List.length_set]; exact hk), List.getElem_set_self,
      List.take_set_of_le (Nat.le_refl k), List.drop_set_of_lt (Nat.lt_succ_self k)]
  rw [hset, flatten_eq_around hk, splice, offset, List.append_assoc (rs.take k).flatten,
    List.take_left' rfl, hx, ← List.append_assoc, ← List.length_append, List.drop_left' rfl]

/-- Where a record starts depends on the lengths of the records only. -/
theorem offset_congr {rs rs' : List (List α)} (h : rs.map List.length = rs'.map List.length)
    (k : ℕ) : offset rs k = offset rs' k := by
  rw [offset, offset, List.length_flatten, List.length_flatten, List.map_take, List.map_take, h]

/-- A record of the same length changes no lengths. -/
theorem map_length_set {rs : List (List α)} {k : ℕ} (hk : k < rs.length) {x : List α}
    (hx : x.length = rs[k].length) : (rs.set k x).map List.length = rs.map List.length := by
  have hk' : k < (rs.map List.length).length := by rwa [List.length_map]
  have hget : x.length = (rs.map List.length)[k] := by rw [hx, List.getElem_map]
  rw [List.map_set, hget, List.set_getElem_self]

end HzResearch
