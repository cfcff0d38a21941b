import Mathlib.Data.List.Basic

/-!
# Overwriting a range of an array

`splice l i xs` is the array `l` after the elements from index `i` on have been
overwritten by `xs`. Inside the array the length stays, everything outside
`[i, i + xs.length)` keeps its value, and two adjacent overwrites are one.
-/

namespace HzResearch

variable {α : Type}

/-- Overwrite `l` with `xs` from index `i` on. -/
def splice (l : List α) (i : ℕ) (xs : List α) : List α :=
  l.take i ++ xs ++ l.drop (i + xs.length)

/-- An overwrite inside the array keeps its length. -/
theorem length_splice {l : List α} {i : ℕ} {xs : List α} (h : i + xs.length ≤ l.length) :
    (splice l i xs).length = l.length := by
  simp only [splice, List.length_append, List.length_take, List.length_drop]
  omega

/-- Everything below the written range and the range itself. -/
theorem take_splice_end {l : List α} {i : ℕ} {xs : List α} (h : i ≤ l.length) :
    (splice l i xs).take (i + xs.length) = l.take i ++ xs := by
  have hlen : (l.take i ++ xs).length = i + xs.length := by
    rw [List.length_append, List.length_take, Nat.min_eq_left h]
  rw [splice, List.take_left' hlen]

/-- Everything below the written range and a front of it. -/
theorem take_splice_add {l : List α} {i n : ℕ} {xs : List α} (h : i ≤ l.length)
    (hn : n ≤ xs.length) : (splice l i xs).take (i + n) = l.take i ++ xs.take n := by
  have hlen : (l.take i).length = i := by rw [List.length_take, Nat.min_eq_left h]
  rw [splice, List.append_assoc, List.take_append, hlen, List.take_of_length_le (by omega),
    Nat.add_sub_cancel_left, List.take_append_of_le_length hn]

/-- What lies below the written range is untouched. -/
theorem take_splice_of_le {l : List α} {i j : ℕ} {xs : List α} (hj : j ≤ i) (h : i ≤ l.length) :
    (splice l i xs).take j = l.take j := by
  have hle : j ≤ (l.take i).length := by
    rw [List.length_take]
    omega
  rw [splice, List.append_assoc, List.take_append_of_le_length hle, List.take_take,
    Nat.min_eq_left hj]

/-- What lies above the written range is untouched. -/
theorem drop_splice_of_le {l : List α} {i j : ℕ} {xs : List α} (hj : i + xs.length ≤ j)
    (h : i ≤ l.length) : (splice l i xs).drop j = l.drop j := by
  have hlen : (l.take i ++ xs).length = i + xs.length := by
    rw [List.length_append, List.length_take, Nat.min_eq_left h]
  rw [splice, List.drop_append, hlen, List.drop_eq_nil_of_le (by omega), List.nil_append,
    List.drop_drop]
  congr 1
  omega

/-- An element outside the written range keeps its value. -/
theorem getElem?_splice_of_not_mem {l : List α} {i j : ℕ} {xs : List α} (h : i ≤ l.length)
    (hj : j < i ∨ i + xs.length ≤ j) : (splice l i xs)[j]? = l[j]? := by
  rcases hj with hj | hj
  · have htake : (splice l i xs).take (j + 1) = l.take (j + 1) := take_splice_of_le hj h
    have := congrArg (fun m => m[j]?) htake
    simpa [List.getElem?_take] using this
  · have := congrArg (fun m => m[0]?) (drop_splice_of_le (j := j) hj h)
    simpa [List.getElem?_drop] using this

/-- An element of the written range is the one written there. -/
theorem getElem?_splice_of_mem {l : List α} {i j : ℕ} {xs : List α} (h : i ≤ l.length)
    (hj : j < xs.length) : (splice l i xs)[i + j]? = xs[j]? := by
  have hlen : (l.take i).length = i := by rw [List.length_take, Nat.min_eq_left h]
  rw [splice, List.append_assoc, List.getElem?_append_right (by omega), hlen,
    Nat.add_sub_cancel_left, List.getElem?_append_left hj]

/-- The same overwrite of two arrays that agree outside of it. -/
theorem getElem?_splice_congr {l l' : List α} {i j : ℕ} {xs : List α} (h : i ≤ l.length)
    (h' : i ≤ l'.length) (hj : j < i ∨ i + xs.length ≤ j → l[j]? = l'[j]?) :
    (splice l i xs)[j]? = (splice l' i xs)[j]? := by
  by_cases hout : j < i ∨ i + xs.length ≤ j
  · rw [getElem?_splice_of_not_mem h hout, getElem?_splice_of_not_mem h' hout, hj hout]
  · obtain ⟨k, rfl⟩ : ∃ k, j = i + k := ⟨j - i, by omega⟩
    rw [getElem?_splice_of_mem h (by omega), getElem?_splice_of_mem h' (by omega)]

/-- Two adjacent overwrites are one. -/
theorem splice_splice {l : List α} {i : ℕ} {xs ys : List α} (h : i ≤ l.length) :
    splice (splice l i xs) (i + xs.length) ys = splice l i (xs ++ ys) := by
  rw [splice, take_splice_end h, drop_splice_of_le (Nat.le_add_right _ _) h, splice,
    List.length_append, Nat.add_assoc, List.append_assoc (l.take i) xs ys]

@[simp] theorem splice_nil (l : List α) (i : ℕ) : splice l i [] = l := by
  simp [splice]

end HzResearch
