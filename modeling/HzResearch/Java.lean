import HzResearch.Splice
import Mathlib.Data.Int.Notation
import Mathlib.Data.Nat.Notation
import Mathlib.Tactic.Common

/-!
# Java methods on an object

A method of an object with fields `σ` is a function on `σ` that returns a value,
throws, or dies in native code; the fields it has assigned stay assigned in all
three cases. That is the monad `Java σ`, with `do` notation.

`Moves R m` says that however `m` ends, the fields before and after are related by the
preorder `R`; it is closed under `>>=`.

`int` arithmetic is arithmetic of integers followed by `jint`, which wraps.
-/

namespace HzResearch

/-- What a method throws. -/
inductive Throwable : Type where
  | EOFException (message : Option String)
  | UTFDataFormatException
  | IllegalArgumentException (message : Option String)
  | IndexOutOfBoundsException
  | ArrayIndexOutOfBoundsException
  | StringIndexOutOfBoundsException
  | NegativeArraySizeException
  | NullPointerException
  deriving DecidableEq

/-- How a method ends that does not return. -/
inductive Stop : Type where
  /-- it throws -/
  | throws : Throwable → Stop
  /-- native code accesses memory outside its arrays: what follows is undefined -/
  | fault : Stop
  deriving DecidableEq

/-- A method of an object with fields `σ` that returns an `α`. -/
abbrev Java (σ α : Type) : Type := EStateM Stop σ α

namespace Java

variable {σ α β : Type}

/-- `throw` -/
def raise (e : Throwable) : Java σ α := throw (.throws e)

/-- The fields a method leaves behind, however it ends. -/
def after (m : Java σ α) (s : σ) : σ :=
  match m s with
  | .ok _ s' => s'
  | .error _ s' => s'

/-- The method throws `e` from `s`. -/
def Throws (m : Java σ α) (s : σ) (e : Throwable) : Prop := ∃ s', m s = .error (.throws e) s'

theorem after_ok {m : Java σ α} {s s' : σ} {a : α} (h : m s = .ok a s') : after m s = s' := by
  rw [after, h]

theorem after_error {m : Java σ α} {s s' : σ} {e : Stop} (h : m s = .error e s') :
    after m s = s' := by
  rw [after, h]

/-! ## Sequencing -/

theorem pure_run (a : α) (s : σ) : (pure a : Java σ α) s = .ok a s := rfl

theorem get_run (s : σ) : (get : Java σ σ) s = .ok s s := rfl

theorem bind_ok {m : Java σ α} {f : α → Java σ β} {s s' : σ} {a : α} (h : m s = .ok a s') :
    (m >>= f) s = f a s' := by
  change EStateM.bind m f s = _
  rw [EStateM.bind, h]

theorem bind_error {m : Java σ α} {f : α → Java σ β} {s s' : σ} {e : Stop}
    (h : m s = .error e s') : (m >>= f) s = .error e s' := by
  change EStateM.bind m f s = _
  rw [EStateM.bind, h]

/-- A sequence that returns is two methods that return. -/
theorem bind_eq_ok {m : Java σ α} {f : α → Java σ β} {s s'' : σ} {b : β}
    (h : (m >>= f) s = .ok b s'') : ∃ a s', m s = .ok a s' ∧ f a s' = .ok b s'' := by
  rcases hm : m s with ⟨a, s'⟩ | ⟨e, s'⟩
  · rw [bind_ok hm] at h
    exact ⟨a, s', rfl, h⟩
  · rw [bind_error hm] at h
    cases h

/-- The fields behind a sequence are those behind its second method, if the first returns. -/
theorem after_bind (m : Java σ α) (f : α → Java σ β) (s : σ) :
    after (m >>= f) s = match m s with
      | .ok a s' => after (f a) s'
      | .error _ s' => s' := by
  rcases hm : m s with ⟨a, s'⟩ | ⟨e, s'⟩
  · rw [after, bind_ok hm]
    rfl
  · rw [after, bind_error hm]

/-! ## Loops -/

/-- `for (T x : xs) f(x);` -/
def forEach (f : α → Java σ Unit) : List α → Java σ Unit
  | [] => pure ()
  | x :: xs => do
    f x
    forEach f xs

theorem forEach_append (f : α → Java σ Unit) (xs ys : List α) :
    forEach f (xs ++ ys) = (do forEach f xs; forEach f ys) := by
  induction xs with
  | nil => exact (pure_bind () fun _ => forEach f ys).symm
  | cons x xs ih => rw [List.cons_append, forEach, forEach, bind_assoc, ih]

/-- The values of `n` calls in a row, which fill a new array. -/
def times (m : Java σ α) : ℕ → Java σ (List α)
  | 0 => pure []
  | n + 1 => do
    let x ← m
    let xs ← times m n
    return x :: xs

/-! ## What a method does to the fields -/

/-- However `m` ends, it takes the fields along `R`. -/
def Moves (R : σ → σ → Prop) (m : Java σ α) : Prop := ∀ s, R s (after m s)

section Moves

variable {R : σ → σ → Prop} (hrefl : ∀ s, R s s) (htrans : ∀ s t u, R s t → R t u → R s u)

include hrefl in
theorem Moves.pure (a : α) : Moves R (Pure.pure a : Java σ α) := fun s => hrefl s

include hrefl in
theorem Moves.raise (e : Throwable) : Moves R (raise e : Java σ α) := fun s => hrefl s

include htrans in
theorem Moves.bind {m : Java σ α} {f : α → Java σ β} (hm : Moves R m) (hf : ∀ a, Moves R (f a)) :
    Moves R (m >>= f) := by
  intro s
  have hs := hm s
  rw [after_bind]
  rcases h : m s with ⟨a, s'⟩ | ⟨e, s'⟩
  · rw [after_ok h] at hs
    exact htrans _ _ _ hs (hf a s')
  · rwa [after_error h] at hs

end Moves

/-! ## `int` arithmetic -/

/-- `Integer.MAX_VALUE` -/
def MAX_VALUE : ℤ := 2147483647

/-- The `int` that an arithmetic result wraps to. -/
def jint (x : ℤ) : ℤ := x.bmod 4294967296

theorem jint_of_range {x : ℤ} (h : -2147483648 ≤ x) (h' : x ≤ MAX_VALUE) : jint x = x := by
  unfold MAX_VALUE at h'
  exact Int.bmod_eq_of_le (by omega) (by omega)

/-- Above the range an `int` wraps once. -/
theorem jint_wrap {x : ℤ} (h : MAX_VALUE < x) (h' : x ≤ MAX_VALUE + MAX_VALUE) :
    jint x = x - 4294967296 := by
  unfold MAX_VALUE at h h'
  have hmod : x.emod 4294967296 = x := Int.emod_eq_of_lt (by omega) (by omega)
  rw [jint, Int.bmod]
  rw [show x % ((4294967296 : ℕ) : ℤ) = x from hmod, if_neg (by omega)]
  rfl

theorem jint_le (x : ℤ) : jint x ≤ MAX_VALUE := by
  have := Int.bmod_lt (x := x) (m := 4294967296) (by decide)
  rw [jint, MAX_VALUE]
  omega

theorem jint_le_self {x : ℤ} (h : 0 ≤ x) : jint x ≤ x := by
  rcases Int.le_total x MAX_VALUE with hx | hx
  · exact Int.le_of_eq (jint_of_range (by omega) hx)
  · exact Int.le_trans (jint_le x) hx

/-! ## Arrays -/

/-- `new T[n]`, all elements `zero`. There is memory enough: no `OutOfMemoryError` is thrown. -/
def newArray (zero : α) (n : ℤ) : Java σ (List α) :=
  if 0 ≤ n then pure (List.replicate n.toNat zero) else raise .NegativeArraySizeException

theorem newArray_ok {zero : α} {n : ℤ} (h : 0 ≤ n) (s : σ) :
    newArray zero n s = .ok (List.replicate n.toNat zero) s := by
  rw [newArray, if_pos h]
  rfl

/-- `a[i] = x`, on an array that is the object itself. -/
def store (i : ℤ) (x : α) : Java (List α) Unit := do
  let a ← get
  if 0 ≤ i ∧ i < a.length then set (a.set i.toNat x) else raise .ArrayIndexOutOfBoundsException

/-- `a[i]` -/
def load (a : List α) (i : ℤ) : Except Throwable α :=
  if 0 ≤ i then (a[i.toNat]?).elim (.error .ArrayIndexOutOfBoundsException) .ok
  else .error .ArrayIndexOutOfBoundsException

/-- `System.arraycopy(a, i, b, j, n)`, the contents of `b` afterwards. Its
`IndexOutOfBoundsException` is an `ArrayIndexOutOfBoundsException`. -/
def arraycopy (a : List α) (i : ℤ) (b : List α) (j n : ℤ) : Except Throwable (List α) :=
  if 0 ≤ i ∧ 0 ≤ j ∧ 0 ≤ n ∧ i + n ≤ a.length ∧ j + n ≤ b.length then
    .ok (splice b j.toNat ((a.drop i.toNat).take n.toNat))
  else .error .ArrayIndexOutOfBoundsException

/-- The value of an expression that may throw. -/
def eval (x : Except Throwable α) : Java σ α :=
  match x with
  | .ok a => pure a
  | .error e => raise e

theorem eval_ok {x : Except Throwable α} {a : α} (h : x = .ok a) (s : σ) :
    (eval x : Java σ α) s = .ok a s := by
  rw [h]
  rfl

theorem eval_eq_ok {x : Except Throwable α} {a : α} {s s' : σ}
    (h : (eval x : Java σ α) s = .ok a s') : x = .ok a ∧ s' = s := by
  cases x with
  | ok b =>
    cases h
    exact ⟨rfl, rfl⟩
  | error e => cases h

theorem load_ok {a : List α} {i : ℤ} (h : 0 ≤ i) {x : α} (hx : a[i.toNat]? = some x) :
    load a i = .ok x := by
  rw [load, if_pos h, hx]
  rfl

theorem arraycopy_ok {a b : List α} {i j n : ℤ} (hi : 0 ≤ i) (hj : 0 ≤ j) (hn : 0 ≤ n)
    (ha : i + n ≤ a.length) (hb : j + n ≤ b.length) :
    arraycopy a i b j n = .ok (splice b j.toNat ((a.drop i.toNat).take n.toNat)) :=
  if_pos ⟨hi, hj, hn, ha, hb⟩

/-- What a copy that succeeds needs, and its result. -/
theorem arraycopy_eq_ok {a b c : List α} {i j n : ℤ} (h : arraycopy a i b j n = .ok c) :
    0 ≤ i ∧ 0 ≤ j ∧ 0 ≤ n ∧ i + n ≤ a.length ∧ j + n ≤ b.length ∧
      c = splice b j.toNat ((a.drop i.toNat).take n.toNat) := by
  unfold arraycopy at h
  split at h
  case isTrue hc =>
    cases h
    exact ⟨hc.1, hc.2.1, hc.2.2.1, hc.2.2.2.1, hc.2.2.2.2, rfl⟩
  case isFalse => cases h

/-- Store `xs` element by element from index `i` on. -/
def storeAll (i : ℤ) : List α → Java (List α) Unit
  | [] => pure ()
  | x :: xs => do
    store i x
    storeAll (i + 1) xs

theorem store_ok {a : List α} {i : ℤ} (h : 0 ≤ i) (h' : i < a.length) (x : α) :
    store i x a = .ok () (splice a i.toNat [x]) := by
  have hset : a.set i.toNat x = splice a i.toNat [x] := by
    rw [splice, List.set_eq_take_append_cons_drop, if_pos (by omega)]
    simp
  change (if 0 ≤ i ∧ i < a.length then set (a.set i.toNat x)
    else raise .ArrayIndexOutOfBoundsException : Java (List α) Unit) a = _
  rw [if_pos ⟨h, h'⟩, hset]
  rfl

theorem store_error {a : List α} {i : ℤ} (h : ¬ (0 ≤ i ∧ i < a.length)) (x : α) :
    store i x a = .error (.throws .ArrayIndexOutOfBoundsException) a := by
  change (if 0 ≤ i ∧ i < a.length then set (a.set i.toNat x)
    else raise .ArrayIndexOutOfBoundsException : Java (List α) Unit) a = _
  rw [if_neg h]
  rfl

theorem length_store (a : List α) (i : ℤ) (x : α) : (after (store i x) a).length = a.length := by
  by_cases h : 0 ≤ i ∧ i < a.length
  · rw [after_ok (store_ok h.1 h.2 x), length_splice (by simp; omega)]
  · rw [after_error (store_error h x)]

/-- In range the elements overwrite a slice. -/
theorem storeAll_ok (xs : List α) : ∀ {a : List α} {i : ℤ}, 0 ≤ i → i + xs.length ≤ a.length →
    storeAll i xs a = .ok () (splice a i.toNat xs) := by
  induction xs with
  | nil =>
    intro a i _ _
    rw [splice_nil]
    rfl
  | cons x xs ih =>
    intro a i hi hlen
    rw [List.length_cons] at hlen
    have hlen' : (splice a i.toNat [x]).length = a.length := length_splice (by simp; omega)
    rw [storeAll, bind_ok (store_ok hi (by omega) x), ih (by omega) (by rw [hlen']; omega)]
    have h1 : (i + 1).toNat = i.toNat + [x].length := by
      rw [List.length_singleton]
      omega
    rw [h1, splice_splice (by omega)]
    rfl

/-- Elements that are all stored are stored in range. -/
theorem storeAll_eq_ok (xs : List α) : ∀ {a a' : List α} {i : ℤ}, xs ≠ [] →
    storeAll i xs a = .ok () a' → 0 ≤ i ∧ i + xs.length ≤ a.length := by
  induction xs with
  | nil =>
    intro a a' i hne
    exact absurd rfl hne
  | cons x xs ih =>
    intro a a' i _ h
    obtain ⟨u, b, hstore, hrest⟩ := bind_eq_ok h
    by_cases hc : 0 ≤ i ∧ i < a.length
    swap
    · rw [store_error hc] at hstore
      cases hstore
    rw [store_ok hc.1 hc.2] at hstore
    cases hstore
    have hlen : (splice a i.toNat [x]).length = a.length := length_splice (by simp; omega)
    rw [List.length_cons]
    rcases xs with _ | ⟨y, ys⟩
    · simp
      omega
    · have := ih (List.cons_ne_nil y ys) hrest
      omega

theorem length_storeAll (xs : List α) : ∀ (a : List α) (i : ℤ),
    (after (storeAll i xs) a).length = a.length := by
  induction xs with
  | nil =>
    intro a i
    rfl
  | cons x xs ih =>
    intro a i
    rw [storeAll, after_bind]
    have hlen := length_store a i x
    rcases h : store i x a with ⟨u, b⟩ | ⟨e, b⟩
    · rw [after_ok h] at hlen
      exact (ih b (i + 1)).trans hlen
    · rwa [after_error h] at hlen

end Java

end HzResearch
