import Mathlib.Data.List.Basic

/-!
# Parsers without lookahead

A `Parser` reads a front of its input. Its fields say that it looks no further: what stands behind
the elements it takes makes no difference (`run_take`), and if one of them is missing, it fails
with the error `ended` (`run_cut`). Both survive sequencing and repetition, so a grammar that is put
together from parsers of single elements and of fixed widths has them too.
-/

namespace HzResearch

variable {τ ε α β : Type} {ended : ε}

/-- A parser of a front of its input; `ended` is the error where the input is too short. -/
structure Parser (τ : Type) {ε : Type} (ended : ε) (α : Type) where
  /-- the value and the number of elements it takes -/
  run : List τ → Except ε (α × ℕ)
  /-- no more elements than there are -/
  run_le : ∀ {bs a n}, run bs = .ok (a, n) → n ≤ bs.length
  /-- what stands behind them makes no difference -/
  run_take : ∀ {bs a n}, run bs = .ok (a, n) → ∀ tail, run (bs.take n ++ tail) = .ok (a, n)
  /-- all of them are needed -/
  run_cut : ∀ {bs a n}, run bs = .ok (a, n) → ∀ {m}, m < n → run (bs.take m) = .error ended

namespace Parser

variable {p : Parser τ ended α} {f : α → Parser τ ended β} {bs : List τ} {a : α} {b : β}
  {n m : ℕ} {x : ε}

/-! ## Sequences -/

/-- Take nothing. -/
def pure (a : α) : Parser τ ended α where
  run _ := .ok (a, 0)
  run_le h := by cases h; exact Nat.zero_le _
  run_take h _ := by cases h; rfl
  run_cut h _ hm := by cases h; exact absurd hm (Nat.not_lt_zero _)

/-- Fail. -/
def fail (x : ε) : Parser τ ended α where
  run _ := .error x
  run_le h := by cases h
  run_take h := by cases h
  run_cut h := by cases h

/-- One parser behind the other, on lists. -/
def runBind (p : Parser τ ended α) (f : α → Parser τ ended β) (bs : List τ) : Except ε (β × ℕ) :=
  match p.run bs with
  | .error x => .error x
  | .ok (a, n) =>
    match (f a).run (bs.drop n) with
    | .error x => .error x
    | .ok (b, m) => .ok (b, n + m)

theorem runBind_ok (h : p.run bs = .ok (a, n)) (h' : (f a).run (bs.drop n) = .ok (b, m)) :
    runBind p f bs = .ok (b, n + m) := by
  rw [runBind, h]
  simp only [h']

theorem runBind_error (h : p.run bs = .error x) : runBind p f bs = .error x := by
  rw [runBind, h]

theorem runBind_error_right (h : p.run bs = .ok (a, n)) (h' : (f a).run (bs.drop n) = .error x) :
    runBind p f bs = .error x := by
  rw [runBind, h]
  simp only [h']

/-- Both parsers have succeeded. -/
theorem runBind_eq_ok (h : runBind p f bs = .ok (b, n)) :
    ∃ a i j, p.run bs = .ok (a, i) ∧ (f a).run (bs.drop i) = .ok (b, j) ∧ n = i + j := by
  rcases hp : p.run bs with x | ⟨a, i⟩
  · rw [runBind_error hp] at h
    cases h
  · rcases hf : (f a).run (bs.drop i) with x | ⟨b', j⟩
    · rw [runBind_error_right hp hf] at h
      cases h
    · rw [runBind_ok hp hf] at h
      cases h
      exact ⟨a, i, j, rfl, hf, rfl⟩

/-- One parser behind the other. -/
def bind (p : Parser τ ended α) (f : α → Parser τ ended β) : Parser τ ended β where
  run := runBind p f
  run_le := by
    intro bs b n h
    obtain ⟨a, i, j, hp, hf, rfl⟩ := runBind_eq_ok h
    have hi := p.run_le hp
    have hj := (f a).run_le hf
    rw [List.length_drop] at hj
    omega
  run_take := by
    intro bs b n h tail
    obtain ⟨a, i, j, hp, hf, rfl⟩ := runBind_eq_ok h
    have hlen : (bs.take i).length = i := by
      rw [List.length_take]
      exact Nat.min_eq_left (p.run_le hp)
    rw [List.take_add, List.append_assoc]
    refine runBind_ok (p.run_take hp _) ?_
    rw [List.drop_left' hlen]
    exact (f a).run_take hf tail
  run_cut := by
    intro bs b n h m hm
    obtain ⟨a, i, j, hp, hf, rfl⟩ := runBind_eq_ok h
    by_cases hi : m < i
    · exact runBind_error (p.run_cut hp hi)
    · -- the cut is inside the second one
      have hlen : (bs.take i).length = i := by
        rw [List.length_take]
        exact Nat.min_eq_left (p.run_le hp)
      obtain ⟨k, rfl⟩ : ∃ k, m = i + k := ⟨m - i, by omega⟩
      rw [List.take_add]
      refine runBind_error_right (p.run_take hp _) ?_
      rw [List.drop_left' hlen]
      exact (f a).run_cut hf (by omega)

theorem run_bind (p : Parser τ ended α) (f : α → Parser τ ended β) (bs : List τ) :
    (p.bind f).run bs = runBind p f bs := rfl

theorem bind_eq_ok (h : (p.bind f).run bs = .ok (b, n)) :
    ∃ a i j, p.run bs = .ok (a, i) ∧ (f a).run (bs.drop i) = .ok (b, j) ∧ n = i + j :=
  runBind_eq_ok h

/-- How a sequence ends. -/
theorem bind_cases (p : Parser τ ended α) (f : α → Parser τ ended β) (bs : List τ) :
    (∃ x, p.run bs = .error x ∧ (p.bind f).run bs = .error x) ∨
    ∃ a n, p.run bs = .ok (a, n) ∧
      ((∃ x, (f a).run (bs.drop n) = .error x ∧ (p.bind f).run bs = .error x) ∨
        ∃ b m, (f a).run (bs.drop n) = .ok (b, m) ∧ (p.bind f).run bs = .ok (b, n + m)) := by
  rcases hp : p.run bs with x | ⟨a, n⟩
  · exact .inl ⟨x, rfl, runBind_error hp⟩
  · refine .inr ⟨a, n, rfl, ?_⟩
    rcases hf : (f a).run (bs.drop n) with x | ⟨b, m⟩
    · exact .inl ⟨x, rfl, runBind_error_right hp hf⟩
    · exact .inr ⟨b, m, rfl, runBind_ok hp hf⟩

/-- A value made from one that is parsed. -/
def map (g : α → β) (p : Parser τ ended α) : Parser τ ended β := p.bind fun a => pure (g a)

theorem map_eq_ok {g : α → β} (h : (p.map g).run bs = .ok (b, n)) :
    ∃ a, p.run bs = .ok (a, n) ∧ b = g a := by
  obtain ⟨a, i, j, hp, hf, rfl⟩ := bind_eq_ok h
  cases hf
  exact ⟨a, hp, rfl⟩

theorem map_eq_error {g : α → β} (h : (p.map g).run bs = .error x) : p.run bs = .error x := by
  rcases bind_cases p (fun a => pure (g a)) bs with ⟨y, hp, hx⟩ | ⟨a, n, -, hg⟩
  · rw [map, hx] at h
    cases h
    exact hp
  · rcases hg with ⟨y, hg, -⟩ | ⟨b, m, -, hok⟩
    · cases hg
    · rw [map, hok] at h
      cases h

/-- Several values one after the other. -/
def times (p : Parser τ ended α) : ℕ → Parser τ ended (List α)
  | 0 => pure []
  | n + 1 => p.bind fun a => (p.times n).map (a :: ·)

/-! ## Elements -/

/-- One element. -/
def token : Parser τ ended τ where
  run
    | [] => .error ended
    | b :: _ => .ok (b, 1)
  run_le := by
    intro bs a n h
    rcases bs with _ | ⟨b, bs⟩
    · cases h
    · cases h
      simp
  run_take := by
    intro bs a n h tail
    rcases bs with _ | ⟨b, bs⟩
    · cases h
    · cases h
      rfl
  run_cut := by
    intro bs a n h m hm
    rcases bs with _ | ⟨b, bs⟩
    · cases h
    · cases h
      obtain rfl : m = 0 := by omega
      rfl

/-- Several elements are a front of the input. -/
theorem times_token_eq_ok (k : ℕ) : ∀ {bs as : List τ} {n : ℕ},
    ((token : Parser τ ended τ).times k).run bs = .ok (as, n) →
      n = k ∧ k ≤ bs.length ∧ as = bs.take k := by
  induction k with
  | zero =>
    intro bs as n h
    cases h
    exact ⟨rfl, Nat.zero_le _, rfl⟩
  | succ k ih =>
    intro bs as n h
    obtain ⟨b, i, j, hb, hrest, rfl⟩ := bind_eq_ok h
    obtain ⟨bs', hbs', rfl⟩ := map_eq_ok hrest
    rcases bs with _ | ⟨c, bs⟩
    · cases hb
    · cases hb
      obtain ⟨rfl, hle, rfl⟩ := ih hbs'
      exact ⟨Nat.add_comm _ _, by simpa using hle, rfl⟩

/-- `size` elements and the value they stand for, on lists. -/
def runFixed (ended : ε) (size : ℕ) (decode : List τ → Except ε α) (bs : List τ) :
    Except ε (α × ℕ) :=
  if size ≤ bs.length then
    match decode (bs.take size) with
    | .error x => .error x
    | .ok a => .ok (a, size)
  else .error ended

section Fixed

variable {size : ℕ} {decode : List τ → Except ε α}

theorem runFixed_ok (hle : size ≤ bs.length) (h : decode (bs.take size) = .ok a) :
    runFixed ended size decode bs = .ok (a, size) := by
  rw [runFixed, if_pos hle, h]

theorem runFixed_short (h : bs.length < size) : runFixed ended size decode bs = .error ended := by
  rw [runFixed, if_neg (by omega)]

theorem runFixed_eq_ok (h : runFixed ended size decode bs = .ok (a, n)) :
    size ≤ bs.length ∧ decode (bs.take size) = .ok a ∧ n = size := by
  rw [runFixed] at h
  split at h
  case isTrue hle =>
    split at h
    case h_1 => cases h
    case h_2 v hv =>
      cases h
      exact ⟨hle, hv, rfl⟩
  case isFalse => cases h

end Fixed

/-- `size` elements and the value they stand for. -/
def fixed (size : ℕ) (decode : List τ → Except ε α) : Parser τ ended α where
  run := runFixed ended size decode
  run_le := by
    intro bs a n h
    obtain ⟨hle, -, rfl⟩ := runFixed_eq_ok h
    exact hle
  run_take := by
    intro bs a n h tail
    obtain ⟨hle, hv, rfl⟩ := runFixed_eq_ok h
    have hlen : (bs.take n).length = n := by
      rw [List.length_take]
      exact Nat.min_eq_left hle
    refine runFixed_ok (by rw [List.length_append]; omega) ?_
    rw [List.take_left' hlen]
    exact hv
  run_cut := by
    intro bs a n h m hm
    obtain ⟨-, -, rfl⟩ := runFixed_eq_ok h
    refine runFixed_short ?_
    rw [List.length_take]
    omega

end Parser

end HzResearch
