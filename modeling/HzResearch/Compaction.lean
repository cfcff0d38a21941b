import Mathlib.Algebra.BigOperators.Intervals
import Mathlib.Algebra.Order.BigOperators.Group.Finset
import Mathlib.Data.Nat.Bitwise

/-!
# Prefix sums and compaction in logarithmically many steps

Two classical whole-register algorithms, over lanes that are natural numbers.

* **Prefix sums.** Adding to every lane the lane `w` below it doubles the width of
  the window each lane sums; from width one, the widths `1, 2, 4, …` are reached.
* **Compaction.** Every live lane `j` carries the distance `f j` it has to move
  down; the other lanes carry zero. Step `r` moves by `2 ^ r` the lanes whose
  distance has bit `r` set, a lane that moves away leaving a copy behind. When the
  destinations `j - f j` keep the order of the live lanes, no copy ever overwrites
  a live lane, and after enough steps lane `j - f j` carries `f j`
  (`pulls_destination`).
-/

namespace HzResearch

namespace Compaction

/-! ## Prefix sums -/

/-- The sum of the `w` lanes ending at lane `i`, nothing below lane zero. -/
def windowSum (e : ℕ → ℕ) (w i : ℕ) : ℕ := ∑ k ∈ Finset.range w, if k ≤ i then e (i - k) else 0

theorem windowSum_one (e : ℕ → ℕ) (i : ℕ) : windowSum e 1 i = e i := by
  simp [windowSum]

/-- Adding the window `w` lanes below doubles the width. -/
theorem windowSum_double (e : ℕ → ℕ) (w i : ℕ) :
    windowSum e (w + w) i = windowSum e w i + if w ≤ i then windowSum e w (i - w) else 0 := by
  rw [windowSum, Finset.sum_range_add, ← windowSum]
  congr 1
  split
  case isTrue h =>
    refine Finset.sum_congr rfl fun k _ => ?_
    rw [Nat.sub_sub]
    congr 1
    simp only [eq_iff_iff]
    omega
  case isFalse h =>
    refine Finset.sum_eq_zero fun k _ => ?_
    rw [if_neg (by omega)]

/-- A window that reaches lane zero is the prefix sum. -/
theorem windowSum_of_lt (e : ℕ → ℕ) {w i : ℕ} (h : i < w) :
    windowSum e w i = ∑ k ∈ Finset.range (i + 1), e k := by
  rw [← Finset.sum_range_reflect, windowSum, ← Finset.sum_subset (Finset.range_mono h)]
  · refine Finset.sum_congr rfl fun k hk => ?_
    have hk := Finset.mem_range.mp hk
    rw [if_pos (by omega)]
    congr 1
  · intro k _ hk
    rw [Finset.mem_range] at hk
    rw [if_neg (by omega)]

theorem windowSum_le {e : ℕ → ℕ} {m : ℕ} (h : ∀ k, e k ≤ m) (w i : ℕ) :
    windowSum e w i ≤ w * m := by
  have hterm : ∀ k ∈ Finset.range w, (if k ≤ i then e (i - k) else 0) ≤ m := by
    intro k _
    split
    · exact h _
    · exact Nat.zero_le m
  calc windowSum e w i ≤ (Finset.range w).card • m := Finset.sum_le_card_nsmul _ _ _ hterm
    _ = w * m := by rw [Finset.card_range, Nat.nsmul_eq_mul]

/-! ## Compaction -/

/-- Step `r` of the compaction: take the lane `2 ^ r` above if its bit `r` is set. -/
def pullStep (r : ℕ) (g : ℕ → ℕ) (q : ℕ) : ℕ :=
  if (g (q + 2 ^ r)).testBit r then g (q + 2 ^ r) else g q

/-- The lanes after the first `r` steps. -/
def pulls (f : ℕ → ℕ) : ℕ → ℕ → ℕ
  | 0 => f
  | r + 1 => pullStep r (pulls f r)

/-- The live lanes of a compaction: every other lane carries zero, and the destinations of the
live ones lie in order. -/
structure Compactible (live : ℕ → Prop) (f : ℕ → ℕ) : Prop where
  /-- a lane that is not live carries zero -/
  dead : ∀ j, ¬ live j → f j = 0
  /-- no lane moves below lane zero -/
  le : ∀ j, live j → f j ≤ j
  /-- distances grow along the live lanes -/
  mono : ∀ j j', live j → live j' → j < j' → f j ≤ f j'
  /-- destinations grow along the live lanes -/
  dest : ∀ j j', live j → live j' → j < j' → j - f j < j' - f j'

variable {live : ℕ → Prop} {f : ℕ → ℕ}

/-- The low bits of a distance and one more. -/
theorem mod_pow_succ_eq (x r : ℕ) :
    x % 2 ^ (r + 1) = x % 2 ^ r + if x.testBit r then 2 ^ r else 0 := by
  rw [Nat.mod_pow_succ, Nat.testBit_eq_decide_div_mod_eq]
  have hlt : x / 2 ^ r % 2 < 2 := Nat.mod_lt _ (by omega)
  rcases Nat.lt_or_ge (x / 2 ^ r % 2) 1 with h | h
  · rw [show x / 2 ^ r % 2 = 0 by omega]
    simp
  · rw [show x / 2 ^ r % 2 = 1 by omega]
    simp

/-- On the way the live lanes stay in order. -/
theorem Compactible.midway (hc : Compactible live f) (M : ℕ) {j j' : ℕ} (hj : live j)
    (hj' : live j') (hlt : j < j') : j - f j % M < j' - f j' % M := by
  have hmono := hc.mono j j' hj hj' hlt
  have hdest := hc.dest j j' hj hj' hlt
  have hle := hc.le j hj
  have hle' := hc.le j' hj'
  have hmod : f j' % M ≤ f j % M + (f j' - f j) := by
    have hsplit : f j' = f j + (f j' - f j) := by omega
    calc f j' % M = (f j % M + (f j' - f j)) % M := by rw [Nat.mod_add_mod, ← hsplit]
      _ ≤ f j % M + (f j' - f j) := Nat.mod_le _ _
  have hmodle : f j' % M ≤ f j' := Nat.mod_le _ _
  omega

/-- Every lane carries zero or the distance of a live lane that is on its way through it. -/
theorem Compactible.pulls_origin (hc : Compactible live f) :
    ∀ r q, pulls f r q = 0 ∨
      ∃ j, live j ∧ pulls f r q = f j ∧ j - f j % 2 ^ r ≤ q ∧ q ≤ j := by
  intro r
  induction r with
  | zero =>
    intro q
    by_cases hq : live q
    · exact .inr ⟨q, hq, rfl, Nat.sub_le _ _, le_refl q⟩
    · exact .inl (hc.dead q hq)
  | succ r ih =>
    intro q
    have hpow : 0 < 2 ^ r := Nat.two_pow_pos r
    rw [pulls, pullStep]
    split
    case isTrue hbit =>
      -- what is pulled in has the bit `r` set
      obtain hz | ⟨j, hj, hval, hlow, hhigh⟩ := ih (q + 2 ^ r)
      · rw [hz, Nat.zero_testBit] at hbit
        cases hbit
      · rw [hval] at hbit
        have hmod := mod_pow_succ_eq (f j) r
        rw [if_pos hbit] at hmod
        exact .inr ⟨j, hj, hval, by omega, by omega⟩
    case isFalse hbit =>
      obtain hz | ⟨j, hj, hval, hlow, hhigh⟩ := ih q
      · exact .inl hz
      · have hmod := mod_pow_succ_eq (f j) r
        refine .inr ⟨j, hj, hval, ?_, hhigh⟩
        omega

/-- After `r` steps a live lane has moved by the low `r` bits of its distance. -/
theorem Compactible.pulls_midway (hc : Compactible live f) :
    ∀ r j, live j → pulls f r (j - f j % 2 ^ r) = f j := by
  intro r
  induction r with
  | zero =>
    intro j _
    rw [pulls, pow_zero, Nat.mod_one, Nat.sub_zero]
  | succ r ih =>
    intro j hj
    have hle := hc.le j hj
    have hmodle : f j % 2 ^ (r + 1) ≤ f j := Nat.mod_le _ _
    have hmod := mod_pow_succ_eq (f j) r
    rw [pulls, pullStep]
    by_cases hbit : (f j).testBit r
    · -- the lane moves
      rw [if_pos hbit] at hmod
      have hpos : j - f j % 2 ^ (r + 1) + 2 ^ r = j - f j % 2 ^ r := by omega
      rw [hpos, ih j hj, if_pos hbit]
    · -- the lane stays, and whatever lies `2 ^ r` above it has no business here
      rw [if_neg hbit] at hmod
      rw [show f j % 2 ^ (r + 1) = f j % 2 ^ r by omega, ih j hj]
      split
      case isFalse => rfl
      case isTrue habove =>
        exfalso
        have hlow : f j % 2 ^ r < 2 ^ r := Nat.mod_lt _ (Nat.two_pow_pos r)
        obtain hz | ⟨j', hj', hval, hfrom, hto⟩ := hc.pulls_origin r (j - f j % 2 ^ r + 2 ^ r)
        · rw [hz, Nat.zero_testBit] at habove
          cases habove
        · rw [hval] at habove
          have hmod' := mod_pow_succ_eq (f j') r
          rw [if_pos habove] at hmod'
          rcases Nat.lt_trichotomy j j' with hlt | heq | hgt
          · have := hc.midway (2 ^ (r + 1)) hj hj' hlt
            omega
          · rw [heq] at hbit
            exact hbit habove
          · omega

/-- **Compaction**: once the steps cover every distance, the destination of a live lane carries
its distance. -/
theorem Compactible.pulls_destination (hc : Compactible live f) {r j : ℕ} (hj : live j)
    (hr : f j < 2 ^ r) : pulls f r (j - f j) = f j := by
  have h := hc.pulls_midway r j hj
  rwa [Nat.mod_eq_of_lt hr] at h

/-- With nothing but zeros above it a lane is left alone. -/
theorem pulls_of_zero_above {q : ℕ} (hq : ∀ j, q < j → f j = 0) (r : ℕ) :
    pulls f r q = f q ∧ ∀ j, q < j → pulls f r j = 0 := by
  induction r with
  | zero => exact ⟨rfl, hq⟩
  | succ r ih =>
    have hpow : 0 < 2 ^ r := Nat.two_pow_pos r
    refine ⟨?_, fun j hj => ?_⟩
    · rw [pulls, pullStep, ih.2 _ (by omega), Nat.zero_testBit]
      exact ih.1
    · rw [pulls, pullStep, ih.2 _ (by omega), ih.2 _ hj, ite_self]

end Compaction

end HzResearch
