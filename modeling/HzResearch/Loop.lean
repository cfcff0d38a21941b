import Mathlib.Data.Nat.Notation
import Mathlib.Logic.Relation

/-!
# Loops as step functions

A `while` loop is a step function: from a state it either goes on with the next
state or leaves the loop with a result. `exec` runs a loop whose measure
decreases with every step, so it is total; `exec_eq` is its one unfolding
equation. Two rules carry all the reasoning about loops:

* `exec_induction` — a property of `(state, result)` pairs that holds where the
  loop is left and is pulled back along one step holds of `exec`;
* `Reaches.preserves` — what one step preserves holds of every state of a run.
-/

namespace HzResearch

/-- What one step of a loop does: go on with a state, or leave with a result. -/
inductive Outcome (σ ρ : Type) : Type where
  /-- the loop goes on -/
  | next : σ → Outcome σ ρ
  /-- the loop is left -/
  | done : ρ → Outcome σ ρ

namespace Loop

variable {σ ρ : Type} {step : σ → Outcome σ ρ}

/-- At most `fuel` steps of a loop. -/
def run (step : σ → Outcome σ ρ) : ℕ → σ → Option ρ
  | 0, _ => none
  | fuel + 1, s =>
    match step s with
    | .next s' => run step fuel s'
    | .done r => some r

/-- A measure that every step of the loop decreases. -/
def Decreases (step : σ → Outcome σ ρ) (μ : σ → ℕ) : Prop :=
  ∀ s s', step s = .next s' → μ s' < μ s

/-- More fuel than the measure of the state is enough. -/
theorem run_isSome {μ : σ → ℕ} (hμ : Decreases step μ) :
    ∀ (fuel : ℕ) (s : σ), μ s < fuel → (run step fuel s).isSome := by
  intro fuel
  induction fuel with
  | zero =>
    intro s hs
    omega
  | succ n ih =>
    intro s hs
    rw [run]
    rcases hstep : step s with s' | r
    · have := hμ s s' hstep
      exact ih s' (by omega)
    · rfl

/-- Two runs that both have enough fuel agree. -/
theorem run_eq_of_enough {μ : σ → ℕ} (hμ : Decreases step μ) :
    ∀ (fuel fuel' : ℕ) (s : σ), μ s < fuel → μ s < fuel' →
      run step fuel s = run step fuel' s := by
  intro fuel
  induction fuel with
  | zero =>
    intro fuel' s hs
    omega
  | succ n ih =>
    intro fuel' s hs hs'
    obtain ⟨m, rfl⟩ : ∃ m, fuel' = m + 1 := ⟨fuel' - 1, by omega⟩
    rw [run, run]
    rcases hstep : step s with s' | r
    · have := hμ s s' hstep
      exact ih m s' (by omega) (by omega)
    · rfl

/-- Run a loop whose measure decreases to its end. -/
def exec (step : σ → Outcome σ ρ) (μ : σ → ℕ) (hμ : Decreases step μ) (s : σ) : ρ :=
  (run step (μ s + 1) s).get (run_isSome hμ _ _ (Nat.lt_succ_self _))

/-- With enough fuel a run gives the result of the loop. -/
theorem run_eq_exec {μ : σ → ℕ} (hμ : Decreases step μ) {fuel : ℕ} {s : σ} (h : μ s < fuel) :
    run step fuel s = some (exec step μ hμ s) := by
  rw [exec, Option.some_get]
  exact run_eq_of_enough hμ _ _ _ h (Nat.lt_succ_self _)

/-- Unfolding a loop once. -/
theorem exec_eq {μ : σ → ℕ} (hμ : Decreases step μ) (s : σ) :
    exec step μ hμ s =
      match step s with
      | .next s' => exec step μ hμ s'
      | .done r => r := by
  have h := run_eq_exec hμ (Nat.lt_succ_self (μ s))
  rw [run] at h
  rcases hstep : step s with s' | r <;> rw [hstep] at h
  · have h' := run_eq_exec hμ (hμ s s' hstep)
    exact Option.some.inj (h.symm.trans h')
  · exact (Option.some.inj h).symm

theorem exec_next {μ : σ → ℕ} (hμ : Decreases step μ) {s s' : σ} (h : step s = .next s') :
    exec step μ hμ s = exec step μ hμ s' := by
  rw [exec_eq, h]

theorem exec_done {μ : σ → ℕ} (hμ : Decreases step μ) {s : σ} {r : ρ} (h : step s = .done r) :
    exec step μ hμ s = r := by
  rw [exec_eq, h]

/-- The rule for a whole run: `C s r` holds of the result `r` of the loop from `s` as soon as it
holds wherever the loop is left and is pulled back along every step. -/
theorem exec_induction {μ : σ → ℕ} (hμ : Decreases step μ) {C : σ → ρ → Prop}
    (hdone : ∀ s r, step s = .done r → C s r)
    (hnext : ∀ s s' r, step s = .next s' → C s' r → C s r) (s : σ) :
    C s (exec step μ hμ s) := by
  suffices h : ∀ n s, μ s < n → C s (exec step μ hμ s) from h _ s (Nat.lt_succ_self _)
  intro n
  induction n with
  | zero =>
    intro s hs
    omega
  | succ n ih =>
    intro s hs
    rcases hstep : step s with s' | r
    · have := hμ s s' hstep
      rw [exec_next hμ hstep]
      exact hnext s s' _ hstep (ih s' (by omega))
    · rw [exec_done hμ hstep]
      exact hdone s r hstep

/-- The states a loop goes through. -/
def Reaches (step : σ → Outcome σ ρ) : σ → σ → Prop :=
  Relation.ReflTransGen fun s s' => step s = .next s'

theorem Reaches.refl (s : σ) : Reaches step s s := Relation.ReflTransGen.refl

/-- What every step of a run preserves holds of every state of it. -/
theorem Reaches.preserves {I : σ → Prop} {s t : σ} (h : Reaches step s t)
    (hI : ∀ u u', Reaches step s u → step u = .next u' → I u → I u') (hs : I s) : I t := by
  induction h with
  | refl => exact hs
  | tail hreach hstep ih => exact hI _ _ hreach hstep ih

/-- The state a loop is left from is one it reaches, and its step there gives the result. -/
theorem exec_reaches {μ : σ → ℕ} (hμ : Decreases step μ) (s : σ) :
    ∃ t, Reaches step s t ∧ step t = .done (exec step μ hμ s) := by
  refine exec_induction hμ (C := fun s r => ∃ t, Reaches step s t ∧ step t = .done r) ?_ ?_ s
  · intro s r hstep
    exact ⟨s, Reaches.refl s, hstep⟩
  · rintro s s' r hstep ⟨t, hreach, hdone⟩
    exact ⟨t, Relation.ReflTransGen.head hstep hreach, hdone⟩

end Loop

end HzResearch
