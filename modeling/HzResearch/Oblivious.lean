import HzResearch.Java

/-!
# Methods that do not look

Two runs of a method from states that a relation `R` takes for alike: `Lockstep R m` says
that they end alike, in states alike, and `LockstepUpTo A R m` that they do so but for
exceptions that `A` takes for alike. `Oblivious R look m` says also what becomes of the
contents, which `R` does not see: place by place the method leaves either the same,
whatever was there, or what was there. So a place either shows nothing of the old
contents or exactly the old contents of this place.

All are closed under `>>=`; the first two under loops, the first and the last under
catching exceptions (`attempt`).
-/

namespace HzResearch

namespace Java

variable {σ α β γ ι κ : Type}

/-- How a method ends, without the fields. -/
def outcome (m : Java σ α) (s : σ) : Except Stop α :=
  match m s with
  | .ok a _ => .ok a
  | .error e _ => .error e

/-- The caller catches what the method throws, and goes on. -/
def attempt (m : Java σ α) : Java σ (Except Stop α) := fun s => .ok (outcome m s) (after m s)

theorem outcome_ok {m : Java σ α} {s s' : σ} {a : α} (h : m s = .ok a s') :
    outcome m s = .ok a := by
  rw [outcome, h]

theorem outcome_error {m : Java σ α} {s s' : σ} {e : Stop} (h : m s = .error e s') :
    outcome m s = .error e := by
  rw [outcome, h]

theorem outcome_congr {m m' : Java σ α} {s s' : σ} (h : m s = m' s') :
    outcome m s = outcome m' s' := by
  rw [outcome, h, outcome]

theorem after_congr {m m' : Java σ α} {s s' : σ} (h : m s = m' s') :
    after m s = after m' s' := by
  rw [after, h, after]

/-- The outcome and the fields left behind make up the run. -/
theorem run_of_outcome_ok {m : Java σ α} {s : σ} {a : α} (h : outcome m s = .ok a) :
    m s = .ok a (after m s) := by
  rcases hm : m s with ⟨b, s'⟩ | ⟨e, s'⟩
  · rw [outcome_ok hm] at h
    cases h
    rw [after_ok hm]
  · rw [outcome_error hm] at h
    cases h

theorem run_of_outcome_error {m : Java σ α} {s : σ} {e : Stop} (h : outcome m s = .error e) :
    m s = .error e (after m s) := by
  rcases hm : m s with ⟨b, s'⟩ | ⟨e', s'⟩
  · rw [outcome_ok hm] at h
    cases h
  · rw [outcome_error hm] at h
    cases h
    rw [after_error hm]

/-! ## Two runs in lockstep -/

/-- From states related by `R` the method ends alike, in states related by `R`. -/
def Lockstep (R : σ → σ → Prop) (m : Java σ α) : Prop :=
  ∀ ⦃s t⦄, R s t → outcome m s = outcome m t ∧ R (after m s) (after m t)

section Lockstep

variable {R : σ → σ → Prop} {m : Java σ α} {f : α → Java σ β}

theorem Lockstep.pure (a : α) : Lockstep R (pure a) := fun _ _ h => ⟨rfl, h⟩

theorem Lockstep.raise (e : Throwable) : Lockstep R (raise e : Java σ α) := fun _ _ h => ⟨rfl, h⟩

theorem Lockstep.bind (hm : Lockstep R m) (hf : ∀ a, Lockstep R (f a)) :
    Lockstep R (m >>= f) := by
  intro s t h
  obtain ⟨hout, hR⟩ := hm h
  rcases ho : outcome m s with e | a
  · have hs := run_of_outcome_error ho
    have ht := run_of_outcome_error (hout ▸ ho)
    rw [outcome_error (bind_error hs), outcome_error (bind_error ht), after_error (bind_error hs),
      after_error (bind_error ht)]
    exact ⟨rfl, hR⟩
  · have hs := run_of_outcome_ok ho
    have ht := run_of_outcome_ok (hout ▸ ho)
    rw [outcome_congr (bind_ok hs), outcome_congr (bind_ok ht), after_congr (bind_ok hs),
      after_congr (bind_ok ht)]
    exact hf a hR

/-- A method that reads of the fields only what `R` relates. -/
theorem Lockstep.reads {f : σ → Java σ α} (hf : ∀ s t, R s t → f s = f t)
    (h : ∀ s, Lockstep R (f s)) : Lockstep R (get >>= f) := by
  intro s t hst
  have hs : (get >>= f) s = f s s := bind_ok (get_run s)
  have ht : (get >>= f) t = f s t := by rw [bind_ok (get_run t), hf s t hst]
  rw [outcome_congr hs, outcome_congr ht, after_congr hs, after_congr ht]
  exact h s hst

theorem Lockstep.attempt (hm : Lockstep R m) : Lockstep R (attempt m) := by
  intro s t h
  obtain ⟨hout, hR⟩ := hm h
  exact ⟨congrArg Except.ok hout, hR⟩

/-- An assignment that `R` does not see the difference of. -/
theorem Lockstep.modify {g : σ → σ} (hg : ∀ s t, R s t → R (g s) (g t)) :
    Lockstep R (modify g : Java σ PUnit) := fun s t h => ⟨rfl, hg s t h⟩

theorem Lockstep.eval (x : Except Throwable α) : Lockstep R (eval x : Java σ α) := by
  rcases x with e | a
  · exact .raise e
  · exact .pure a

theorem Lockstep.times (hm : Lockstep R m) (n : ℕ) : Lockstep R (times m n) := by
  induction n with
  | zero => exact .pure []
  | succ n ih => exact hm.bind fun x => ih.bind fun xs => .pure (x :: xs)

end Lockstep

/-! ## Lockstep up to exceptions -/

/-- Two methods end alike, but for exceptions that `A` takes for alike. -/
inductive EndsAlike (A : Stop → Stop → Prop) : Except Stop α → Except Stop α → Prop where
  | ok (a : α) : EndsAlike A (.ok a) (.ok a)
  | error {e e' : Stop} : A e e' → EndsAlike A (.error e) (.error e')

/-- From states related by `R` the method ends alike up to `A`, in states related by `R`. -/
def LockstepUpTo (A : Stop → Stop → Prop) (R : σ → σ → Prop) (m : Java σ α) : Prop :=
  ∀ ⦃s t⦄, R s t → EndsAlike A (outcome m s) (outcome m t) ∧ R (after m s) (after m t)

section LockstepUpTo

variable {A : Stop → Stop → Prop} {R : σ → σ → Prop} {m : Java σ α} {f : α → Java σ β}

theorem LockstepUpTo.of_lockstep (hA : ∀ e, A e e) (hm : Lockstep R m) : LockstepUpTo A R m := by
  intro s t h
  obtain ⟨hout, hR⟩ := hm h
  rw [← hout]
  refine ⟨?_, hR⟩
  rcases outcome m s with e | a
  · exact .error (hA e)
  · exact .ok a

theorem LockstepUpTo.pure (a : α) : LockstepUpTo A R (Pure.pure a : Java σ α) :=
  fun _ _ h => ⟨.ok a, h⟩

theorem LockstepUpTo.bind (hm : LockstepUpTo A R m) (hf : ∀ a, LockstepUpTo A R (f a)) :
    LockstepUpTo A R (m >>= f) := by
  intro s t h
  obtain ⟨hends, hR⟩ := hm h
  generalize ho : outcome m s = x, ho' : outcome m t = y at hends
  cases hends with
  | ok a =>
    have hs := run_of_outcome_ok ho
    have ht := run_of_outcome_ok ho'
    rw [outcome_congr (bind_ok hs), outcome_congr (bind_ok ht), after_congr (bind_ok hs),
      after_congr (bind_ok ht)]
    exact hf a hR
  | error he =>
    have hs := run_of_outcome_error ho
    have ht := run_of_outcome_error ho'
    rw [outcome_error (bind_error hs), outcome_error (bind_error ht), after_error (bind_error hs),
      after_error (bind_error ht)]
    exact ⟨.error he, hR⟩

theorem LockstepUpTo.times (hm : LockstepUpTo A R m) (n : ℕ) :
    LockstepUpTo A R (times m n) := by
  induction n with
  | zero => exact .pure []
  | succ n ih => exact hm.bind fun x => ih.bind fun xs => .pure (x :: xs)

end LockstepUpTo

/-! ## What becomes of the contents -/

/-- The method ends alike on states related by `R`, and leaves at every place either the same on all
of them or what each of them held there. -/
structure Oblivious (R : σ → σ → Prop) (look : σ → ι → κ) (m : Java σ α) : Prop where
  /-- two runs end alike -/
  lockstep : Lockstep R m
  /-- what becomes of a place -/
  fixed_or_kept : ∀ s i, (∃ c, ∀ t, R s t → look (after m t) i = c) ∨
    ∀ t, R s t → look (after m t) i = look t i

section Oblivious

variable {R : σ → σ → Prop} {look : σ → ι → κ} {m : Java σ α} {f : α → Java σ β}

theorem Oblivious.pure (a : α) : Oblivious R look (pure a) :=
  ⟨.pure a, fun _ _ => .inr fun _ _ => rfl⟩

theorem Oblivious.raise (e : Throwable) : Oblivious R look (raise e : Java σ α) :=
  ⟨.raise e, fun _ _ => .inr fun _ _ => rfl⟩

theorem Oblivious.bind (hm : Oblivious R look m) (hf : ∀ a, Oblivious R look (f a)) :
    Oblivious R look (m >>= f) := by
  refine ⟨hm.lockstep.bind fun a => (hf a).lockstep, fun s i => ?_⟩
  rcases ho : outcome m s with e | a
  · have hafter : ∀ t, R s t → after (m >>= f) t = after m t := by
      intro t h
      have ht := run_of_outcome_error ((hm.lockstep h).1 ▸ ho)
      rw [after_error (bind_error ht)]
    rcases hm.fixed_or_kept s i with ⟨c, hc⟩ | hkept
    · exact .inl ⟨c, fun t h => by rw [hafter t h, hc t h]⟩
    · exact .inr fun t h => by rw [hafter t h, hkept t h]
  · have hafter : ∀ t, R s t → after (m >>= f) t = after (f a) (after m t) := by
      intro t h
      have ht := run_of_outcome_ok ((hm.lockstep h).1 ▸ ho)
      exact after_congr (bind_ok ht)
    -- the last method that fixes the place decides
    rcases (hf a).fixed_or_kept (after m s) i with ⟨c, hc⟩ | hkept
    · exact .inl ⟨c, fun t h => by rw [hafter t h, hc _ (hm.lockstep h).2]⟩
    · have hlast : ∀ t, R s t → look (after (m >>= f) t) i = look (after m t) i :=
        fun t h => by rw [hafter t h, hkept _ (hm.lockstep h).2]
      rcases hm.fixed_or_kept s i with ⟨c, hc⟩ | hkept'
      · exact .inl ⟨c, fun t h => by rw [hlast t h, hc t h]⟩
      · exact .inr fun t h => by rw [hlast t h, hkept' t h]

theorem Oblivious.reads {f : σ → Java σ α} (hf : ∀ s t, R s t → f s = f t)
    (h : ∀ s, Oblivious R look (f s)) : Oblivious R look (get >>= f) := by
  refine ⟨.reads hf fun s => (h s).lockstep, fun s i => ?_⟩
  have hafter : ∀ t, R s t → after (get >>= f) t = after (f s) t := by
    intro t hst
    exact after_congr (by rw [bind_ok (get_run t), hf s t hst])
  rcases (h s).fixed_or_kept s i with ⟨c, hc⟩ | hkept
  · exact .inl ⟨c, fun t hst => by rw [hafter t hst, hc t hst]⟩
  · exact .inr fun t hst => by rw [hafter t hst, hkept t hst]

theorem Oblivious.attempt (hm : Oblivious R look m) : Oblivious R look (attempt m) :=
  ⟨hm.lockstep.attempt, hm.fixed_or_kept⟩

/-- A place that is the same before is the same afterwards. -/
theorem Oblivious.agree (hm : Oblivious R look m) {s t : σ} {i : ι} (hs : R s s) (h : R s t)
    (hi : look s i = look t i) : look (after m s) i = look (after m t) i := by
  rcases hm.fixed_or_kept s i with ⟨c, hc⟩ | hkept
  · rw [hc s hs, hc t h]
  · rw [hkept s hs, hkept t h, hi]

end Oblivious

/-! ## Methods of an array -/

/-- A method of an array that does not look at the elements: how it ends, what it stores and where
depends on the length. -/
abbrev ObliviousArray (m : Java (List κ) α) : Prop :=
  Oblivious (fun a b : List κ => a.length = b.length) (fun a (i : ℕ) => a[i]?) m

/-- On arrays of one length the method overwrites one slice, or always throws. -/
theorem ObliviousArray.of_splice {m : Java (List κ) α}
    (h : ∀ n, (∃ r i xs, i + xs.length ≤ n ∧ ∀ a : List κ, a.length = n →
        m a = .ok r (splice a i xs)) ∨
      ∃ e, ∀ a : List κ, a.length = n → m a = .error e a) : ObliviousArray m := by
  refine ⟨fun a b hab => ?_, fun a j => ?_⟩
  · rcases h a.length with ⟨r, i, xs, hin, hrun⟩ | ⟨e, hrun⟩
    · have ha := hrun a rfl
      have hb := hrun b hab.symm
      rw [outcome_ok ha, outcome_ok hb, after_ok ha, after_ok hb, length_splice hin,
        length_splice (by rwa [← hab])]
      exact ⟨rfl, hab⟩
    · have ha := hrun a rfl
      have hb := hrun b hab.symm
      rw [outcome_error ha, outcome_error hb, after_error ha, after_error hb]
      exact ⟨rfl, hab⟩
  · rcases h a.length with ⟨r, i, xs, hin, hrun⟩ | ⟨e, hrun⟩
    · by_cases hj : i ≤ j ∧ j < i + xs.length
      · obtain ⟨k, rfl⟩ := Nat.exists_eq_add_of_le hj.1
        refine .inl ⟨xs[k]?, fun b hab => ?_⟩
        rw [after_ok (hrun b hab.symm), getElem?_splice_of_mem (by omega) (by omega)]
      · refine .inr fun b hab => ?_
        rw [after_ok (hrun b hab.symm), getElem?_splice_of_not_mem (by omega) (by omega)]
    · exact .inr fun b hab => by rw [after_error (hrun b hab.symm)]

theorem store_oblivious (i : ℤ) (x : κ) : ObliviousArray (store i x) := by
  refine .of_splice fun n => ?_
  by_cases hi : 0 ≤ i ∧ i < n
  · refine .inl ⟨(), i.toNat, [x], by rw [List.length_singleton]; omega, fun a ha => ?_⟩
    exact store_ok hi.1 (by omega) x
  · exact .inr ⟨_, fun a ha => store_error (by rwa [ha]) x⟩

theorem storeAll_oblivious (xs : List κ) : ∀ i : ℤ, ObliviousArray (storeAll i xs) := by
  induction xs with
  | nil => exact fun i => .pure ()
  | cons x xs ih => exact fun i => (store_oblivious i x).bind fun _ => ih (i + 1)

end Java

end HzResearch
