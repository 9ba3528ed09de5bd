/-
# What a deterministic system settles at

A system that is stepped over and over shows something of its state at every
moment.  `Settles step view s v` says that, started in `s`, it shows `v` from some
moment on.  It shows at most one such value (`Settles.unique`), and two rules find
it: a step may be taken first (`settles_step_iff`), and an invariant that every step
keeps, and that fixes what is shown, settles the system (`Settles.of_invariant`).
-/
import Mathlib

namespace Run

variable {σ β : Type*} {step : σ → σ} {view : σ → β} {s : σ} {v w : β}

/-- From some moment on, the system started in `s` shows `v`. -/
def Settles (step : σ → σ) (view : σ → β) (s : σ) (v : β) : Prop :=
  ∃ n, ∀ k, n ≤ k → view (step^[k] s) = v

theorem Settles.of_step (h : Settles step view (step s) v) : Settles step view s v := by
  obtain ⟨n, hn⟩ := h
  refine ⟨n + 1, ?_⟩
  intro k hk
  obtain ⟨k, rfl⟩ := Nat.exists_eq_succ_of_ne_zero (by omega : k ≠ 0)
  rw [Function.iterate_succ_apply]
  exact hn k (by omega)

/-- An invariant holds at every moment. -/
theorem invariant_iterate (P : σ → Prop) (hstep : ∀ s, P s → P (step s)) (h : P s) (k : ℕ) :
    P (step^[k] s) := by
  induction k generalizing s with
  | zero => exact h
  | succ k ih =>
      rw [Function.iterate_succ_apply]
      exact ih (hstep s h)

theorem Settles.of_invariant (P : σ → Prop) (hstep : ∀ s, P s → P (step s))
    (hview : ∀ s, P s → view s = v) (h : P s) : Settles step view s v :=
  ⟨0, fun k _ => hview _ (invariant_iterate P hstep h k)⟩

/-- Taking a step first makes no difference. -/
theorem settles_step_iff : Settles step view (step s) v ↔ Settles step view s v := by
  refine ⟨Settles.of_step, ?_⟩
  rintro ⟨n, hn⟩
  refine ⟨n, ?_⟩
  intro k hk
  rw [← Function.iterate_succ_apply]
  exact hn (k + 1) (by omega)

theorem settles_iterate_iff (n : ℕ) : Settles step view (step^[n] s) v ↔ Settles step view s v := by
  induction n generalizing s with
  | zero => exact Iff.rfl
  | succ n ih => rw [Function.iterate_succ_apply, ih, settles_step_iff]

/-- What is shown in the end was reached from what is shown now. -/
theorem Settles.reached {R : β → β → Prop} (hrefl : ∀ x, R x x) (htrans : ∀ x y z, R x y → R y z → R x z)
    (hstep : ∀ s, R (view s) (view (step s))) (h : Settles step view s v) : R (view s) v := by
  obtain ⟨n, hn⟩ := h
  rw [← hn n le_rfl]
  clear hn
  induction n generalizing s with
  | zero => exact hrefl _
  | succ n ih =>
      rw [Function.iterate_succ_apply]
      exact htrans _ _ _ (hstep s) ih

theorem Settles.unique (h : Settles step view s v) (h' : Settles step view s w) : v = w := by
  obtain ⟨n, hn⟩ := h
  obtain ⟨m, hm⟩ := h'
  rw [← hn (max n m) (le_max_left n m), hm (max n m) (le_max_right n m)]

/-- An invariant that fixes what is shown says what the system settles at. -/
theorem settles_iff_of_invariant (P : σ → Prop) (hstep : ∀ s, P s → P (step s))
    (hview : ∀ s, P s → view s = w) (h : P s) : Settles step view s v ↔ v = w := by
  have hsettles : Settles step view s w := Settles.of_invariant P hstep hview h
  constructor
  · exact fun hv => hv.unique hsettles
  · rintro rfl
    exact hsettles

end Run
