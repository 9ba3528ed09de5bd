/-
# Machines that take events

A machine answers an event with its next state, or with none when the event cannot
happen.  A run is a list of events.  **What every step keeps, every run keeps**
(`run_invariant`); `Meets` restricts the runs to those whose steps satisfy a
condition on the event and the state before it, and `Always` looks at all states on the way.
`total` adds up what the steps of a run give, and what every step balances a run balances
(`run_balance`).
-/
import Mathlib.Algebra.Group.Basic
import Mathlib.Data.List.Basic

namespace Machine

variable {σ ε : Type} {step : σ → ε → Option σ}

/-- The state after a list of events. -/
def run (step : σ → ε → Option σ) : σ → List ε → Option σ
  | s, [] => some s
  | s, e :: es => (step s e).bind fun s' => run step s' es

/-- Every step of the run meets the condition. -/
def Meets (step : σ → ε → Option σ) (ok : σ → ε → Prop) : σ → List ε → Prop
  | _, [] => True
  | s, e :: es => ok s e ∧ ∀ s', step s e = some s' → Meets step ok s' es

/-- Whether the steps meet the condition can be found out by taking them. -/
instance Meets.decidable {ok : σ → ε → Prop} [∀ s e, Decidable (ok s e)] :
    ∀ (s : σ) (es : List ε), Decidable (Meets step ok s es)
  | _, [] => isTrue trivial
  | s, e :: es =>
      match hs : step s e with
      | none => decidable_of_iff (ok s e) ⟨fun h => ⟨h, by simp [hs]⟩, fun h => h.1⟩
      | some s' =>
          have : Decidable (Meets step ok s' es) := Meets.decidable s' es
          decidable_of_iff (ok s e ∧ Meets step ok s' es)
            ⟨fun h => ⟨h.1, by simpa [hs] using h.2⟩, fun h => ⟨h.1, h.2 s' hs⟩⟩

/-- A step with a guard that was taken. -/
theorem guard_taken {p : Prop} [Decidable p] {s s' : σ} (h : (if p then some s else none) = some s') :
    p ∧ s = s' := by
  rw [Option.ite_none_right_eq_some] at h
  exact ⟨h.1, Option.some.inj h.2⟩

theorem run_cons {s s' : σ} {e : ε} {es : List ε} :
    run step s (e :: es) = some s' ↔ ∃ s₁, step s e = some s₁ ∧ run step s₁ es = some s' := by
  rw [run, Option.bind_eq_some_iff]

/-- **What every step that meets the condition keeps holds after every run whose
steps meet it.** -/
theorem run_invariant {P : σ → Prop} {ok : σ → ε → Prop}
    (hstep : ∀ s e s', P s → ok s e → step s e = some s' → P s') {es : List ε} :
    ∀ {s s' : σ}, P s → Meets step ok s es → run step s es = some s' → P s' := by
  induction es with
  | nil =>
      intro s s' hs _ hrun
      cases hrun
      exact hs
  | cons e es ih =>
      intro s s' hs hmeets hrun
      obtain ⟨s₁, h₁, hrun⟩ := run_cons.mp hrun
      exact ih (hstep s e s₁ hs hmeets.1 h₁) (hmeets.2 s₁ h₁) hrun

/-- A condition on the events alone. -/
theorem meets_of_forall {ok : ε → Prop} {es : List ε} (h : ∀ e ∈ es, ok e) (s : σ) :
    Meets step (fun _ e => ok e) s es := by
  induction es generalizing s with
  | nil => trivial
  | cons e es ih =>
      exact ⟨h e List.mem_cons_self, fun s' _ => ih (fun e' he' => h e' (List.mem_cons_of_mem e he')) s'⟩

/-- Every run meets the trivial condition. -/
theorem meets_true (s : σ) (es : List ε) : Meets step (fun _ _ => True) s es := by
  induction es generalizing s with
  | nil => trivial
  | cons e es ih => exact ⟨trivial, fun s' _ => ih s'⟩

/-- What every step keeps holds after every run. -/
theorem run_keeps {P : σ → Prop} (hstep : ∀ s e s', P s → step s e = some s' → P s') {es : List ε}
    {s s' : σ} (hs : P s) (hrun : run step s es = some s') : P s' :=
  run_invariant (fun s e s' h _ => hstep s e s' h) hs (meets_true s es) hrun

/-- Later steps are those after the state that the first one leads to. -/
theorem meets_cons {ok : σ → ε → Prop} {s s' : σ} {e : ε} {es : List ε} (h : step s e = some s') :
    Meets step ok s (e :: es) ↔ ok s e ∧ Meets step ok s' es := by
  simp [Meets, h]

/-- A condition that comes from a stronger one while an invariant holds. -/
theorem Meets.weaken {P : σ → Prop} {ok ok' : σ → ε → Prop}
    (hstep : ∀ s e, P s → ok s e → ok' s e ∧ ∀ s', step s e = some s' → P s') {es : List ε} :
    ∀ {s : σ}, P s → Meets step ok s es → Meets step ok' s es := by
  induction es with
  | nil => exact fun _ _ => trivial
  | cons e es ih =>
      intro s hs hmeets
      obtain ⟨hok, hkeep⟩ := hstep s e hs hmeets.1
      exact ⟨hok, fun s' h => ih (hkeep s' h) (hmeets.2 s' h)⟩

/-- **What a step loses exactly when it misses a condition, a run loses exactly when one
of its steps misses it.** -/
theorem run_iff {P Q : σ → Prop} {use ok : σ → ε → Prop}
    (hstep : ∀ s e s', P s → use s e → step s e = some s' → P s' ∧ (Q s' ↔ Q s ∧ ok s e))
    {es : List ε} :
    ∀ {s s' : σ}, P s → Meets step use s es → run step s es = some s' →
      P s' ∧ (Q s' ↔ Q s ∧ Meets step ok s es) := by
  induction es with
  | nil =>
      intro s s' hs _ hrun
      cases hrun
      exact ⟨hs, by simp [Meets]⟩
  | cons e es ih =>
      intro s s' hs huse hrun
      obtain ⟨s₁, h₁, hrun⟩ := run_cons.mp hrun
      obtain ⟨hs₁, hfirst⟩ := hstep s e s₁ hs huse.1 h₁
      obtain ⟨hs', hrest⟩ := ih hs₁ (huse.2 s₁ h₁) hrun
      refine ⟨hs', ?_⟩
      rw [hrest, hfirst, meets_cons h₁, and_assoc]

/-- The property holds in every state of the run. -/
def Always (step : σ → ε → Option σ) (Q : σ → Prop) : σ → List ε → Prop
  | s, [] => Q s
  | s, e :: es => Q s ∧ ∀ s', step s e = some s' → Always step Q s' es

theorem always_cons {Q : σ → Prop} {s s' : σ} {e : ε} {es : List ε} (h : step s e = some s') :
    Always step Q s (e :: es) ↔ Q s ∧ Always step Q s' es := by
  simp [Always, h]

theorem Always.head {Q : σ → Prop} {s : σ} {es : List ε} (h : Always step Q s es) : Q s := by
  cases es with
  | nil => exact h
  | cons e es => exact h.1

theorem Always.last {Q : σ → Prop} {es : List ε} :
    ∀ {s s' : σ}, Always step Q s es → run step s es = some s' → Q s' := by
  induction es with
  | nil =>
      intro s s' h hrun
      cases hrun
      exact h
  | cons e es ih =>
      intro s s' h hrun
      obtain ⟨s₁, h₁, hrun⟩ := run_cons.mp hrun
      exact ih (h.2 s₁ h₁) hrun

/-- **If the property is lost exactly by a step that misses a condition, it holds all
along a run exactly when no step misses it.** -/
theorem always_iff {P Q : σ → Prop} {ok : σ → ε → Prop}
    (hstep : ∀ s e s', P s → Q s → step s e = some s' → (ok s e → P s') ∧ (Q s' ↔ ok s e))
    {es : List ε} :
    ∀ {s s' : σ}, P s → Q s → run step s es = some s' →
      (Always step Q s es ↔ Meets step ok s es) := by
  induction es with
  | nil =>
      intro s s' _ hQ _
      exact ⟨fun _ => trivial, fun _ => hQ⟩
  | cons e es ih =>
      intro s s' hP hQ hrun
      obtain ⟨s₁, h₁, hrun⟩ := run_cons.mp hrun
      obtain ⟨hP₁, hQ₁⟩ := hstep s e s₁ hP hQ h₁
      rw [always_cons h₁, meets_cons h₁]
      constructor
      · rintro ⟨-, h⟩
        have hok := hQ₁.mp h.head
        exact ⟨hok, (ih (hP₁ hok) h.head hrun).mp h⟩
      · rintro ⟨hok, h⟩
        exact ⟨hQ, (ih (hP₁ hok) (hQ₁.mpr hok) hrun).mpr h⟩

/-! ## What a run adds up to -/

section Total

variable {M : Type} [AddCommMonoid M]

/-- The sum of what the steps of a run give. -/
def total (step : σ → ε → Option σ) (given : σ → ε → M) : σ → List ε → M
  | _, [] => 0
  | s, e :: es => given s e + ((step s e).map fun s' => total step given s' es).getD 0

theorem total_cons {given : σ → ε → M} {s s' : σ} {e : ε} {es : List ε} (h : step s e = some s') :
    total step given s (e :: es) = given s e + total step given s' es := by
  rw [total, h]
  rfl

theorem total_add (given given' : σ → ε → M) (es : List ε) :
    ∀ s, total step (fun s e => given s e + given' s e) s es
      = total step given s es + total step given' s es := by
  induction es with
  | nil => exact fun _ => (add_zero 0).symm
  | cons e es ih =>
      intro s
      cases h : step s e with
      | none => simp only [total, h, Option.map_none, Option.getD_none, add_zero]
      | some s' => rw [total_cons h, total_cons h, total_cons h, ih, add_add_add_comm]

/-- **If every step changes the stock by what it takes and gives, so does a run.** -/
theorem run_balance {stock : σ → M} {taken given : σ → ε → M} {ok : σ → ε → Prop}
    (hstep : ∀ s e s', ok s e → step s e = some s' → stock s + given s e = stock s' + taken s e)
    {es : List ε} :
    ∀ {s s' : σ}, Meets step ok s es → run step s es = some s' →
      stock s + total step given s es = stock s' + total step taken s es := by
  induction es with
  | nil =>
      intro s s' _ hrun
      cases hrun
      rfl
  | cons e es ih =>
      intro s s' hmeets hrun
      obtain ⟨s₁, h₁, hrun⟩ := run_cons.mp hrun
      rw [total_cons h₁, total_cons h₁]
      calc stock s + (given s e + total step given s₁ es)
          = stock s₁ + total step given s₁ es + taken s e := by
            rw [← add_assoc, hstep s e s₁ hmeets.1 h₁, add_right_comm]
        _ = stock s' + (taken s e + total step taken s₁ es) := by
            rw [ih (hmeets.2 s₁ h₁) hrun, add_assoc, add_comm (taken s e)]

end Total

end Machine
