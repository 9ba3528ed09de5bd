/-
# Loops with machine counters

A computation with loops is run with a bound on the rounds of each loop.  It ends with a
value or an error, and says whether a counter passed the top of its type on the way.

`Timed.Ends` is the good case: **for some bound the computation ends, and no counter has
wrapped.**  One lemma for each way to build a computation says when that is so.
-/
import Mathlib.Data.UInt

/-- What a computation comes to with a bound on the rounds of its loops: nothing if the
bound is too low, and the same with every higher bound. -/
structure Timed (ε α : Type) where
  run : ℕ → Option (Bool × Except ε α)
  mono : ∀ n r, run n = some r → run (n + 1) = some r

namespace Timed

variable {ε α β σ : Type}

theorem mono_le (x : Timed ε α) {n m : ℕ} (h : n ≤ m) {r : Bool × Except ε α}
    (hr : x.run n = some r) : x.run m = some r := by
  induction h with
  | refl => exact hr
  | step _ ih => exact x.mono _ _ ih

/-- It ends, and no counter has wrapped. -/
def Ends (x : Timed ε α) (r : Except ε α) : Prop := ∃ n, x.run n = some (false, r)

theorem Ends.unique {x : Timed ε α} {r r' : Except ε α} (h : x.Ends r) (h' : x.Ends r') : r = r' := by
  obtain ⟨n, hn⟩ := h
  obtain ⟨m, hm⟩ := h'
  have hn' := x.mono_le (le_max_left n m) hn
  rw [x.mono_le (le_max_right n m) hm] at hn'
  cases hn'
  rfl

/-! ## Without loops -/

/-- A value or an error. -/
def ofExcept (r : Except ε α) : Timed ε α := ⟨fun _ => some (false, r), fun _ _ h => h⟩

/-- The run of the second part, if the first leaves a value. -/
def runThen (x : Option (Bool × Except ε α)) (f : α → Option (Bool × Except ε β)) :
    Option (Bool × Except ε β) :=
  match x with
  | none => none
  | some (wrapped, .error e) => some (wrapped, .error e)
  | some (wrapped, .ok a) => (f a).map fun r => (wrapped || r.1, r.2)

theorem runThen_mono {x x' : Option (Bool × Except ε α)} {f f' : α → Option (Bool × Except ε β)}
    (hx : ∀ r, x = some r → x' = some r) (hf : ∀ a r, f a = some r → f' a = some r)
    {r : Bool × Except ε β} (h : runThen x f = some r) : runThen x' f' = some r := by
  cases x with
  | none => cases h
  | some s =>
      rw [hx s rfl]
      obtain ⟨wrapped, e | a⟩ := s
      · exact h
      · obtain ⟨t, ht, rfl⟩ := Option.map_eq_some_iff.mp h
        simp only [runThen, hf a t ht, Option.map_some]

/-- A run without a wrapped counter has none in its parts. -/
theorem runThen_eq {x : Option (Bool × Except ε α)} {f : α → Option (Bool × Except ε β)}
    {r : Except ε β} : runThen x f = some (false, r) ↔
      (∃ e, x = some (false, .error e) ∧ r = .error e) ∨
        ∃ a, x = some (false, .ok a) ∧ f a = some (false, r) := by
  constructor
  · intro h
    cases x with
    | none => cases h
    | some s =>
        obtain ⟨wrapped, e | a⟩ := s
        · cases h
          exact Or.inl ⟨e, rfl, rfl⟩
        · obtain ⟨⟨w, t⟩, ht, heq⟩ := Option.map_eq_some_iff.mp h
          simp only [Prod.mk.injEq, Bool.or_eq_false_iff] at heq
          obtain ⟨⟨rfl, rfl⟩, rfl⟩ := heq
          exact Or.inr ⟨a, rfl, ht⟩
  · rintro (⟨e, rfl, rfl⟩ | ⟨a, rfl, ha⟩)
    · rfl
    · simp [runThen, ha]

/-- One part after the other. -/
def andThen (x : Timed ε α) (f : α → Timed ε β) : Timed ε β where
  run n := runThen (x.run n) fun a => (f a).run n
  mono n _ h := runThen_mono (x.mono n) (fun a => (f a).mono n) h

instance : Monad (Timed ε) where
  pure a := ofExcept (.ok a)
  bind := andThen

/-- The computation stops with an error. -/
def fail (e : ε) : Timed ε α := ofExcept (.error e)

theorem ends_ofExcept {r r' : Except ε α} : (ofExcept r).Ends r' ↔ r' = r := by
  constructor
  · rintro ⟨n, hn⟩
    cases hn
    rfl
  · rintro rfl
    exact ⟨0, rfl⟩

theorem ends_pure {a : α} {r : Except ε α} : (pure a : Timed ε α).Ends r ↔ r = .ok a := ends_ofExcept

theorem ends_fail {e : ε} {r : Except ε α} : (fail e).Ends r ↔ r = .error e := ends_ofExcept

theorem ends_bind {x : Timed ε α} {f : α → Timed ε β} {r : Except ε β} :
    (x >>= f).Ends r ↔ (∃ e, x.Ends (.error e) ∧ r = .error e) ∨ ∃ a, x.Ends (.ok a) ∧ (f a).Ends r := by
  constructor
  · rintro ⟨n, hn⟩
    rcases runThen_eq.mp hn with ⟨e, he, rfl⟩ | ⟨a, ha, hr⟩
    · exact Or.inl ⟨e, ⟨n, he⟩, rfl⟩
    · exact Or.inr ⟨a, ⟨n, ha⟩, ⟨n, hr⟩⟩
  · rintro (⟨e, ⟨n, he⟩, rfl⟩ | ⟨a, ⟨n, ha⟩, ⟨m, hr⟩⟩)
    · exact ⟨n, runThen_eq.mpr (Or.inl ⟨e, he, rfl⟩)⟩
    · -- the higher bound is enough for both parts
      refine ⟨max n m, runThen_eq.mpr (Or.inr ⟨a, ?_, ?_⟩)⟩
      · exact x.mono_le (le_max_left n m) ha
      · exact (f a).mono_le (le_max_right n m) hr

/-- A value is passed on in another form. -/
theorem ends_map {x : Timed ε α} {g : α → β} {r : Except ε β} :
    (x >>= fun a => pure (g a)).Ends r ↔ ∃ r', x.Ends r' ∧ r = r'.map g := by
  rw [ends_bind]
  simp only [ends_pure]
  constructor
  · rintro (⟨e, he, rfl⟩ | ⟨a, ha, rfl⟩)
    · exact ⟨.error e, he, rfl⟩
    · exact ⟨.ok a, ha, rfl⟩
  · rintro ⟨e | a, hr, rfl⟩
    · exact Or.inl ⟨e, hr, rfl⟩
    · exact Or.inr ⟨a, hr, rfl⟩

/-! ## Counted loops -/

section Count

variable (top count : UInt32) (body : UInt32 → σ → Timed ε σ)

/-- `for (; i <= count; i++)`, with a counter of 32 bits whose type ends at `top`. -/
def countRun : ℕ → UInt32 → σ → Option (Bool × Except ε σ)
  | 0, _, _ => none
  | n + 1, i, s =>
      if i ≤ count then
        runThen ((body i s).run n) fun s =>
          (countRun n (i + 1) s).map fun r => (decide (i = top) || r.1, r.2)
      else some (false, .ok s)

theorem countRun_mono (n : ℕ) : ∀ i s r, countRun top count body n i s = some r →
    countRun top count body (n + 1) i s = some r := by
  induction n with
  | zero =>
      intro i s r h
      cases h
  | succ n ih =>
      intro i s r h
      rw [countRun] at h ⊢
      split at h
      · rename_i hi
        rw [if_pos hi]
        refine runThen_mono ((body i s).mono n) ?_ h
        intro s' r' h'
        obtain ⟨t, ht, rfl⟩ := Option.map_eq_some_iff.mp h'
        rw [ih _ _ _ ht, Option.map_some]
      · rename_i hi
        rw [if_neg hi]
        exact h

def countTo (i : UInt32) (s : σ) : Timed ε σ :=
  ⟨fun n => countRun top count body n i s, fun n r h => countRun_mono top count body n i s r h⟩

variable {top count body} {i : UInt32} {s : σ} {r : Except ε σ}

theorem ends_countTo_done (h : ¬i ≤ count) : (countTo top count body i s).Ends r ↔ r = .ok s := by
  constructor
  · rintro ⟨n, hn⟩
    cases n with
    | zero => cases hn
    | succ n =>
        simp only [countTo, countRun, if_neg h] at hn
        cases hn
        rfl
  · rintro rfl
    exact ⟨1, by simp only [countTo, countRun, if_neg h]⟩

/-- One round of the loop. -/
theorem ends_countTo (h : i ≤ count) : (countTo top count body i s).Ends r ↔
    (∃ e, (body i s).Ends (.error e) ∧ r = .error e) ∨
      ∃ s', (body i s).Ends (.ok s') ∧ i ≠ top ∧ (countTo top count body (i + 1) s').Ends r := by
  have hround : ∀ n, countRun top count body (n + 1) i s = some (false, r) ↔
      (∃ e, (body i s).run n = some (false, .error e) ∧ r = .error e) ∨
        ∃ s', (body i s).run n = some (false, .ok s') ∧ i ≠ top ∧
          countRun top count body n (i + 1) s' = some (false, r) := by
    intro n
    rw [countRun, if_pos h, runThen_eq]
    refine or_congr_right (exists_congr fun s' => and_congr_right fun _ => ?_)
    rw [Option.map_eq_some_iff]
    constructor
    · rintro ⟨⟨w, t⟩, ht, heq⟩
      simp only [Prod.mk.injEq, Bool.or_eq_false_iff, decide_eq_false_iff_not] at heq
      obtain ⟨⟨htop, rfl⟩, rfl⟩ := heq
      exact ⟨htop, ht⟩
    · rintro ⟨htop, ht⟩
      exact ⟨_, ht, by simp [htop]⟩
  constructor
  · rintro ⟨n, hn⟩
    cases n with
    | zero => cases hn
    | succ n =>
        rcases (hround n).mp hn with ⟨e, he, rfl⟩ | ⟨s', hs, htop, hr⟩
        · exact Or.inl ⟨e, ⟨n, he⟩, rfl⟩
        · exact Or.inr ⟨s', ⟨n, hs⟩, htop, ⟨n, hr⟩⟩
  · rintro (⟨e, ⟨n, he⟩, rfl⟩ | ⟨s', ⟨n, hs⟩, htop, ⟨m, hr⟩⟩)
    · exact ⟨n + 1, (hround n).mpr (Or.inl ⟨e, he, rfl⟩)⟩
    · refine ⟨max n m + 1, (hround _).mpr (Or.inr ⟨s', ?_, htop, ?_⟩)⟩
      · exact (body i s).mono_le (le_max_left n m) hs
      · exact (countTo top count body (i + 1) s').mono_le (le_max_right n m) hr

/-- One round of a loop that something follows. -/
theorem ends_countTo_bind {f : σ → Timed ε β} {r : Except ε β} (h : i ≤ count) (htop : i ≠ top) :
    (countTo top count body i s >>= f).Ends r ↔
      (body i s >>= fun s => countTo top count body (i + 1) s >>= f).Ends r := by
  simp only [ends_bind, ends_countTo h]
  constructor
  · rintro (⟨e, ⟨e', he, heq⟩ | ⟨s', hs, -, he⟩, rfl⟩ | ⟨a, ⟨e', -, heq⟩ | ⟨s', hs, -, ha⟩, hr⟩)
    · cases heq
      exact Or.inl ⟨e, he, rfl⟩
    · exact Or.inr ⟨s', hs, Or.inl ⟨e, he, rfl⟩⟩
    · cases heq
    · exact Or.inr ⟨s', hs, Or.inr ⟨a, ha, hr⟩⟩
  · rintro (⟨e, he, rfl⟩ | ⟨s', hs, ⟨e, he, rfl⟩ | ⟨a, ha, hr⟩⟩)
    · exact Or.inl ⟨e, Or.inl ⟨e, he, rfl⟩, rfl⟩
    · exact Or.inl ⟨e, Or.inr ⟨s', hs, htop, he⟩, rfl⟩
    · exact Or.inr ⟨a, Or.inr ⟨s', hs, htop, ha⟩, hr⟩

/-- **A loop to the greatest 32-bit number does not end**, if no round leaves it. -/
theorem countRun_max (hmax : count.toNat = 2 ^ 32 - 1)
    (hbody : ∀ i s, ∃ s', body i s = ofExcept (.ok s')) (n : ℕ) :
    ∀ i s, countRun top count body n i s = none := by
  induction n with
  | zero => exact fun _ _ => rfl
  | succ n ih =>
      intro i s
      have hle : i ≤ count := by
        rw [UInt32.le_iff_toNat_le, hmax]
        exact Nat.le_pred_of_lt i.toNat_lt
      obtain ⟨s', hs⟩ := hbody i s
      rw [countRun, if_pos hle, hs]
      simp [runThen, ofExcept, ih]

end Count

/-! ## Loops with a condition -/

section While

variable (cond : σ → Bool) (body : σ → Timed ε σ)

/-- `while (cond)`. -/
def whileRun : ℕ → σ → Option (Bool × Except ε σ)
  | 0, _ => none
  | n + 1, s => if cond s then runThen ((body s).run n) (whileRun n) else some (false, .ok s)

theorem whileRun_mono (n : ℕ) : ∀ s r, whileRun cond body n s = some r →
    whileRun cond body (n + 1) s = some r := by
  induction n with
  | zero =>
      intro s r h
      cases h
  | succ n ih =>
      intro s r h
      rw [whileRun] at h ⊢
      split at h
      · rename_i hc
        rw [if_pos hc]
        exact runThen_mono ((body s).mono n) ih h
      · rename_i hc
        rw [if_neg hc]
        exact h

def whileTo (s : σ) : Timed ε σ :=
  ⟨fun n => whileRun cond body n s, fun n r h => whileRun_mono cond body n s r h⟩

variable {cond body} {s : σ} {r : Except ε σ}

theorem ends_whileTo_done (h : cond s = false) : (whileTo cond body s).Ends r ↔ r = .ok s := by
  constructor
  · rintro ⟨n, hn⟩
    cases n with
    | zero => cases hn
    | succ n =>
        simp only [whileTo, whileRun, h, Bool.false_eq_true, if_false] at hn
        cases hn
        rfl
  · rintro rfl
    exact ⟨1, by simp only [whileTo, whileRun, h, Bool.false_eq_true, if_false]⟩

/-- One round of the loop. -/
theorem ends_whileTo (h : cond s = true) : (whileTo cond body s).Ends r ↔
    (body s >>= whileTo cond body).Ends r := by
  rw [ends_bind]
  have hround : ∀ n, whileRun cond body (n + 1) s = some (false, r) ↔
      (∃ e, (body s).run n = some (false, .error e) ∧ r = .error e) ∨
        ∃ s', (body s).run n = some (false, .ok s') ∧ whileRun cond body n s' = some (false, r) := by
    intro n
    rw [whileRun, if_pos h, runThen_eq]
  constructor
  · rintro ⟨n, hn⟩
    cases n with
    | zero => cases hn
    | succ n =>
        rcases (hround n).mp hn with ⟨e, he, rfl⟩ | ⟨s', hs, hr⟩
        · exact Or.inl ⟨e, ⟨n, he⟩, rfl⟩
        · exact Or.inr ⟨s', ⟨n, hs⟩, ⟨n, hr⟩⟩
  · rintro (⟨e, ⟨n, he⟩, rfl⟩ | ⟨s', ⟨n, hs⟩, ⟨m, hr⟩⟩)
    · exact ⟨n + 1, (hround n).mpr (Or.inl ⟨e, he, rfl⟩)⟩
    · refine ⟨max n m + 1, (hround _).mpr (Or.inr ⟨s', ?_, ?_⟩)⟩
      · exact (body s).mono_le (le_max_left n m) hs
      · exact (whileTo cond body s').mono_le (le_max_right n m) hr

end While

end Timed
