/-
# Numbering in a cycle

Messages are numbered 1, 2, ... up to `m - 1`, and then from 1 again.  As long as
fewer than `m - 1` numbers are in use, the number says which message it is
(`nth_inj`).

A window over such a numbering moves on while its place is marked, and takes the marks
away (`slide`): **what it has passed was marked, and the marks that are left are those
it has not passed.**
-/
import Mathlib.Data.Finset.Card
import Mathlib.Logic.Function.Iterate
import Mathlib.Tactic.Common

namespace Serial

/-! ## Numbers -/

/-- The number after another. -/
def next (m i : ℕ) : ℕ := if m ≤ i + 1 then 1 else i + 1

/-- The number of the `k`-th message, the first one having the number `start`. -/
def nth (m start k : ℕ) : ℕ := (next m)^[k] start

variable {m start j k : ℕ}

@[simp] theorem nth_zero : nth m start 0 = start := rfl

theorem nth_succ : nth m start (k + 1) = next m (nth m start k) :=
  Function.iterate_succ_apply' _ _ _

theorem next_lt {i : ℕ} (hm : 1 < m) : next m i < m := by
  unfold next
  split <;> omega

/-- Before the numbers come to an end they count up, and then once more from 1. -/
theorem nth_eq (h₁ : 1 ≤ start) (h₂ : start < m) (hk : k < m) :
    nth m start k = if start + k < m then start + k else start + k - (m - 1) := by
  induction k with
  | zero =>
      rw [nth_zero, if_pos (by omega)]
      rfl
  | succ k ih =>
      rw [nth_succ, ih (by omega), next]
      split_ifs <;> omega

/-- A start at `m` itself, which is no number of the cycle, is left at once. -/
theorem nth_eq_of_start (h₁ : 0 < k) (hk : k < m) : nth m m k = k := by
  induction k with
  | zero => omega
  | succ k ih =>
      by_cases hzero : k = 0
      · subst hzero
        rw [nth_succ, nth_zero, next, if_pos (by omega)]
      · rw [nth_succ, ih (by omega) (by omega), next, if_neg (by omega)]

theorem nth_lt (h₂ : start < m) (hm : 1 < m) : nth m start k < m := by
  cases k with
  | zero => exact h₂
  | succ k =>
      rw [nth_succ]
      exact next_lt hm

theorem nth_le (h₂ : start ≤ m) (hm : 1 < m) : nth m start k ≤ m := by
  cases k with
  | zero => exact h₂
  | succ k =>
      rw [nth_succ]
      exact (next_lt hm).le

/-- **The number says which message it is.** -/
theorem nth_inj (h₁ : 1 ≤ start) (h₂ : start ≤ m) (hj : j < m - 1) (hk : k < m - 1)
    (h : nth m start j = nth m start k) : j = k := by
  by_cases hstart : start = m
  · subst hstart
    by_cases hj₀ : j = 0
    · by_cases hk₀ : k = 0
      · omega
      · subst hj₀
        rw [nth_zero, nth_eq_of_start (by omega) (by omega)] at h
        omega
    · by_cases hk₀ : k = 0
      · subst hk₀
        rw [nth_zero, nth_eq_of_start (by omega) (by omega)] at h
        omega
      · rw [nth_eq_of_start (by omega) (by omega), nth_eq_of_start (by omega) (by omega)] at h
        exact h
  · rw [nth_eq h₁ (by omega) (by omega), nth_eq h₁ (by omega) (by omega)] at h
    split_ifs at h <;> omega

/-! ## Windows -/

/-- A window at `w` moves on while its place is marked. -/
def slide (step : ℕ → ℕ) : ℕ → Finset ℕ → ℕ → Finset ℕ × ℕ
  | 0, marks, w => (marks, w)
  | fuel + 1, marks, w =>
      if w ∈ marks then slide step fuel (marks.erase w) (step w) else (marks, w)

/-- **How a window moves**: past marked places, whose marks go. -/
theorem slide_spec (step : ℕ → ℕ) (fuel : ℕ) :
    ∀ (marks : Finset ℕ) (w : ℕ),
      ∃ t, (slide step fuel marks w).2 = step^[t] w ∧ (∀ i < t, step^[i] w ∈ marks) ∧
        (slide step fuel marks w).1 ⊆ marks ∧
        ∀ x ∈ marks, x ∈ (slide step fuel marks w).1 ∨ ∃ i < t, x = step^[i] w := by
  induction fuel with
  | zero =>
      intro marks w
      exact ⟨0, rfl, by simp, subset_rfl, fun x hx => Or.inl hx⟩
  | succ fuel ih =>
      intro marks w
      rw [slide]
      split
      · rename_i hw
        obtain ⟨t, hplace, hmarked, hsub, hrest⟩ := ih (marks.erase w) (step w)
        refine ⟨t + 1, hplace, ?_, hsub.trans (Finset.erase_subset w marks), ?_⟩
        · intro i hi
          cases i with
          | zero => exact hw
          | succ i => exact Finset.mem_of_mem_erase (hmarked i (by omega))
        · intro x hx
          by_cases hxw : x = w
          · exact Or.inr ⟨0, by omega, hxw⟩
          · rcases hrest x (Finset.mem_erase.mpr ⟨hxw, hx⟩) with h | ⟨i, hi, h⟩
            · exact Or.inl h
            · exact Or.inr ⟨i + 1, by omega, h⟩
      · exact ⟨0, rfl, by simp, subset_rfl, fun x hx => Or.inl hx⟩

/-- With as much fuel as there are marks the window stops at a place without a mark. -/
theorem slide_stops (step : ℕ → ℕ) (fuel : ℕ) :
    ∀ (marks : Finset ℕ) (w : ℕ), marks.card ≤ fuel →
      (slide step fuel marks w).2 ∉ (slide step fuel marks w).1 := by
  induction fuel with
  | zero =>
      intro marks w hcard
      rw [Finset.card_eq_zero.mp (Nat.le_zero.mp hcard)]
      simp [slide]
  | succ fuel ih =>
      intro marks w hcard
      rw [slide]
      split
      · rename_i hw
        apply ih
        rw [Finset.card_erase_of_mem hw]
        omega
      · rename_i hw
        exact hw

/-- The places that the window moves off, in order. -/
def trail (step : ℕ → ℕ) : ℕ → Finset ℕ → ℕ → List ℕ
  | 0, _, _ => []
  | fuel + 1, marks, w => if w ∈ marks then w :: trail step fuel (marks.erase w) (step w) else []

/-- **Every place the window moves off is the next one, and costs a mark.** -/
theorem trail_spec (step : ℕ → ℕ) (fuel : ℕ) :
    ∀ (marks : Finset ℕ) (w : ℕ),
      trail step fuel marks w
          = (List.range (trail step fuel marks w).length).map (fun i => step^[i] w) ∧
        (slide step fuel marks w).2 = step^[(trail step fuel marks w).length] w ∧
        (slide step fuel marks w).1.card + (trail step fuel marks w).length = marks.card := by
  induction fuel with
  | zero =>
      intro marks w
      exact ⟨rfl, rfl, rfl⟩
  | succ fuel ih =>
      intro marks w
      rw [trail, slide]
      split
      · rename_i hw
        obtain ⟨htrail, hplace, hcard⟩ := ih (marks.erase w) (step w)
        refine ⟨?_, ?_, ?_⟩
        · rw [List.length_cons, List.range_succ_eq_map, List.map_cons, List.map_map]
          nth_rewrite 1 [htrail]
          rfl
        · rw [hplace, List.length_cons, Function.iterate_succ_apply]
        · rw [Finset.card_erase_of_mem hw] at hcard
          have hpos : 0 < marks.card := Finset.card_pos.mpr ⟨w, hw⟩
          rw [List.length_cons]
          omega
      · exact ⟨rfl, rfl, rfl⟩

end Serial
