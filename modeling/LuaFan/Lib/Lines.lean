/-
# Lines and where bytes are cut

A sequence of lines is written with two separators behind each of them, such as CR and LF.
When the writing of some lines, with more behind it, is cut in two, the cut falls behind all
of them, inside one of them, or between its separators (`cut_of_append`).
-/
import Mathlib.Data.List.Basic

namespace Lines

variable {α : Type*} {a b : α}

/-- The lines with their separators. -/
def terminated (a b : α) (ls : List (List α)) : List α := ls.flatMap fun l => l ++ [a, b]

@[simp] theorem terminated_nil : terminated a b [] = [] := rfl

@[simp] theorem terminated_cons (l : List α) (ls : List (List α)) :
    terminated a b (l :: ls) = l ++ a :: b :: terminated a b ls := by
  simp [terminated]

@[simp] theorem terminated_append (ls ls' : List (List α)) :
    terminated a b (ls ++ ls') = terminated a b ls ++ terminated a b ls' := by
  simp [terminated]

theorem length_terminated_pos {ls : List (List α)} (h : ls ≠ []) : 0 < (terminated a b ls).length := by
  cases ls with
  | nil => exact absurd rfl h
  | cons l ls =>
      rw [terminated_cons, List.length_append, List.length_cons]
      omega

/-- Lines end in the second separator. -/
theorem getLast?_terminated {ls : List (List α)} (h : ls ≠ []) :
    (terminated a b ls).getLast? = some b := by
  induction ls with
  | nil => exact absurd rfl h
  | cons l ls ih =>
      rw [terminated_cons]
      cases ls with
      | nil => simp
      | cons l' ls =>
          have hne : terminated a b (l' :: ls) ≠ [] :=
            List.ne_nil_of_length_pos (length_terminated_pos (by simp))
          rw [← ih (by simp), List.getLast?_append_of_ne_nil _ (by simp),
            show a :: b :: terminated a b (l' :: ls) = [a, b] ++ terminated a b (l' :: ls) from rfl,
            List.getLast?_append_of_ne_nil _ hne]

/-- Where the writing of `ls`, with `t` behind it, is cut into `u` and `q`. -/
inductive Cut (a b : α) (ls : List (List α)) (t u q : List α) : Prop
  | behind (v : List α) (before : u = terminated a b ls ++ v) (after : v ++ q = t)
  | inside (ls₁ ls₂ : List (List α)) (p p' : List α) (lines : ls = ls₁ ++ (p ++ p') :: ls₂)
      (before : u = terminated a b ls₁ ++ p) (after : q = p' ++ a :: b :: (terminated a b ls₂ ++ t))
  | between (ls₁ ls₂ : List (List α)) (l : List α) (lines : ls = ls₁ ++ l :: ls₂)
      (before : u = terminated a b ls₁ ++ l ++ [a]) (after : q = b :: (terminated a b ls₂ ++ t))

theorem Cut.cons {l u q t : List α} {ls : List (List α)} (h : Cut a b ls t u q) :
    Cut a b (l :: ls) t (l ++ a :: b :: u) q := by
  cases h with
  | behind v before after => exact .behind v (by rw [before, terminated_cons]; simp) after
  | inside ls₁ ls₂ p p' lines before after =>
      exact .inside (l :: ls₁) ls₂ p p' (by rw [lines]; rfl) (by rw [before, terminated_cons]; simp) after
  | between ls₁ ls₂ l' lines before after =>
      exact .between (l :: ls₁) ls₂ l' (by rw [lines]; rfl) (by rw [before, terminated_cons]; simp) after

/-- **Every cut is one of the three.** -/
theorem cut_of_append {u q t : List α} {ls : List (List α)} (h : u ++ q = terminated a b ls ++ t) :
    Cut a b ls t u q := by
  induction ls generalizing u with
  | nil => exact .behind u rfl h
  | cons l ls ih =>
      rw [terminated_cons, List.append_assoc, List.cons_append, List.cons_append] at h
      rcases List.append_eq_append_iff.mp h with ⟨p', hl, hq⟩ | ⟨v, hu, hv⟩
      · -- the cut is inside the first line, or right behind its text
        exact .inside [] ls u p' (by rw [hl]; rfl) rfl hq
      · cases v with
        | nil => exact .inside [] ls l [] (by simp) (by rw [hu]; simp) (by simpa using hv.symm)
        | cons c v =>
            rw [List.cons_append, List.cons.injEq] at hv
            obtain ⟨rfl, hv⟩ := hv
            cases v with
            | nil => exact .between [] ls l rfl (by rw [hu]; simp) (by simpa using hv.symm)
            | cons d v =>
                rw [List.cons_append, List.cons.injEq] at hv
                obtain ⟨rfl, hv⟩ := hv
                rw [hu]
                exact (ih hv.symm).cons

end Lines
