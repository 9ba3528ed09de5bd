/-
# Evaluating a graph as if it were a tree

A recursive evaluation over the nodes of a graph ends when the graph has no cycle.
`Descent.run` carries the path of the nodes it is inside of and gives up with
`cyclic` when it meets one of them again; `Descent.asTree` is the same evaluation
without the path, which evaluates a shared node anew at each occurrence.  Both take
a bound on the depth.

A node is `Sound` when its result is an error exactly if that of a child is, and
passes the error on.  For a start from which only sound nodes of a finite list are
reached:

* `run_ok_iff`: **the evaluation succeeds exactly when no cycle can be reached, and
  gives up with `cyclic` otherwise**;
* `run_stable`: a bound of one more than the number of nodes is never used up;
* `asTree_of_run`: a success is the result of the evaluation without a path.
-/
import Mathlib

/-- One step of an evaluation: the children of a node, and its result, given theirs. -/
structure Descent (ν ε α : Type*) where
  Child : ν → ν → Prop
  step : (ν → Except ε α) → ν → Except ε α
  /-- only the results of the children matter -/
  step_congr : ∀ f g v, (∀ c, Child v c → f c = g c) → step f v = step g v
  /-- the path leads back to a node it came from -/
  cyclic : ε
  /-- the bound on the depth is used up -/
  tooDeep : ε

namespace Descent

variable {ν ε α : Type*}

/-- The path is made of different nodes, and the bound leaves room for all others. -/
structure Room (nodes path : List ν) (depth : ℕ) : Prop where
  nodup : path.Nodup
  subset : path ⊆ nodes
  room : nodes.length + 1 ≤ depth + path.length

theorem Room.ne_zero {nodes path : List ν} {depth : ℕ} (h : Room nodes path depth) : depth ≠ 0 := by
  rintro rfl
  have := (h.nodup.subperm h.subset).length_le
  have := h.room
  omega

theorem Room.push {nodes path : List ν} {depth : ℕ} {v : ν} (h : Room nodes path (depth + 1))
    (hnot : v ∉ path) (hv : v ∈ nodes) : Room nodes (v :: path) depth where
  nodup := List.nodup_cons.mpr ⟨hnot, h.nodup⟩
  subset := List.cons_subset.mpr ⟨hv, h.subset⟩
  room := by
    have := h.room
    rw [List.length_cons]
    omega

theorem not_self_of_acc {r : ν → ν → Prop} {v : ν} (h : Acc r v) : ¬r v v := by
  induction h with
  | intro v _ ih =>
      intro hself
      exact ih v hself hself

variable (D : Descent ν ε α)

/-- The result of the node is an error exactly if that of a child is: its error. -/
structure Sound (v : ν) : Prop where
  ok : ∀ f a, D.step f v = .ok a → ∀ c, D.Child v c → ∃ b, f c = .ok b
  error : ∀ f e, D.step f v = .error e → ∃ c, D.Child v c ∧ f c = .error e

/-- A node that can be reached. -/
abbrev Reach : ν → ν → Prop := Relation.ReflTransGen D.Child

/-- A node that can be reached lies on a cycle. -/
def Cyclic (v : ν) : Prop := ∃ w, D.Reach v w ∧ Relation.TransGen D.Child w w

/-- From a node below which all paths end, no cycle is reached. -/
theorem not_cyclic_of_acc {D : Descent ν ε α} {v : ν} (h : Acc (fun c v => D.Child v c) v) :
    ¬D.Cyclic v := by
  rintro ⟨w, hreach, hcycle⟩
  have hw : Acc (fun c v => D.Child v c) w := by
    clear hcycle
    induction hreach with
    | refl => exact h
    | tail _ hchild ih => exact ih.inv hchild
  exact not_self_of_acc hw.transGen (Relation.transGen_swap.mp hcycle)

variable [DecidableEq ν]

/-- The evaluation, inside of the nodes of a path. -/
def run : ℕ → List ν → ν → Except ε α
  | 0, _, _ => .error D.tooDeep
  | depth + 1, path, v =>
      if v ∈ path then .error D.cyclic else D.step (run depth (v :: path)) v

/-- The evaluation without a path. -/
def asTree : ℕ → ν → Except ε α
  | 0, _ => .error D.tooDeep
  | depth + 1, v => D.step (asTree depth) v

variable {D}

/-- **A success ends all paths.** -/
theorem acc_of_run (depth : ℕ) :
    ∀ (path : List ν) (v : ν) (a : α), (∀ w, D.Reach v w → D.Sound w) →
      D.run depth path v = .ok a → Acc (fun c v => D.Child v c) v := by
  induction depth with
  | zero =>
      intro path v a _ h
      cases h
  | succ depth ih =>
      intro path v a hsound h
      rw [run] at h
      by_cases hmem : v ∈ path
      · rw [if_pos hmem] at h
        cases h
      · rw [if_neg hmem] at h
        constructor
        intro c hc
        obtain ⟨b, hb⟩ := (hsound v .refl).ok _ a h c hc
        exact ih (v :: path) c b (fun w hw => hsound w (.head hc hw)) hb

/-- **Giving up means that there is a cycle**: the path leads to the node, and the
node is on it. -/
theorem cyclic_of_run (depth : ℕ) :
    ∀ (path : List ν) (v : ν), (∀ w, D.Reach v w → D.Sound w) →
      (∀ u ∈ path, Relation.TransGen D.Child u v) → D.cyclic ≠ D.tooDeep →
      D.run depth path v = .error D.cyclic → D.Cyclic v := by
  induction depth with
  | zero =>
      intro path v _ _ hne h
      injection h with h
      exact absurd h.symm hne
  | succ depth ih =>
      intro path v hsound hpath hne h
      rw [run] at h
      by_cases hmem : v ∈ path
      · exact ⟨v, .refl, hpath v hmem⟩
      · rw [if_neg hmem] at h
        obtain ⟨c, hc, hrun⟩ := (hsound v .refl).error _ _ h
        obtain ⟨w, hreach, hcycle⟩ := ih (v :: path) c (fun w hw => hsound w (.head hc hw))
          (by
            intro u hu
            rcases List.mem_cons.mp hu with rfl | hu
            · exact .single hc
            · exact (hpath u hu).tail hc) hne hrun
        exact ⟨w, .head hc hreach, hcycle⟩

section Bounded

variable {nodes : List ν}

/-- The bound is not used up: the result is a success or `cyclic`. -/
theorem run_ok_or_cyclic (depth : ℕ) :
    ∀ (path : List ν) (v : ν), Room nodes path depth →
      (∀ w, D.Reach v w → D.Sound w ∧ w ∈ nodes) →
      (∃ a, D.run depth path v = .ok a) ∨ D.run depth path v = .error D.cyclic := by
  induction depth with
  | zero =>
      intro path v hroom _
      exact absurd rfl hroom.ne_zero
  | succ depth ih =>
      intro path v hroom hgood
      rw [run]
      by_cases hmem : v ∈ path
      · exact Or.inr (if_pos hmem)
      · rw [if_neg hmem]
        cases hstep : D.step (D.run depth (v :: path)) v with
        | ok a => exact Or.inl ⟨a, rfl⟩
        | error e =>
            obtain ⟨c, hc, hrun⟩ := (hgood v .refl).1.error _ _ hstep
            rcases ih (v :: path) c (hroom.push hmem (hgood v .refl).2)
              (fun w hw => hgood w (.head hc hw)) with ⟨b, hb⟩ | hcyclic
            · rw [hb] at hrun
              cases hrun
            · rw [hcyclic] at hrun
              injection hrun with hrun
              rw [hrun]
              exact Or.inr rfl

/-- **More depth than there are nodes changes nothing.** -/
theorem run_stable (depth : ℕ) :
    ∀ (path : List ν) (v : ν), Room nodes path depth → (∀ w, D.Reach v w → w ∈ nodes) →
      ∀ more, D.run (depth + more) path v = D.run depth path v := by
  induction depth with
  | zero =>
      intro path v hroom _
      exact absurd rfl hroom.ne_zero
  | succ depth ih =>
      intro path v hroom hmem more
      rw [Nat.add_right_comm, run, run]
      by_cases hpath : v ∈ path
      · rw [if_pos hpath, if_pos hpath]
      · rw [if_neg hpath, if_neg hpath]
        apply D.step_congr
        intro c hc
        exact ih (v :: path) c (hroom.push hpath (hmem v .refl))
          (fun w hw => hmem w (.head hc hw)) more

/-- **The evaluation succeeds exactly when no cycle can be reached.** -/
theorem run_ok_iff {depth : ℕ} {v : ν} (hroom : Room nodes [] depth) (hne : D.cyclic ≠ D.tooDeep)
    (hgood : ∀ w, D.Reach v w → D.Sound w ∧ w ∈ nodes) :
    ((∃ a, D.run depth [] v = .ok a) ↔ ¬D.Cyclic v) ∧
      (D.Cyclic v → D.run depth [] v = .error D.cyclic) := by
  have hsound : ∀ w, D.Reach v w → D.Sound w := fun w hw => (hgood w hw).1
  have hok : ∀ a, D.run depth [] v = .ok a → ¬D.Cyclic v := fun a ha =>
    not_cyclic_of_acc (acc_of_run depth [] v a hsound ha)
  refine ⟨⟨fun ⟨a, ha⟩ => hok a ha, ?_⟩, ?_⟩
  · intro hacyclic
    rcases run_ok_or_cyclic depth [] v hroom hgood with h | h
    · exact h
    · exact absurd (cyclic_of_run depth [] v hsound (by simp) hne h) hacyclic
  · intro hcyclic
    rcases run_ok_or_cyclic depth [] v hroom hgood with ⟨a, ha⟩ | h
    · exact absurd hcyclic (hok a ha)
    · exact h

end Bounded

/-- **A success is the result of the evaluation without a path.** -/
theorem asTree_of_run (depth : ℕ) :
    ∀ (path : List ν) (v : ν) (a : α), (∀ w, D.Reach v w → D.Sound w) →
      D.run depth path v = .ok a → D.asTree depth v = .ok a := by
  induction depth with
  | zero =>
      intro path v a _ h
      cases h
  | succ depth ih =>
      intro path v a hsound h
      rw [run] at h
      by_cases hmem : v ∈ path
      · rw [if_pos hmem] at h
        cases h
      · rw [if_neg hmem] at h
        rw [asTree, ← h]
        apply D.step_congr
        intro c hc
        obtain ⟨b, hb⟩ := (hsound v .refl).ok _ a h c hc
        rw [hb]
        exact ih (v :: path) c b (fun w hw => hsound w (.head hc hw)) hb

end Descent
