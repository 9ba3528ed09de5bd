/-
# Depth-first visits

A `Visitor` walks a graph: a node that was seen is passed over, any other one is
entered, which changes the state and may fail, and then its children are visited in
order.  The depth of the recursion is bounded by `fuel`.

`visit_invariant` carries an invariant of the state along a visit, `visit_complete`
says that whatever can be reached from the start has been seen at the end, and
`visit_ne_fuel` that a rank which every entered node with children lowers bounds the
fuel that is needed.
-/
import Mathlib

namespace Graph

/-- What a walk does at the nodes of a graph. -/
structure Visitor (ν σ ε : Type*) where
  children : ν → List ν
  seen : σ → ν → Bool
  enter : σ → ν → Except ε σ

variable {ν σ ε : Type*} (vis : Visitor ν σ ε)

namespace Visitor

/-- Visit a node.  The error `none` means that the fuel ran out. -/
def visit : ℕ → σ → ν → Except (Option ε) σ
  | 0, _, _ => .error none
  | fuel + 1, s, v =>
      if vis.seen s v then .ok s
      else
        match vis.enter s v with
        | .error e => .error (some e)
        | .ok s => (vis.children v).foldlM (visit fuel) s

/-- A child of a node. -/
def Child (v w : ν) : Prop := w ∈ vis.children v

/-- A node that can be reached. -/
def Reach : ν → ν → Prop := Relation.ReflTransGen vis.Child

variable {vis} {fuel : ℕ} {s s' : σ} {v w : ν}

theorem visit_seen (h : vis.seen s v = true) : vis.visit (fuel + 1) s v = .ok s := by
  rw [visit, if_pos h]

theorem visit_unseen {s₁ : σ} (h : vis.seen s v = false) (henter : vis.enter s v = .ok s₁) :
    vis.visit (fuel + 1) s v = (vis.children v).foldlM (vis.visit fuel) s₁ := by
  rw [visit, if_neg (by simp [h]), henter]

/-- How a visit ends well: at a node that was seen, or after its children. -/
theorem visit_cases (h : vis.visit fuel s v = .ok s') :
    ∃ n, fuel = n + 1 ∧ ((vis.seen s v = true ∧ s' = s) ∨
      (vis.seen s v = false ∧ ∃ s₁, vis.enter s v = .ok s₁ ∧
        (vis.children v).foldlM (vis.visit n) s₁ = .ok s')) := by
  cases fuel with
  | zero => cases h
  | succ n =>
      refine ⟨n, rfl, ?_⟩
      rw [visit] at h
      split at h
      · rename_i hseen
        cases h
        exact Or.inl ⟨hseen, rfl⟩
      · rename_i hseen
        split at h
        · cases h
        · rename_i s₁ henter
          exact Or.inr ⟨by simpa using hseen, s₁, henter, h⟩

theorem foldlM_ok_cons {f : σ → ν → Except (Option ε) σ} {vs : List ν}
    (h : (v :: vs).foldlM f s = .ok s') : ∃ s₁, f s v = .ok s₁ ∧ vs.foldlM f s₁ = .ok s' := by
  rw [List.foldlM_cons] at h
  cases hf : f s v with
  | error e =>
      rw [hf] at h
      cases h
  | ok s₁ =>
      rw [hf] at h
      exact ⟨s₁, rfl, h⟩

/-- **The rule of invariants**: what entering an unseen node keeps, a visit keeps.
Every node entered can be reached from the start. -/
theorem visit_invariant (P : σ → Prop) (fuel : ℕ) :
    ∀ (s s' : σ) (v : ν), vis.visit fuel s v = .ok s' →
      (∀ s s₁ u, vis.Reach v u → vis.seen s u = false → vis.enter s u = .ok s₁ → P s → P s₁) →
      P s → P s' := by
  induction fuel with
  | zero =>
      intro s s' v h
      cases h
  | succ n ih =>
      intro s s' v h hstep hs
      obtain ⟨m, hm, h | ⟨hseen, s₁, henter, hfold⟩⟩ := visit_cases h
      · rw [h.2]
        exact hs
      · obtain rfl : n = m := by omega
        have hs₁ : P s₁ := hstep s s₁ v Relation.ReflTransGen.refl hseen henter hs
        -- the children, one after the other
        have hchildren : ∀ (vs : List ν) (t t' : σ), (∀ c ∈ vs, vis.Child v c) →
            vs.foldlM (vis.visit n) t = .ok t' → P t → P t' := by
          intro vs
          induction vs with
          | nil =>
              intro t t' _ ht hP
              cases ht
              exact hP
          | cons c vs ihvs =>
              intro t t' hmem ht hP
              obtain ⟨t₁, hc, hrest⟩ := foldlM_ok_cons ht
              have hchild := hmem c List.mem_cons_self
              refine ihvs t₁ t' (fun d hd => hmem d (List.mem_cons_of_mem c hd)) hrest ?_
              refine ih t t₁ c hc ?_ hP
              intro s s₁ u hu
              exact hstep s s₁ u (Relation.ReflTransGen.head hchild hu)
        exact hchildren _ s₁ s' (fun c hc => hc) hfold hs₁

/-- A visit fails only where entering a node that can be reached fails. -/
theorem visit_ne_error {e : ε} (fuel : ℕ) :
    ∀ (s : σ) (v : ν), (∀ s u, vis.Reach v u → vis.seen s u = false → vis.enter s u ≠ .error e) →
      vis.visit fuel s v ≠ .error (some e) := by
  induction fuel with
  | zero =>
      intro s v _ h
      cases h
  | succ n ih =>
      intro s v henter h
      rw [visit] at h
      split at h
      · cases h
      · rename_i hseen
        split at h
        · rename_i e' he
          cases h
          exact henter s v Relation.ReflTransGen.refl (by simpa using hseen) he
        · rename_i s₁ _
          have hchildren : ∀ (vs : List ν) (t : σ), (∀ c ∈ vs, vis.Child v c) →
              vs.foldlM (vis.visit n) t ≠ .error (some e) := by
            intro vs
            induction vs with
            | nil =>
                intro t _ ht
                cases ht
            | cons c vs ihvs =>
                intro t hmem hfold
                have hchild := hmem c List.mem_cons_self
                rw [List.foldlM_cons] at hfold
                cases hc : vis.visit n t c with
                | error e' =>
                    rw [hc] at hfold
                    cases hfold
                    refine ih t c ?_ hc
                    intro s u hu
                    exact henter s u (Relation.ReflTransGen.head hchild hu)
                | ok t₁ =>
                    rw [hc] at hfold
                    exact ihvs t₁ (fun d hd => hmem d (List.mem_cons_of_mem c hd)) hfold
          exact hchildren _ s₁ (fun c hc => hc) h

/-- What seeing means: entering a node makes it and the nodes that are the same to
it seen, and nothing else; nodes that are the same have the same children. -/
structure Lawful (vis : Visitor ν σ ε) (same : ν → ν → Prop) : Prop where
  refl : ∀ v, same v v
  children_eq : ∀ v w, same v w → vis.children v = vis.children w
  seen_enter : ∀ s s₁ v w, vis.enter s v = .ok s₁ →
    (vis.seen s₁ w = true ↔ vis.seen s w = true ∨ same w v)

section Lawful

variable {same : ν → ν → Prop} (hlaw : Lawful vis same)

include hlaw

/-- Nothing is forgotten. -/
theorem visit_mono (h : vis.visit fuel s v = .ok s') (hw : vis.seen s w = true) :
    vis.seen s' w = true := by
  refine visit_invariant (fun s => vis.seen s w = true) fuel s s' v h ?_ hw
  intro s s₁ u _ _ henter hseen
  exact (hlaw.seen_enter s s₁ u w henter).mpr (Or.inl hseen)

theorem foldlM_mono {vs : List ν} :
    ∀ {s s' : σ}, vs.foldlM (vis.visit fuel) s = .ok s' → vis.seen s w = true →
      vis.seen s' w = true := by
  induction vs with
  | nil =>
      intro s s' h hw
      cases h
      exact hw
  | cons c vs ih =>
      intro s s' h hw
      obtain ⟨s₁, hc, hrest⟩ := foldlM_ok_cons h
      exact ih hrest (visit_mono hlaw hc hw)

/-- A visit sees its node, and all children of the nodes it has newly seen. -/
theorem visit_closed (fuel : ℕ) :
    ∀ (s s' : σ) (v : ν), vis.visit fuel s v = .ok s' → vis.seen s' v = true ∧
      ∀ w, vis.seen s' w = true →
        vis.seen s w = true ∨ ∀ c ∈ vis.children w, vis.seen s' c = true := by
  induction fuel with
  | zero =>
      intro s s' v h
      cases h
  | succ n ih =>
      intro s s' v h
      obtain ⟨m, hm, ⟨hseen, rfl⟩ | ⟨hseen, s₁, henter, hfold⟩⟩ := visit_cases h
      · exact ⟨hseen, fun w hw => Or.inl hw⟩
      · obtain rfl : n = m := by omega
        have hv₁ : vis.seen s₁ v = true :=
          (hlaw.seen_enter s s₁ v v henter).mpr (Or.inr (hlaw.refl v))
        have hchildren : ∀ (vs : List ν) (t t' : σ), vs.foldlM (vis.visit n) t = .ok t' →
            (∀ c ∈ vs, vis.seen t' c = true) ∧ ∀ w, vis.seen t' w = true →
              vis.seen t w = true ∨ ∀ c ∈ vis.children w, vis.seen t' c = true := by
          intro vs
          induction vs with
          | nil =>
              intro t t' ht
              cases ht
              exact ⟨by simp, fun w hw => Or.inl hw⟩
          | cons c vs ihvs =>
              intro t t' ht
              obtain ⟨t₁, hc, hrest⟩ := foldlM_ok_cons ht
              obtain ⟨hcseen, hcclosed⟩ := ih t t₁ c hc
              obtain ⟨hvs, hclosed⟩ := ihvs t₁ t' hrest
              constructor
              · intro d hd
                rcases List.mem_cons.mp hd with rfl | hd
                · exact foldlM_mono hlaw hrest hcseen
                · exact hvs d hd
              · intro w hw
                rcases hclosed w hw with hw₁ | hw₁
                · rcases hcclosed w hw₁ with hw₂ | hw₂
                  · exact Or.inl hw₂
                  · exact Or.inr fun d hd => foldlM_mono hlaw hrest (hw₂ d hd)
                · exact Or.inr hw₁
        obtain ⟨hall, hclosed⟩ := hchildren _ s₁ s' hfold
        refine ⟨foldlM_mono hlaw hfold hv₁, ?_⟩
        intro w hw
        rcases hclosed w hw with hw₁ | hw₁
        · rcases (hlaw.seen_enter s s₁ v w henter).mp hw₁ with hw₂ | hsame
          · exact Or.inl hw₂
          · right
            rw [hlaw.children_eq w v hsame]
            exact hall
        · exact Or.inr hw₁

/-- **A visit from a state that has seen no node with children sees all that can be
reached.** -/
theorem visit_complete (h : vis.visit fuel s v = .ok s')
    (hfresh : ∀ w, vis.seen s w = true → vis.children w = []) (hw : vis.Reach v w) :
    vis.seen s' w = true := by
  obtain ⟨hv, hclosed⟩ := visit_closed hlaw fuel s s' v h
  induction hw with
  | refl => exact hv
  | tail _ hchild ih =>
      rcases hclosed _ ih with hseen | hall
      · rw [Child, hfresh _ hseen] at hchild
        cases hchild
      · exact hall _ hchild

end Lawful

/-- **Fuel**: it does not run out if it exceeds a rank that no entered node raises,
and that every entered node with children lowers. -/
theorem visit_ne_fuel (rank : σ → ℕ)
    (henter : ∀ s s₁ v, vis.seen s v = false → vis.enter s v = .ok s₁ →
      rank s₁ ≤ rank s ∧ (vis.children v ≠ [] → rank s₁ < rank s)) (fuel : ℕ) :
    ∀ (s : σ) (v : ν), rank s < fuel → vis.visit fuel s v ≠ .error none := by
  induction fuel with
  | zero =>
      intro s v h
      omega
  | succ n ih =>
      intro s v hrank hfuel
      rw [visit] at hfuel
      split at hfuel
      · cases hfuel
      · rename_i hseen
        split at hfuel
        · cases hfuel
        · rename_i s₁ hs₁
          obtain ⟨-, hlt⟩ := henter s s₁ v (by simpa using hseen) hs₁
          have hchildren : ∀ (vs : List ν) (t : σ), (vs ≠ [] → rank t < n) →
              vs.foldlM (vis.visit n) t ≠ .error none := by
            intro vs
            induction vs with
            | nil =>
                intro t _ ht
                cases ht
            | cons c vs ihvs =>
                intro t ht hfold
                have hrank_t := ht (List.cons_ne_nil c vs)
                rw [List.foldlM_cons] at hfold
                cases hc : vis.visit n t c with
                | error e =>
                    rw [hc] at hfold
                    cases hfold
                    exact ih t c hrank_t hc
                | ok t₁ =>
                    rw [hc] at hfold
                    refine ihvs t₁ (fun _ => ?_) hfold
                    refine visit_invariant (fun s => rank s < n) n t t₁ c hc ?_ hrank_t
                    intro s s₁ u _ hu hs₁ hs
                    exact (henter s s₁ u hu hs₁).1.trans_lt hs
          refine hchildren (vis.children v) s₁ ?_ hfuel
          intro hne
          have := hlt hne
          omega

end Visitor

end Graph
