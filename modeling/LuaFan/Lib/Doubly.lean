/-
# Doubly linked lists in memory

Each node has the addresses of the node before it and of the one behind it.  A `Segment` gives the
nodes from one pointer to another; it begins behind `q` and ends with `q'`.

* `Chain.insert`: **a node is added at the front**;
* `Chain.remove`: **a node is taken out wherever it is**, by its own pointers alone.
-/
import Mathlib.Data.List.Basic
import Mathlib.Data.List.Nodup
import Mathlib.Logic.Function.Basic

namespace Doubly

/-- A node: an item and its neighbours. -/
structure Node (α : Type) where
  item : α
  prev : Option ℕ
  next : Option ℕ

/-- The nodes at the addresses in use. -/
abbrev Memory (α : Type) := ℕ → Option (Node α)

variable {α : Type}

/-- The node at an address is changed. -/
def modify (m : Memory α) (a : ℕ) (f : Node α → Node α) : Memory α := Function.update m a ((m a).map f)

def setPrev (m : Memory α) (a : ℕ) (prev : Option ℕ) : Memory α := modify m a fun n => { n with prev := prev }

def setNext (m : Memory α) (a : ℕ) (next : Option ℕ) : Memory α := modify m a fun n => { n with next := next }

/-- The node at `a` is put before the first one. -/
def insert (m : Memory α) (head : Option ℕ) (a : ℕ) : Memory α :=
  let m := modify m a fun n => { n with prev := none, next := head }
  match head with
  | some b => setPrev m b (some a)
  | none => m

/-- What pointed to the node behind `q` points to `p`: the node `q`, or the head. -/
def linkNext (m : Memory α) (head q p : Option ℕ) : Memory α × Option ℕ :=
  match q with
  | some b => (setNext m b p, head)
  | none => (m, p)

/-- The node `p`, if there is one, comes behind `q`. -/
def linkPrev (m : Memory α) (p q : Option ℕ) : Memory α :=
  match p with
  | some b => setPrev m b q
  | none => m

/-- The node at `a` is taken out; it keeps no neighbour.  The second component is the new head. -/
def remove (m : Memory α) (head : Option ℕ) (a : ℕ) : Memory α × Option ℕ :=
  match m a with
  | none => (m, head)
  | some node =>
      let r := linkNext m head node.prev node.next
      (modify (linkPrev r.1 node.next node.prev) a fun n => { n with prev := none, next := none }, r.2)

section Modify

variable {m : Memory α} {a b : ℕ} {f : Node α → Node α}

theorem modify_self : modify m a f a = (m a).map f := Function.update_self ..

theorem modify_of_ne (h : b ≠ a) : modify m a f b = m b := Function.update_of_ne h ..

end Modify

/-! ## Segments -/

/-- The nodes from `p`, which comes behind `q`, up to the pointer `p'`, which comes behind `q'`. -/
inductive Segment (m : Memory α) : Option ℕ → Option ℕ → List (ℕ × α) → Option ℕ → Option ℕ → Prop where
  | nil (q p : Option ℕ) : Segment m q p [] q p
  | cons {q p q' p' : Option ℕ} {a : ℕ} {x : α} {cells : List (ℕ × α)} (node : m a = some ⟨x, q, p⟩)
      (rest : Segment m (some a) p cells q' p') : Segment m q (some a) ((a, x) :: cells) q' p'

section Segments

variable {m : Memory α} {q p q' p' q'' p'' : Option ℕ} {a : ℕ} {x : α} {cells cells' : List (ℕ × α)}

theorem Segment.append (h : Segment m q p cells q' p') (h' : Segment m q' p' cells' q'' p'') :
    Segment m q p (cells ++ cells') q'' p'' := by
  induction h with
  | nil q p => exact h'
  | cons node _ ih => exact .cons node (ih h')

theorem Segment.exists_append (h : Segment m q p (cells ++ cells') q'' p'') :
    ∃ q' p', Segment m q p cells q' p' ∧ Segment m q' p' cells' q'' p'' := by
  induction cells generalizing q p with
  | nil => exact ⟨q, p, .nil q p, h⟩
  | cons cell cells ih =>
      cases h with
      | cons node rest =>
          obtain ⟨q', p', hfirst, hsecond⟩ := ih rest
          exact ⟨q', p', .cons node hfirst, hsecond⟩

/-- A node that is not among them does not matter. -/
theorem Segment.congr {m' : Memory α} (h : Segment m q p cells q' p')
    (hsame : ∀ a ∈ cells.map Prod.fst, m' a = m a) : Segment m' q p cells q' p' := by
  induction h with
  | nil q p => exact .nil q p
  | cons node _ ih =>
      refine .cons ((hsame _ List.mem_cons_self).trans node) (ih fun a ha => ?_)
      exact hsame a (List.mem_cons_of_mem _ ha)

theorem Segment.modify {f : Node α → Node α} (h : Segment m q p cells q' p') (ha : a ∉ cells.map Prod.fst) :
    Segment (modify m a f) q p cells q' p' := by
  apply h.congr
  rintro b hb
  apply modify_of_ne
  rintro rfl
  exact ha hb

/-- The first node gets another one before it. -/
theorem Segment.setPrev_head {b : ℕ} (h : Segment m q (some b) cells q' none)
    (hnodup : (cells.map Prod.fst).Nodup) (v : Option ℕ) : Segment (setPrev m b v) v (some b) cells q' none := by
  cases h with
  | cons node rest =>
      obtain ⟨hb, -⟩ := List.nodup_cons.mp hnodup
      refine .cons ?_ (rest.modify hb)
      rw [setPrev, modify_self, node]
      rfl

/-- A segment ends where it began, or with one of its nodes. -/
theorem Segment.last_cases (h : Segment m q p cells q' p') :
    cells = [] ∧ q' = q ∧ p' = p ∨ ∃ b ∈ cells.map Prod.fst, q' = some b := by
  induction h with
  | nil q p => exact Or.inl ⟨rfl, rfl, rfl⟩
  | cons node _ ih =>
      right
      rcases ih with ⟨-, heq, -⟩ | ⟨b, hb, heq⟩
      · exact ⟨_, List.mem_cons_self, heq⟩
      · exact ⟨b, List.mem_cons_of_mem _ hb, heq⟩

/-- The last node gets another one behind it. -/
theorem Segment.setNext_last {b : ℕ} (h : Segment m q p cells (some b) p') (hne : cells ≠ [])
    (hnodup : (cells.map Prod.fst).Nodup) (v : Option ℕ) : Segment (setNext m b v) q p cells (some b) v := by
  generalize hlast : some b = last at h
  induction h with
  | nil q p => exact absurd rfl hne
  | @cons q p q' p' a x cells node rest ih =>
      obtain ⟨ha, hnodup⟩ := List.nodup_cons.mp hnodup
      subst hlast
      rcases rest.last_cases with ⟨rfl, heq, rfl⟩ | ⟨b', hb', heq⟩
      · -- the last one itself
        cases heq
        refine .cons ?_ (.nil _ v)
        rw [setNext, modify_self, node]
        rfl
      · cases heq
        have hab : a ≠ b := fun hab => ha (hab ▸ hb')
        exact .cons ((modify_of_ne hab).trans node) (ih (by rintro rfl; cases hb') hnodup rfl)

end Segments

/-! ## Lists -/

/-- The nodes of a list with a head. -/
structure Chain (m : Memory α) (head : Option ℕ) (cells : List (ℕ × α)) : Prop where
  segment : ∃ last, Segment m none head cells last none
  nodup : (cells.map Prod.fst).Nodup

section Chains

variable {m : Memory α} {head : Option ℕ} {a : ℕ} {x : α} {cells before after : List (ℕ × α)}

theorem Chain.nil : Chain m none [] := ⟨⟨none, .nil none none⟩, List.nodup_nil⟩

theorem Chain.congr {m' : Memory α} (h : Chain m head cells) (hsame : ∀ a ∈ cells.map Prod.fst, m' a = m a) :
    Chain m' head cells := by
  obtain ⟨⟨last, hsegment⟩, hnodup⟩ := h
  exact ⟨⟨last, hsegment.congr hsame⟩, hnodup⟩

theorem Segment.exists_node {q p q' p' : Option ℕ} (h : Segment m q p cells q' p') (ha : (a, x) ∈ cells) :
    ∃ prev next, m a = some ⟨x, prev, next⟩ := by
  induction h with
  | nil q p => cases ha
  | cons node _ ih =>
      rcases List.mem_cons.mp ha with heq | ha
      · cases heq
        exact ⟨_, _, node⟩
      · exact ih ha

/-- The nodes of a list hold its items. -/
theorem Chain.exists_node (h : Chain m head cells) (ha : (a, x) ∈ cells) : ∃ prev next, m a = some ⟨x, prev, next⟩ := by
  obtain ⟨⟨last, hsegment⟩, -⟩ := h
  exact hsegment.exists_node ha

/-- The head is the first node. -/
theorem Chain.of_head (h : Chain m (some a) cells) : ∃ x rest, cells = (a, x) :: rest := by
  obtain ⟨⟨last, hsegment⟩, -⟩ := h
  cases hsegment with
  | cons node rest => exact ⟨_, _, rfl⟩

/-- Without a head there is no node. -/
theorem Chain.of_none (h : Chain m none cells) : cells = [] := by
  obtain ⟨⟨last, hsegment⟩, -⟩ := h
  cases hsegment
  rfl

/-- An item is changed. -/
theorem Chain.modifyItem (h : Chain m head (before ++ (a, x) :: after)) (f : α → α) :
    Chain (modify m a fun n => { n with item := f n.item }) head (before ++ (a, f x) :: after) := by
  obtain ⟨⟨last, hsegment⟩, hnodup⟩ := h
  obtain ⟨q, p, hbefore, hat⟩ := hsegment.exists_append
  cases hat with
  | @cons q p' _ _ _ _ _ node hafter =>
  have hparts := hnodup
  rw [List.map_append, List.map_cons, List.nodup_append] at hparts
  obtain ⟨-, hcons, hdisjoint⟩ := hparts
  have hnot : a ∉ before.map Prod.fst := fun hmem => hdisjoint a hmem a List.mem_cons_self rfl
  refine ⟨⟨last, (hbefore.modify hnot).append (.cons ?_ (hafter.modify (List.nodup_cons.mp hcons).1))⟩, ?_⟩
  · rw [modify_self, node]
    rfl
  · rw [List.map_append, List.map_cons] at hnodup ⊢
    exact hnodup

/-- **A node is added at the front.** -/
theorem Chain.insert {node : Node α} (h : Chain m head cells) (ha : a ∉ cells.map Prod.fst) (hnode : m a = some node) :
    Chain (Doubly.insert m head a) (some a) ((a, node.item) :: cells) := by
  obtain ⟨⟨last, hsegment⟩, hnodup⟩ := h
  have hfirst := hsegment.modify (f := fun n => { n with prev := none, next := head }) ha
  have hself : modify m a (fun n => { n with prev := none, next := head }) a = some ⟨node.item, none, head⟩ := by
    rw [modify_self, hnode]
    rfl
  refine ⟨?_, List.nodup_cons.mpr ⟨ha, hnodup⟩⟩
  unfold Doubly.insert
  cases head with
  | none =>
      cases hsegment
      exact ⟨some a, .cons hself (.nil (some a) none)⟩
  | some b =>
      have hab : a ≠ b := by
        rintro rfl
        cases hsegment
        exact ha List.mem_cons_self
      exact ⟨last, .cons ((modify_of_ne hab).trans hself) (hfirst.setPrev_head hnodup (some a))⟩

/-- **A node is taken out**, and keeps its item. -/
theorem Chain.remove (h : Chain m head (before ++ (a, x) :: after)) :
    Chain (Doubly.remove m head a).1 (Doubly.remove m head a).2 (before ++ after) ∧
      (Doubly.remove m head a).1 a = some ⟨x, none, none⟩ := by
  obtain ⟨⟨last, hsegment⟩, hnodup⟩ := h
  obtain ⟨q, p, hbefore, hat⟩ := hsegment.exists_append
  cases hat with
  | @cons q p' _ _ _ _ _ node hafter =>
  rw [List.map_append, List.map_cons, List.nodup_append] at hnodup
  obtain ⟨hb, hcons, hdisjoint⟩ := hnodup
  obtain ⟨hnot, ha⟩ := List.nodup_cons.mp hcons
  have hnot' : a ∉ before.map Prod.fst := fun hmem => hdisjoint a hmem a List.mem_cons_self rfl
  -- the node before it
  obtain ⟨m₁, head₁, hr, hbefore₁, hafter₁, hnode₁⟩ : ∃ m₁ head₁,
      linkNext m head q p' = (m₁, head₁) ∧ Segment m₁ none head₁ before q p' ∧
        Segment m₁ (some a) p' after last none ∧ (m₁ a).map Node.item = some x := by
    rcases hbefore.last_cases with ⟨rfl, rfl, -⟩ | ⟨b, hmem, rfl⟩
    · exact ⟨m, p', rfl, .nil none p', hafter, by rw [node]; rfl⟩
    · have hne : before ≠ [] := by
        rintro rfl
        cases hmem
      have hab : a ≠ b := by
        rintro rfl
        exact hnot' hmem
      refine ⟨setNext m b p', head, rfl, hbefore.setNext_last hne hb p', hafter.modify ?_, ?_⟩
      · exact fun hmem' => hdisjoint b hmem b (List.mem_cons_of_mem _ hmem') rfl
      · rw [setNext, modify_of_ne hab, node]
        rfl
  -- the node behind it
  obtain ⟨m₂, last', hr', hbefore₂, hafter₂, hnode₂⟩ : ∃ m₂ last',
      linkPrev m₁ p' q = m₂ ∧ Segment m₂ none head₁ before q p' ∧
        Segment m₂ q p' after last' none ∧ (m₂ a).map Node.item = some x := by
    cases p' with
    | none =>
        cases hafter₁
        exact ⟨m₁, q, rfl, hbefore₁, .nil q none, hnode₁⟩
    | some n =>
        have hmem : n ∈ after.map Prod.fst := by
          cases hafter₁
          exact List.mem_cons_self
        have han : a ≠ n := by
          rintro rfl
          exact hnot hmem
        refine ⟨setPrev m₁ n q, last, rfl, hbefore₁.modify ?_, hafter₁.setPrev_head ha q, ?_⟩
        · exact fun hmem' => hdisjoint n hmem' n (List.mem_cons_of_mem _ hmem) rfl
        · rw [setPrev, modify_of_ne han]
          exact hnode₁
  have hremove : Doubly.remove m head a = (modify m₂ a fun n => { n with prev := none, next := none }, head₁) := by
    unfold Doubly.remove
    simp only [node, hr, hr']
  rw [hremove]
  refine ⟨⟨⟨last', (hbefore₂.modify hnot').append (hafter₂.modify hnot)⟩, ?_⟩, ?_⟩
  · rw [List.map_append, List.nodup_append]
    exact ⟨hb, ha, fun b hmem c hmem' => hdisjoint b hmem c (List.mem_cons_of_mem _ hmem')⟩
  · obtain ⟨node', hnode', hitem⟩ := Option.map_eq_some_iff.mp hnode₂
    show modify m₂ a _ a = _
    rw [modify_self, hnode']
    exact congrArg (fun y => some (Node.mk y none none)) hitem

end Chains

end Doubly
