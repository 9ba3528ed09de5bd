/-
# Linked lists in memory

Nodes have addresses, and each holds an item and the address of the next node.  A `Path`
gives the nodes on the way from one pointer to another; a `Queue` is a list with pointers to
its first and to its last node.

* `Path.nodup`: a list that ends has no node twice;
* `Queue.push`, `Queue.pop`: **a node is added at the end and taken from the front**;
* `Queue.insertHead`, `Queue.unlinkHead`, `Queue.unlink`: **a node is added at the front, and
  left out at the front or further on**;
* `Path.search`: a search from a node comes to the first one that is wanted.
-/
import Mathlib.Data.List.Basic
import Mathlib.Data.List.Nodup

namespace Linked

variable {α : Type}

/-- A node: an item and the next node. -/
structure Node (α : Type) where
  item : α
  next : Option ℕ

/-- The nodes at the addresses in use. -/
abbrev Memory (α : Type) := ℕ → Option (Node α)

/-- The node at an address is pointed to another one. -/
def setNext (m : Memory α) (a : ℕ) (next : Option ℕ) : Memory α :=
  Function.update m a ((m a).map fun node => { node with next := next })

/-- A new node at `a`, behind the last one. -/
def pushNode (m : Memory α) (tail : Option ℕ) (a : ℕ) (x : α) : Memory α :=
  match tail with
  | some t => setNext (Function.update m a (some ⟨x, none⟩)) t (some a)
  | none => Function.update m a (some ⟨x, none⟩)

theorem setNext_eq_none {m : Memory α} {a b : ℕ} {next : Option ℕ} :
    setNext m a next b = none ↔ m b = none := by
  unfold setNext
  by_cases hb : b = a
  · rw [hb, Function.update_self, Option.map_eq_none_iff]
  · rw [Function.update_of_ne hb]

theorem pushNode_eq_none {m : Memory α} {tail : Option ℕ} {a b : ℕ} {x : α} :
    pushNode m tail a x b = none ↔ b ≠ a ∧ m b = none := by
  have hnew : Function.update m a (some ⟨x, none⟩) b = none ↔ b ≠ a ∧ m b = none := by
    by_cases hb : b = a
    · rw [hb, Function.update_self]
      simp
    · rw [Function.update_of_ne hb]
      simp [hb]
  cases tail with
  | none => exact hnew
  | some t => exact setNext_eq_none.trans hnew

/-! ## Paths -/

/-- The nodes on the way from `p` to `q`, with their items. -/
inductive Path (m : Memory α) : Option ℕ → List (ℕ × α) → Option ℕ → Prop where
  | nil {p : Option ℕ} : Path m p [] p
  | cons {a : ℕ} {x : α} {next q : Option ℕ} {cells : List (ℕ × α)} : m a = some ⟨x, next⟩ →
      Path m next cells q → Path m (some a) ((a, x) :: cells) q

section Paths

variable {m : Memory α} {p q r : Option ℕ} {cells cells' : List (ℕ × α)} {a : ℕ} {x : α}

theorem Path.eq_of_nil (h : Path m p [] q) : p = q := by
  cases h
  rfl

theorem Path.eq_of_cons {cell : ℕ × α} (h : Path m p (cell :: cells) q) : p = some cell.1 := by
  cases h
  rfl

/-- The nodes on the way are in memory with their items. -/
theorem Path.node_eq {before after : List (ℕ × α)} (h : Path m p (before ++ (a, x) :: after) q) :
    ∃ next, m a = some ⟨x, next⟩ := by
  induction before generalizing p with
  | nil =>
      cases h with
      | cons ha _ => exact ⟨_, ha⟩
  | cons cell before ih =>
      cases h with
      | cons _ h => exact ih h

theorem Path.append (h : Path m p cells q) (h' : Path m q cells' r) : Path m p (cells ++ cells') r := by
  induction h with
  | nil => exact h'
  | cons ha _ ih => exact .cons ha (ih h')

theorem Path.exists_append (h : Path m p (cells ++ cells') r) :
    ∃ q, Path m p cells q ∧ Path m q cells' r := by
  induction cells generalizing p with
  | nil => exact ⟨p, .nil, h⟩
  | cons cell cells ih =>
      cases h with
      | cons ha h =>
          obtain ⟨q, hfirst, hrest⟩ := ih h
          exact ⟨q, .cons ha hfirst, hrest⟩

/-- Other nodes may change. -/
theorem Path.update (h : Path m p cells q) (ha : a ∉ cells.map Prod.fst) (v : Option (Node α)) :
    Path (Function.update m a v) p cells q := by
  induction h with
  | nil => exact .nil
  | cons hb _ ih =>
      rw [List.map_cons, List.mem_cons, not_or] at ha
      exact .cons (by rw [Function.update_of_ne (Ne.symm ha.1), hb]) (ih ha.2)

/-- What follows a node on the way to the end is determined by it. -/
theorem Path.unique (h : Path m p cells none) (h' : Path m p cells' none) : cells = cells' := by
  generalize hend : (none : Option ℕ) = q at h
  induction h generalizing cells' with
  | nil =>
      subst hend
      cases h'
      rfl
  | cons ha _ ih =>
      cases h' with
      | cons ha' h' =>
          rw [ha] at ha'
          cases ha'
          rw [ih h' hend]

/-- **A list that ends has no node twice.** -/
theorem Path.nodup (h : Path m p cells none) : (cells.map Prod.fst).Nodup := by
  induction cells generalizing p with
  | nil => exact List.nodup_nil
  | cons cell cells ih =>
      obtain ⟨a, x⟩ := cell
      cases h with
      | cons ha h =>
          rw [List.map_cons, List.nodup_cons]
          refine ⟨fun hmem => ?_, ih h⟩
          -- the node would come again, and with it all that follows
          obtain ⟨⟨b, y⟩, hb, rfl⟩ := List.mem_map.mp hmem
          obtain ⟨before, after, rfl⟩ := List.append_of_mem hb
          obtain ⟨q, -, hagain⟩ := h.exists_append
          cases hagain with
          | cons hb' hafter =>
              have heq := Path.unique (.cons hb' hafter) (.cons ha h)
              have hlen := congrArg List.length heq
              simp only [List.length_cons, List.length_append] at hlen
              omega

theorem Path.mem (h : Path m p cells q) (ha : a ∈ cells.map Prod.fst) : m a ≠ none := by
  induction h with
  | nil => simp at ha
  | cons hb _ ih =>
      rcases List.mem_cons.mp ha with rfl | ha
      · simp [hb]
      · exact ih ha

end Paths

/-! ## Queues -/

/-- The list from `head` ends, and `tail` is its last node. -/
structure Queue (m : Memory α) (head tail : Option ℕ) (cells : List (ℕ × α)) : Prop where
  path : Path m head cells none
  tail_eq : tail = cells.getLast?.map Prod.fst

section Queues

variable {m : Memory α} {head tail : Option ℕ} {cells : List (ℕ × α)} {a t : ℕ} {x : α}

theorem Queue.nil : Queue m none none [] := ⟨.nil, rfl⟩

/-- There is a last node unless there is none. -/
theorem Queue.tail_eq_none_iff (h : Queue m head tail cells) : tail = none ↔ cells = [] := by
  rw [h.tail_eq, Option.map_eq_none_iff, List.getLast?_eq_none_iff]

theorem Queue.head_eq_none_iff (h : Queue m head tail cells) : head = none ↔ cells = [] := by
  constructor
  · rintro rfl
    cases h.path
    rfl
  · rintro rfl
    exact h.path.eq_of_nil

/-- The end of a list is pointed elsewhere. -/
theorem Path.setNext_last {p q : Option ℕ} (h : Path m p (cells ++ [(t, x)]) none) :
    Path (setNext m t q) p (cells ++ [(t, x)]) q := by
  have hnodup := h.nodup
  rw [List.map_append, List.nodup_append] at hnodup
  have hnot : t ∉ cells.map Prod.fst := fun ht => hnodup.2.2 t ht t (by simp) rfl
  obtain ⟨r, hfirst, hlast⟩ := h.exists_append
  cases hlast with
  | cons ht hnil =>
      refine (hfirst.update hnot _).append (.cons ?_ .nil)
      rw [Function.update_self, ht]
      rfl

/-- **A node is added at the end.** -/
theorem Queue.push (h : Queue m head tail cells) (ha : m a = none) :
    Queue (pushNode m tail a x) (if tail = none then some a else head) (some a)
      (cells ++ [(a, x)]) := by
  have hnew : a ∉ cells.map Prod.fst := fun hmem => h.path.mem hmem ha
  have hpath := h.path.update hnew (some ⟨x, none⟩)
  refine ⟨?_, by simp⟩
  cases tail with
  | none =>
      obtain rfl := h.tail_eq_none_iff.mp rfl
      exact .cons (Function.update_self ..) .nil
  | some t =>
      rw [if_neg (by simp)]
      have hlast := h.tail_eq
      obtain ⟨before, ⟨t', y⟩, rfl⟩ : ∃ before cell, cells = before ++ [cell] := by
        rcases List.eq_nil_or_concat cells with rfl | ⟨before, cell, rfl⟩
        · cases hlast
        · exact ⟨before, cell, List.concat_eq_append⟩
      obtain rfl : t' = t := by simpa using hlast.symm
      refine hpath.setNext_last.append (.cons ?_ .nil)
      have hne : a ≠ t' := by
        rintro rfl
        exact hnew (by simp)
      rw [setNext, Function.update_of_ne hne, Function.update_self]

/-- **The first node is taken.** -/
theorem Queue.pop (h : Queue m (some a) tail cells) :
    ∃ x next cells', m a = some ⟨x, next⟩ ∧ cells = (a, x) :: cells' ∧
      Queue (Function.update m a none) next (if next = none then none else tail) cells' := by
  obtain ⟨hpath, htail⟩ := h
  have hnodup := hpath.nodup
  cases hpath with
  | @cons _ x next _ cells' ha hpath =>
      rw [List.map_cons, List.nodup_cons] at hnodup
      refine ⟨x, next, cells', ha, rfl, hpath.update hnodup.1 none, ?_⟩
      cases hpath with
      | nil => rfl
      | cons hb hrest =>
          rw [if_neg (by simp), htail]
          rfl

/-- **A node is added at the front.** -/
theorem Queue.insertHead (h : Queue m head tail cells) (ha : m a = none) :
    Queue (Function.update m a (some ⟨x, head⟩)) (some a) (if head = none then some a else tail)
      ((a, x) :: cells) := by
  have hnew : a ∉ cells.map Prod.fst := fun hmem => h.path.mem hmem ha
  refine ⟨.cons (Function.update_self ..) (h.path.update hnew _), ?_⟩
  by_cases hhead : head = none
  · rw [if_pos hhead, h.head_eq_none_iff.mp hhead]
    rfl
  · rw [if_neg hhead, h.tail_eq, List.getLast?_cons]
    cases hlast : cells.getLast? with
    | none => exact absurd (h.head_eq_none_iff.mpr (List.getLast?_eq_none_iff.mp hlast)) hhead
    | some cell => rfl

/-- **The first node is left out.** -/
theorem Queue.unlinkHead {next : Option ℕ} (h : Queue m head tail ((a, x) :: cells))
    (ha : m a = some ⟨x, next⟩) : Queue m next (if next = none then none else tail) cells := by
  obtain ⟨hpath, htail⟩ := h
  cases hpath with
  | cons ha' hpath =>
      rw [ha] at ha'
      cases ha'
      refine ⟨hpath, ?_⟩
      cases hpath with
      | nil => rfl
      | cons hb hrest =>
          rw [if_neg (by simp), htail]
          rfl

/-- **The node behind `t` is left out.** -/
theorem Queue.unlink {y : α} {next : Option ℕ} {after : List (ℕ × α)}
    (h : Queue m head tail (cells ++ (t, y) :: (a, x) :: after)) (ha : m a = some ⟨x, next⟩) :
    Queue (setNext m t next) head (if next = none then some t else tail)
      (cells ++ (t, y) :: after) := by
  obtain ⟨hpath, htail⟩ := h
  have hnodup := hpath.nodup
  rw [List.map_append, List.nodup_append, List.map_cons, List.map_cons, List.nodup_cons] at hnodup
  have hbefore : t ∉ cells.map Prod.fst := fun ht => hnodup.2.2 t ht t (by simp) rfl
  have hafter : t ∉ after.map Prod.fst := fun ht => hnodup.2.1.1 (List.mem_cons_of_mem _ ht)
  obtain ⟨q, hfirst, hrest⟩ := hpath.exists_append
  cases hrest with
  | cons ht hrest =>
      cases hrest with
      | cons ha' hrest =>
          rw [ha] at ha'
          cases ha'
          refine ⟨(hfirst.update hbefore _).append (.cons ?_ (hrest.update hafter _)), ?_⟩
          · rw [Function.update_self, ht]
            rfl
          · -- the last node is another one only if the last one is left out
            cases hrest with
            | nil => simp
            | cons hb hrest =>
                rw [if_neg (by simp), htail]
                simp [List.getLast?_append, List.getLast?_cons]

end Queues

/-! ## Searching -/

/-- Go on from the node `cur` to the first one whose item is wanted, and remember the node
before it.  None if the fuel runs out. -/
def search (m : Memory α) (wanted : α → Bool) :
    ℕ → Option ℕ → Option ℕ → Option (Option ℕ × Option ℕ)
  | 0, _, _ => none
  | fuel + 1, prev, cur =>
      match cur.bind fun a => (m a).map fun node => (a, node) with
      | none => some (prev, cur)
      | some (a, node) =>
          if wanted node.item then some (prev, cur)
          else search m wanted fuel (some a) node.next

section Searching

variable {m : Memory α} (wanted : α → Bool) {cells : List (ℕ × α)}

/-- **A search comes to the first node that is wanted**, or to the end. -/
theorem Path.search {p : Option ℕ} (h : Path m p cells none) (prev : Option ℕ) {fuel : ℕ}
    (hfuel : cells.length < fuel) :
    ∃ before rest, cells = before ++ rest ∧ (∀ c ∈ before, wanted c.2 = false) ∧
      (∀ c ∈ rest.head?, wanted c.2 = true) ∧
      Linked.search m wanted fuel prev p =
        some ((before.getLast?.map Prod.fst).or prev, rest.head?.map Prod.fst) := by
  induction cells generalizing p prev fuel with
  | nil =>
      obtain rfl := h.eq_of_nil
      obtain ⟨n, rfl⟩ : ∃ n, fuel = n + 1 := ⟨fuel - 1, by simp at hfuel; omega⟩
      exact ⟨[], [], rfl, by simp, by simp, by simp [Linked.search]⟩
  | cons cell cells ih =>
      obtain ⟨a, x⟩ := cell
      obtain ⟨n, rfl⟩ : ∃ n, fuel = n + 1 := ⟨fuel - 1, by simp at hfuel; omega⟩
      cases h with
      | @cons _ _ next _ _ ha h =>
          cases hx : wanted x with
          | true =>
              exact ⟨[], (a, x) :: cells, rfl, by simp, by simp [hx], by simp [Linked.search, ha, hx]⟩
          | false =>
              have hrest : cells.length < n := by
                simp only [List.length_cons] at hfuel
                omega
              obtain ⟨before, rest, rfl, hbefore, hrest, heq⟩ := ih h (some a) hrest
              refine ⟨(a, x) :: before, rest, rfl, ?_, hrest, ?_⟩
              · rintro c (_ | ⟨_, hc⟩)
                · exact hx
                · exact hbefore c hc
              · rw [Linked.search]
                simp only [Option.bind_some, ha, Option.map_some, hx, Bool.false_eq_true, if_false, heq,
                  List.getLast?_cons]
                cases before.getLast? <;> rfl

end Searching

end Linked
