/-
# Handles that are given out and given back

New handles are given out and taken back.  One that is given back although it is not out is a fault,
which stays.  `Holds` says that there was none, and which handles are out.
-/
import Mathlib.Algebra.Order.Group.Multiset
import Mathlib.Tactic.Abel

/-- The handles that are out, the next new one, and whether one was given back that was not out. -/
structure Handles where
  live : List ℕ
  next : ℕ
  fault : Bool

namespace Handles

/-- Nothing is out. -/
def empty : Handles := ⟨[], 0, false⟩

/-- The handle `next` is given out. -/
def take (l : Handles) : Handles := { l with live := l.next :: l.live, next := l.next + 1 }

/-- A handle is given back. -/
def give (l : Handles) (r : ℕ) : Handles :=
  if l.live.contains r then { l with live := l.live.erase r } else { l with fault := true }

def giveAll (l : Handles) (rs : List ℕ) : Handles := rs.foldl give l

/-- A handle is given out if one is wanted. -/
def takeIf (l : Handles) (p : Bool) : Option ℕ × Handles := if p then (some l.next, l.take) else (none, l)

/-- Several handles are given out. -/
def takeMany : ℕ → Handles → List ℕ × Handles
  | 0, l => ([], l)
  | n + 1, l => (l.next :: (takeMany n l.take).1, (takeMany n l.take).2)

@[simp] theorem take_next (l : Handles) : l.take.next = l.next + 1 := rfl

@[simp] theorem giveAll_nil (l : Handles) : l.giveAll [] = l := rfl

@[simp] theorem giveAll_cons (l : Handles) (r : ℕ) (rs : List ℕ) : l.giveAll (r :: rs) = (l.give r).giveAll rs := rfl

theorem give_next (l : Handles) (r : ℕ) : (l.give r).next = l.next := by
  unfold give
  split <;> rfl

theorem giveAll_next (l : Handles) (rs : List ℕ) : (l.giveAll rs).next = l.next := by
  induction rs generalizing l with
  | nil => rfl
  | cons r rs ih =>
      rw [giveAll_cons, ih]
      exact give_next l r

/-- The handles `rs` are out, and none was given back that was not. -/
structure Holds (l : Handles) (rs : Multiset ℕ) : Prop where
  sound : l.fault = false
  live : (l.live : Multiset ℕ) = rs
  nodup : rs.Nodup
  fresh : ∀ r ∈ rs, r < l.next

variable {l : Handles} {rs rs' : Multiset ℕ} {r : ℕ}

theorem holds_empty : empty.Holds 0 := ⟨rfl, rfl, Multiset.nodup_zero, by simp⟩

theorem Holds.of_eq (h : l.Holds rs) (heq : rs = rs') : l.Holds rs' := heq ▸ h

theorem Holds.not_mem_next (h : l.Holds rs) : l.next ∉ rs := fun hmem => lt_irrefl _ (h.fresh _ hmem)

/-- A new handle is out besides the others. -/
theorem Holds.take (h : l.Holds rs) : l.take.Holds (l.next ::ₘ rs) where
  sound := h.sound
  live := by
    rw [← h.live]
    rfl
  nodup := Multiset.nodup_cons.mpr ⟨h.not_mem_next, h.nodup⟩
  fresh := by
    intro r hr
    rcases Multiset.mem_cons.mp hr with rfl | hr
    · exact Nat.lt_succ_self _
    · exact Nat.lt_succ_of_lt (h.fresh r hr)

/-- A handle that is out can be given back. -/
theorem Holds.give (h : l.Holds (r ::ₘ rs)) : (l.give r).Holds rs := by
  have hmem : r ∈ l.live := by
    rw [← Multiset.mem_coe, h.live]
    exact Multiset.mem_cons_self r rs
  have hgive : l.give r = { l with live := l.live.erase r } := if_pos (List.contains_iff_mem.mpr hmem)
  rw [hgive]
  refine ⟨h.sound, ?_, (Multiset.nodup_cons.mp h.nodup).2, fun x hx => h.fresh x (Multiset.mem_cons_of_mem hx)⟩
  rw [← Multiset.coe_erase, h.live, Multiset.erase_cons_head]

theorem Holds.takeIf (h : l.Holds rs) (p : Bool) : (l.takeIf p).2.Holds (↑(l.takeIf p).1.toList + rs) := by
  cases p with
  | false => exact h.of_eq (zero_add rs).symm
  | true => exact h.take.of_eq (Multiset.singleton_add l.next rs).symm

theorem Holds.takeMany (h : l.Holds rs) (n : ℕ) : (takeMany n l).2.Holds (↑(takeMany n l).1 + rs) := by
  induction n generalizing l rs with
  | zero => exact h.of_eq (zero_add rs).symm
  | succ n ih =>
      refine (ih h.take).of_eq ?_
      show _ = (↑(l.next :: (Handles.takeMany n l.take).1) + rs : Multiset ℕ)
      rw [← Multiset.cons_coe, Multiset.add_cons, Multiset.cons_add]

theorem length_takeIf (l : Handles) (p : Bool) : (l.takeIf p).1.toList.length = p.toNat := by
  cases p <;> rfl

theorem length_takeMany (n : ℕ) (l : Handles) : (takeMany n l).1.length = n := by
  induction n generalizing l with
  | zero => rfl
  | succ n ih => exact congrArg Nat.succ (ih l.take)

theorem Holds.giveAll {xs : List ℕ} (h : l.Holds (↑xs + rs)) : (l.giveAll xs).Holds rs := by
  induction xs generalizing l with
  | nil => simpa using h
  | cons x xs ih =>
      refine ih (Holds.give (h.of_eq ?_))
      rw [← Multiset.cons_coe, Multiset.cons_add]

theorem Holds.append {xs ys : List ℕ} (h : l.Holds (↑ys + (↑xs + rs))) : l.Holds (↑(xs ++ ys) + rs) := by
  refine h.of_eq ?_
  rw [← Multiset.coe_add]
  abel

/-- How many handles are out. -/
theorem Holds.length_eq (h : l.Holds rs) : l.live.length = rs.card := by
  rw [← h.live, Multiset.coe_card]

/-! ## Owners in a list -/

section Owners

variable {α β : Type}

theorem coe_flatMap_middle (f : α → List β) (before after : List α) (x : α) :
    ((before ++ x :: after).flatMap f : Multiset β) = ↑(f x) + ↑((before ++ after).flatMap f) := by
  simp only [List.flatMap_append, List.flatMap_cons, ← Multiset.coe_add]
  abel

theorem coe_map_middle (f : α → β) (before after : List α) (x : α) :
    ((before ++ x :: after).map f : Multiset β) = f x ::ₘ ↑((before ++ after).map f) := by
  simp only [List.map_append, List.map_cons, ← Multiset.coe_add, ← Multiset.cons_coe, ← Multiset.singleton_add]
  abel

theorem coe_flatMap_concat (f : α → List β) (xs : List α) (x : α) :
    ((xs ++ [x]).flatMap f : Multiset β) = ↑(f x) + ↑(xs.flatMap f) := by
  rw [coe_flatMap_middle, List.append_nil]

/-- What the others hold stays the same when one owner is changed. -/
theorem exists_others (f : α → List β) {xs : List α} {i : ℕ} {x : α} (h : xs[i]? = some x) :
    ∃ rest : Multiset β, (xs.flatMap f : Multiset β) = ↑(f x) + rest ∧
      ∀ y, ((xs.set i y).flatMap f : Multiset β) = ↑(f y) + rest := by
  obtain ⟨hi, rfl⟩ := List.getElem?_eq_some_iff.mp h
  refine ⟨↑((xs.take i ++ xs.drop (i + 1)).flatMap f), ?_, fun y => ?_⟩
  · rw [← coe_flatMap_middle, List.getElem_cons_drop, List.take_append_drop]
  · rw [← coe_flatMap_middle, List.set_eq_take_append_cons_drop, if_pos hi]

/-- An owner gives some of its handles back. -/
theorem Holds.replace {l : Handles} (f : α → List ℕ) {xs : List α} {i : ℕ} {x y : α} {out : List ℕ}
    (h : l.Holds ↑(xs.flatMap f)) (hx : xs[i]? = some x) (hout : (f x).Perm (out ++ f y)) :
    (l.giveAll out).Holds ↑((xs.set i y).flatMap f) := by
  obtain ⟨rest, heq, hset⟩ := exists_others f hx
  rw [hset]
  refine Holds.giveAll (h.of_eq ?_)
  rw [heq, Multiset.coe_eq_coe.mpr hout, ← Multiset.coe_add, add_assoc]

end Owners

end Handles
