/-
# Lending a bounded stock

A stock of a fixed number of slots.  A slot is free, being filled, idle with a
resource in it, or out with a client.  **As long as every step only changes one slot,
the number of slots stays, the resources are those made and not gone, and as long as a
resource that comes new into a slot is in no other one, no resource is in two slots.**
-/
import Mathlib.Algebra.Order.Group.Multiset
import Mathlib.Data.Multiset.AddSub
import Mathlib.Data.Multiset.MapFold
import Mathlib.Data.Multiset.UnionInter
import Mathlib.Data.Multiset.Filter

namespace Lending

/-- A slot of the stock. -/
inductive Slot (C R : Type) where
  | free
  | making (c : C)
  | idle (r : R)
  | out (c : C) (r : R)
  deriving DecidableEq

variable {C R : Type}

/-- The resource in a slot. -/
def Slot.item : Slot C R → Option R
  | free => none
  | making _ => none
  | idle r => some r
  | out _ r => some r

/-- The resources in the slots. -/
def items (stock : Multiset (Slot C R)) : Multiset R := stock.filterMap Slot.item

/-- The resource in an idle slot. -/
def Slot.idleItem : Slot C R → Option R
  | idle r => some r
  | _ => none

/-- The client with the resource of the slot. -/
def Slot.loan : Slot C R → Option (C × R)
  | out c r => some (c, r)
  | _ => none

/-- The resources in idle slots. -/
def idles (stock : Multiset (Slot C R)) : Multiset R := stock.filterMap Slot.idleItem

/-- The clients with their resources. -/
def lent (stock : Multiset (Slot C R)) : Multiset (C × R) := stock.filterMap Slot.loan

/-- One slot changes: it loses its resource, keeps it, or gets one that is in no
other slot.  The resources that come into the stock and that go stand before the stocks. -/
inductive Move : Multiset R → Multiset R → Multiset (Slot C R) → Multiset (Slot C R) → Prop where
  | stay (stock : Multiset (Slot C R)) : Move 0 0 stock stock
  | empty {a b : Slot C R} (rest : Multiset (Slot C R)) (h : b.item = none) :
      Move 0 (items {a}) (a ::ₘ rest) (b ::ₘ rest)
  | keep {a b : Slot C R} (rest : Multiset (Slot C R)) (h : b.item = a.item) :
      Move 0 0 (a ::ₘ rest) (b ::ₘ rest)
  | fill {a b : Slot C R} {r : R} (rest : Multiset (Slot C R)) (ha : a.item = none)
      (hb : b.item = some r) (hnew : r ∉ items rest) : Move {r} 0 (a ::ₘ rest) (b ::ₘ rest)

theorem items_cons (a : Slot C R) (stock : Multiset (Slot C R)) :
    items (a ::ₘ stock) = match a.item with
      | none => items stock
      | some r => r ::ₘ items stock := by
  cases h : a.item with
  | none => exact Multiset.filterMap_cons_none a stock h
  | some r => exact Multiset.filterMap_cons_some _ a stock h

theorem items_add_cons (a : Slot C R) (stock : Multiset (Slot C R)) :
    items (a ::ₘ stock) = items stock + items {a} := by
  rw [← Multiset.singleton_add, items, Multiset.filterMap_add, add_comm]
  rfl

/-- **Every resource is idle or lent.** -/
theorem items_eq (stock : Multiset (Slot C R)) :
    items stock = idles stock + (lent stock).map Prod.snd := by
  induction stock using Multiset.induction_on with
  | empty => rfl
  | cons a stock ih =>
      rw [items, idles, lent] at ih ⊢
      simp only [Multiset.filterMap_cons, ih]
      cases a <;> simp [Slot.item, Slot.idleItem, Slot.loan]

theorem mem_lent {stock : Multiset (Slot C R)} {c : C} {r : R} (h : Slot.out c r ∈ stock) :
    (c, r) ∈ lent stock :=
  (Multiset.mem_filterMap _ _).mpr ⟨_, h, rfl⟩

variable {made gone : Multiset R}

theorem Move.card_eq {s s' : Multiset (Slot C R)} (h : Move made gone s s') : s'.card = s.card := by
  cases h <;> simp

/-- **The resources are those that were there, and those made but not gone.** -/
theorem Move.items_eq {s s' : Multiset (Slot C R)} (h : Move made gone s s') :
    items s + made = items s' + gone := by
  cases h with
  | stay => rfl
  | @empty a b rest hb =>
      rw [items_add_cons a, items_cons b, hb]
      exact add_zero _
  | @keep a b rest hb => rw [items_cons b, hb, ← items_cons a]
  | @fill a b r rest ha hb _ =>
      rw [items_cons a, ha, items_cons b, hb]
      show items rest + {r} = r ::ₘ items rest + 0
      rw [add_zero, add_comm, Multiset.singleton_add]

/-- **No resource gets into two slots.** -/
theorem Move.nodup {s s' : Multiset (Slot C R)} (h : Move made gone s s') (hs : (items s).Nodup) :
    (items s').Nodup := by
  cases h with
  | stay => exact hs
  | @empty a b rest hb =>
      rw [items_cons, hb]
      rw [items_cons] at hs
      split at hs
      · exact hs
      · exact (Multiset.nodup_cons.mp hs).2
  | @keep a b rest hb => rwa [items_cons, hb, ← items_cons]
  | @fill a b r rest ha hb hnew =>
      rw [items_cons, ha] at hs
      rw [items_cons, hb]
      exact Multiset.nodup_cons.mpr ⟨hnew, hs⟩

/-- The resources are not more than the slots. -/
theorem card_items_le (s : Multiset (Slot C R)) : (items s).card ≤ s.card := by
  induction s using Multiset.induction_on with
  | empty => simp [items]
  | cons a s ih =>
      rw [items_cons, Multiset.card_cons]
      split
      · omega
      · rw [Multiset.card_cons]
        omega

/-- The slot of the first member of a list with a property, and the others. -/
theorem coe_map_eraseP {α : Type} {p : α → Bool} {l : List α} {a : α} (g : α → Slot C R)
    (h : l.find? p = some a) :
    ((l.map g : List (Slot C R)) : Multiset (Slot C R)) = g a ::ₘ ((l.eraseP p).map g : List _) := by
  induction l with
  | nil => cases h
  | cons b l ih =>
      rw [List.find?_cons] at h
      cases hb : p b with
      | true =>
          rw [hb] at h
          cases h
          simp [hb]
      | false =>
          rw [hb] at h
          have := ih h
          rw [List.eraseP_cons_of_neg (by simp [hb]), List.map_cons, List.map_cons,
            ← Multiset.cons_coe, this, ← Multiset.cons_coe, Multiset.cons_swap]

end Lending
