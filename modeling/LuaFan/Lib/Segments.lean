/-
# Segments that must not be cut

A stream is written as a sequence of segments, some of which must arrive whole.  It arrives in
pieces, and `Aligned` says that no boundary between pieces falls inside a segment of that kind:
then whoever finds the beginning of such a segment finds all of it (`Aligned.covers`).  The rules
follow a reader that takes pieces in and segments off.
-/
import Mathlib.Data.List.Basic

namespace Segments

variable {α : Type*}

/-- A part of a stream; `whole` tells that it must not be cut. -/
structure Segment (α : Type*) where
  whole : Bool
  items : List α

/-- The stream of the segments. -/
def spell (ts : List (Segment α)) : List α := ts.flatMap Segment.items

@[simp] theorem spell_nil : spell ([] : List (Segment α)) = [] := rfl

@[simp] theorem spell_cons (t : Segment α) (ts : List (Segment α)) : spell (t :: ts) = t.items ++ spell ts := by
  simp [spell]

@[simp] theorem spell_append (ts ts' : List (Segment α)) : spell (ts ++ ts') = spell ts ++ spell ts' := by
  simp [spell]

/-- Of the stream of `ts`, the items `u` were taken in and the pieces `cs` are to come: no boundary
behind `u` or behind one of the pieces is inside a whole segment. -/
def Aligned (ts : List (Segment α)) (u : List α) (cs : List (List α)) : Prop :=
  ∀ cs₁ cs₂ ts₁ t ts₂, cs = cs₁ ++ cs₂ → ts = ts₁ ++ t :: ts₂ → t.whole = true →
    (u ++ cs₁.flatten).length ≤ (spell ts₁).length ∨
      (spell ts₁).length + t.items.length ≤ (u ++ cs₁.flatten).length

variable {t : Segment α} {ts : List (Segment α)} {u v q x y rest : List α} {cs cs₁ cs₂ : List (List α)}

/-- More pieces are taken in. -/
theorem Aligned.feed (h : Aligned ts u (cs₁ ++ cs₂)) : Aligned ts (u ++ cs₁.flatten) cs₂ := by
  intro ds₁ ds₂ ts₁ t ts₂ hcs hts ht
  have hpos := h (cs₁ ++ ds₁) ds₂ ts₁ t ts₂ (by rw [hcs, List.append_assoc]) hts ht
  rwa [List.flatten_append, ← List.append_assoc] at hpos

/-- A segment is taken off. -/
theorem Aligned.drop (h : Aligned (t :: ts) (t.items ++ v) cs) : Aligned ts v cs := by
  intro ds₁ ds₂ ts₁ t' ts₂ hcs hts ht
  have hpos := h ds₁ ds₂ (t :: ts₁) t' ts₂ hcs (by rw [hts]; rfl) ht
  simp only [spell_cons, List.length_append] at hpos ⊢
  omega

/-- A part of a segment that may be cut is taken off. -/
theorem Aligned.skip (h : Aligned (⟨false, x ++ y⟩ :: ts) (x ++ v) cs) : Aligned (⟨false, y⟩ :: ts) v cs := by
  intro ds₁ ds₂ ts₁ t' ts₂ hcs hts ht
  cases ts₁ with
  | nil =>
      rw [List.nil_append, List.cons.injEq] at hts
      rw [← hts.1] at ht
      cases ht
  | cons s ts₁ =>
      rw [List.cons_append, List.cons.injEq] at hts
      obtain ⟨rfl, hts⟩ := hts
      have hpos := h ds₁ ds₂ (⟨false, x ++ y⟩ :: ts₁) t' ts₂ hcs (by rw [hts]; rfl) ht
      simp only [spell_cons, List.length_append] at hpos ⊢
      omega

/-- The first part of a stream that is no longer than what was taken in. -/
theorem split_of_length_le (h : u ++ q = x ++ rest) (hle : x.length ≤ u.length) :
    ∃ v, u = x ++ v ∧ v ++ q = rest := by
  rcases List.append_eq_append_iff.mp h with ⟨w, hx, hq⟩ | ⟨v, hu, hrest⟩
  · have hlen := congrArg List.length hx
    rw [List.length_append] at hlen
    obtain rfl : w = [] := List.length_eq_zero_iff.mp (by omega)
    exact ⟨[], by simpa using hx.symm, by simpa using hq⟩
  · exact ⟨v, hu, hrest.symm⟩

/-- **Where a whole segment has begun, all of it is there.** -/
theorem Aligned.covers (h : Aligned (t :: ts) u cs) (ht : t.whole = true) (hne : u ≠ [])
    (hbytes : u ++ q = t.items ++ rest) : ∃ v, u = t.items ++ v ∧ v ++ q = rest := by
  have hpos := h [] cs [] t ts rfl rfl ht
  have hlen := List.length_pos_of_ne_nil hne
  simp only [List.flatten_nil, List.append_nil, spell_nil, List.length_nil] at hpos
  exact split_of_length_le hbytes (by omega)

/-- One piece cuts nothing. -/
theorem aligned_single (ts : List (Segment α)) : Aligned ts [] [spell ts] := by
  intro ds₁ ds₂ ts₁ t ts₂ hcs hts _
  cases ds₁ with
  | nil => exact Or.inl (by simp)
  | cons d ds₁ =>
      rw [List.cons_append, List.cons.injEq] at hcs
      obtain ⟨rfl, hnil⟩ := hcs
      obtain ⟨rfl, -⟩ := List.append_eq_nil_iff.mp hnil.symm
      refine Or.inr ?_
      rw [hts]
      simp

/-- The boundaries and the segments are finitely many. -/
theorem aligned_iff : Aligned ts u cs ↔ ∀ i ≤ cs.length, ∀ j : Fin ts.length, (ts.get j).whole = true →
    (u ++ (cs.take i).flatten).length ≤ (spell (ts.take j)).length ∨
      (spell (ts.take j)).length + (ts.get j).items.length ≤ (u ++ (cs.take i).flatten).length := by
  constructor
  · intro h i _ j hj
    refine h (cs.take i) (cs.drop i) (ts.take j) (ts.get j) (ts.drop (j + 1))
      (List.take_append_drop i cs).symm ?_ hj
    have hcons := List.drop_eq_getElem_cons j.isLt
    rw [List.get_eq_getElem, ← hcons, List.take_append_drop]
  · rintro h cs₁ cs₂ ts₁ t ts₂ rfl rfl ht
    have hpos := h cs₁.length (by simp) ⟨ts₁.length, by simp⟩ (by simpa using ht)
    simpa using hpos

instance (ts : List (Segment α)) (u : List α) (cs : List (List α)) : Decidable (Aligned ts u cs) :=
  decidable_of_iff _ aligned_iff.symm

end Segments
