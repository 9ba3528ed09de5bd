/-
# A tape with a read position and a mark

The abstract first-in-first-out store behind a byte stream.  A tape remembers
everything that was ever appended to it, the position up to which it has been
read, the position a reset returns to, and the position of the oldest element
that is still retained.  It is either being written or being read.

* `append` extends the tape while it is being written;
* `advance` moves the read position forward while it is being read;
* `setMark` and `reset` save and restore the read position;
* `beginRead` and `beginWrite` switch the mode; `beginWrite` lets go of
  everything before the read position.

The order of the four positions is a field of the structure, so the law
`passed_append_unread` (what was passed, followed by what is unread, is what
was appended) needs no side condition.
-/
import Mathlib

namespace Fifo

/-- A tape over `α`: everything appended so far, and three positions in it. -/
structure Tape (α : Type*) where
  appended : List α
  base : ℕ
  mark : ℕ
  pos : ℕ
  reading : Bool
  base_le_mark : base ≤ mark
  mark_le_pos : mark ≤ pos
  pos_le_length : pos ≤ appended.length
  pos_of_writing : reading = false → pos = base

variable {α : Type*}

/-- The elements the read position has passed. -/
def Tape.passed (t : Tape α) : List α := t.appended.take t.pos

/-- The elements still to be read. -/
def Tape.unread (t : Tape α) : List α := t.appended.drop t.pos

/-- The elements that have not been let go of. -/
def Tape.retained (t : Tape α) : List α := t.appended.drop t.base

/-- **The tape law**: nothing is lost, duplicated or reordered. -/
theorem Tape.passed_append_unread (t : Tape α) :
    t.passed ++ t.unread = t.appended :=
  List.take_append_drop _ _

theorem Tape.length_unread (t : Tape α) :
    t.unread.length = t.appended.length - t.pos := by
  simp [Tape.unread]

/-- An empty tape, ready to be written. -/
def blank : Tape α where
  appended := []
  base := 0
  mark := 0
  pos := 0
  reading := false
  base_le_mark := le_refl 0
  mark_le_pos := le_refl 0
  pos_le_length := le_refl 0
  pos_of_writing := fun _ => rfl

/-- A tape holding `xs`, ready to be read. -/
def loaded (xs : List α) : Tape α where
  appended := xs
  base := 0
  mark := 0
  pos := 0
  reading := true
  base_le_mark := le_refl 0
  mark_le_pos := le_refl 0
  pos_le_length := Nat.zero_le _
  pos_of_writing := fun h => by simp at h

/-- Append `xs` at the far end. -/
def Tape.append (t : Tape α) (xs : List α) : Tape α where
  appended := t.appended ++ xs
  base := t.base
  mark := t.mark
  pos := t.pos
  reading := t.reading
  base_le_mark := t.base_le_mark
  mark_le_pos := t.mark_le_pos
  pos_le_length := by
    have h := t.pos_le_length
    simp only [List.length_append]
    omega
  pos_of_writing := t.pos_of_writing

/-- Move the read position past the next `n` elements (at most to the end); a
tape that is being written is left as it is. -/
def Tape.advance (t : Tape α) (n : ℕ) : Tape α where
  appended := t.appended
  base := t.base
  mark := t.mark
  pos := if t.reading then min (t.pos + n) t.appended.length else t.pos
  reading := t.reading
  base_le_mark := t.base_le_mark
  mark_le_pos := by
    have h := t.mark_le_pos
    have h' := t.pos_le_length
    split <;> omega
  pos_le_length := by
    have h := t.pos_le_length
    split <;> omega
  pos_of_writing := by
    intro h
    simpa [h] using t.pos_of_writing h

/-- Save the read position. -/
def Tape.setMark (t : Tape α) : Tape α where
  appended := t.appended
  base := t.base
  mark := t.pos
  pos := t.pos
  reading := t.reading
  base_le_mark := t.base_le_mark.trans t.mark_le_pos
  mark_le_pos := le_refl _
  pos_le_length := t.pos_le_length
  pos_of_writing := t.pos_of_writing

/-- Return to the saved read position. -/
def Tape.reset (t : Tape α) : Tape α where
  appended := t.appended
  base := t.base
  mark := t.mark
  pos := t.mark
  reading := t.reading
  base_le_mark := t.base_le_mark
  mark_le_pos := le_refl _
  pos_le_length := t.mark_le_pos.trans t.pos_le_length
  pos_of_writing := by
    intro h
    have h₁ := t.pos_of_writing h
    have h₂ := t.base_le_mark
    have h₃ := t.mark_le_pos
    omega

/-- Start reading; the positions do not move. -/
def Tape.beginRead (t : Tape α) : Tape α where
  appended := t.appended
  base := t.base
  mark := t.mark
  pos := t.pos
  reading := true
  base_le_mark := t.base_le_mark
  mark_le_pos := t.mark_le_pos
  pos_le_length := t.pos_le_length
  pos_of_writing := fun h => by simp at h

/-- Start writing: everything before the read position is let go of, and so is
the mark. -/
def Tape.beginWrite (t : Tape α) : Tape α where
  appended := t.appended
  base := t.pos
  mark := t.pos
  pos := t.pos
  reading := false
  base_le_mark := le_refl _
  mark_le_pos := le_refl _
  pos_le_length := t.pos_le_length
  pos_of_writing := fun _ => rfl

/-- While reading, moving past `n ≤ |unread|` elements leaves the rest. -/
theorem Tape.pos_advance (t : Tape α) {n : ℕ} (hr : t.reading = true)
    (hn : n ≤ t.unread.length) : (t.advance n).pos = t.pos + n := by
  have h := t.pos_le_length
  rw [Tape.length_unread] at hn
  simp only [Tape.advance, hr, if_true]
  omega

theorem Tape.unread_advance (t : Tape α) {n : ℕ} (hr : t.reading = true)
    (hn : n ≤ t.unread.length) : (t.advance n).unread = t.unread.drop n := by
  rw [Tape.unread, Tape.unread, t.pos_advance hr hn, List.drop_drop]
  rfl

/-- What is retained is what lies between the oldest retained element and the
read position, followed by what is unread. -/
theorem Tape.drop_retained (t : Tape α) : t.retained.drop (t.pos - t.base) = t.unread := by
  have h : t.base ≤ t.pos := t.base_le_mark.trans t.mark_le_pos
  rw [Tape.retained, Tape.unread, List.drop_drop, Nat.add_sub_cancel' h]

theorem Tape.retained_append (t : Tape α) (xs : List α) :
    (t.append xs).retained = t.retained ++ xs := by
  have h : t.base ≤ t.appended.length :=
    (t.base_le_mark.trans t.mark_le_pos).trans t.pos_le_length
  simp only [Tape.retained, Tape.append]
  exact List.drop_append_of_le_length h

theorem Tape.length_retained (t : Tape α) :
    t.retained.length = t.appended.length - t.base := by
  simp [Tape.retained]

end Fifo
