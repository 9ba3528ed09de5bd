/-
# UTF-8

The encodings of characters are the byte sequences of the Unicode table of well-formed
sequences (`seq_iff`), and no encoding begins another (`encode_append_inj`), so a text has
one reading.  `Repaired` relates a byte string to what is left of it when every byte at
which no character starts is replaced.
-/
import Mathlib.Data.List.Basic
import Mathlib.Tactic.Common

namespace Utf8

/-- The bytes of a character. -/
abbrev encode (c : Char) : List UInt8 := String.utf8EncodeChar c

/-- The encodings of characters, one after another. -/
def Valid (s : List UInt8) : Prop := ∃ cs : List Char, s = cs.flatMap encode

/-- A character is encoded at the front. -/
def Starts (s : List UInt8) : Prop := ∃ c r, s = encode c ++ r

/-! ## Well-formed sequences -/

/-- A byte behind the first one. -/
def Tail (b : UInt8) : Prop := 0x80 ≤ b ∧ b ≤ 0xBF

/-- The table of well-formed sequences: not longer than needed, no surrogate, and nothing
beyond the last code point. -/
inductive Seq : List UInt8 → Prop where
  | one {a : UInt8} : a < 0x80 → Seq [a]
  | two {a b : UInt8} : 0xC2 ≤ a → a < 0xE0 → Tail b → Seq [a, b]
  | three {a b c : UInt8} : 0xE0 ≤ a → a < 0xF0 → (a = 0xE0 → 0xA0 ≤ b) → (a = 0xED → b ≤ 0x9F) →
      Tail b → Tail c → Seq [a, b, c]
  | four {a b c d : UInt8} : 0xF0 ≤ a → a < 0xF5 → (a = 0xF0 → 0x90 ≤ b) → (a = 0xF4 → b ≤ 0x8F) →
      Tail b → Tail c → Tail d → Seq [a, b, c, d]

theorem val_ofNat {n : ℕ} (h : n.isValidChar) : (Char.ofNat n).val.toNat = n := by
  rw [Char.ofNat, dif_pos h]
  rfl

/-- Every well-formed sequence is the encoding of a character. -/
theorem Seq.exists_char {s : List UInt8} (h : Seq s) : ∃ c, s = encode c := by
  cases h with
  | @one a ha =>
      simp only [UInt8.lt_iff_toNat_lt, UInt8.reduceToNat] at ha
      have hv : a.toNat.isValidChar := Or.inl (by omega)
      refine ⟨Char.ofNat a.toNat, ?_⟩
      simp only [encode, String.utf8EncodeChar, val_ofNat hv]
      rw [if_pos (by omega)]
      simp
  | @two a b ha ha' hb =>
      obtain ⟨hb, hb'⟩ := hb
      simp only [UInt8.lt_iff_toNat_lt, UInt8.le_iff_toNat_le, UInt8.reduceToNat] at ha ha' hb hb'
      have hv : (a.toNat % 0x20 * 64 + b.toNat % 64).isValidChar := Or.inl (by omega)
      refine ⟨Char.ofNat (a.toNat % 0x20 * 64 + b.toNat % 64), ?_⟩
      simp only [encode, String.utf8EncodeChar, val_ofNat hv]
      rw [if_neg (by omega), if_pos (by omega)]
      simp only [List.cons.injEq, ← UInt8.toNat_inj, UInt8.toNat_ofNat', and_true]
      omega
  | @three a b c ha ha' hE0 hED hb hc =>
      obtain ⟨hb, hb'⟩ := hb
      obtain ⟨hc, hc'⟩ := hc
      simp only [UInt8.lt_iff_toNat_lt, UInt8.le_iff_toNat_le, ← UInt8.toNat_inj,
        UInt8.reduceToNat] at ha ha' hE0 hED hb hb' hc hc'
      have hv : (a.toNat % 0x10 * 4096 + b.toNat % 64 * 64 + c.toNat % 64).isValidChar := by
        rw [Nat.isValidChar]
        omega
      refine ⟨Char.ofNat (a.toNat % 0x10 * 4096 + b.toNat % 64 * 64 + c.toNat % 64), ?_⟩
      simp only [encode, String.utf8EncodeChar, val_ofNat hv]
      rw [if_neg (by omega), if_neg (by omega), if_pos (by omega)]
      simp only [List.cons.injEq, ← UInt8.toNat_inj, UInt8.toNat_ofNat', and_true]
      omega
  | @four a b c d ha ha' hF0 hF4 hb hc hd =>
      obtain ⟨hb, hb'⟩ := hb
      obtain ⟨hc, hc'⟩ := hc
      obtain ⟨hd, hd'⟩ := hd
      simp only [UInt8.lt_iff_toNat_lt, UInt8.le_iff_toNat_le, ← UInt8.toNat_inj,
        UInt8.reduceToNat] at ha ha' hF0 hF4 hb hb' hc hc' hd hd'
      have hv : (a.toNat % 0x08 * 262144 + b.toNat % 64 * 4096 + c.toNat % 64 * 64
          + d.toNat % 64).isValidChar := by
        rw [Nat.isValidChar]
        omega
      refine ⟨Char.ofNat (a.toNat % 0x08 * 262144 + b.toNat % 64 * 4096 + c.toNat % 64 * 64
        + d.toNat % 64), ?_⟩
      simp only [encode, String.utf8EncodeChar, val_ofNat hv]
      rw [if_neg (by omega), if_neg (by omega), if_neg (by omega)]
      simp only [List.cons.injEq, ← UInt8.toNat_inj, UInt8.toNat_ofNat', and_true]
      omega

theorem seq_encode (c : Char) : Seq (encode c) := by
  have hvalid : c.val.toNat.isValidChar := c.valid
  rw [Nat.isValidChar] at hvalid
  simp only [encode, String.utf8EncodeChar]
  generalize c.val.toNat = v at hvalid
  split_ifs with h₁ h₂ h₃
  · refine .one ?_
    simp only [UInt8.lt_iff_toNat_lt, UInt8.toNat_ofNat', UInt8.reduceToNat]
    omega
  · refine .two ?_ ?_ ⟨?_, ?_⟩ <;>
      simp only [UInt8.lt_iff_toNat_lt, UInt8.le_iff_toNat_le, UInt8.toNat_ofNat', UInt8.reduceToNat] <;>
      omega
  · refine .three ?_ ?_ ?_ ?_ ⟨?_, ?_⟩ ⟨?_, ?_⟩ <;>
      simp only [UInt8.lt_iff_toNat_lt, UInt8.le_iff_toNat_le, ← UInt8.toNat_inj, UInt8.toNat_ofNat',
        UInt8.reduceToNat] <;>
      omega
  · refine .four ?_ ?_ ?_ ?_ ⟨?_, ?_⟩ ⟨?_, ?_⟩ ⟨?_, ?_⟩ <;>
      simp only [UInt8.lt_iff_toNat_lt, UInt8.le_iff_toNat_le, ← UInt8.toNat_inj, UInt8.toNat_ofNat',
        UInt8.reduceToNat] <;>
      omega

/-- **The well-formed sequences are the encodings of characters.** -/
theorem seq_iff {s : List UInt8} : Seq s ↔ ∃ c, s = encode c := by
  constructor
  · exact Seq.exists_char
  · rintro ⟨c, rfl⟩
    exact seq_encode c

/-! ## One reading -/

theorem encode_ne_nil (c : Char) : encode c ≠ [] := String.utf8EncodeChar_ne_nil

theorem length_encode_pos (c : Char) : 0 < (encode c).length :=
  List.length_pos_of_ne_nil (encode_ne_nil c)

/-- **No encoding begins another**: a text has one first character. -/
theorem encode_append_inj {c d : Char} {r r' : List UInt8} (h : encode c ++ r = encode d ++ r') :
    c = d ∧ r = r' := by
  have hbytes := congrArg List.toByteArray h
  rw [List.toByteArray_append, List.toByteArray_append] at hbytes
  have hdecode := congrArg (ByteArray.utf8DecodeChar? · 0) hbytes
  simp only [encode, ByteArray.utf8DecodeChar?_utf8EncodeChar_append, Option.some.injEq] at hdecode
  subst hdecode
  exact ⟨rfl, List.append_cancel_left h⟩

theorem valid_nil : Valid [] := ⟨[], rfl⟩

theorem Valid.append {s t : List UInt8} (hs : Valid s) (ht : Valid t) : Valid (s ++ t) := by
  obtain ⟨cs, rfl⟩ := hs
  obtain ⟨ds, rfl⟩ := ht
  exact ⟨cs ++ ds, by rw [List.flatMap_append]⟩

theorem valid_encode (c : Char) : Valid (encode c) := ⟨[c], by simp⟩

theorem Seq.valid {s : List UInt8} (h : Seq s) : Valid s := by
  obtain ⟨c, rfl⟩ := h.exists_char
  exact valid_encode c

theorem Valid.starts {s : List UInt8} (h : Valid s) (hne : s ≠ []) :
    ∃ c r, s = encode c ++ r ∧ Valid r := by
  obtain ⟨cs, rfl⟩ := h
  cases cs with
  | nil => exact absurd rfl hne
  | cons c cs => exact ⟨c, cs.flatMap encode, List.flatMap_cons, cs, rfl⟩

/-- A character in front does not make a text valid or invalid. -/
theorem valid_encode_append {c : Char} {r : List UInt8} : Valid (encode c ++ r) ↔ Valid r := by
  constructor
  · intro h
    obtain ⟨d, r', heq, hr'⟩ := h.starts (by simp)
    obtain ⟨-, rfl⟩ := encode_append_inj heq
    exact hr'
  · exact (valid_encode c).append

theorem Valid.append_iff {v r : List UInt8} (hv : Valid v) : Valid (v ++ r) ↔ Valid r := by
  obtain ⟨cs, rfl⟩ := hv
  induction cs with
  | nil => rfl
  | cons c cs ih => rw [List.flatMap_cons, List.append_assoc, valid_encode_append, ih]

theorem not_valid_of_not_starts {s : List UInt8} (hne : s ≠ []) (h : ¬Starts s) : ¬Valid s := by
  intro hs
  obtain ⟨c, r, heq, -⟩ := hs.starts hne
  exact h ⟨c, r, heq⟩

/-- The bytes a surrogate would have are no text. -/
theorem not_valid_surrogate {b : UInt8} (hb : 0x9F < b) (r : List UInt8) : ¬Valid (0xED :: b :: r) := by
  intro h
  obtain ⟨c, r', heq, -⟩ := h.starts (List.cons_ne_nil _ _)
  have hseq := seq_encode c
  generalize encode c = s at heq hseq
  cases hseq with
  | one ha =>
      obtain ⟨rfl, -⟩ := List.cons.inj heq
      exact absurd ha (by decide)
  | two _ ha =>
      obtain ⟨rfl, -⟩ := List.cons.inj heq
      exact absurd ha (by decide)
  | three _ _ _ hED =>
      obtain ⟨rfl, htail⟩ := List.cons.inj heq
      obtain ⟨rfl, -⟩ := List.cons.inj htail
      exact absurd (hED rfl) (UInt8.not_le.mpr hb)
  | four ha =>
      obtain ⟨rfl, -⟩ := List.cons.inj heq
      exact absurd ha (by decide)

/-! ## Repairing -/

/-- U+FFFD. -/
def replacement : List UInt8 := [0xEF, 0xBF, 0xBD]

theorem valid_replacement : Valid replacement :=
  (Seq.three (by decide) (by decide) (by decide) (by decide) ⟨by decide, by decide⟩
    ⟨by decide, by decide⟩).valid

/-- The text scanned from the left, with every byte replaced at which no character starts. -/
inductive Repaired : List UInt8 → List UInt8 → Prop where
  | nil : Repaired [] []
  | keep {c : Char} {s t : List UInt8} : Repaired s t → Repaired (encode c ++ s) (encode c ++ t)
  | replace {b : UInt8} {s t : List UInt8} : ¬Starts (b :: s) → Repaired s t →
      Repaired (b :: s) (replacement ++ t)

/-- What is left is valid. -/
theorem Repaired.valid {s t : List UInt8} (h : Repaired s t) : Valid t := by
  induction h with
  | nil => exact valid_nil
  | keep _ ih => exact (valid_encode _).append ih
  | replace _ _ ih => exact valid_replacement.append ih

theorem exists_repaired (s : List UInt8) : ∃ t, Repaired s t := by
  induction hn : s.length using Nat.strongRecOn generalizing s with
  | ind n ih =>
      cases s with
      | nil => exact ⟨[], .nil⟩
      | cons b s =>
          by_cases hstart : Starts (b :: s)
          · obtain ⟨c, r, heq⟩ := hstart
            have hpos := length_encode_pos c
            have hlen := congrArg List.length heq
            rw [List.length_append] at hlen
            obtain ⟨t, ht⟩ := ih r.length (by omega) r rfl
            exact ⟨encode c ++ t, heq ▸ .keep ht⟩
          · obtain ⟨t, ht⟩ := ih s.length (by rw [← hn, List.length_cons]; omega) s rfl
            exact ⟨replacement ++ t, .replace hstart ht⟩

theorem Repaired.length_le {s t : List UInt8} (h : Repaired s t) : t.length ≤ 3 * s.length := by
  induction h with
  | nil => exact Nat.zero_le _
  | keep _ ih =>
      rw [List.length_append, List.length_append]
      omega
  | replace _ _ ih =>
      rw [List.length_append, List.length_cons, show replacement.length = 3 from rfl]
      omega

/-- **The result of the scan is unique.** -/
theorem Repaired.unique {s t t' : List UInt8} (h : Repaired s t) (h' : Repaired s t') : t = t' := by
  induction h generalizing t' with
  | nil =>
      generalize hs : ([] : List UInt8) = s at h'
      cases h' with
      | nil => rfl
      | keep _ => exact absurd hs.symm (by simp)
      | replace _ _ => cases hs
  | @keep c s t _ ih =>
      generalize hs : encode c ++ s = s' at h'
      cases h' with
      | nil => exact absurd hs (by simp)
      | keep h' =>
          obtain ⟨rfl, rfl⟩ := encode_append_inj hs
          rw [ih h']
      | replace hno _ => exact absurd ⟨c, s, hs.symm⟩ hno
  | @replace b s t hno _ ih =>
      generalize hs : b :: s = s' at h'
      cases h' with
      | nil => cases hs
      | @keep c s' _ _ => exact absurd ⟨c, s', hs⟩ hno
      | replace _ h' =>
          cases hs
          rw [ih h']

/-- Valid text in front is kept. -/
theorem Valid.append_repaired {v s t : List UInt8} (hv : Valid v) (h : Repaired s t) :
    Repaired (v ++ s) (v ++ t) := by
  obtain ⟨cs, rfl⟩ := hv
  induction cs with
  | nil => exact h
  | cons c cs ih =>
      rw [List.flatMap_cons, List.append_assoc, List.append_assoc]
      exact .keep ih

/-- A valid text is left as it is. -/
theorem Valid.repaired {s : List UInt8} (h : Valid s) : Repaired s s := by
  simpa using h.append_repaired .nil

/-- **Only a valid text is left as it is.** -/
theorem Repaired.eq_iff {s t : List UInt8} (h : Repaired s t) : t = s ↔ Valid s := by
  constructor
  · rintro rfl
    exact h.valid
  · exact fun hs => h.unique hs.repaired

end Utf8
