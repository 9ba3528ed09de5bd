/-
# What the strings of JSON denote

A byte denotes itself, a one-letter escape its character, four hexadecimal digits the
code point they are the value of, and a high and a low surrogate one behind the other
the code point beyond U+FFFF that they stand for.  A surrogate alone denotes nothing, so
the surrogates of a string that denotes a text are paired (`Denotes.wellPaired`), and it
denotes one text only (`Denotes.unique`).
-/
import LuaFan.Lib.JsonText
import LuaFan.Lib.Utf8

namespace JsonText

open Fp

/-- The one-letter escapes. -/
def letters : List (UInt8 × UInt8) :=
  [(ascii '"', ascii '"'), (ascii '\\', ascii '\\'), (ascii '/', ascii '/'), (ascii 'b', 8),
    (ascii 'f', 12), (ascii 'n', 10), (ascii 'r', 13), (ascii 't', 9)]

/-- The value of four hexadecimal digits. -/
def codeUnit (a b c d : UInt8) : ℕ :=
  ((digitValue a * 16 + digitValue b) * 16 + digitValue c) * 16 + digitValue d

def IsHigh (u : ℕ) : Prop := 0xd800 ≤ u ∧ u < 0xdc00

def IsLow (u : ℕ) : Prop := 0xdc00 ≤ u ∧ u < 0xe000

instance (u : ℕ) : Decidable (IsHigh u) := inferInstanceAs (Decidable (_ ∧ _))

instance (u : ℕ) : Decidable (IsLow u) := inferInstanceAs (Decidable (_ ∧ _))

/-- The code point of a surrogate pair. -/
def pairValue (high low : ℕ) : ℕ := 0x10000 + (high - 0xd800) * 0x400 + (low - 0xdc00)

/-- The text a string denotes, in UTF-8 where it is escaped. -/
inductive Denotes : List Piece → List UInt8 → Prop where
  | nil : Denotes [] []
  | raw {c : UInt8} {ps : List Piece} {t : List UInt8} : Denotes ps t → Denotes (.raw c :: ps) (c :: t)
  | esc {e x : UInt8} {ps : List Piece} {t : List UInt8} : (e, x) ∈ letters → Denotes ps t →
      Denotes (.esc e :: ps) (x :: t)
  | uni {a b c d : UInt8} {ch : Char} {ps : List Piece} {t : List UInt8} :
      ch.val.toNat = codeUnit a b c d → Denotes ps t → Denotes (.uni a b c d :: ps) (Utf8.encode ch ++ t)
  | pair {a b c d a' b' c' d' : UInt8} {ch : Char} {ps : List Piece} {t : List UInt8} :
      IsHigh (codeUnit a b c d) → IsLow (codeUnit a' b' c' d') →
      ch.val.toNat = pairValue (codeUnit a b c d) (codeUnit a' b' c' d') → Denotes ps t →
      Denotes (.uni a b c d :: .uni a' b' c' d' :: ps) (Utf8.encode ch ++ t)

/-- Every surrogate is one of a pair. -/
def wellPaired : List Piece → Bool
  | .uni a b c d :: .uni a' b' c' d' :: ps =>
      if IsHigh (codeUnit a b c d) then IsLow (codeUnit a' b' c' d') && wellPaired ps
      else !decide (IsLow (codeUnit a b c d)) && wellPaired (.uni a' b' c' d' :: ps)
  | [.uni a b c d] => !decide (IsHigh (codeUnit a b c d)) && !decide (IsLow (codeUnit a b c d))
  | .uni a b c d :: p :: ps =>
      !decide (IsHigh (codeUnit a b c d)) && !decide (IsLow (codeUnit a b c d)) && wellPaired (p :: ps)
  | _ :: ps => wellPaired ps
  | [] => true

/-- No character has the code point of a surrogate. -/
theorem not_surrogate {ch : Char} {u : ℕ} (h : ch.val.toNat = u) : ¬IsHigh u ∧ ¬IsLow u := by
  have hvalid : ch.val.toNat.isValidChar := ch.valid
  rw [h, Nat.isValidChar] at hvalid
  rw [IsHigh, IsLow]
  omega

theorem wellPaired_not_high {a b c d : UInt8} (h : ¬IsHigh (codeUnit a b c d)) (ps : List Piece) :
    wellPaired (.uni a b c d :: ps) = (!decide (IsLow (codeUnit a b c d)) && wellPaired ps) := by
  rcases ps with _ | ⟨_ | _ | _, ps⟩ <;> simp [wellPaired, h]

/-- A high surrogate has a low one behind it. -/
theorem wellPaired_high {a b c d : UInt8} {ps : List Piece} (h : IsHigh (codeUnit a b c d))
    (hpaired : wellPaired (.uni a b c d :: ps) = true) :
    ∃ a' b' c' d' ps', ps = .uni a' b' c' d' :: ps' ∧ IsLow (codeUnit a' b' c' d') ∧
      wellPaired ps' = true := by
  rcases ps with _ | ⟨_ | _ | ⟨a', b', c', d'⟩, ps⟩
  · simp [wellPaired, h] at hpaired
  · simp [wellPaired, h] at hpaired
  · simp [wellPaired, h] at hpaired
  · rw [wellPaired, if_pos h, Bool.and_eq_true, decide_eq_true_eq] at hpaired
    exact ⟨a', b', c', d', ps, rfl, hpaired⟩

/-- A string that denotes a text has no surrogate alone. -/
theorem Denotes.wellPaired {ps : List Piece} {t : List UInt8} (h : Denotes ps t) :
    wellPaired ps = true := by
  induction h with
  | nil => rfl
  | raw _ ih => exact ih
  | esc _ _ ih => exact ih
  | uni hch _ ih =>
      obtain ⟨hhigh, hlow⟩ := not_surrogate hch
      rw [wellPaired_not_high hhigh, decide_eq_false hlow, Bool.not_false, Bool.true_and]
      exact ih
  | pair hhigh hlow _ _ ih =>
      rw [JsonText.wellPaired, if_pos hhigh, decide_eq_true hlow, Bool.true_and]
      exact ih

theorem char_ext {ch ch' : Char} (h : ch.val.toNat = ch'.val.toNat) : ch = ch' :=
  Char.ext (UInt32.toNat_inj.mp h)

theorem letters_unique {e x y : UInt8} (hx : (e, x) ∈ letters) (hy : (e, y) ∈ letters) : x = y := by
  have hkeys : (letters.map Prod.fst).Nodup := by decide
  exact congrArg Prod.snd (List.inj_on_of_nodup_map hkeys hx hy rfl)

/-- **A string denotes one text.** -/
theorem Denotes.unique {ps : List Piece} {t t' : List UInt8} (h : Denotes ps t) (h' : Denotes ps t') :
    t = t' := by
  induction h generalizing t' with
  | nil =>
      cases h'
      rfl
  | raw _ ih =>
      cases h' with
      | raw h' => rw [ih h']
  | esc he _ ih =>
      cases h' with
      | esc he' h' => rw [ih h', letters_unique he he']
  | uni hch _ ih =>
      cases h' with
      | uni hch' h' => rw [ih h', char_ext (hch.trans hch'.symm)]
      | pair hhigh _ _ _ => exact absurd hhigh (not_surrogate hch).1
  | pair hhigh _ hch _ ih =>
      cases h' with
      | uni hch' _ => exact absurd hhigh (not_surrogate hch').1
      | pair _ _ hch' h' => rw [ih h', char_ext (hch.trans hch'.symm)]

theorem exists_char_unit {u : ℕ} (hle : u ≤ 0xffff) (hhigh : ¬IsHigh u) (hlow : ¬IsLow u) :
    ∃ ch : Char, ch.val.toNat = u := by
  refine ⟨Char.ofNat u, Utf8.val_ofNat ?_⟩
  rw [IsHigh] at hhigh
  rw [IsLow] at hlow
  rw [Nat.isValidChar]
  omega

theorem exists_char_pair {high low : ℕ} (hhigh : IsHigh high) (hlow : IsLow low) :
    ∃ ch : Char, ch.val.toNat = pairValue high low := by
  obtain ⟨hge, hlt⟩ := hhigh
  obtain ⟨hge', hlt'⟩ := hlow
  have hbounds : 0x10000 ≤ pairValue high low ∧ pairValue high low < 0x110000 := by
    unfold pairValue
    omega
  generalize pairValue high low = v at hbounds
  refine ⟨Char.ofNat v, Utf8.val_ofNat ?_⟩
  rw [Nat.isValidChar]
  omega

end JsonText
