/-
# Checking and repairing UTF-8 (`src/luafan.c`)

`utf8DecodeOne` answers how many bytes a character takes at the front of a text, and 0
if none starts there.  `luafanSanitizeUtf8` returns a valid text as it is, and otherwise
writes a repaired one into a buffer that grows.

The sizes are those of a `size_t`.  Memory is a parameter: `malloc n` says whether a
block of `n` bytes is granted.
-/
import LuaFan.Lib.Utf8
import Mathlib.Tactic.Ring

namespace LuaFan

open Utf8 (Seq Starts Repaired)

/-! ## The code -/

/-- `utf8_decode_one`, on the bytes from `p` to `end`.  There is at least one. -/
def utf8DecodeOne (p : List UInt8) : ℕ :=
  let b := p.getD 0 0
  let b2 := p.getD 1 0
  if b < 0x80 then 1
  else if b < 0xC2 then 0
  else if b < 0xE0 then
    if p.length < 2 then 0
    else if b2 &&& 0xC0 ≠ 0x80 then 0
    else 2
  else if b < 0xF0 then
    if p.length < 3 then 0
    else if (if b = 0xE0 then b2 < 0xA0 ∨ b2 > 0xBF
      else if b = 0xED then b2 < 0x80 ∨ b2 > 0x9F
      else b2 &&& 0xC0 ≠ 0x80) then 0
    else if p.getD 2 0 &&& 0xC0 ≠ 0x80 then 0
    else 3
  else if b < 0xF5 then
    if p.length < 4 then 0
    else if (if b = 0xF0 then b2 < 0x90 ∨ b2 > 0xBF
      else if b = 0xF4 then b2 < 0x80 ∨ b2 > 0x8F
      else b2 &&& 0xC0 ≠ 0x80) then 0
    else if p.getD 2 0 &&& 0xC0 ≠ 0x80 then 0
    else if p.getD 3 0 &&& 0xC0 ≠ 0x80 then 0
    else 4
  else 0

/-- The loop of `luafan_is_valid_utf8`.  The first argument bounds its rounds. -/
def isValidLoop : ℕ → List UInt8 → Bool
  | n + 1, b :: p =>
      if utf8DecodeOne (b :: p) = 0 then false
      else isValidLoop n ((b :: p).drop (utf8DecodeOne (b :: p)))
  | _, _ => true

/-- `luafan_is_valid_utf8`. -/
def luafanIsValidUtf8 (s : List UInt8) : Bool := isValidLoop s.length s

/-- What the first loop of `luafan_sanitize_utf8` leaves of the text. -/
def skipValid : ℕ → List UInt8 → List UInt8
  | n + 1, b :: q =>
      if utf8DecodeOne (b :: q) = 0 then b :: q
      else skipValid n ((b :: q).drop (utf8DecodeOne (b :: q)))
  | _, q => q

/-- What ends the repair: the error it raises, or a write beyond the capacity. -/
inductive SanitizeStop where
  | outOfMemory
  | overrun
deriving DecidableEq

/-- `out`, of which `outlen` bytes are written, and `cap`. -/
structure SanitizeBuf where
  out : List UInt8
  cap : ℕ

/-- Makes room for `n` more bytes, with `realloc`. -/
def SanitizeBuf.grow (malloc : ℕ → Bool) (b : SanitizeBuf) (n : ℕ) : Except SanitizeStop SanitizeBuf :=
  if (b.out.length + n) % 2 ^ 64 > b.cap then
    if malloc ((b.out.length + n) * 2 % 2 ^ 64) then .ok ⟨b.out, (b.out.length + n) * 2 % 2 ^ 64⟩
    else .error .outOfMemory
  else .ok b

/-- Writes bytes behind the others. -/
def SanitizeBuf.put (b : SanitizeBuf) (bytes : List UInt8) : Except SanitizeStop SanitizeBuf :=
  if b.out.length + bytes.length ≤ b.cap then .ok ⟨b.out ++ bytes, b.cap⟩ else .error .overrun

/-- The second loop of `luafan_sanitize_utf8`. -/
def repairLoop (malloc : ℕ → Bool) : ℕ → List UInt8 → SanitizeBuf → Except SanitizeStop SanitizeBuf
  | k + 1, c :: q, b =>
      let n := utf8DecodeOne (c :: q)
      if n > 0 then do
        let b ← b.grow malloc n
        let b ← b.put ((c :: q).take n)
        repairLoop malloc k ((c :: q).drop n) b
      else do
        let b ← b.grow malloc 3
        let b ← b.put [0xEF]
        let b ← b.put [0xBF]
        let b ← b.put [0xBD]
        repairLoop malloc k q b
  | _, _, b => .ok b

/-- `luafan_sanitize_utf8` on a string. -/
def luafanSanitizeUtf8 (malloc : ℕ → Bool) (s : List UInt8) : Except SanitizeStop (List UInt8) :=
  let q := skipValid s.length s
  if q = [] then .ok s
  else
    let cap := (s.length + 16) % 2 ^ 64
    if malloc cap then do
      let b ← SanitizeBuf.put ⟨[], cap⟩ (s.take (s.length - q.length))
      let b ← repairLoop malloc q.length q b
      .ok b.out
    else .error .outOfMemory

/-! ## One character -/

theorem tail_iff (b : UInt8) : b &&& 0xC0 = 0x80 ↔ Utf8.Tail b := by
  have h : ∀ b : BitVec 8, b &&& 0xC0 = 0x80 ↔ 0x80 ≤ b ∧ b ≤ 0xBF := by decide +kernel
  rw [← UInt8.toBitVec_inj, Utf8.Tail, UInt8.le_iff_toBitVec_le, UInt8.le_iff_toBitVec_le]
  exact h b.toBitVec

/-- What is tested of the second byte, where the lead bytes `x` and `y` narrow its range. -/
theorem second_iff {a b x y low high : UInt8} (hxy : x ≠ y) (hlow : 0x80 ≤ low) (hhigh : high ≤ 0xBF) :
    ¬(if a = x then b < low ∨ b > 0xBF else if a = y then b < 0x80 ∨ b > high else ¬Utf8.Tail b) ↔
      (a = x → low ≤ b) ∧ (a = y → b ≤ high) ∧ Utf8.Tail b := by
  split_ifs with h₁ h₂
  · rw [not_or, UInt8.not_lt, gt_iff_lt, UInt8.not_lt]
    constructor
    · rintro ⟨hb, hb'⟩
      exact ⟨fun _ => hb, fun h => absurd (h₁.symm.trans h) hxy, UInt8.le_trans hlow hb, hb'⟩
    · rintro ⟨hb, -, hb'⟩
      exact ⟨hb h₁, hb'.2⟩
  · rw [not_or, UInt8.not_lt, gt_iff_lt, UInt8.not_lt]
    constructor
    · rintro ⟨hb, hb'⟩
      exact ⟨fun h => absurd h h₁, fun _ => hb', hb, UInt8.le_trans hb' hhigh⟩
    · rintro ⟨-, hb, hb'⟩
      exact ⟨hb'.1, hb h₂⟩
  · rw [not_not]
    exact ⟨fun hb => ⟨fun h => absurd h h₁, fun h => absurd h h₂, hb⟩, fun h => h.2.2⟩

theorem second_three {a b : UInt8} :
    ¬(if a = 0xE0 then b < 0xA0 ∨ b > 0xBF else if a = 0xED then b < 0x80 ∨ b > 0x9F
        else ¬Utf8.Tail b) ↔ (a = 0xE0 → 0xA0 ≤ b) ∧ (a = 0xED → b ≤ 0x9F) ∧ Utf8.Tail b :=
  second_iff (by decide) (by decide) (by decide)

theorem second_four {a b : UInt8} :
    ¬(if a = 0xF0 then b < 0x90 ∨ b > 0xBF else if a = 0xF4 then b < 0x80 ∨ b > 0x8F
        else ¬Utf8.Tail b) ↔ (a = 0xF0 → 0x90 ≤ b) ∧ (a = 0xF4 → b ≤ 0x8F) ∧ Utf8.Tail b :=
  second_iff (by decide) (by decide) (by decide)

/-- A character is found, whatever follows it. -/
theorem utf8DecodeOne_append {s : List UInt8} (h : Seq s) (r : List UInt8) :
    utf8DecodeOne (s ++ r) = s.length := by
  cases h with
  | one ha => simp [utf8DecodeOne, ha]
  | @two a b ha ha' hb =>
      have h80 : ¬a < 0x80 := UInt8.not_lt.mpr (UInt8.le_trans (by decide) ha)
      have hC2 : ¬a < 0xC2 := UInt8.not_lt.mpr ha
      simp [utf8DecodeOne, h80, hC2, ha', tail_iff, hb]
  | @three a b c ha ha' hE0 hED hb hc =>
      have h80 : ¬a < 0x80 := UInt8.not_lt.mpr (UInt8.le_trans (by decide) ha)
      have hC2 : ¬a < 0xC2 := UInt8.not_lt.mpr (UInt8.le_trans (by decide) ha)
      have hE0' : ¬a < 0xE0 := UInt8.not_lt.mpr ha
      have hsecond := second_three.mpr ⟨hE0, hED, hb⟩
      simp [utf8DecodeOne, h80, hC2, hE0', ha', tail_iff, hsecond, hc]
  | @four a b c d ha ha' hF0 hF4 hb hc hd =>
      have h80 : ¬a < 0x80 := UInt8.not_lt.mpr (UInt8.le_trans (by decide) ha)
      have hC2 : ¬a < 0xC2 := UInt8.not_lt.mpr (UInt8.le_trans (by decide) ha)
      have hE0 : ¬a < 0xE0 := UInt8.not_lt.mpr (UInt8.le_trans (by decide) ha)
      have hF0' : ¬a < 0xF0 := UInt8.not_lt.mpr ha
      have hsecond := second_four.mpr ⟨hF0, hF4, hb⟩
      simp [utf8DecodeOne, h80, hC2, hE0, hF0', ha', tail_iff, hsecond, hc, hd]

/-- The bytes that are taken are a character. -/
theorem seq_of_utf8DecodeOne {a : UInt8} {p : List UInt8} (hpos : 0 < utf8DecodeOne (a :: p)) :
    ∃ s r, a :: p = s ++ r ∧ Seq s := by
  by_cases h80 : a < 0x80
  · exact ⟨[a], p, rfl, .one h80⟩
  by_cases hC2 : a < 0xC2
  · simp [utf8DecodeOne, h80, hC2] at hpos
  by_cases hE0 : a < 0xE0
  · rcases p with _ | ⟨b, p⟩
    · simp [utf8DecodeOne, h80, hC2, hE0] at hpos
    · by_cases hb : Utf8.Tail b
      · exact ⟨[a, b], p, rfl, .two (UInt8.not_lt.mp hC2) hE0 hb⟩
      · simp [utf8DecodeOne, h80, hC2, hE0, tail_iff, hb] at hpos
  by_cases hF0 : a < 0xF0
  · rcases p with _ | ⟨b, _ | ⟨c, p⟩⟩
    · simp [utf8DecodeOne, h80, hC2, hE0, hF0] at hpos
    · simp [utf8DecodeOne, h80, hC2, hE0, hF0] at hpos
    · by_cases hsecond : if a = 0xE0 then b < 0xA0 ∨ b > 0xBF else if a = 0xED then
          b < 0x80 ∨ b > 0x9F else ¬Utf8.Tail b
      · simp [utf8DecodeOne, h80, hC2, hE0, hF0, tail_iff, hsecond] at hpos
      · obtain ⟨hlow, hhigh, hb⟩ := second_three.mp hsecond
        by_cases hc : Utf8.Tail c
        · exact ⟨[a, b, c], p, rfl, .three (UInt8.not_lt.mp hE0) hF0 hlow hhigh hb hc⟩
        · simp [utf8DecodeOne, h80, hC2, hE0, hF0, tail_iff, hsecond, hc] at hpos
  by_cases hF5 : a < 0xF5
  · rcases p with _ | ⟨b, _ | ⟨c, _ | ⟨d, p⟩⟩⟩
    · simp [utf8DecodeOne, h80, hC2, hE0, hF0, hF5] at hpos
    · simp [utf8DecodeOne, h80, hC2, hE0, hF0, hF5] at hpos
    · simp [utf8DecodeOne, h80, hC2, hE0, hF0, hF5] at hpos
    · by_cases hsecond : if a = 0xF0 then b < 0x90 ∨ b > 0xBF else if a = 0xF4 then
          b < 0x80 ∨ b > 0x8F else ¬Utf8.Tail b
      · simp [utf8DecodeOne, h80, hC2, hE0, hF0, hF5, tail_iff, hsecond] at hpos
      · obtain ⟨hlow, hhigh, hb⟩ := second_four.mp hsecond
        by_cases hcd : Utf8.Tail c ∧ Utf8.Tail d
        · exact ⟨[a, b, c, d], p, rfl,
            .four (UInt8.not_lt.mp hF0) hF5 hlow hhigh hb hcd.1 hcd.2⟩
        · have hcd' : Utf8.Tail c → ¬Utf8.Tail d := fun hc hd => hcd ⟨hc, hd⟩
          by_cases hc : Utf8.Tail c
          · simp [utf8DecodeOne, h80, hC2, hE0, hF0, hF5, tail_iff, hsecond, hc, hcd' hc] at hpos
          · simp [utf8DecodeOne, h80, hC2, hE0, hF0, hF5, tail_iff, hsecond, hc] at hpos
  · simp [utf8DecodeOne, h80, hC2, hE0, hF0, hF5] at hpos

/-- **What `utf8_decode_one` finds**: the character in front, or that none starts. -/
theorem utf8DecodeOne_cases (b : UInt8) (p : List UInt8) :
    (∃ c r, b :: p = Utf8.encode c ++ r ∧ utf8DecodeOne (b :: p) = (Utf8.encode c).length) ∨
      (¬Starts (b :: p) ∧ utf8DecodeOne (b :: p) = 0) := by
  rcases Nat.eq_zero_or_pos (utf8DecodeOne (b :: p)) with hzero | hpos
  · refine Or.inr ⟨?_, hzero⟩
    rintro ⟨c, r, heq⟩
    rw [heq, utf8DecodeOne_append (Utf8.seq_encode c)] at hzero
    exact (Utf8.length_encode_pos c).ne' hzero
  · obtain ⟨s, r, heq, hs⟩ := seq_of_utf8DecodeOne hpos
    obtain ⟨c, rfl⟩ := hs.exists_char
    exact Or.inl ⟨c, r, heq, by rw [heq, utf8DecodeOne_append hs]⟩

theorem utf8DecodeOne_encode (c : Char) (r : List UInt8) :
    utf8DecodeOne (Utf8.encode c ++ r) = (Utf8.encode c).length :=
  utf8DecodeOne_append (Utf8.seq_encode c) r

/-! ## The scans -/

theorem isValidLoop_iff {k : ℕ} : ∀ {s : List UInt8}, s.length ≤ k →
    (isValidLoop k s = true ↔ Utf8.Valid s) := by
  induction k with
  | zero =>
      intro s hk
      obtain rfl := List.length_eq_zero_iff.mp (Nat.le_zero.mp hk)
      exact iff_of_true rfl Utf8.valid_nil
  | succ k ih =>
      intro s hk
      cases s with
      | nil => exact iff_of_true rfl Utf8.valid_nil
      | cons b s =>
          rw [isValidLoop]
          rcases utf8DecodeOne_cases b s with ⟨c, r, heq, hlen⟩ | ⟨hno, hzero⟩
          · have hpos := Utf8.length_encode_pos c
            have hsum := congrArg List.length heq
            rw [List.length_append] at hsum
            rw [hlen, if_neg hpos.ne', heq, List.drop_left, ih (by omega), Utf8.valid_encode_append]
          · rw [if_pos hzero]
            exact iff_of_false Bool.false_ne_true
              (Utf8.not_valid_of_not_starts (List.cons_ne_nil b s) hno)

/-- **`is_valid_utf8` answers whether a string is UTF-8.** -/
theorem luafanIsValidUtf8_iff (s : List UInt8) : luafanIsValidUtf8 s = true ↔ Utf8.Valid s :=
  isValidLoop_iff le_rfl

/-- The first loop takes characters off the front, up to where none starts. -/
theorem skipValid_spec {k : ℕ} : ∀ {s : List UInt8}, s.length ≤ k →
    ∃ v, s = v ++ skipValid k s ∧ Utf8.Valid v ∧
      (skipValid k s ≠ [] → ¬Starts (skipValid k s)) := by
  induction k with
  | zero =>
      intro s hk
      obtain rfl := List.length_eq_zero_iff.mp (Nat.le_zero.mp hk)
      exact ⟨[], rfl, Utf8.valid_nil, fun h => absurd rfl h⟩
  | succ k ih =>
      intro s hk
      cases s with
      | nil => exact ⟨[], rfl, Utf8.valid_nil, fun h => absurd rfl h⟩
      | cons b s =>
          rw [skipValid]
          rcases utf8DecodeOne_cases b s with ⟨c, r, heq, hlen⟩ | ⟨hno, hzero⟩
          · have hpos := Utf8.length_encode_pos c
            have hsum := congrArg List.length heq
            rw [List.length_append] at hsum
            obtain ⟨v, hv, hvalid, hstop⟩ := ih (s := r) (by omega)
            rw [hlen, if_neg hpos.ne', heq, List.drop_left]
            exact ⟨Utf8.encode c ++ v, by rw [List.append_assoc, ← hv],
              (Utf8.valid_encode c).append hvalid, hstop⟩
          · rw [if_pos hzero]
            exact ⟨[], rfl, Utf8.valid_nil, fun _ => hno⟩

/-- The first loop comes to the end of the valid texts only. -/
theorem skipValid_eq_nil {s : List UInt8} : skipValid s.length s = [] ↔ Utf8.Valid s := by
  obtain ⟨v, hv, hvalid, hstop⟩ := skipValid_spec (le_refl s.length)
  have hiff : Utf8.Valid s ↔ Utf8.Valid (skipValid s.length s) := by
    conv_lhs => rw [hv]
    exact hvalid.append_iff
  rw [hiff]
  constructor
  · intro h
    rw [h]
    exact Utf8.valid_nil
  · intro h
    by_contra hne
    exact Utf8.not_valid_of_not_starts hne (hstop hne) h

/-! ## The buffer -/

section Memory

variable {malloc : ℕ → Bool}

/-- Room for a few more bytes is there afterwards, or memory has run out. -/
theorem grow_spec (hmalloc : ∀ n, malloc n = true → n ≤ 2 ^ 62) {b : SanitizeBuf} (hcap : b.cap ≤ 2 ^ 62) (hout : b.out.length ≤ b.cap) {n : ℕ}
    (hn : n ≤ 4) :
    (∃ cap, b.grow malloc n = .ok ⟨b.out, cap⟩ ∧ cap ≤ 2 ^ 62 ∧ b.out.length + n ≤ cap) ∨
      (b.grow malloc n = .error .outOfMemory ∧ malloc ((b.out.length + n) * 2) = false) := by
  have hneed : (b.out.length + n) % 2 ^ 64 = b.out.length + n := Nat.mod_eq_of_lt (by omega)
  have hmore : (b.out.length + n) * 2 % 2 ^ 64 = (b.out.length + n) * 2 := Nat.mod_eq_of_lt (by omega)
  rw [SanitizeBuf.grow, hneed, hmore]
  split_ifs with hfull hgrant
  · exact Or.inl ⟨_, rfl, hmalloc _ hgrant, by omega⟩
  · exact Or.inr ⟨rfl, by simpa using hgrant⟩
  · exact Or.inl ⟨b.cap, rfl, hcap, by omega⟩

theorem put_ok {b : SanitizeBuf} {bytes : List UInt8} (h : b.out.length + bytes.length ≤ b.cap) :
    b.put bytes = .ok ⟨b.out ++ bytes, b.cap⟩ := if_pos h

/-- **The repair loop** writes what is left of the text, unless memory runs out. -/
theorem repairLoop_spec (hmalloc : ∀ n, malloc n = true → n ≤ 2 ^ 62) {q t : List UInt8} (h : Repaired q t) :
    ∀ {k : ℕ} {b : SanitizeBuf}, q.length ≤ k → b.cap ≤ 2 ^ 62 → b.out.length ≤ b.cap →
      (∃ cap, repairLoop malloc k q b = .ok ⟨b.out ++ t, cap⟩) ∨
        (repairLoop malloc k q b = .error .outOfMemory ∧
          ∃ n ≤ (b.out.length + t.length) * 2, malloc n = false) := by
  induction h with
  | nil =>
      intro k b _ _ _
      exact Or.inl ⟨b.cap, by cases k <;> simp [repairLoop]⟩
  | @keep c s t _ ih =>
      intro k b hk hcap hout
      have hpos := Utf8.length_encode_pos c
      have hlen : (Utf8.encode c).length ≤ 4 := by
        rw [Utf8.encode, String.length_utf8EncodeChar]
        exact Char.utf8Size_le_four c
      rw [List.length_append] at hk
      obtain ⟨k, rfl⟩ := Nat.exists_eq_succ_of_ne_zero (Nat.ne_of_gt (by omega : 0 < k))
      obtain ⟨a, p, heq⟩ := List.exists_cons_of_ne_nil (Utf8.encode_ne_nil c)
      have hone : utf8DecodeOne (a :: (p ++ s)) = (Utf8.encode c).length := by
        rw [← List.cons_append, ← heq]
        exact utf8DecodeOne_encode c s
      rw [heq, List.cons_append, repairLoop]
      simp only [hone, gt_iff_lt, hpos, if_true]
      rw [← List.cons_append, ← heq, List.take_left, List.drop_left]
      rcases grow_spec hmalloc hcap hout hlen with ⟨cap, hgrow, hcap', hroom⟩ | ⟨hgrow, hno⟩
      · have hput : SanitizeBuf.put ⟨b.out, cap⟩ (Utf8.encode c)
            = .ok ⟨b.out ++ Utf8.encode c, cap⟩ := put_ok hroom
        simp only [hgrow, hput, bind, Except.bind]
        rcases ih (k := k) (b := ⟨b.out ++ Utf8.encode c, cap⟩) (by omega) hcap'
          (by rw [List.length_append]; exact hroom) with ⟨cap', hok⟩ | ⟨herr, n, hn, hno⟩
        · exact Or.inl ⟨cap', by rw [hok, List.append_assoc]⟩
        · refine Or.inr ⟨herr, n, ?_, hno⟩
          rw [List.length_append] at hn ⊢
          omega
      · simp only [hgrow, bind, Except.bind]
        refine Or.inr ⟨trivial, _, ?_, hno⟩
        rw [List.length_append]
        omega
  | @replace c s t hno _ ih =>
      intro k b hk hcap hout
      have hzero : utf8DecodeOne (c :: s) = 0 := by
        rcases utf8DecodeOne_cases c s with ⟨d, r, heq, -⟩ | ⟨-, hzero⟩
        · exact absurd ⟨d, r, heq⟩ hno
        · exact hzero
      rw [List.length_cons] at hk
      obtain ⟨k, rfl⟩ := Nat.exists_eq_succ_of_ne_zero (Nat.ne_of_gt (by omega : 0 < k))
      rw [repairLoop]
      simp only [hzero, gt_iff_lt, lt_irrefl, if_false]
      rcases grow_spec hmalloc hcap hout (n := 3) (by omega) with
        ⟨cap, hgrow, hcap', hroom⟩ | ⟨hgrow, hno⟩
      · -- the three bytes of U+FFFD
        have hput₁ : SanitizeBuf.put ⟨b.out, cap⟩ [0xEF] = .ok ⟨b.out ++ [0xEF], cap⟩ :=
          put_ok (show b.out.length + 1 ≤ cap by omega)
        have hput₂ : SanitizeBuf.put ⟨b.out ++ [0xEF], cap⟩ [0xBF]
            = .ok ⟨b.out ++ [0xEF] ++ [0xBF], cap⟩ := by
          apply put_ok
          simp only [List.length_append, List.length_singleton]
          omega
        have hput₃ : SanitizeBuf.put ⟨b.out ++ [0xEF] ++ [0xBF], cap⟩ [0xBD]
            = .ok ⟨b.out ++ Utf8.replacement, cap⟩ := by
          rw [put_ok]
          · simp [Utf8.replacement]
          · simp only [List.length_append, List.length_singleton]
            omega
        have hthree : Utf8.replacement.length = 3 := rfl
        simp only [hgrow, hput₁, hput₂, hput₃, bind, Except.bind]
        rcases ih (k := k) (b := ⟨b.out ++ Utf8.replacement, cap⟩) (by omega) hcap'
          (by rw [List.length_append]; exact hroom) with ⟨cap', hok⟩ | ⟨herr, n, hn, hno⟩
        · exact Or.inl ⟨cap', by rw [hok, List.append_assoc]⟩
        · refine Or.inr ⟨herr, n, ?_, hno⟩
          rw [List.length_append] at hn ⊢
          omega
      · simp only [hgrow, bind, Except.bind]
        refine Or.inr ⟨trivial, _, ?_, hno⟩
        rw [List.length_append, show Utf8.replacement.length = 3 from rfl]
        omega

end Memory

/-- The repaired text is returned, unless memory runs out. -/
theorem sanitize_cases {malloc : ℕ → Bool} (hmalloc : ∀ n, malloc n = true → n ≤ 2 ^ 62)
    {s t : List UInt8} (hs : s.length < 2 ^ 63) (h : Repaired s t) :
    luafanSanitizeUtf8 malloc s = .ok t ∨
      (luafanSanitizeUtf8 malloc s = .error .outOfMemory ∧ ∃ n ≤ 6 * s.length + 16, malloc n = false) := by
  rw [luafanSanitizeUtf8]
  by_cases hnil : skipValid s.length s = []
  · simp only [hnil, if_true]
    exact Or.inl (congrArg _ (h.eq_iff.mpr (skipValid_eq_nil.mp hnil)).symm)
  · have hcap : (s.length + 16) % 2 ^ 64 = s.length + 16 := Nat.mod_eq_of_lt (by omega)
    simp only [hnil, if_false, hcap]
    by_cases hgrant : malloc (s.length + 16) = true
    · rw [if_pos hgrant]
      obtain ⟨v, hv, hvalid, -⟩ := skipValid_spec (le_refl s.length)
      obtain ⟨u, hu⟩ := Utf8.exists_repaired (skipValid s.length s)
      generalize skipValid s.length s = q at hv hu
      subst hv
      obtain rfl := h.unique (hvalid.append_repaired hu)
      have htake : (v ++ q).take ((v ++ q).length - q.length) = v := by
        rw [List.length_append, Nat.add_sub_cancel, List.take_left]
      have hput : SanitizeBuf.put ⟨[], (v ++ q).length + 16⟩ v = .ok ⟨v, (v ++ q).length + 16⟩ := by
        have hroom : 0 + v.length ≤ (v ++ q).length + 16 := by
          rw [List.length_append]
          omega
        exact put_ok hroom
      have hulen := hu.length_le
      simp only [htake, hput, bind, Except.bind]
      rcases repairLoop_spec hmalloc hu (k := q.length) (b := ⟨v, (v ++ q).length + 16⟩) le_rfl
        (hmalloc _ hgrant) (show v.length ≤ (v ++ q).length + 16 by rw [List.length_append]; omega) with ⟨cap, hok⟩ | ⟨herr, n, hn, hno⟩
      · rw [hok]
        exact Or.inl rfl
      · rw [herr]
        refine Or.inr ⟨rfl, n, ?_, hno⟩
        rw [List.length_append]
        simp only at hn
        omega
    · rw [if_neg hgrant]
      exact Or.inr ⟨rfl, s.length + 16, by omega, by simpa using hgrant⟩

/-- **Sanitising**: the result is the scan of the text, valid, equal to the text exactly if
that is valid, and left as it is the next time.  No write goes beyond the capacity: all
that can go wrong is that memory is refused. -/
theorem sanitize_utf8 (malloc : ℕ → Bool) (hmalloc : ∀ n, malloc n = true → n ≤ 2 ^ 62)
    (s : List UInt8) (hs : s.length < 2 ^ 63) :
    ∃ t, Repaired s t ∧ Utf8.Valid t ∧ (t = s ↔ Utf8.Valid s) ∧
      luafanSanitizeUtf8 malloc t = .ok t ∧
      (luafanSanitizeUtf8 malloc s = .ok t ∨
        (luafanSanitizeUtf8 malloc s = .error .outOfMemory ∧
          ∃ n ≤ 6 * s.length + 16, malloc n = false)) := by
  obtain ⟨t, ht⟩ := Utf8.exists_repaired s
  refine ⟨t, ht, ht.valid, ht.eq_iff, ?_, sanitize_cases hmalloc hs ht⟩
  rw [luafanSanitizeUtf8, skipValid_eq_nil.mpr ht.valid]
  rfl

/-- A stray byte and a truncated character, where blocks of a megabyte are granted. -/
theorem sanitize_utf8_stray :
    Repaired [0x80, 0x61, 0xE2, 0x82] [0xEF, 0xBF, 0xBD, 0x61, 0xEF, 0xBF, 0xBD, 0xEF, 0xBF, 0xBD] := by
  obtain ⟨t, ht, -, -, -, hrun⟩ := sanitize_utf8 (fun n => decide (n ≤ 2 ^ 20))
    (fun n hn => (of_decide_eq_true hn).trans (by decide)) [0x80, 0x61, 0xE2, 0x82] (by decide)
  have heq : luafanSanitizeUtf8 (fun n => decide (n ≤ 2 ^ 20)) [0x80, 0x61, 0xE2, 0x82]
      = .ok [0xEF, 0xBF, 0xBD, 0x61, 0xEF, 0xBF, 0xBD, 0xEF, 0xBF, 0xBD] := by rfl
  rw [heq] at hrun
  rcases hrun with hok | ⟨herr, -⟩
  · cases hok
    exact ht
  · cases herr

end LuaFan
