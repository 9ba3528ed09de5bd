/-
# Hexadecimal text (`src/luafan.c`, `hex2data` and `data2hex`)

`data2hex` writes two digits for a byte and `hex2data` reads pairs of characters back with
`strtol`.  The loop of `hex2data` ends at the first pair with a zero byte, but the length of
its result is that of the argument.

* `hex_round_trip`: the digits of a string are read back **exactly if** the `int` that counts
  its bytes does not overflow;
* `hex2data_determined_iff`: the result depends on the argument alone **exactly if** there is no
  zero byte before the last pair.  Otherwise the end of the result is what the memory held before.
-/
import LuaFan.Lib.Numeral

namespace LuaFan

open Fp

/-! ## The code -/

/-- `strtol` with base 16, on a string that ends at the first zero byte. -/
def strtol16 (s : List UInt8) : ℤ :=
  let s := (s.takeWhile (· ≠ 0)).dropWhile isSpace
  let (neg, k) := takeSign s
  let s := s.drop k
  let s := if startsWith ['0', 'x'] s ∧ (s.getD 2 0 |> isXDigit) then s.drop 2 else s
  let n : ℤ := digitsValue 16 (s.takeWhile isXDigit)
  if neg then max (-n) (-2 ^ 63) else min n (2 ^ 63 - 1)

/-- `strToChar`. -/
def strToChar (a b : UInt8) : UInt8 := UInt8.ofNat (strtol16 [a, b, 0] % 256).toNat

/-- The bytes that the loop of `hex2data` writes.  The string has a zero byte behind its end. -/
def hex2dataLoop : List UInt8 → List UInt8
  | a :: b :: bytes => if a ≠ 0 ∧ b ≠ 0 then strToChar a b :: hex2dataLoop bytes else []
  | _ => []

/-- `hex2data`, with the bytes that the allocated block holds; none if there is no memory.  The
argument is what `lua_tolstring` makes of it, and none is returned for one that is no string. -/
def hex2data (block : Option (List UInt8)) (arg : Option (List UInt8)) :
    Except String (Option (List UInt8)) :=
  match arg with
  | none => .ok none
  | some bytes =>
      match block with
      | none => .error "Memory allocation failure"
      | some r =>
          let written := hex2dataLoop bytes ++ [0]
          .ok (some ((written ++ r.drop written.length).take (bytes.length / 2)))

/-- `hexdigits`. -/
def hexdigits : List UInt8 := bytesOf "0123456789ABCDEF"

/-- The loop of `data2hex` with the counter `i`; none if the `int` overflows, which the language
leaves undefined. -/
def data2hexLoop : ℕ → List UInt8 → Option (List UInt8)
  | _, [] => some []
  | i, c :: bytes =>
      if i + 1 < 2 ^ 31 then
        (data2hexLoop (i + 1) bytes).map fun hex =>
          hexdigits.getD (c >>> 4 &&& 0xF).toNat 0 :: hexdigits.getD (c &&& 0xF).toNat 0 :: hex
      else none

/-- `data2hex`, when there is memory. -/
def data2hex (bytes : List UInt8) : Option (List UInt8) := data2hexLoop 0 bytes

/-! ## Digits of a byte -/

/-- The two digits of a byte are no zero bytes and have its value. -/
theorem strToChar_digits (c : UInt8) :
    hexdigits.getD (c >>> 4 &&& 0xF).toNat 0 ≠ 0 ∧ hexdigits.getD (c &&& 0xF).toNat 0 ≠ 0 ∧
      strToChar (hexdigits.getD (c >>> 4 &&& 0xF).toNat 0) (hexdigits.getD (c &&& 0xF).toNat 0) = c := by
  have hall : ∀ n : Fin 256, (fun c : UInt8 =>
      hexdigits.getD (c >>> 4 &&& 0xF).toNat 0 ≠ 0 ∧ hexdigits.getD (c &&& 0xF).toNat 0 ≠ 0 ∧
      strToChar (hexdigits.getD (c >>> 4 &&& 0xF).toNat 0) (hexdigits.getD (c &&& 0xF).toNat 0) = c)
      (UInt8.ofNat n.val) := by decide +kernel
  have := hall ⟨c.toNat, c.toNat_lt⟩
  simpa using this

/-! ## There and back -/

/-- The pairs of a text without zero bytes are all read. -/
theorem length_hex2dataLoop_le (h : List UInt8) : (hex2dataLoop h).length ≤ h.length / 2 := by
  fun_induction hex2dataLoop h with
  | case1 a b bytes hne ih =>
      simp only [List.length_cons]
      omega
  | case2 => simp
  | case3 => simp

/-- The loop of `data2hex` ends well as long as its counter does, and is undone. -/
theorem hex2dataLoop_data2hexLoop (s : List UInt8) : ∀ (i : ℕ) (hex : List UInt8),
    data2hexLoop i s = some hex → hex2dataLoop hex = s ∧ hex.length = 2 * s.length := by
  induction s with
  | nil =>
      intro i hex h
      cases h
      exact ⟨rfl, rfl⟩
  | cons c bytes ih =>
      intro i hex h
      rw [data2hexLoop] at h
      split at h
      · obtain ⟨rest, hrest, rfl⟩ := Option.map_eq_some_iff.mp h
        obtain ⟨hloop, hlen⟩ := ih _ _ hrest
        obtain ⟨ha, hb, hc⟩ := strToChar_digits c
        refine ⟨?_, by simp only [List.length_cons, hlen]; omega⟩
        rw [hex2dataLoop, if_pos ⟨ha, hb⟩, hc, hloop]
      · cases h

theorem data2hexLoop_isSome (s : List UInt8) : ∀ i, i < 2 ^ 31 →
    ((data2hexLoop i s).isSome = true ↔ i + s.length < 2 ^ 31) := by
  induction s with
  | nil =>
      intro i hi
      simpa [data2hexLoop] using hi
  | cons c bytes ih =>
      intro i hi
      rw [data2hexLoop, List.length_cons]
      split
      · rename_i hlt
        rw [Option.isSome_map, ih (i + 1) hlt]
        omega
      · simp only [Option.isSome_none, Bool.false_eq_true, false_iff]
        omega

/-- What is written as digits is read back, whatever the memory held. -/
def HexRoundTrips (s : List UInt8) : Prop :=
  ∃ hex, data2hex s = some hex ∧ ∀ r : List UInt8, r.length = hex.length / 2 + 1 →
    hex2data (some r) (some hex) = .ok (some s)

/-- **The round trip** works exactly below `2 ^ 31` bytes. -/
theorem hexRoundTrips_iff (s : List UInt8) : HexRoundTrips s ↔ s.length < 2 ^ 31 := by
  have hsome := data2hexLoop_isSome s 0 (by norm_num)
  rw [Nat.zero_add] at hsome
  rw [← hsome]
  constructor
  · rintro ⟨hex, hhex, -⟩
    rw [data2hex] at hhex
    rw [hhex]
    rfl
  · intro h
    obtain ⟨hex, hhex⟩ := Option.isSome_iff_exists.mp h
    obtain ⟨hloop, hlen⟩ := hex2dataLoop_data2hexLoop s 0 hex hhex
    refine ⟨hex, hhex, fun r _ => ?_⟩
    have hhalf : hex.length / 2 = s.length := by omega
    rw [hex2data]
    simp only [hloop, hhalf, List.append_assoc, List.take_left]

/-! ## What the result depends on -/

/-- The result does not depend on what the memory held. -/
def Determined (h : List UInt8) : Prop :=
  ∀ r r' : List UInt8, r.length = h.length / 2 + 1 → r'.length = h.length / 2 + 1 →
    hex2data (some r) (some h) = hex2data (some r') (some h)

/-- The loop comes to the last pair unless there is a zero byte before it. -/
theorem length_hex2dataLoop_iff (h : List UInt8) :
    h.length / 2 ≤ (hex2dataLoop h).length + 1 ↔ 0 ∉ h.take (2 * (h.length / 2 - 1)) := by
  fun_induction hex2dataLoop h with
  | case1 a b bytes hne ih =>
      by_cases hshort : bytes.length / 2 = 0
      · have hzero : 2 * ((a :: b :: bytes).length / 2 - 1) = 0 := by
          simp only [List.length_cons]
          omega
        rw [hzero]
        simp only [List.length_cons, List.take_zero, List.not_mem_nil, not_false_eq_true, iff_true]
        omega
      · have htake : 2 * ((a :: b :: bytes).length / 2 - 1) = 2 * (bytes.length / 2 - 1) + 2 := by
          simp only [List.length_cons]
          omega
        rw [htake, List.take_succ_cons, List.take_succ_cons, List.mem_cons, List.mem_cons, not_or,
          not_or, ← ih]
        simp only [List.length_cons, Ne.symm hne.1, Ne.symm hne.2, not_false_eq_true, true_and]
        omega
  | case2 a b bytes hzero =>
      simp only [List.length_nil, List.length_cons]
      by_cases hshort : bytes.length / 2 = 0
      · have : 2 * ((bytes.length + 1 + 1) / 2 - 1) = 0 := by omega
        rw [this]
        simp only [List.take_zero, List.not_mem_nil, not_false_eq_true, iff_true]
        omega
      · obtain ⟨k, hk⟩ : ∃ k, 2 * ((bytes.length + 1 + 1) / 2 - 1) = k + 2 :=
          ⟨2 * (bytes.length / 2 - 1), by omega⟩
        rw [hk, List.take_succ_cons, List.take_succ_cons]
        have hmem : (0 : UInt8) ∈ a :: b :: bytes.take k := by
          rw [not_and_or, not_not, not_not] at hzero
          rcases hzero with rfl | rfl <;> simp
        simp only [hmem, not_true_eq_false, iff_false]
        omega
  | case3 h hlong =>
      match h, hlong with
      | [], _ => simp
      | [a], _ => simp
      | a :: b :: bytes, hlong => exact absurd rfl (hlong a b bytes)

/-- **The result is a function of the argument** exactly if no byte before the last pair is
zero. -/
theorem determined_iff (h : List UInt8) : Determined h ↔ 0 ∉ h.take (2 * (h.length / 2 - 1)) := by
  rw [← length_hex2dataLoop_iff]
  have hle := length_hex2dataLoop_le h
  constructor
  · intro hdet
    by_contra hshort
    -- the byte behind the terminator is left as it was
    have heq := hdet (List.replicate (h.length / 2 + 1) 0) (List.replicate (h.length / 2 + 1) 1)
      (by simp) (by simp)
    simp only [hex2data, Except.ok.injEq, Option.some.injEq] at heq
    have hbyte := congrArg (fun l => l[(hex2dataLoop h).length + 1]?) heq
    simp only [List.getElem?_take, List.length_append, List.length_singleton] at hbyte
    rw [if_pos (by omega), if_pos (by omega), List.getElem?_append_right (by simp),
      List.getElem?_append_right (by simp)] at hbyte
    simp only [List.length_append, List.length_singleton, Nat.sub_self, List.drop_replicate,
      List.getElem?_replicate] at hbyte
    rw [if_pos (by omega), if_pos (by omega)] at hbyte
    simp at hbyte
  · intro hlong r r' _ _
    have hkeep : ∀ t : List UInt8, (hex2dataLoop h ++ [0] ++ t).take (h.length / 2) =
        (hex2dataLoop h ++ [0]).take (h.length / 2) := by
      intro t
      exact List.take_append_of_le_length (by simpa using hlong)
    simp only [hex2data, hkeep]

/-- **Hexadecimal conversion**: the round trip, and what the result depends on. -/
theorem hex_conversion (s h : List UInt8) :
    (HexRoundTrips s ↔ s.length < 2 ^ 31) ∧
      (Determined h ↔ 0 ∉ h.take (2 * (h.length / 2 - 1))) :=
  ⟨hexRoundTrips_iff s, determined_iff h⟩

/-- Of four zero bytes the second byte of the result is what the memory held. -/
theorem hex_undetermined : ¬Determined [0, 0, 0, 0] := by
  intro h
  have heq := h [0, 0, 0] [0, 1, 0] rfl rfl
  revert heq
  decide

end LuaFan
