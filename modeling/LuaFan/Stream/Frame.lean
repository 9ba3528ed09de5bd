/-
# `U30` round trip and length-prefixed frames

`AddString` writes a frame: the length of the string as a `U30`, then its bytes.
`GetString` reads one frame back.  The prefix can be cut anywhere, so this module
says what `GetString` answers on every prefix of a frame:

* `takeString_frame`: on a whole frame, the string and the length of the frame;
* `takeString_cut`: on a cut frame, a size that is more than what is there and
  not more than what the sender will still send.

The length prefix holds 32 bits, so both need a string shorter than `2 ^ 32`.
-/
import LuaFan.Stream.ByteFifo

namespace LuaFan

/-! ## The machine operations as arithmetic -/

theorem toNat_u30_low (u : UInt32) : (u &&& 0x7f).toNat = u.toNat % 128 := by
  rw [UInt32.toNat_and]
  exact Nat.and_two_pow_sub_one_eq_mod u.toNat 7

theorem toNat_shiftRight_seven (u : UInt32) : (u >>> 7).toNat = u.toNat / 128 := by
  rw [UInt32.toNat_shiftRight]
  exact Nat.shiftRight_eq_div_pow u.toNat 7

theorem u30_more_iff (u : UInt32) : u >>> 7 ≠ 0 ↔ 128 ≤ u.toNat := by
  rw [ne_eq, ← UInt32.toNat_inj, toNat_shiftRight_seven, show (0 : UInt32).toNat = 0 from rfl]
  omega

/-- The test for more than seven bits, as `ffi_stream_add_u30` writes it. -/
theorem u30_high_iff (u : UInt32) : u &&& ~~~0x7f ≠ 0 ↔ 128 ≤ u.toNat := by
  rw [ne_eq, ← UInt32.toNat_inj, UInt32.toNat_and,
    show (~~~0x7f : UInt32).toNat = 4294967168 from rfl, show (0 : UInt32).toNat = 0 from rfl]
  have hlt := u.toNat_lt
  constructor
  · intro h
    by_contra hlow
    have hself : u.toNat = u.toNat &&& 127 := by
      rw [show 127 = 2 ^ 7 - 1 from rfl, Nat.and_two_pow_sub_one_eq_mod]
      omega
    apply h
    rw [hself, Nat.and_assoc, show 127 &&& 4294967168 = 0 from rfl, Nat.and_zero]
  · intro h hzero
    have hshift : (u.toNat &&& 4294967168) >>> 7 = u.toNat >>> 7 := by
      rw [Nat.shiftRight_and_distrib, show 4294967168 >>> 7 = 2 ^ 25 - 1 from rfl,
        Nat.and_two_pow_sub_one_eq_mod, Nat.mod_eq_of_lt]
      rw [Nat.shiftRight_eq_div_pow]
      omega
    rw [hzero, Nat.zero_shiftRight, Nat.shiftRight_eq_div_pow] at hshift
    omega

/-- A written byte: seven bits, and the continuation bit if more are left. -/
theorem toNat_u30Byte (u : UInt32) :
    (u30Byte u).toNat = u.toNat % 128 + (if 128 ≤ u.toNat then 128 else 0) := by
  have hlow := toNat_u30_low u
  rw [u30Byte, UInt32.toNat_toUInt8, UInt32.toNat_or, hlow]
  by_cases h : 128 ≤ u.toNat
  · rw [if_pos ((u30_high_iff u).mpr h), if_pos h, show (0x80 : UInt32).toNat = 2 ^ 7 * 1 from rfl,
      ← Nat.two_pow_add_eq_or_of_lt (by omega)]
    omega
  · rw [if_neg (fun hne => h ((u30_high_iff u).mp hne)), if_neg h,
      show (0 : UInt32).toNat = 0 from rfl, Nat.zero_or]
    omega

/-- The continuation bit of a byte. -/
theorem continuation_iff (b : UInt8) : b &&& 128 = 0 ↔ b.toNat < 128 := by
  revert b
  decide +kernel

theorem toNat_payload (b : UInt8) : (b.toUInt32 &&& 127).toNat = b.toNat % 128 := by
  rw [toNat_u30_low, UInt8.toNat_toUInt32]

/-- Accumulating seven bits at `shift` is an addition. -/
theorem toNat_accumulate {value x : UInt32} {shift : ℕ} (hshift : shift < 32)
    (hvalue : value.toNat < 2 ^ shift) (hfit : x.toNat * 2 ^ shift < 2 ^ 32) :
    (value ||| (x <<< UInt32.ofNat shift)).toNat = value.toNat + x.toNat * 2 ^ shift := by
  have hmod : (UInt32.ofNat shift).toNat % 32 = shift := by
    rw [UInt32.toNat_ofNat']
    omega
  rw [UInt32.toNat_or, UInt32.toNat_shiftLeft, hmod, Nat.shiftLeft_eq, Nat.mod_eq_of_lt hfit,
    Nat.or_comm, Nat.mul_comm, ← Nat.two_pow_add_eq_or_of_lt hvalue, Nat.add_comm]

/-! ## Round trip -/

/-- Splitting the accumulated value into the seven bits of this round and the
bits of the later ones. -/
theorem accumulate_split (value u shift : ℕ) :
    value + u % 128 * 2 ^ shift + u / 128 * 2 ^ (shift + 7) = value + u * 2 ^ shift := by
  have hu : u % 128 + 128 * (u / 128) = u := Nat.mod_add_div u 128
  calc value + u % 128 * 2 ^ shift + u / 128 * 2 ^ (shift + 7)
      = value + (u % 128 + 128 * (u / 128)) * 2 ^ shift := by ring
    _ = value + u * 2 ^ shift := by rw [hu]

/-- One round of the reader on a byte the writer wrote. -/
theorem toNat_round {u value : UInt32} {shift : ℕ} (hshift : shift ≤ 28)
    (hvalue : value.toNat < 2 ^ shift) (hfit : value.toNat + u.toNat * 2 ^ shift < 2 ^ 32) :
    (value ||| (((u30Byte u).toUInt32 &&& 127) <<< UInt32.ofNat shift)).toNat =
      value.toNat + u.toNat % 128 * 2 ^ shift := by
  have hpay : ((u30Byte u).toUInt32 &&& 127).toNat = u.toNat % 128 := by
    rw [toNat_payload, toNat_u30Byte]
    split <;> omega
  have hle : u.toNat % 128 * 2 ^ shift ≤ u.toNat * 2 ^ shift :=
    Nat.mul_le_mul_right _ (Nat.mod_le _ _)
  rw [toNat_accumulate (by omega) hvalue (by rw [hpay]; omega), hpay]

/-- The reader's loop on the writer's bytes, with `n` rounds to go. -/
theorem takeU30Loop_append (n : ℕ) (u value : UInt32) (shift : ℕ) (rest : List UInt8)
    (hn : shift + 7 * n = 28) (hvalue : value.toNat < 2 ^ shift)
    (hfit : value.toNat + u.toNat * 2 ^ shift < 2 ^ 32) :
    takeU30Loop (n + 1) (u30BytesLoop (n + 1) u ++ rest) shift value =
      (some (UInt32.ofNat (value.toNat + u.toNat * 2 ^ shift)),
        (u30BytesLoop (n + 1) u).length) := by
  induction n generalizing u value shift with
  | zero =>
      have hsh : shift = 28 := by omega
      subst hsh
      have hsmall : ¬ u >>> 7 ≠ 0 := by
        rw [u30_more_iff]
        omega
      have hround := toNat_round (u := u) (le_refl 28) hvalue hfit
      rw [u30BytesLoop, if_neg hsmall, List.singleton_append, takeU30Loop, if_pos (Or.inr (by omega))]
      refine Prod.ext (congrArg some (UInt32.toNat_inj.mp ?_)) rfl
      rw [u30_more_iff] at hsmall
      rw [hround, UInt32.toNat_ofNat', Nat.mod_eq_of_lt hfit]
      omega
  | succ n ih =>
      have hround := toNat_round (u := u) (by omega) hvalue hfit
      have hbyte := toNat_u30Byte u
      by_cases hmore : 128 ≤ u.toNat
      · have hcont : ¬ (u30Byte u &&& 128 = 0 ∨ 30 < shift + 7) := by
          rw [continuation_iff]
          rw [if_pos hmore] at hbyte
          omega
        have hsplit := accumulate_split value.toNat u.toNat shift
        have hvalue' : value.toNat + u.toNat % 128 * 2 ^ shift < 2 ^ (shift + 7) := by
          have hle : u.toNat % 128 * 2 ^ shift ≤ 127 * 2 ^ shift :=
            Nat.mul_le_mul_right _ (by omega)
          rw [pow_add]
          omega
        have hnext := ih (u >>> 7)
          (value ||| (((u30Byte u).toUInt32 &&& 127) <<< UInt32.ofNat shift)) (shift + 7)
          (by omega) (by rw [hround]; exact hvalue')
          (by rw [hround, toNat_shiftRight_seven, hsplit]; exact hfit)
        rw [hround, toNat_shiftRight_seven, hsplit] at hnext
        rw [u30BytesLoop, if_pos ((u30_more_iff u).mpr hmore), List.cons_append, takeU30Loop,
          if_neg hcont, hnext]
        rfl
      · have hstop : u30Byte u &&& 128 = 0 ∨ 30 < shift + 7 := by
          rw [continuation_iff]
          rw [if_neg hmore] at hbyte
          omega
        rw [u30BytesLoop, if_neg (fun hne => hmore ((u30_more_iff u).mp hne)),
          List.singleton_append, takeU30Loop, if_pos hstop]
        refine Prod.ext (congrArg some (UInt32.toNat_inj.mp ?_)) rfl
        rw [hround, UInt32.toNat_ofNat', Nat.mod_eq_of_lt hfit,
          Nat.mod_eq_of_lt (by omega : u.toNat < 128)]

/-- **`U30` round trip**, over the full 32-bit range and with anything after it. -/
theorem takeU30_append (u : UInt32) (rest : List UInt8) :
    takeU30 (u30Bytes u ++ rest) = (some u, (u30Bytes u).length) := by
  have hlt := u.toNat_lt
  have h := takeU30Loop_append 4 u 0 0 rest rfl (by decide) (by simpa using hlt)
  rw [show (0 : UInt32).toNat = 0 from rfl, pow_zero, Nat.mul_one, Nat.zero_add,
    UInt32.ofNat_toNat] at h
  exact h

/-- On a cut encoding the reader's loop runs out of bytes. -/
theorem takeU30Loop_cut (n : ℕ) (u value : UInt32) (shift k : ℕ) (hn : shift + 7 * n ≤ 35)
    (hk : k < (u30BytesLoop n u).length) :
    (takeU30Loop n ((u30BytesLoop n u).take k) shift value).1 = none := by
  induction n generalizing u value shift k with
  | zero => simp [u30BytesLoop] at hk
  | succ n ih =>
      cases k with
      | zero => rfl
      | succ k =>
          by_cases hmore : u >>> 7 ≠ 0
          · rw [u30BytesLoop, if_pos hmore, List.length_cons] at hk
            have hbyte := toNat_u30Byte u
            rw [if_pos ((u30_more_iff u).mp hmore)] at hbyte
            have hpos : 0 < (u30BytesLoop n (u >>> 7)).length := by omega
            have hn1 : n ≠ 0 := by
              rintro rfl
              simp [u30BytesLoop] at hpos
            have hcont : ¬ (u30Byte u &&& 128 = 0 ∨ 30 < shift + 7) := by
              rw [continuation_iff]
              omega
            rw [u30BytesLoop, if_pos hmore, List.take_succ_cons, takeU30Loop, if_neg hcont]
            exact ih (u >>> 7) _ (shift + 7) k (by omega) (by omega)
          · rw [u30BytesLoop, if_neg hmore] at hk
            simp at hk

theorem takeU30_cut (u : UInt32) {k : ℕ} (hk : k < (u30Bytes u).length) :
    (takeU30 ((u30Bytes u).take k)).1 = none :=
  takeU30Loop_cut 5 u 0 0 k (le_refl _) hk

theorem length_u30Bytes_pos (u : UInt32) : 0 < (u30Bytes u).length := by
  simp [u30Bytes, u30BytesLoop]

/-! ## Three bytes -/

theorem u24Value_lt (v : List UInt8) : u24Value v < 2 ^ 24 := by
  have h2 := (v.getD 2 0).toNat_lt
  have h1 := (v.getD 1 0).toNat_lt
  have h0 := (v.getD 0 0).toNat_lt
  rw [u24Value]
  refine Nat.or_lt_two_pow (Nat.or_lt_two_pow ?_ ?_) (by omega)
  · rw [Nat.shiftLeft_eq]
    omega
  · rw [Nat.shiftLeft_eq]
    omega

/-- Bytes that do not overlap are added. -/
theorem u24Value_eq (a b c : UInt8) :
    u24Value [a, b, c] = a.toNat + b.toNat * 256 + c.toNat * 65536 := by
  have ha := a.toNat_lt
  have hb := b.toNat_lt
  have hbc : (c.toNat <<< 16) ||| (b.toNat <<< 8) = 2 ^ 8 * (c.toNat * 256 + b.toNat) := by
    rw [Nat.shiftLeft_eq, Nat.shiftLeft_eq, Nat.mul_comm _ (2 ^ 16),
      ← Nat.two_pow_add_eq_or_of_lt (by omega)]
    omega
  simp only [u24Value, List.getD_cons_zero, List.getD_cons_succ, hbc]
  rw [← Nat.two_pow_add_eq_or_of_lt (by omega)]
  omega

/-! ## Frames -/

/-- The bytes `AddString` writes for `s`. -/
def frame (s : List UInt8) : List UInt8 := u30Bytes (UInt32.ofNat s.length) ++ s

theorem frame_eq_addedBytes (s : List UInt8) : frame s = (StreamOp.addString s).addedBytes := rfl

theorem length_frame_pos (s : List UInt8) : 0 < (frame s).length := by
  have h := length_u30Bytes_pos (UInt32.ofNat s.length)
  simp only [frame, List.length_append]
  omega

/-- What is read back from a frame: as many bytes of the string as its 32-bit
length prefix says. -/
theorem takeString_frame_append (s rest : List UInt8) :
    takeString (frame s ++ rest) =
      (.ok (s.take (s.length % 2 ^ 32)),
        (u30Bytes (UInt32.ofNat s.length)).length + s.length % 2 ^ 32) := by
  have hlen : (UInt32.ofNat s.length).toNat = s.length % 2 ^ 32 := UInt32.toNat_ofNat'
  have hle : s.length % 2 ^ 32 ≤ s.length := Nat.mod_le _ _
  rw [takeString, frame, List.append_assoc, takeU30_append]
  simp only [hlen, List.length_append, List.drop_left]
  rw [if_neg (by omega), List.take_append_of_le_length hle]

/-- **A whole frame is read back**, whatever follows it. -/
theorem takeString_frame {s : List UInt8} (hs : s.length < 2 ^ 32) (rest : List UInt8) :
    takeString (frame s ++ rest) = (.ok s, (frame s).length) := by
  rw [takeString_frame_append, Nat.mod_eq_of_lt hs, List.take_length, frame, List.length_append]

/-- **A cut frame is left alone**, and the size asked for is more than what is
there and not more than what will come: not more than the length prefix while
that is incomplete, and not more than the frame after that. -/
theorem takeString_cut {s : List UInt8} (hs : s.length < 2 ^ 32) {k : ℕ}
    (hk : k < (frame s).length) :
    ∃ e, takeString ((frame s).take k) = (.need e, 0) ∧ k < e ∧ e ≤ (frame s).length ∧
      (k < (u30Bytes (UInt32.ofNat s.length)).length →
        e ≤ (u30Bytes (UInt32.ofNat s.length)).length) := by
  have hlen : (UInt32.ofNat s.length).toNat = s.length := by
    rw [UInt32.toNat_ofNat']
    exact Nat.mod_eq_of_lt hs
  have hframe : (frame s).length = (u30Bytes (UInt32.ofNat s.length)).length + s.length := by
    simp [frame]
  have hktake : ((frame s).take k).length = k := by
    rw [List.length_take]
    omega
  by_cases hprefix : k < (u30Bytes (UInt32.ofNat s.length)).length
  · -- the prefix itself is cut: ask for one byte more
    have htake : (frame s).take k = (u30Bytes (UInt32.ofNat s.length)).take k := by
      rw [frame, List.take_append_of_le_length (by omega)]
    have hnone := takeU30_cut (UInt32.ofNat s.length) hprefix
    refine ⟨k + 1, ?_, by omega, by omega, fun _ => by omega⟩
    rw [← htake] at hnone
    rw [takeString]
    generalize takeU30 ((frame s).take k) = res at *
    obtain ⟨r, j⟩ := res
    simp only at hnone
    subst hnone
    simp only [hktake]
  · -- the prefix is whole: ask for the whole frame
    have htake : (frame s).take k = u30Bytes (UInt32.ofNat s.length) ++
        s.take (k - (u30Bytes (UInt32.ofNat s.length)).length) := by
      rw [frame, List.take_append, List.take_of_length_le (by omega)]
    refine ⟨(frame s).length, ?_, hk, le_refl _, fun h => absurd h hprefix⟩
    rw [takeString, hktake, htake, takeU30_append]
    simp only [hlen]
    rw [if_pos (by omega), hframe, Nat.add_comm]

end LuaFan
