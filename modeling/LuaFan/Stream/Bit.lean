/-
# The pure-Lua stream (`modules/fan/stream/bit.lua`)

Under LuaJIT a stream can be a Lua string with a read position, read by `string.byte` and
the functions of `bit`, which work on 32-bit words and return signed numbers.  The
numbers between them are doubles; all of them are integers below `2 ^ 53`, so they are
integers here.

* `stream_backends_agree`: a read has the same outcome as in the C core, value and
  position, **exactly when all bytes it needs are there** and, for a `U30`, its value
  fits 32 bits; each `Add*` appends the same bytes, but for a negative `AddABCS32`;
* `getU8_past_end`: a read at the end moves the position of one of the two.
-/
import LuaFan.Stream.Frame

namespace LuaFan

open Fifo

/-! ## LuaJIT's `bit` -/

namespace Bit

/-- The 32-bit word of a number. -/
def word (n : ℤ) : BitVec 32 := BitVec.ofInt 32 n

def band (a b : ℤ) : ℤ := (word a &&& word b).toInt

def bor (a b : ℤ) : ℤ := (word a ||| word b).toInt

def bxor (a b : ℤ) : ℤ := (word a ^^^ word b).toInt

def lshift (a : ℤ) (n : ℕ) : ℤ := (word a <<< (n % 32)).toInt

/-- The logical shift. -/
def rshift (a : ℤ) (n : ℕ) : ℤ := (word a >>> (n % 32)).toInt

/-- `string.format("%c", u)`. -/
def char (u : ℤ) : UInt8 := UInt8.ofNat (u % 256).toNat

end Bit

open Bit

/-! ## The code -/

/-- A stream of `bit.lua`.  The position counts from 0: `offset` in the source is one
more.  It may lie behind the data. -/
structure BitStream where
  data : List UInt8
  pos : ℕ
  deriving DecidableEq

namespace BitStream

variable (s : BitStream)

def available : ℤ := s.data.length - s.pos

def skip (n : ℕ) : BitStream := { s with pos := s.pos + n }

/-- `string.byte` or `string.sub` of the next `n` bytes. -/
def next (n : ℕ) : List UInt8 := (s.data.drop s.pos).take n

/-- `GetU8`. -/
def getU8 : Option StreamResult × BitStream :=
  match s.next 1 with
  | [a] => (some (.integer a.toNat), s.skip 1)
  | _ => (some .nothing, s.skip 1)

/-- `GetU16`.  The position is moved before a missing byte raises an error, which is
none here and below. -/
def getU16 : Option StreamResult × BitStream :=
  match s.next 2 with
  | [a, b] => (some (.integer (a.toNat + lshift b.toNat 8)), s.skip 2)
  | _ => (none, s.skip 2)

/-- `GetU24`. -/
def getU24 : Option StreamResult × BitStream :=
  match s.next 3 with
  | [a, b, c] => (some (.integer (a.toNat + lshift b.toNat 8 + lshift c.toNat 16)), s.skip 3)
  | _ => (none, s.skip 3)

/-- `GetS24`, by three calls of `GetU8`. -/
def getS24 : Option StreamResult × BitStream :=
  match s.next 3 with
  | [b1, b2, b3] =>
      let value := bor (bor (lshift b3.toNat 16) (lshift b2.toNat 8)) b1.toNat
      (some (.integer (if band b3.toNat 0x80 ≠ 0 then -1 - bxor value 0xffffff else value)), s.skip 3)
  | _ => (none, s.skip 3)

/-- `GetU32`. -/
def getU32 : Option StreamResult × BitStream :=
  match s.next 4 with
  | [a, b, c, d] =>
      (some (.integer (a.toNat + lshift b.toNat 8 + lshift c.toNat 16 + d.toNat * 2 ^ 24)), s.skip 4)
  | _ => (none, s.skip 4)

/-- The loop of `GetU30`. -/
def getU30Loop : ℕ → BitStream → ℕ → ℤ → Option ℤ × BitStream
  | 0, s, _, value => (some value, s)
  | n + 1, s, shift, value =>
      match s.next 1 with
      | [b] =>
          let value := value + band b.toNat 127 * 2 ^ shift
          if band b.toNat 128 = 0 ∨ 32 ≤ shift + 7 then (some value, s.skip 1)
          else getU30Loop n (s.skip 1) (shift + 7) value
      | _ => (none, s.skip 1)

/-- `GetU30`, none for nil. -/
def getU30 : Option ℤ × BitStream := getU30Loop 5 s 0 0

/-- `GetD64`. -/
def getD64 : Option StreamResult × BitStream :=
  if (s.next 8).length = 8 then (some (.double (UInt64.ofNat (ofLe (s.next 8)))), s.skip 8)
  else (none, s.skip 8)

/-- `GetString`: the position goes back if the string is not there. -/
def getString : Option StreamResult × BitStream :=
  match s.getU30 with
  | (none, _) => (some (.expect (s.available + 1).toNat), s)
  | (some len, s') =>
      if s'.available < len then (some (.expect (len.toNat + (s'.pos - s.pos))), s)
      else (some (.string (s'.next len.toNat)), s'.skip len.toNat)

/-- `GetBytes`; without a length all bytes are asked for. -/
def getBytes (len : Option ℤ) : Option StreamResult × BitStream :=
  let len := match len with
    | none => s.available
    | some len => if s.available < len then s.available else len
  if len ≤ 0 then (some .nothing, s)
  else (some (.string (s.next len.toNat)), s.skip len.toNat)

/-- The read operations; a length is a `lua_Integer`. -/
inductive ReadOp where
  | getU8
  | getU16
  | getU24
  | getS24
  | getU32
  | getU30
  | getD64
  | getString
  | getBytes (len : Option Int64)

def read : ReadOp → Option StreamResult × BitStream
  | .getU8 => s.getU8
  | .getU16 => s.getU16
  | .getU24 => s.getU24
  | .getS24 => s.getS24
  | .getU32 => s.getU32
  | .getU30 => (some (.ofOption .integer s.getU30.1), s.getU30.2)
  | .getD64 => s.getD64
  | .getString => s.getString
  | .getBytes len => s.getBytes (len.map Int64.toInt)

/-- The same method of the C core; `luaL_optinteger` makes -1 of a missing length. -/
def ReadOp.core : ReadOp → StreamOp
  | .getU8 => .getU8
  | .getU16 => .getU16
  | .getU24 => .getU24
  | .getS24 => .getS24
  | .getU32 => .getU32
  | .getU30 => .getU30
  | .getD64 => .getD64
  | .getString => .getString
  | .getBytes none => .getBytes (-1)
  | .getBytes (some len) => .getBytes len.toInt

/-! ### Writing -/

/-- The bytes of `AddU16`, `AddU24` and `AddS24`. -/
def u16Chars (u : ℤ) : List UInt8 := [char (band u 0xff), char (band (rshift u 8) 0xff)]

def u24Chars (u : ℤ) : List UInt8 := u16Chars u ++ [char (band (rshift u 16) 0xff)]

/-- The loop of `AddU30`. -/
def u30CharsLoop : ℕ → ℤ → List UInt8
  | 0, _ => []
  | n + 1, u =>
      char (bor (if 2 ^ 7 ≤ u then 0x80 else 0) (band u 0x7f)) ::
        if rshift u 7 = 0 then [] else u30CharsLoop n (rshift u 7)

def u30Chars (u : ℤ) : List UInt8 := u30CharsLoop 5 u

/-- The `Add*` operations that both back ends have, with arguments in range. -/
inductive AddOp where
  | addU8 (u : UInt8)
  | addU16 (u : UInt16)
  | addU24 (u : Fin (2 ^ 24))
  | addS24 (u : {u : ℤ // -2 ^ 23 ≤ u ∧ u < 2 ^ 23})
  | addU30 (u : UInt32)
  | addABCU32 (u : UInt32)
  | addABCS32 (u : Int32)
  | addD64 (bits : UInt64)
  | addString (data : List UInt8)
  | addBytes (data : List UInt8)

/-- The bytes that are appended to `data`. -/
def AddOp.chars : AddOp → List UInt8
  | .addU8 u => [char u.toNat]
  | .addU16 u => u16Chars u.toNat
  | .addU24 u => u24Chars u.val
  | .addS24 u => u24Chars u.val
  | .addU30 u => u30Chars u.toNat
  | .addABCU32 u => u30Chars u.toNat
  | .addABCS32 u => u30Chars u.toInt
  | .addD64 bits => leBytes 8 bits.toNat
  | .addString data => u30Chars data.length ++ data
  | .addBytes data => data

def add (op : AddOp) : BitStream := { s with data := s.data ++ op.chars }

/-- The same method of the C core: `luaL_checkinteger`, cut to the parameter's width. -/
def AddOp.core : AddOp → StreamOp
  | .addU8 u => .addU8 u
  | .addU16 u => .addU16 u
  | .addU24 u => .addU24 (UInt32.ofNat u.val)
  | .addS24 u => .addU24 (UInt32.ofNat (u.val % 2 ^ 32).toNat)
  | .addU30 u => .addU30 u
  | .addABCU32 u => .addU30 u
  | .addABCS32 u => .addU30 u.toUInt32
  | .addD64 bits => .addD64 bits
  | .addString data => .addString data
  | .addBytes data => .addBytes data

/-! ## When the two agree -/

/-- A stream of the C core that is being read, and one of `bit.lua` with the same data
and position. -/
structure Mirrors (ba : Bytearray) (s : BitStream) : Prop where
  represents : ∃ t : Tape UInt8, Represents ba t ∧ s.data = t.retained ∧ s.pos = t.pos - t.base
  reading : ba.reading = true

/-- The outcome of a read that did not fail. -/
def succeeded : StreamResult → Bool
  | .nothing => false
  | .expect _ => false
  | _ => true

/-- Both fail and stay where they were, or both succeed with the same value and the same
number of bytes. -/
def ReadsAgree (ba : Bytearray) (s : BitStream) (op : ReadOp) : Prop :=
  let core := streamStep ba op.core
  let lua := s.read op
  (succeeded core.2 = false ∧ core.1.offset = ba.offset ∧
      (lua.1 = none ∨ ∃ r, lua.1 = some r ∧ succeeded r = false) ∧ lua.2.pos = s.pos) ∨
    (succeeded core.2 = true ∧ lua.1 = some core.2 ∧ ∃ n, core.1.offset = ba.offset + n ∧
      lua.2.pos = s.pos + n)

/-- The value of a `U30` with nothing cut off, and its number of bytes. -/
def wideU30Loop : ℕ → List UInt8 → ℕ → ℕ → Option (ℕ × ℕ)
  | 0, _, _, value => some (value, 0)
  | _ + 1, [], _, _ => none
  | n + 1, b :: bs, shift, value =>
      let value := value + b.toNat % 128 * 2 ^ shift
      if b.toNat < 128 ∨ n = 0 then some (value, 1)
      else (wideU30Loop n bs (shift + 7) value).map fun r => (r.1, r.2 + 1)

def wideU30 (u : List UInt8) : Option (ℕ × ℕ) := wideU30Loop 5 u 0 0

/-- What the unread bytes must be for the two to agree. -/
def ReadOp.Fits (u : List UInt8) : ReadOp → Prop
  | .getU8 => 1 ≤ u.length
  | .getU16 => 2 ≤ u.length
  | .getU24 => 3 ≤ u.length
  | .getS24 => 3 ≤ u.length
  | .getU32 => 4 ≤ u.length
  | .getD64 => 8 ≤ u.length
  | .getU30 => ∃ value k, wideU30 u = some (value, k) ∧ value < 2 ^ 32
  | .getString => ∀ value k, wideU30 u = some (value, k) →
      value < 2 ^ 32 ∨ u.length - k < value % 2 ^ 32
  | .getBytes none => u.length < 2 ^ 32
  | .getBytes (some len) =>
      if 0 ≤ len.toInt then min len.toInt u.length < 2 ^ 32
      else min (toSize len.toInt) u.length % 2 ^ 32 = 0

/-- What the argument must be. -/
def AddOp.Fits : AddOp → Prop
  | .addABCS32 u => 0 ≤ u.toInt
  | .addString data => data.length < 2 ^ 32 ∨ 128 ≤ data.length % 2 ^ 32
  | _ => True

variable {s : BitStream} {ba : Bytearray} {u : List UInt8}

/-- Both are functions of the same unread bytes. -/
theorem Mirrors.unread (h : Mirrors ba s) (op : ReadOp) :
    (streamStep ba op.core).2 = (op.core.readSpec (s.data.drop s.pos)).1 ∧
      (streamStep ba op.core).1.offset = ba.offset + (op.core.readSpec (s.data.drop s.pos)).2 ∧
      s.pos ≤ s.data.length := by
  obtain ⟨t, hrep, hdata, hpos⟩ := h.represents
  have hread : op.core.isRead = true := by
    cases op with
    | getBytes len => cases len <;> rfl
    | _ => rfl
  have hunread : s.data.drop s.pos = t.unread := by rw [hdata, hpos, t.drop_retained]
  obtain ⟨hres, hba, -⟩ := streamStep_read hrep h.reading hread
  refine ⟨by rw [hres, hunread], by rw [hba, hunread], ?_⟩
  rw [hdata, hpos, t.length_retained]
  have hle := t.pos_le_length
  omega

/-- A failed read must leave the position; a successful one moves it by what was read. -/
theorem readsAgree_iff (h : Mirrors ba s) (op : ReadOp) :
    ReadsAgree ba s op ↔
      (succeeded (op.core.readSpec (s.data.drop s.pos)).1 = false ∧
        (op.core.readSpec (s.data.drop s.pos)).2 = 0 ∧
        ((s.read op).1 = none ∨ ∃ r, (s.read op).1 = some r ∧ succeeded r = false) ∧
        (s.read op).2.pos = s.pos) ∨
      (succeeded (op.core.readSpec (s.data.drop s.pos)).1 = true ∧
        (s.read op).1 = some (op.core.readSpec (s.data.drop s.pos)).1 ∧
        (s.read op).2.pos = s.pos + (op.core.readSpec (s.data.drop s.pos)).2) := by
  obtain ⟨hres, hoff, -⟩ := h.unread op
  simp only [ReadsAgree, hres, hoff]
  constructor
  · rintro (⟨hf, hzero, hlua, hpos⟩ | ⟨hs, hval, n, hn, hpos⟩)
    · exact Or.inl ⟨hf, by omega, hlua, hpos⟩
    · exact Or.inr ⟨hs, hval, by omega⟩
  · rintro (⟨hf, hzero, hlua, hpos⟩ | ⟨hs, hval, hpos⟩)
    · exact Or.inl ⟨hf, by omega, hlua, hpos⟩
    · exact Or.inr ⟨hs, hval, _, rfl, hpos⟩

end BitStream

/-! ## The bit operations as arithmetic -/

namespace Bit

/-- The operations on one byte. -/
theorem byte_bits (b : UInt8) : lshift b.toNat 8 = b.toNat * 256 ∧ lshift b.toNat 16 = b.toNat * 65536 ∧
    band b.toNat 127 = b.toNat % 128 ∧ (band b.toNat 128 = 0 ↔ b.toNat < 128) ∧
    (band b.toNat 0x80 ≠ 0 ↔ b &&& 0x80 ≠ 0) := by
  revert b
  decide +kernel

theorem lshift_eight (b : UInt8) : lshift b.toNat 8 = b.toNat * 256 := (byte_bits b).1

theorem lshift_sixteen (b : UInt8) : lshift b.toNat 16 = b.toNat * 65536 := (byte_bits b).2.1

theorem band_payload (b : UInt8) : band b.toNat 127 = b.toNat % 128 := (byte_bits b).2.2.1

theorem band_continuation (b : UInt8) : band b.toNat 128 = 0 ↔ b.toNat < 128 :=
  (byte_bits b).2.2.2.1

theorem band_sign (b : UInt8) : band b.toNat 0x80 ≠ 0 ↔ b &&& 0x80 ≠ 0 := (byte_bits b).2.2.2.2

theorem word_natCast (n : ℕ) : word n = BitVec.ofNat 32 n := by
  rw [word, BitVec.ofInt_natCast]

/-- Below the sign bit, words are natural numbers. -/
theorem toInt_of_lt {x : BitVec 32} (h : x.toNat < 2 ^ 31) : x.toInt = x.toNat := by
  rw [BitVec.toInt_eq_toNat_of_lt]
  omega

theorem toNat_word {n : ℕ} (h : n < 2 ^ 32) : (word n).toNat = n := by
  rw [word_natCast, BitVec.toNat_ofNat, Nat.mod_eq_of_lt h]

theorem bor_natCast {a b : ℕ} (ha : a < 2 ^ 31) (hb : b < 2 ^ 31) : bor a b = (a ||| b : ℕ) := by
  have hor : (word a ||| word b).toNat = a ||| b := by
    rw [BitVec.toNat_or, toNat_word (by omega), toNat_word (by omega)]
  rw [bor, toInt_of_lt (by rw [hor]; exact Nat.or_lt_two_pow ha hb), hor]

theorem bxor_natCast {a b : ℕ} (ha : a < 2 ^ 31) (hb : b < 2 ^ 31) : bxor a b = (a ^^^ b : ℕ) := by
  have hxor : (word a ^^^ word b).toNat = a ^^^ b := by
    rw [BitVec.toNat_xor, toNat_word (by omega), toNat_word (by omega)]
  rw [bxor, toInt_of_lt (by rw [hxor]; exact Nat.xor_lt_two_pow ha hb), hxor]

end Bit

/-- The three shifts of `GetS24`. -/
theorem bor_three (b1 b2 b3 : UInt8) :
    bor (bor (lshift b3.toNat 16) (lshift b2.toNat 8)) b1.toNat = (u24Value [b1, b2, b3] : ℕ) := by
  have h1 := b1.toNat_lt
  have h2 := b2.toNat_lt
  have h3 := b3.toNat_lt
  have hor : b3.toNat * 65536 ||| b2.toNat * 256 < 2 ^ 24 :=
    Nat.or_lt_two_pow (by omega) (by omega)
  rw [lshift_eight, lshift_sixteen,
    show ((b3.toNat : ℤ) * 65536) = ((b3.toNat * 65536 : ℕ) : ℤ) by push_cast; rfl,
    show ((b2.toNat : ℤ) * 256) = ((b2.toNat * 256 : ℕ) : ℤ) by push_cast; rfl,
    bor_natCast (by omega) (by omega), bor_natCast (by omega) (by omega)]
  simp [u24Value, Nat.shiftLeft_eq]

namespace BitStream

variable {s : BitStream} {ba : Bytearray}

/-! ## Reads of fixed size -/

/-- A read of `n` bytes agrees when they are there; else `bit.lua` has moved on. -/
theorem fixed_iff {op : ReadOp} {n : ℕ} (f : List UInt8 → StreamResult) (h : Mirrors ba s) (hn : 0 < n)
    (hcore : ∀ u, op.core.readSpec u = takeFixed n f u) (hf : ∀ v, succeeded (f v) = true)
    (hlong : n ≤ (s.data.drop s.pos).length → s.read op = (some (f (s.next n)), s.skip n))
    (hshort : (s.read op).2 = s.skip n) :
    ReadsAgree ba s op ↔ n ≤ (s.data.drop s.pos).length := by
  rw [readsAgree_iff h, hcore, takeFixed]
  by_cases hlen : n ≤ (s.data.drop s.pos).length
  · rw [if_pos hlen, hlong hlen]
    exact iff_of_true (Or.inr ⟨hf _, rfl, rfl⟩) hlen
  · have hmoved : (s.read op).2.pos ≠ s.pos := by
      rw [hshort, skip]
      simp only
      omega
    rw [if_neg hlen]
    simp only [succeeded, hmoved, hlen, and_false, false_or, Bool.false_eq_true, false_and]

theorem getU8_iff (h : Mirrors ba s) : ReadsAgree ba s .getU8 ↔ 1 ≤ (s.data.drop s.pos).length := by
  refine fixed_iff (fun v => .integer (v.getD 0 0).toNat) h (by omega) (fun _ => rfl) ?_ ?_ ?_
  · exact fun _ => rfl
  · intro hlen
    obtain ⟨a, rest, hu⟩ := List.exists_cons_of_length_pos hlen
    have hnext : s.next 1 = [a] := by rw [next, hu]; rfl
    simp [read, getU8, hnext]
  · simp only [read, getU8]
    split <;> rfl

theorem getU16_iff (h : Mirrors ba s) : ReadsAgree ba s .getU16 ↔ 2 ≤ (s.data.drop s.pos).length := by
  refine fixed_iff (fun v => .integer (ofLe v)) h (by omega) (fun _ => rfl) ?_ ?_ ?_
  · exact fun _ => rfl
  · intro hlen
    match hu : s.data.drop s.pos with
    | a :: b :: rest =>
        have hnext : s.next 2 = [a, b] := by rw [next, hu]; rfl
        simp only [read, getU16, hnext, lshift_eight, ofLe]
        norm_num
        ring
    | [a] => simp [hu] at hlen
    | [] => simp [hu] at hlen
  · simp only [read, getU16]
    split <;> rfl

theorem getU24_iff (h : Mirrors ba s) : ReadsAgree ba s .getU24 ↔ 3 ≤ (s.data.drop s.pos).length := by
  refine fixed_iff (fun v => .integer (u24Value v)) h (by omega) (fun _ => rfl) ?_ ?_ ?_
  · exact fun _ => rfl
  · intro hlen
    match hu : s.data.drop s.pos with
    | a :: b :: c :: rest =>
        have hnext : s.next 3 = [a, b, c] := by rw [next, hu]; rfl
        simp only [read, getU24, hnext, lshift_eight, lshift_sixteen, u24Value_eq]
        norm_num
    | [a, b] => simp [hu] at hlen
    | [a] => simp [hu] at hlen
    | [] => simp [hu] at hlen
  · simp only [read, getU24]
    split <;> rfl

theorem getS24_iff (h : Mirrors ba s) : ReadsAgree ba s .getS24 ↔ 3 ≤ (s.data.drop s.pos).length := by
  refine fixed_iff (fun v => .integer (if v.getD 2 0 &&& 0x80 ≠ 0 then -1 - ((u24Value v ^^^ 0xffffff : ℕ) : ℤ)
    else (u24Value v : ℤ))) h (by omega) (fun _ => rfl) ?_ ?_ ?_
  · exact fun _ => rfl
  · intro hlen
    match hu : s.data.drop s.pos with
    | a :: b :: c :: rest =>
        have hnext : s.next 3 = [a, b, c] := by rw [next, hu]; rfl
        have hlt := u24Value_lt [a, b, c]
        have hxor : bxor (u24Value [a, b, c] : ℕ) 0xffffff = (u24Value [a, b, c] ^^^ 0xffffff : ℕ) :=
          bxor_natCast (by omega) (by norm_num)
        simp only [read, getS24, hnext, bor_three, band_sign, hxor, List.getD_cons_succ,
          List.getD_cons_zero]
    | [a, b] => simp [hu] at hlen
    | [a] => simp [hu] at hlen
    | [] => simp [hu] at hlen
  · simp only [read, getS24]
    split <;> rfl

theorem getU32_iff (h : Mirrors ba s) : ReadsAgree ba s .getU32 ↔ 4 ≤ (s.data.drop s.pos).length := by
  refine fixed_iff (fun v => .integer (ofLe v)) h (by omega) (fun _ => rfl) ?_ ?_ ?_
  · exact fun _ => rfl
  · intro hlen
    match hu : s.data.drop s.pos with
    | a :: b :: c :: d :: rest =>
        have hnext : s.next 4 = [a, b, c, d] := by rw [next, hu]; rfl
        simp only [read, getU32, hnext, lshift_eight, lshift_sixteen, ofLe]
        norm_num
        ring
    | [a, b, c] => simp [hu] at hlen
    | [a, b] => simp [hu] at hlen
    | [a] => simp [hu] at hlen
    | [] => simp [hu] at hlen
  · simp only [read, getU32]
    split <;> rfl

theorem getD64_iff (h : Mirrors ba s) : ReadsAgree ba s .getD64 ↔ 8 ≤ (s.data.drop s.pos).length := by
  refine fixed_iff (fun v => .double (UInt64.ofNat (ofLe v))) h (by omega) (fun _ => rfl) ?_ ?_ ?_
  · exact fun _ => rfl
  · intro hlen
    have hnext : (s.next 8).length = 8 := by
      rw [next, List.length_take]
      omega
    simp [read, getD64, hnext]
  · simp only [read, getD64]
    split <;> rfl

/-! ## `U30` and strings -/

theorem skip_skip (s : BitStream) (m n : ℕ) : (s.skip m).skip n = s.skip (m + n) := by
  rw [skip, skip, skip, Nat.add_assoc]

/-- `GetU30` of `bit.lua` finds the value with nothing cut off. -/
theorem getU30Loop_wide (n : ℕ) : ∀ (s : BitStream) (shift value : ℕ), shift + 7 * n = 35 →
    getU30Loop n s shift value =
      match wideU30Loop n (s.data.drop s.pos) shift value with
      | some (v, k) => (some (v : ℤ), s.skip k)
      | none => (none, s.skip ((s.data.drop s.pos).length + 1)) := by
  induction n with
  | zero =>
      intro s shift value _
      rfl
  | succ n ih =>
      intro s shift value hshift
      cases hu : s.data.drop s.pos with
      | nil =>
          have hnext : s.next 1 = [] := by rw [next, hu]; rfl
          rw [getU30Loop, hnext]
          rfl
      | cons b bs =>
          have hnext : s.next 1 = [b] := by rw [next, hu]; rfl
          have hrest : (s.skip 1).data.drop (s.skip 1).pos = bs := by
            rw [skip, ← List.drop_drop, hu]
            rfl
          have hvalue : (value : ℤ) + band b.toNat 127 * 2 ^ shift =
              (value + b.toNat % 128 * 2 ^ shift : ℕ) := by
            rw [band_payload]
            push_cast
            rfl
          have hlast : band b.toNat 128 = 0 ∨ 32 ≤ shift + 7 ↔ b.toNat < 128 ∨ n = 0 := by
            rw [band_continuation]
            omega
          rw [getU30Loop, hnext]
          simp only [hvalue, hlast, wideU30Loop]
          split
          · rfl
          · rw [ih (s.skip 1) (shift + 7) _ (by omega), hrest]
            cases wideU30Loop n bs (shift + 7) (value + b.toNat % 128 * 2 ^ shift) with
            | none => simp only [Option.map_none, skip_skip, List.length_cons, Nat.add_comm 1]
            | some r => simp only [Option.map_some, skip_skip, Nat.add_comm 1]

/-- Accumulating seven bits at `shift`, cut to 32 bits. -/
theorem toNat_accumulate_mod {value x : UInt32} {shift : ℕ} (hshift : shift < 32)
    (hvalue : value.toNat < 2 ^ shift) :
    (value ||| (x <<< UInt32.ofNat shift)).toNat = (value.toNat + x.toNat * 2 ^ shift) % 2 ^ 32 := by
  have hmod : (UInt32.ofNat shift).toNat % 32 = shift := by
    rw [UInt32.toNat_ofNat']
    omega
  have hpow : 2 ^ 32 = 2 ^ shift * 2 ^ (32 - shift) := by
    rw [← pow_add]
    congr 1
    omega
  have hhigh : x.toNat * 2 ^ shift % 2 ^ 32 = 2 ^ shift * (x.toNat % 2 ^ (32 - shift)) := by
    rw [hpow, Nat.mul_comm x.toNat, Nat.mul_mod_mul_left]
  have hfit : value.toNat + 2 ^ shift * (x.toNat % 2 ^ (32 - shift)) < 2 ^ 32 := by
    have hlt : x.toNat % 2 ^ (32 - shift) < 2 ^ (32 - shift) := Nat.mod_lt _ (by positivity)
    calc value.toNat + 2 ^ shift * (x.toNat % 2 ^ (32 - shift))
        < 2 ^ shift * (x.toNat % 2 ^ (32 - shift) + 1) := by rw [Nat.mul_succ]; omega
      _ ≤ 2 ^ shift * 2 ^ (32 - shift) := Nat.mul_le_mul_left _ hlt
      _ = 2 ^ 32 := hpow.symm
  rw [UInt32.toNat_or, UInt32.toNat_shiftLeft, hmod, Nat.shiftLeft_eq, hhigh, Nat.or_comm,
    ← Nat.two_pow_add_eq_or_of_lt hvalue, Nat.add_mod, hhigh,
    Nat.mod_eq_of_lt (hvalue.trans_le (Nat.pow_le_pow_right (by omega) hshift.le)),
    Nat.mod_eq_of_lt hfit, Nat.add_comm]

/-- The C core finds the same value, cut to 32 bits. -/
theorem takeU30Loop_wide (n : ℕ) : ∀ (u : List UInt8) (shift : ℕ) (value : UInt32),
    shift + 7 * n = 35 → 1 ≤ n → value.toNat < 2 ^ shift →
    takeU30Loop n u shift value =
      match wideU30Loop n u shift value.toNat with
      | some (v, k) => (some (UInt32.ofNat v), k)
      | none => (none, u.length) := by
  induction n with
  | zero =>
      intro u shift value _ hn
      omega
  | succ n ih =>
      intro u shift value hshift _ hvalue
      cases u with
      | nil => rfl
      | cons b bs =>
          have hacc := toNat_accumulate_mod (x := b.toUInt32 &&& 127) (by omega) hvalue
          rw [toNat_payload] at hacc
          have hlast : b &&& 128 = 0 ∨ 30 < shift + 7 ↔ b.toNat < 128 ∨ n = 0 := by
            rw [continuation_iff]
            omega
          simp only [takeU30Loop, wideU30Loop, hlast]
          split
          · refine Prod.ext (congrArg some (UInt32.toNat_inj.mp ?_)) rfl
            rw [hacc, UInt32.toNat_ofNat']
          · rename_i hmore
            -- more bytes follow, so that nothing has been cut off yet
            have hfit : value.toNat + b.toNat % 128 * 2 ^ shift < 2 ^ (shift + 7) := by
              have hle : b.toNat % 128 * 2 ^ shift ≤ 127 * 2 ^ shift :=
                Nat.mul_le_mul_right _ (by omega)
              rw [pow_add]
              omega
            have hsmall : 2 ^ (shift + 7) ≤ 2 ^ 32 := Nat.pow_le_pow_right (by omega) (by omega)
            rw [Nat.mod_eq_of_lt (hfit.trans_le hsmall)] at hacc
            rw [ih bs (shift + 7) _ (by omega) (by omega) (by rw [hacc]; exact hfit), hacc]
            cases wideU30Loop n bs (shift + 7) (value.toNat + b.toNat % 128 * 2 ^ shift) with
            | none => rfl
            | some r => rfl

theorem takeU30_wide (u : List UInt8) :
    takeU30 u = match wideU30 u with
      | some (v, k) => (some (UInt32.ofNat v), k)
      | none => (none, u.length) :=
  takeU30Loop_wide 5 u 0 0 rfl (by omega) (by decide)

theorem getU30_wide (s : BitStream) :
    s.getU30 = match wideU30 (s.data.drop s.pos) with
      | some (v, k) => (some (v : ℤ), s.skip k)
      | none => (none, s.skip ((s.data.drop s.pos).length + 1)) :=
  getU30Loop_wide 5 s 0 0 rfl

theorem getU30_iff (h : Mirrors ba s) :
    ReadsAgree ba s .getU30 ↔ ReadOp.getU30.Fits (s.data.drop s.pos) := by
  rw [readsAgree_iff h]
  simp only [ReadOp.core, StreamOp.readSpec, takeU30_wide, read, getU30_wide, ReadOp.Fits]
  cases hwide : wideU30 (s.data.drop s.pos) with
  | none => simp [StreamResult.ofOption, succeeded, skip]
  | some r =>
      obtain ⟨v, k⟩ := r
      have hmod : (UInt32.ofNat v).toNat = v % 2 ^ 32 := UInt32.toNat_ofNat'
      simp only [StreamResult.ofOption, succeeded, Bool.true_eq_false, false_and, false_or, true_and,
        hmod, skip, and_true, Option.some.injEq, StreamResult.integer.injEq, Prod.mk.injEq]
      constructor
      · intro heq
        exact ⟨v, k, ⟨rfl, rfl⟩, by omega⟩
      · rintro ⟨_, _, ⟨rfl, rfl⟩, hlt⟩
        omega

theorem wideU30Loop_le (n : ℕ) : ∀ {u : List UInt8} {shift value v k : ℕ},
    wideU30Loop n u shift value = some (v, k) → k ≤ u.length := by
  induction n with
  | zero =>
      intro u shift value v k h
      cases h
      exact Nat.zero_le _
  | succ n ih =>
      intro u shift value v k h
      cases u with
      | nil => cases h
      | cons b bs =>
          simp only [wideU30Loop] at h
          split at h
          · cases h
            simp
          · obtain ⟨r, hr, hk⟩ := Option.map_eq_some_iff.mp h
            cases hk
            have hle := ih hr
            simp only [List.length_cons]
            omega

/-- The available bytes, in terms of the unread ones. -/
theorem Mirrors.available_skip (h : Mirrors ba s) {k : ℕ} (hk : k ≤ (s.data.drop s.pos).length) :
    (s.skip k).available = ((s.data.drop s.pos).length - k : ℕ) := by
  obtain ⟨-, -, hpos⟩ := h.unread .getU8
  rw [List.length_drop] at hk ⊢
  rw [available, skip]
  simp only
  omega

theorem getString_iff (h : Mirrors ba s) :
    ReadsAgree ba s .getString ↔ ReadOp.getString.Fits (s.data.drop s.pos) := by
  rw [readsAgree_iff h]
  simp only [ReadOp.core, StreamOp.readSpec, takeString, takeU30_wide, read, getString, getU30_wide,
    ReadOp.Fits]
  cases hwide : wideU30 (s.data.drop s.pos) with
  | none => simp [StreamResult.ofGetString, succeeded]
  | some r =>
      obtain ⟨v, k⟩ := r
      have hk : k ≤ (s.data.drop s.pos).length := wideU30Loop_le 5 hwide
      have hmod : (UInt32.ofNat v).toNat = v % 2 ^ 32 := UInt32.toNat_ofNat'
      have hnext : ∀ n, (s.skip k).next n = ((s.data.drop s.pos).drop k).take n := fun n => by
        rw [next, skip, List.drop_drop]
      simp only [hmod, h.available_skip hk, hnext, Int.toNat_natCast, Nat.cast_lt]
      generalize s.data.drop s.pos = u at hk ⊢
      have hfits : (∀ value k', some (v, k) = some (value, k') →
          value < 2 ^ 32 ∨ u.length - k' < value % 2 ^ 32) ↔ v < 2 ^ 32 ∨ u.length - k < v % 2 ^ 32 :=
        ⟨fun hall => hall v k rfl, fun hvk _ _ heq => by cases heq; exact hvk⟩
      rw [hfits]
      have hle : v % 2 ^ 32 ≤ v := Nat.mod_le _ _
      by_cases hcore : u.length - k < v % 2 ^ 32
      · rw [if_pos hcore, if_pos (by omega)]
        exact iff_of_true (Or.inl ⟨rfl, rfl, Or.inr ⟨_, rfl, rfl⟩, rfl⟩) (Or.inr hcore)
      · rw [if_neg hcore]
        by_cases hlua : u.length - k < v
        · rw [if_pos hlua]
          have hcut : ¬v < 2 ^ 32 := fun hv => hcore (by rwa [Nat.mod_eq_of_lt hv])
          refine iff_of_false ?_ (not_or.mpr ⟨hcut, hcore⟩)
          simp [StreamResult.ofGetString, succeeded]
        · rw [if_neg hlua]
          have hlen : ((u.drop k).take v = (u.drop k).take (v % 2 ^ 32)) ↔ v < 2 ^ 32 := by
            constructor
            · intro heq
              have hlens := congrArg List.length heq
              rw [List.length_take, List.length_take, List.length_drop] at hlens
              omega
            · intro hv
              rw [Nat.mod_eq_of_lt hv]
          simp only [StreamResult.ofGetString, succeeded, Bool.true_eq_false, false_and, false_or,
            true_and, Option.some.injEq, StreamResult.string.injEq, hlen, hcore, or_false, skip]
          constructor
          · exact fun hboth => hboth.1
          · intro hv
            exact ⟨hv, by rw [Nat.mod_eq_of_lt hv, Nat.add_assoc]⟩

/-- The C core takes `k` bytes of the unread ones, `bit.lua` takes `n`. -/
theorem getBytes_iff_eq {len : Option Int64} {k n : ℕ} (h : Mirrors ba s)
    (hcore : (ReadOp.getBytes len).core.readSpec (s.data.drop s.pos) =
      (.ofBytes ((s.data.drop s.pos).take k), k))
    (hk : k ≤ (s.data.drop s.pos).length) (hn : n ≤ (s.data.drop s.pos).length)
    (hlua : s.read (.getBytes len) =
      if n = 0 then (some .nothing, s) else (some (.string (s.next n)), s.skip n)) :
    ReadsAgree ba s (.getBytes len) ↔ k = n := by
  rw [readsAgree_iff h, hcore, hlua, next]
  generalize s.data.drop s.pos = u at *
  have hempty : ∀ m ≤ u.length, (u.take m = [] ↔ m = 0) := by
    intro m hm
    rw [← List.length_eq_zero_iff, List.length_take]
    omega
  by_cases hk0 : k = 0
  · subst hk0
    by_cases hn0 : n = 0
    · simp [hn0, StreamResult.ofBytes, succeeded]
    · simp [hn0, StreamResult.ofBytes, succeeded, skip, Ne.symm hn0]
  · have hne : u.take k ≠ [] := fun hnil => hk0 ((hempty k hk).mp hnil)
    have hbytes : StreamResult.ofBytes (u.take k) = .string (u.take k) :=
      if_pos (List.length_pos_iff.mpr hne)
    rw [hbytes]
    by_cases hn0 : n = 0
    · simp [hn0, succeeded, hk0]
    · simp only [hn0, if_false, succeeded, Bool.true_eq_false, false_and, false_or, true_and,
        Option.some.injEq, StreamResult.string.injEq, skip]
      constructor
      · rintro ⟨-, hpos⟩
        omega
      · rintro rfl
        exact ⟨rfl, rfl⟩

theorem getBytes_iff (h : Mirrors ba s) (len : Option Int64) :
    ReadsAgree ba s (.getBytes len) ↔ (ReadOp.getBytes len).Fits (s.data.drop s.pos) := by
  have hav : s.available = ((s.data.drop s.pos).length : ℕ) := by
    simpa [skip] using h.available_skip (Nat.zero_le _)
  cases len with
  | none =>
      have hcore : (ReadOp.getBytes none).core.readSpec (s.data.drop s.pos) =
          (.ofBytes ((s.data.drop s.pos).take (takeLen (-1) (s.data.drop s.pos))),
            takeLen (-1) (s.data.drop s.pos)) := rfl
      rw [getBytes_iff_eq (n := (s.data.drop s.pos).length) h hcore (takeLen_le _ _) le_rfl ?_]
      · have hsize : toSize (-1) = 2 ^ 64 - 1 := rfl
        rw [ReadOp.Fits, takeLen, hsize]
        generalize (s.data.drop s.pos).length = n
        omega
      · simp only [read, getBytes, Option.map_none, hav, Int.toNat_natCast]
        split <;> split <;> first | rfl | omega
  | some len =>
      have hlt := len.toInt_lt
      have hle := len.le_toInt
      have hcore : (ReadOp.getBytes (some len)).core.readSpec (s.data.drop s.pos) =
          (.ofBytes ((s.data.drop s.pos).take (takeLen len.toInt (s.data.drop s.pos))),
            takeLen len.toInt (s.data.drop s.pos)) := by
        simp only [ReadOp.core, StreamOp.readSpec]
        split
        · rename_i hzero
          simp [takeLen, hzero, StreamResult.ofBytes]
        · rfl
      rw [getBytes_iff_eq (n := (min len.toInt (s.data.drop s.pos).length).toNat) h hcore
        (takeLen_le _ _) (by omega) ?_]
      · rw [ReadOp.Fits, takeLen, toSize]
        generalize (s.data.drop s.pos).length = n
        generalize len.toInt = m at *
        split <;> omega
      · simp only [read, getBytes, Option.map_some, hav]
        generalize (s.data.drop s.pos).length = n
        have hmin : (if (n : ℤ) < len.toInt then (n : ℤ) else len.toInt) = min len.toInt n := by
          split <;> omega
        rw [hmin]
        split <;> split <;> first | rfl | omega

/-- **The two agree on a read exactly when the unread bytes fit it.** -/
theorem read_iff (h : Mirrors ba s) (op : ReadOp) :
    ReadsAgree ba s op ↔ op.Fits (s.data.drop s.pos) := by
  cases op with
  | getU8 => exact getU8_iff h
  | getU16 => exact getU16_iff h
  | getU24 => exact getU24_iff h
  | getS24 => exact getS24_iff h
  | getU32 => exact getU32_iff h
  | getU30 => exact getU30_iff h
  | getD64 => exact getD64_iff h
  | getString => exact getString_iff h
  | getBytes len => exact getBytes_iff h len

end BitStream

/-! ## Writing -/

namespace Bit

theorem toNat_word_int (u : ℤ) : (word u).toNat = (u % 2 ^ 32).toNat := by
  rw [word, BitVec.toNat_ofInt]
  norm_num

/-- A logical shift makes a number below the sign bit. -/
theorem rshift_eq (u : ℤ) {n : ℕ} (hn : 1 ≤ n) (hn' : n < 32) :
    rshift u n = ((u % 2 ^ 32).toNat / 2 ^ n : ℕ) := by
  have hnat : (word u >>> n).toNat = (u % 2 ^ 32).toNat / 2 ^ n := by
    rw [BitVec.toNat_ushiftRight, toNat_word_int, Nat.shiftRight_eq_div_pow]
  have hpow : 2 ^ 1 ≤ 2 ^ n := Nat.pow_le_pow_right (by omega) hn
  have hlt : (u % 2 ^ 32).toNat / 2 ^ n < 2 ^ 31 := by
    calc (u % 2 ^ 32).toNat / 2 ^ n ≤ (u % 2 ^ 32).toNat / 2 ^ 1 := Nat.div_le_div_left hpow (by omega)
      _ < 2 ^ 31 := by omega
  rw [rshift, Nat.mod_eq_of_lt hn', toInt_of_lt (by rw [hnat]; exact hlt), hnat]

/-- A mask of low bits. -/
theorem band_mask (u : ℤ) {m : ℤ} {k : ℕ} (hm : m = (2 ^ k - 1 : ℕ)) (hk : k < 32) :
    band u m = ((u % 2 ^ 32).toNat % 2 ^ k : ℕ) := by
  subst hm
  have hpow : 2 ^ k ≤ 2 ^ 31 := Nat.pow_le_pow_right (by omega) (by omega)
  have hnat : (word u &&& word (2 ^ k - 1 : ℕ)).toNat = (u % 2 ^ 32).toNat % 2 ^ k := by
    rw [BitVec.toNat_and, toNat_word_int, toNat_word (by omega), Nat.and_two_pow_sub_one_eq_mod]
  have hlt : (u % 2 ^ 32).toNat % 2 ^ k < 2 ^ 31 :=
    (Nat.mod_lt _ (by positivity)).trans_le hpow
  rw [band, toInt_of_lt (by rw [hnat]; exact hlt), hnat]

theorem char_natCast (n : ℕ) : char n = UInt8.ofNat n := by
  apply UInt8.toNat_inj.mp
  rw [char, UInt8.toNat_ofNat', UInt8.toNat_ofNat']
  omega

theorem char_band (u : ℤ) : char (band u 0xff) = UInt8.ofNat (u % 2 ^ 32).toNat := by
  have hmask : band u 0xff = ((u % 2 ^ 32).toNat % 2 ^ 8 : ℕ) :=
    band_mask u (by norm_num) (by omega)
  apply UInt8.toNat_inj.mp
  rw [hmask, char_natCast, UInt8.toNat_ofNat', UInt8.toNat_ofNat']
  omega

end Bit

namespace BitStream

theorem u16Chars_eq (u : UInt16) : u16Chars u.toNat = leBytes 2 u.toNat := by
  have hlt := u.toNat_lt
  have hself : ((u.toNat : ℤ) % 2 ^ 32).toNat = u.toNat := by omega
  have hshift : ((u.toNat / 2 ^ 8 : ℕ) : ℤ) % 2 ^ 32 = (u.toNat / 2 ^ 8 : ℕ) := by omega
  rw [u16Chars, char_band, char_band, rshift_eq _ (by omega) (by omega), hself, hshift,
    Int.toNat_natCast]
  rfl

/-- The three low bytes of an integer, whatever its sign. -/
theorem u24Chars_eq (u : ℤ) : u24Chars u = u24Bytes (UInt32.ofNat (u % 2 ^ 32).toNat) := by
  have hw : (UInt32.ofNat (u % 2 ^ 32).toNat).toNat = (u % 2 ^ 32).toNat := by
    rw [UInt32.toNat_ofNat']
    omega
  have hbyte : ∀ (x : UInt32) (n : ℕ), x.toNat = n → (x &&& 0xff).toUInt8 = UInt8.ofNat n := by
    rintro x n rfl
    apply UInt8.toNat_inj.mp
    rw [UInt32.toNat_toUInt8, UInt32.toNat_and, show (0xff : UInt32).toNat = 2 ^ 8 - 1 from rfl,
      Nat.and_two_pow_sub_one_eq_mod, UInt8.toNat_ofNat']
    omega
  have hshift : ∀ n : ℕ, 1 ≤ n → n < 32 →
      char (band (rshift u n) 0xff) = UInt8.ofNat ((u % 2 ^ 32).toNat / 2 ^ n) := by
    intro n hn hn'
    have hle : (u % 2 ^ 32).toNat / 2 ^ n ≤ (u % 2 ^ 32).toNat := Nat.div_le_self _ _
    rw [char_band, rshift_eq u hn hn']
    generalize (u % 2 ^ 32).toNat / 2 ^ n = x at hle ⊢
    congr 1
    omega
  rw [u24Chars, u16Chars, char_band, hshift 8 (by omega) (by omega), hshift 16 (by omega) (by omega),
    u24Bytes, hbyte _ _ hw, hbyte _ ((u % 2 ^ 32).toNat / 2 ^ 8) ?_,
    hbyte _ ((u % 2 ^ 32).toNat / 2 ^ 16) ?_]
  · rfl
  · rw [UInt32.toNat_shiftRight, hw, Nat.shiftRight_eq_div_pow]
    rfl
  · rw [UInt32.toNat_shiftRight, hw, Nat.shiftRight_eq_div_pow]
    rfl

/-- The byte of a round of `AddU30`: the continuation bit goes by the number as it is,
the low bits by its word. -/
theorem toNat_u30Char (u : ℤ) :
    (char (bor (if 2 ^ 7 ≤ u then 0x80 else 0) (band u 0x7f))).toNat =
      (u % 2 ^ 32).toNat % 128 + if 128 ≤ u then 128 else 0 := by
  have hlow : band u 0x7f = ((u % 2 ^ 32).toNat % 2 ^ 7 : ℕ) :=
    band_mask u (by norm_num) (by omega)
  have hmod : (u % 2 ^ 32).toNat % 2 ^ 7 < 2 ^ 7 := Nat.mod_lt _ (by omega)
  rw [hlow]
  by_cases hbig : 128 ≤ u
  · have hor : bor 0x80 ((u % 2 ^ 32).toNat % 2 ^ 7 : ℕ) = (2 ^ 7 * 1 ||| (u % 2 ^ 32).toNat % 2 ^ 7 : ℕ) :=
      bor_natCast (by norm_num) (by omega)
    rw [if_pos (by omega), if_pos hbig, hor, ← Nat.two_pow_add_eq_or_of_lt hmod, char_natCast,
      UInt8.toNat_ofNat']
    omega
  · have hor : bor 0 ((u % 2 ^ 32).toNat % 2 ^ 7 : ℕ) = (0 ||| (u % 2 ^ 32).toNat % 2 ^ 7 : ℕ) :=
      bor_natCast (by norm_num) (by omega)
    rw [if_neg (by omega), if_neg hbig, hor, Nat.zero_or, char_natCast, UInt8.toNat_ofNat']
    omega

/-- A round of both loops: the bytes are equal when the two continuation bits are. -/
theorem u30Char_eq_iff {u : ℤ} {w : UInt32} (hw : w.toNat = (u % 2 ^ 32).toNat) :
    char (bor (if 2 ^ 7 ≤ u then 0x80 else 0) (band u 0x7f)) = u30Byte w ↔
      (128 ≤ u ↔ 128 ≤ w.toNat) := by
  rw [← UInt8.toNat_inj, toNat_u30Char, toNat_u30Byte, hw]
  split <;> split <;> omega

theorem rshift_seven {u : ℤ} {w : UInt32} (hw : w.toNat = (u % 2 ^ 32).toNat) :
    rshift u 7 = ((w >>> 7).toNat : ℤ) := by
  rw [rshift_eq u (by omega) (by omega), toNat_shiftRight_seven, hw]
  rfl

/-- After the first round both loops go on with the same word. -/
theorem u30CharsLoop_eq (n : ℕ) : ∀ w : UInt32, u30CharsLoop n w.toNat = u30BytesLoop n w := by
  induction n with
  | zero =>
      intro w
      rfl
  | succ n ih =>
      intro w
      have hlt := w.toNat_lt
      have hw : w.toNat = ((w.toNat : ℤ) % 2 ^ 32).toNat := by omega
      have hzero : (((w >>> 7).toNat : ℕ) : ℤ) = 0 ↔ w >>> 7 = 0 := by
        rw [Nat.cast_eq_zero, ← UInt32.toNat_inj]
        rfl
      rw [u30CharsLoop, u30BytesLoop, (u30Char_eq_iff hw).mpr (by omega), rshift_seven hw, ih]
      simp only [hzero, ite_not]

/-- `AddU30` on any integer, against the C core on its word. -/
theorem u30Chars_iff {u : ℤ} {w : UInt32} (hw : w.toNat = (u % 2 ^ 32).toNat) :
    u30Chars u = u30Bytes w ↔ (128 ≤ u ↔ 128 ≤ w.toNat) := by
  have hzero : (((w >>> 7).toNat : ℕ) : ℤ) = 0 ↔ w >>> 7 = 0 := by
    rw [Nat.cast_eq_zero, ← UInt32.toNat_inj]
    rfl
  rw [u30Chars, u30Bytes, u30CharsLoop, u30BytesLoop, rshift_seven hw, u30CharsLoop_eq]
  simp only [hzero, ite_not, List.cons.injEq, and_true, u30Char_eq_iff hw]

theorem u30Chars_uint32 (u : UInt32) : u30Chars u.toNat = u30Bytes u := u30CharsLoop_eq 5 u

/-- **The bytes of an `Add*` are the same exactly when its argument fits.** -/
theorem chars_iff (op : AddOp) : op.chars = op.core.addedBytes ↔ op.Fits := by
  cases op with
  | addU8 u =>
      refine iff_of_true ?_ trivial
      simp only [AddOp.chars, AddOp.core, StreamOp.addedBytes, char_natCast, UInt8.ofNat_toNat]
  | addU16 u => exact iff_of_true (u16Chars_eq u) trivial
  | addU24 u =>
      have hlt := u.isLt
      have hself : ((u.val : ℤ) % 2 ^ 32).toNat = u.val := by omega
      refine iff_of_true ?_ trivial
      simp only [AddOp.chars, AddOp.core, StreamOp.addedBytes, u24Chars_eq, hself]
  | addS24 u => exact iff_of_true (u24Chars_eq u.val) trivial
  | addU30 u => exact iff_of_true (u30Chars_uint32 u) trivial
  | addABCU32 u => exact iff_of_true (u30Chars_uint32 u) trivial
  | addABCS32 u =>
      have hlt := u.toInt_lt
      have hle := u.le_toInt
      have hw : u.toUInt32.toNat = (u.toInt % 2 ^ 32).toNat := by
        have hint : u.toInt = u.toBitVec.toInt := rfl
        have hnat : u.toUInt32.toNat = u.toBitVec.toNat := rfl
        have hbits := u.toBitVec.isLt
        rw [hint, hnat, BitVec.toInt_eq_toNat_cond]
        split <;> omega
      simp only [AddOp.chars, AddOp.core, StreamOp.addedBytes, AddOp.Fits]
      rw [u30Chars_iff hw, hw]
      omega
  | addD64 bits => exact iff_of_true rfl trivial
  | addString data =>
      have hw : (UInt32.ofNat data.length).toNat = ((data.length : ℤ) % 2 ^ 32).toNat := by
        rw [UInt32.toNat_ofNat']
        omega
      simp only [AddOp.chars, AddOp.core, StreamOp.addedBytes, AddOp.Fits, List.append_left_inj]
      rw [u30Chars_iff hw, hw]
      omega
  | addBytes data => exact iff_of_true rfl trivial

/-- The same for the streams: what they hold is the same after an `Add*`. -/
theorem add_iff {ba : Bytearray} {t : Tape UInt8} {s : BitStream} (h : Represents ba t)
    (hw : ba.reading = false) (hdata : s.data = storedBytes ba) (op : AddOp) :
    (s.add op).data = storedBytes (streamStep ba op.core).1 ↔ op.Fits := by
  have hadd : op.core.isAdd = true := by cases op <;> rfl
  obtain ⟨-, hrep⟩ := streamStep_add op.core h hw hadd
  have hunread : (t.append op.core.addedBytes).unread = t.unread ++ op.core.addedBytes :=
    List.drop_append_of_le_length t.pos_le_length
  rw [← chars_iff, add, storedBytes_eq hrep, hunread, hdata, storedBytes_eq h]
  exact List.append_right_inj _

end BitStream

open BitStream

/-- A new stream over some bytes is the same stream in both. -/
theorem mirrors_new {data : List UInt8} (h : 0 < data.length) : Mirrors (ffiStreamNew data) ⟨data, 0⟩ where
  represents := by
    refine ⟨newTape data, new_represents data, ?_, ?_⟩
    · rw [newTape, if_pos h]
      rfl
    · rw [newTape, if_pos h]
      rfl
  reading := by
    rw [(new_represents data).reading_eq, newTape, if_pos h]
    rfl

/-- Every byte string can be read from every position. -/
theorem exists_mirrors (data : List UInt8) {pos : ℕ} (hpos : pos ≤ data.length) :
    ∃ ba, Mirrors ba ⟨data, pos⟩ := by
  by_cases hlen : 0 < data.length
  · have hr := (mirrors_new hlen).reading
    have hrep := new_represents data
    rw [newTape, if_pos hlen] at hrep
    have hunread : (loaded data).unread = data := rfl
    refine ⟨_, ⟨_, hrep.advance (n := pos) hr (by rwa [hunread]), rfl, ?_⟩, hr⟩
    rw [Tape.pos_advance _ rfl (by rwa [hunread])]
    exact (Nat.zero_add pos).symm
  · have hnil : data = [] := List.length_eq_zero_iff.mp (by omega)
    subst hnil
    obtain rfl : pos = 0 := Nat.le_zero.mp hpos
    exact ⟨_, ⟨_, readReady_represents (alloc_represents 0) rfl, rfl, rfl⟩, rfl⟩

/-- **The two back ends agree** on every read, from every position of every byte string,
exactly when the unread bytes fit it; and on every `Add*` in range exactly when its
argument does. -/
theorem stream_backends_agree (ba : Bytearray) (s : BitStream) (read : ReadOp) (add : AddOp) :
    (s.pos ≤ s.data.length → ∃ ba, Mirrors ba s) ∧
    (Mirrors ba s → (ReadsAgree ba s read ↔ read.Fits (s.data.drop s.pos))) ∧
    (∀ t : Tape UInt8, Represents ba t → ba.reading = false → s.data = storedBytes ba →
      ((s.add add).data = storedBytes (streamStep ba add.core).1 ↔ add.Fits)) :=
  ⟨fun hpos => exists_mirrors s.data hpos, fun h => read_iff h read,
    fun _ h hw hdata => add_iff h hw hdata add⟩

/-- Two bytes are read as the same `U16`, and appended as the same bytes. -/
theorem stream_backends_agree_u16 :
    ReadsAgree (ffiStreamNew [1, 2]) ⟨[1, 2], 0⟩ .getU16 ∧
      ((⟨[], 0⟩ : BitStream).add (.addU16 0x0201)).data =
        storedBytes (streamStep (ffiStreamNew []) (.addU16 0x0201)).1 := by
  obtain ⟨-, hread, -⟩ := stream_backends_agree (ffiStreamNew [1, 2]) ⟨[1, 2], 0⟩ .getU16 (.addU16 0)
  obtain ⟨-, -, hadd⟩ := stream_backends_agree (ffiStreamNew []) ⟨[], 0⟩ .getU16 (.addU16 0x0201)
  refine ⟨(hread (mirrors_new (by decide))).mpr (Nat.le_refl 2), ?_⟩
  exact (hadd _ (new_represents []) rfl rfl).mpr trivial

/-- At the end of its data the C core stays where it is, and `bit.lua` moves on. -/
theorem getU8_past_end :
    ∃ ba, Mirrors ba ⟨[1], 1⟩ ∧ ¬ReadsAgree ba ⟨[1], 1⟩ .getU8 := by
  obtain ⟨ba, h⟩ := exists_mirrors [1] (show 1 ≤ ([1] : List UInt8).length by decide)
  refine ⟨ba, h, ?_⟩
  rw [readsAgree_iff h]
  simp [ReadOp.core, StreamOp.readSpec, takeFixed, succeeded, BitStream.read, getU8, next, skip]

end LuaFan
