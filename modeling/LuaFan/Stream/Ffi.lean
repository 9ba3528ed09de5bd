/-
# The typed stream operations (`src/stream_ffi.c`, `src/stream.c`)

The `Get*` and `Add*` operations of `fan.stream` over a `Bytearray`, as the C
core implements them: fixed-width little-endian integers, the variable-length
`U30`, doubles as bit patterns, and length-prefixed strings.

`StreamOp` lists the methods of a stream object and `streamStep` runs one of
them, with the value it pushes back to Lua (`StreamResult`).  The arguments of
the `Add*` methods are the C values after the conversion of the Lua argument.
-/
import LuaFan.Stream.Bytearray

namespace LuaFan

/-! ## Little-endian integers -/

/-- The `n` low bytes of `v`, least significant first. -/
def leBytes : ℕ → ℕ → List UInt8
  | 0, _ => []
  | n + 1, v => UInt8.ofNat v :: leBytes n (v / 256)

/-- The number denoted by little-endian bytes. -/
def ofLe : List UInt8 → ℕ
  | [] => 0
  | b :: bs => b.toNat + 256 * ofLe bs

@[simp] theorem length_leBytes (n v : ℕ) : (leBytes n v).length = n := by
  induction n generalizing v with
  | zero => rfl
  | succ n ih => simp [leBytes, ih]

/-- Reading back what was written, up to the width. -/
theorem ofLe_leBytes (n v : ℕ) : ofLe (leBytes n v) = v % 256 ^ n := by
  induction n generalizing v with
  | zero => simp [leBytes, ofLe, Nat.mod_one]
  | succ n ih =>
      have hlow : (UInt8.ofNat v).toNat = v % 256 := UInt8.toNat_ofNat'
      rw [leBytes, ofLe, ih, hlow, pow_succ 256 n, Nat.mul_comm (256 ^ n) 256, Nat.mod_mul]

/-! ## The variable-length integer `U30` -/

/-- The byte `ffi_stream_add_u30` writes for the low seven bits of `u`. -/
def u30Byte (u : UInt32) : UInt8 :=
  ((if u &&& ~~~0x7f ≠ 0 then 0x80 else 0) ||| (u &&& 0x7f)).toUInt8

/-- The `do … while` loop of `ffi_stream_add_u30`, which a `uint32_t` leaves
after at most five rounds. -/
def addU30Loop : ℕ → Bytearray → UInt32 → Bytearray
  | 0, ba, _ => ba
  | n + 1, ba, u =>
      let ba := (bytearrayWrite8 ba (u30Byte u)).2
      let u := u >>> 7
      if u ≠ 0 then addU30Loop n ba u else ba

/-- `ffi_stream_add_u30`. -/
def ffiStreamAddU30 (ba : Bytearray) (u : UInt32) : Bytearray := addU30Loop 5 ba u

/-- The loop of `ffi_stream_get_u30`: seven bits a byte, until a byte without
the continuation bit or five bytes.  A failed read leaves the bytes read so far
behind. -/
def getU30Loop : ℕ → Bytearray → ℕ → UInt32 → Option UInt32 × Bytearray
  | 0, ba, _, value => (some value, ba)
  | n + 1, ba, shift, value =>
      match bytearrayRead8 ba with
      | (none, ba) => (none, ba)
      | (some b, ba) =>
          let value := value ||| ((b.toUInt32 &&& 127) <<< UInt32.ofNat shift)
          let shift := shift + 7
          if b &&& 128 = 0 ∨ 30 < shift then (some value, ba)
          else getU30Loop n ba shift value

/-- `ffi_stream_get_u30`. -/
def ffiStreamGetU30 (ba : Bytearray) : Option UInt32 × Bytearray := getU30Loop 5 ba 0 0

/-! ## Reading -/

/-- The value of three bytes, `value[2] << 16 | value[1] << 8 | value[0]`. -/
def u24Value (v : List UInt8) : ℕ :=
  ((v.getD 2 0).toNat <<< 16) ||| ((v.getD 1 0).toNat <<< 8) ||| (v.getD 0 0).toNat

/-- `ffi_stream_get_u24`. -/
def ffiStreamGetU24 (ba : Bytearray) : Option ℕ × Bytearray :=
  match bytearrayReadbuffer ba 3 with
  | (none, ba) => (none, ba)
  | (some v, ba) => (some (u24Value v), ba)

/-- `ffi_stream_get_s24`. -/
def ffiStreamGetS24 (ba : Bytearray) : Option ℤ × Bytearray :=
  match bytearrayReadbuffer ba 3 with
  | (none, ba) => (none, ba)
  | (some v, ba) =>
      if v.getD 2 0 &&& 0x80 ≠ 0 then (some (-1 - ((u24Value v ^^^ 0xffffff : ℕ) : ℤ)), ba)
      else (some (u24Value v), ba)

/-- What `ffi_stream_get_string` hands back: the bytes, or the number of bytes
that must be available before trying again. -/
inductive GetString where
  | ok (bytes : List UInt8)
  | need (expect : ℕ)
  deriving DecidableEq, Repr

/-- `ffi_stream_get_string`: a `U30` length and that many bytes; on failure the
read position goes back to where it was. -/
def ffiStreamGetString (ba : Bytearray) : GetString × Bytearray :=
  let offset := ba.offset
  match ffiStreamGetU30 ba with
  | (none, ba) =>
      let ba := { ba with offset := offset }
      (.need (bytearrayReadAvailable ba + 1), ba)
  | (some len, ba) =>
      let available := bytearrayReadAvailable ba
      if available < len.toNat then
        let diff := ba.offset - offset
        (.need (len.toNat + diff), { ba with offset := offset })
      else
        (.ok (bytesAt ba.buffer ba.offset len.toNat), (bytearrayReadbuffer ba len).2)

/-- The length `ffi_stream_get_bytes` and `ffi_stream_test_bytes` work with: at
most what is available, then cut to a `uint32_t`. -/
def bytesLen (ba : Bytearray) (buflen : ℕ) : UInt32 :=
  let available := bytearrayReadAvailable ba
  UInt32.ofNat (if 0 < buflen then (if available < buflen then available else buflen)
    else available)

/-- `ffi_stream_get_bytes`. -/
def ffiStreamGetBytes (ba : Bytearray) (buflen : ℕ) : List UInt8 × Bytearray :=
  let len := bytesLen ba buflen
  (bytesAt ba.buffer ba.offset len.toNat, (bytearrayReadbuffer ba len).2)

/-- `ffi_stream_test_bytes`. -/
def ffiStreamTestBytes (ba : Bytearray) (buflen : ℕ) : List UInt8 :=
  bytesAt ba.buffer ba.offset (bytesLen ba buflen).toNat

/-! ## Writing -/

/-- `ffi_stream_add_u24`: the three low bytes. -/
def u24Bytes (u : UInt32) : List UInt8 :=
  [(u &&& 0xff).toUInt8, ((u >>> 8) &&& 0xff).toUInt8, ((u >>> 16) &&& 0xff).toUInt8]

/-- `ffi_stream_add_string`: the length is passed on as a `uint32_t`. -/
def ffiStreamAddString (ba : Bytearray) (data : List UInt8) : Bytearray :=
  (bytearrayWritebuffer (ffiStreamAddU30 ba (UInt32.ofNat data.length)) data).2

/-- `ffi_stream_new`: a stream over a copy of `data`, ready to be read, or an
empty one ready to be written. -/
def ffiStreamNew (data : List UInt8) : Bytearray :=
  if 0 < data.length then
    (bytearrayReadReady
      (bytearrayWritebuffer (bytearrayAlloc (UInt32.ofNat data.length)) data).2).2
  else bytearrayAlloc 0

/-- `ffi_stream_package`: switch to reading and return the whole buffer. -/
def ffiStreamPackage (ba : Bytearray) : List UInt8 × Bytearray :=
  let ba := (bytearrayReadReady ba).2
  (bytesAt ba.buffer 0 ba.total, ba)

/-! ## The methods of a stream object -/

/-- The methods of a stream.  `addU24` is also `AddS24`, and `addU30`, `getU30`
are also their `ABC` aliases. -/
inductive StreamOp where
  | addU8 (value : UInt8)
  | addU16 (value : UInt16)
  | addU24 (value : UInt32)
  | addU30 (value : UInt32)
  | addD64 (bits : UInt64)
  | addString (data : List UInt8)
  | addBytes (data : List UInt8)
  | getU8
  | getU16
  | getU24
  | getS24
  | getU32
  | getU30
  | getD64
  | getString
  | getBytes (len : ℤ)
  | testBytes (len : ℤ)
  | available
  | mark
  | reset
  | prepareGet
  | prepareAdd
  | package
  | empty
  deriving DecidableEq, Repr

/-- What a stream method pushes back to Lua. -/
inductive StreamResult where
  | nothing
  | integer (value : ℤ)
  | double (bits : UInt64)
  | string (bytes : List UInt8)
  | expect (size : ℕ)
  | bool (value : Bool)
  deriving DecidableEq, Repr

/-- Push an optional value, or nothing. -/
def StreamResult.ofOption {α : Type} (f : α → StreamResult) : Option α → StreamResult
  | none => .nothing
  | some a => f a

/-- Push a non-empty string, or nothing (the `buflen > 0` test of `GetBytes` and
`TestBytes`). -/
def StreamResult.ofBytes (bs : List UInt8) : StreamResult :=
  if 0 < bs.length then .string bs else .nothing

/-- Push `true`, or nothing. -/
def StreamResult.ofFlag (b : Bool) : StreamResult := if b then .bool true else .nothing

/-- Push the result of `GetString`. -/
def StreamResult.ofGetString : GetString → StreamResult
  | .ok bs => .string bs
  | .need n => .expect n

/-- A `lua_Integer` argument converted to `size_t`. -/
def toSize (len : ℤ) : ℕ := (len % 2 ^ 64).toNat

/-- One method call on a stream, with the value it returns. -/
def streamStep (ba : Bytearray) : StreamOp → Bytearray × StreamResult
  | .addU8 v => ((bytearrayWrite8 ba v).2, .nothing)
  | .addU16 v => ((writeValueOptimized ba (leBytes 2 v.toNat)).2, .nothing)
  | .addU24 v => ((bytearrayWritebuffer ba (u24Bytes v)).2, .nothing)
  | .addU30 v => (ffiStreamAddU30 ba v, .nothing)
  | .addD64 v => ((writeValueOptimized ba (leBytes 8 v.toNat)).2, .nothing)
  | .addString v => (ffiStreamAddString ba v, .nothing)
  | .addBytes v => ((bytearrayWritebuffer ba v).2, .nothing)
  | .getU8 =>
      let (r, ba) := bytearrayRead8 ba
      (ba, .ofOption (fun v => .integer v.toNat) r)
  | .getU16 =>
      let (r, ba) := readValueOptimized ba 2
      (ba, .ofOption (fun v => .integer (ofLe v)) r)
  | .getU24 =>
      let (r, ba) := ffiStreamGetU24 ba
      (ba, .ofOption (fun v => .integer v) r)
  | .getS24 =>
      let (r, ba) := ffiStreamGetS24 ba
      (ba, .ofOption .integer r)
  | .getU32 =>
      let (r, ba) := readValueOptimized ba 4
      (ba, .ofOption (fun v => .integer (ofLe v)) r)
  | .getU30 =>
      let (r, ba) := ffiStreamGetU30 ba
      (ba, .ofOption (fun v => .integer v.toNat) r)
  | .getD64 =>
      let (r, ba) := readValueOptimized ba 8
      (ba, .ofOption (fun v => .double (UInt64.ofNat (ofLe v))) r)
  | .getString =>
      let (r, ba) := ffiStreamGetString ba
      (ba, .ofGetString r)
  | .getBytes len =>
      if toSize len = 0 then (ba, .nothing)
      else
        let (r, ba) := ffiStreamGetBytes ba (toSize len)
        (ba, .ofBytes r)
  | .testBytes len =>
      if toSize len = 0 then (ba, .nothing)
      else (ba, .ofBytes (ffiStreamTestBytes ba (toSize len)))
  | .available => (ba, .integer (bytearrayReadAvailable ba))
  | .mark =>
      let (r, ba) := bytearrayMark ba
      (ba, .ofFlag r)
  | .reset =>
      let (r, ba) := bytearrayReset ba
      (ba, .ofFlag r)
  | .prepareGet =>
      let (r, ba) := bytearrayReadReady ba
      (ba, .bool r)
  | .prepareAdd =>
      let (r, ba) := bytearrayWriteReady ba
      (ba, .bool r)
  | .package =>
      let (r, ba) := ffiStreamPackage ba
      (ba, .string r)
  | .empty =>
      let (r, ba) := bytearrayEmpty ba
      (ba, .bool r)

end LuaFan
