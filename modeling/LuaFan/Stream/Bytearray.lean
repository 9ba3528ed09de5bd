/-
# The growable byte buffer (`src/bytearray.c`)

`Bytearray` is the `BYTEARRAY` record: a raw buffer of `buflen` bytes, an
`offset` that is the write position while writing and the read position while
reading, a `total` that is the capacity while writing and the amount of data
while reading, a saved read position `mark`, and two flags.

Every function of the C file is here under its own name.  Sizes are natural
numbers; the one operation of `size_t` that can leave the naturals is the
subtraction `total - offset`, which wraps (`sizeSub`).  Allocation is assumed to
succeed; fresh memory is filled with zeros, which nothing below relies on.
-/
import LuaFan.Lib.Tape

namespace LuaFan

/-! ## The record -/

/-- The `BYTEARRAY` record of `bytearray.h`. -/
structure Bytearray where
  offset : ℕ
  total : ℕ
  mark : ℕ
  buffer : List UInt8
  buflen : ℕ
  reading : Bool
  wrapbuffer : Bool
  deriving DecidableEq, Repr, Inhabited

/-- `MIN_CAPACITY` of `bytearray.c`. -/
def minCapacity : ℕ := 128

/-- `MAX_PREALLOC` of `bytearray.c`. -/
def maxPrealloc : ℕ := 4096

/-- `CACHE_LINE_SIZE` of `bytearray.c`. -/
def cacheLineSize : ℕ := 64

/-- Subtraction of two `size_t` values, which wraps modulo `2 ^ 64`. -/
def sizeSub (a b : ℕ) : ℕ := if b ≤ a then a - b else a + 2 ^ 64 - b

theorem sizeSub_of_le {a b : ℕ} (h : b ≤ a) : sizeSub a b = a - b := if_pos h

/-! ## Raw memory -/

/-- Fresh memory of `n` bytes. -/
def malloc (n : ℕ) : List UInt8 := List.replicate n 0

/-- `realloc`: the old contents, cut or extended to `n` bytes. -/
def realloc (buf : List UInt8) (n : ℕ) : List UInt8 :=
  buf.take n ++ List.replicate (n - buf.length) 0

/-- `memcpy` of `data` to position `off` of `buf`. -/
def memcpyTo (buf : List UInt8) (off : ℕ) (data : List UInt8) : List UInt8 :=
  buf.take off ++ data ++ buf.drop (off + data.length)

/-- The `n` bytes of `buf` from position `off` on. -/
def bytesAt (buf : List UInt8) (off n : ℕ) : List UInt8 := (buf.drop off).take n

@[simp] theorem length_malloc (n : ℕ) : (malloc n).length = n := by simp [malloc]

@[simp] theorem length_realloc (buf : List UInt8) (n : ℕ) : (realloc buf n).length = n := by
  simp only [realloc, List.length_append, List.length_take, List.length_replicate]
  omega

/-- Growing memory keeps what was there. -/
theorem take_realloc {buf : List UInt8} {n k : ℕ} (hk : k ≤ buf.length) (hn : k ≤ n) :
    (realloc buf n).take k = buf.take k := by
  rw [realloc, List.take_append_of_le_length (by simp; omega), List.take_take]
  congr 1
  omega

theorem length_memcpyTo {buf : List UInt8} {off : ℕ} {data : List UInt8}
    (h : off + data.length ≤ buf.length) : (memcpyTo buf off data).length = buf.length := by
  simp only [memcpyTo, List.length_append, List.length_take, List.length_drop]
  omega

/-- After a copy to `off`, the bytes up to the end of the copy are the bytes
before `off` followed by the copied ones. -/
theorem take_memcpyTo {buf : List UInt8} {off : ℕ} (data : List UInt8)
    (h : off ≤ buf.length) :
    (memcpyTo buf off data).take (off + data.length) = buf.take off ++ data := by
  have hlen : (buf.take off ++ data).length = off + data.length := by
    simp only [List.length_append, List.length_take]
    omega
  rw [memcpyTo, ← hlen, List.take_left]

/-! ## Growth -/

/-- One smearing step `n |= n >> k` of `next_power_of_2`. -/
def smear (k n : ℕ) : ℕ := n ||| (n >>> k)

/-- `next_power_of_2`: the highest bit is smeared over the lower ones. -/
def nextPowerOf2 (n : ℕ) : ℕ :=
  if n ≤ minCapacity then minCapacity
  else smear 32 (smear 16 (smear 8 (smear 4 (smear 2 (smear 1 (n - 1)))))) + 1

/-- The size `ensure_capacity_optimized` asks for when `needed` bytes are
needed: a power of two for small sizes, else a quarter more, rounded up to a
cache line (the mask `& ~63`). -/
def growSize (needed : ℕ) : ℕ :=
  if needed ≤ maxPrealloc then nextPowerOf2 needed
  else
    let newSize := needed + (needed >>> 2)
    (newSize + cacheLineSize - 1) / cacheLineSize * cacheLineSize

theorem le_smear (k n : ℕ) : n ≤ smear k n := Nat.left_le_or

theorem le_nextPowerOf2 (n : ℕ) : n ≤ nextPowerOf2 n := by
  unfold nextPowerOf2
  split
  · assumption
  · have h : n - 1 ≤ smear 4 (smear 2 (smear 1 (n - 1))) :=
      ((le_smear 1 _).trans (le_smear 2 _)).trans (le_smear 4 _)
    have h' := ((h.trans (le_smear 8 _)).trans (le_smear 16 _)).trans (le_smear 32 _)
    omega

/-- **Growth is sufficient**: the new capacity holds what was needed. -/
theorem le_growSize (needed : ℕ) : needed ≤ growSize needed := by
  unfold growSize
  split
  · exact le_nextPowerOf2 needed
  · have h : 0 ≤ needed >>> 2 := Nat.zero_le _
    simp only [cacheLineSize]
    omega

/-- `ensure_capacity_optimized`: make room for `requiredSize` bytes at the write
position; a wrapped buffer cannot grow. -/
def ensureCapacityOptimized (ba : Bytearray) (requiredSize : ℕ) : Bool × Bytearray :=
  let available := sizeSub ba.total ba.offset
  if requiredSize ≤ available then (true, ba)
  else if ba.wrapbuffer then (false, ba)
  else
    let newSize := growSize (ba.offset + requiredSize)
    (true, { ba with buffer := realloc ba.buffer newSize, buflen := newSize, total := newSize })

/-! ## Writing and reading -/

/-- `write_value_optimized`, also `bytearray_writebuffer` and the fixed-size
writes: copy `value` to the write position, growing the buffer if need be. -/
def writeValueOptimized (ba : Bytearray) (value : List UInt8) : Bool × Bytearray :=
  if value.length ≤ sizeSub ba.total ba.offset then
    (true, { ba with
      buffer := memcpyTo ba.buffer ba.offset value, offset := ba.offset + value.length })
  else
    match ensureCapacityOptimized ba value.length with
    | (false, ba') => (false, ba')
    | (true, ba') =>
      (true, { ba' with
        buffer := memcpyTo ba'.buffer ba'.offset value, offset := ba'.offset + value.length })

/-- `bytearray_write8`, with its own fast path. -/
def bytearrayWrite8 (ba : Bytearray) (value : UInt8) : Bool × Bytearray :=
  if ba.offset < ba.total then
    (true, { ba with buffer := memcpyTo ba.buffer ba.offset [value], offset := ba.offset + 1 })
  else writeValueOptimized ba [value]

/-- `bytearray_writebuffer`. -/
def bytearrayWritebuffer (ba : Bytearray) (value : List UInt8) : Bool × Bytearray :=
  writeValueOptimized ba value

/-- `read_value_optimized`, also the fixed-size reads: the next `size` bytes, or
nothing and an unchanged buffer. -/
def readValueOptimized (ba : Bytearray) (size : ℕ) : Option (List UInt8) × Bytearray :=
  if size ≤ sizeSub ba.total ba.offset then
    (some (bytesAt ba.buffer ba.offset size), { ba with offset := ba.offset + size })
  else (none, ba)

/-- `bytearray_read8`. -/
def bytearrayRead8 (ba : Bytearray) : Option UInt8 × Bytearray :=
  if ba.offset < ba.total then
    (some (ba.buffer.getD ba.offset 0), { ba with offset := ba.offset + 1 })
  else (none, ba)

/-- `bytearray_readbuffer`, whose length is a `uint32_t`. -/
def bytearrayReadbuffer (ba : Bytearray) (length : UInt32) : Option (List UInt8) × Bytearray :=
  readValueOptimized ba length.toNat

/-! ## Life cycle and modes -/

/-- `bytearray_alloc`, whose length is a `uint32_t`. -/
def bytearrayAlloc (length : UInt32) : Bytearray :=
  let length := if length.toNat = 0 then minCapacity else length.toNat
  { offset := 0, total := length, mark := 0, buffer := malloc length, buflen := length,
    reading := false, wrapbuffer := false }

/-- `bytearray_wrap_buffer`: read someone else's memory.  The length is a
`uint32_t`; `mark` is left as it is in the record handed in. -/
def bytearrayWrapBuffer (ba : Bytearray) (buff : List UInt8) (length : UInt32) : Bytearray :=
  { ba with buffer := buff, total := length.toNat, offset := 0, buflen := length.toNat,
            reading := true, wrapbuffer := true }

/-- `bytearray_read_ready`: from writing to reading. -/
def bytearrayReadReady (ba : Bytearray) : Bool × Bytearray :=
  if ba.reading then (false, ba)
  else (true, { ba with total := ba.offset, offset := 0, reading := true })

/-- `bytearray_read_available`. -/
def bytearrayReadAvailable (ba : Bytearray) : ℕ :=
  if ba.reading then sizeSub ba.total ba.offset else 0

/-- `bytearray_mark`. -/
def bytearrayMark (ba : Bytearray) : Bool × Bytearray :=
  if ba.reading then (true, { ba with mark := ba.offset }) else (false, ba)

/-- `bytearray_reset`. -/
def bytearrayReset (ba : Bytearray) : Bool × Bytearray :=
  if ba.reading then (true, { ba with offset := ba.mark }) else (false, ba)

/-- `bytearray_empty`, which leaves `mark` and the mode alone. -/
def bytearrayEmpty (ba : Bytearray) : Bool × Bytearray :=
  (true, { ba with offset := 0, total := 0 })

/-- `bytearray_write_ready`: from reading to writing, moving the unread bytes to
the front of the buffer. -/
def bytearrayWriteReady (ba : Bytearray) : Bool × Bytearray :=
  if ba.reading then
    let ba' :=
      if 0 < ba.offset then
        let unreadleft := sizeSub ba.total ba.offset
        { ba with
          buffer := memcpyTo ba.buffer 0 (bytesAt ba.buffer ba.offset unreadleft)
          offset := unreadleft }
      else { ba with offset := ba.total }
    (true, { ba' with mark := 0, total := ba'.buflen, reading := false })
  else (false, ba)

end LuaFan
