/-
# A stream is a byte queue

The raw buffer of a stream is linked to an abstract tape (`Fifo.Tape`): while
writing, the bytes before the write position are what the tape retains; while
reading, the first `total` bytes are.  `Represents` states the link.  Every
method keeps it (`streamStep_represents`): growth, compaction and packaging
lose, duplicate and reorder nothing.

A read method is described by what it makes of the unread bytes (`readSpec`):
its result and the number of bytes it passes.
-/
import LuaFan.Stream.Ffi

namespace LuaFan

open Fifo

/-! ## The link between the raw buffer and the tape -/

/-- The raw buffer `ba` stands for the tape `t`. -/
structure Represents (ba : Bytearray) (t : Tape UInt8) : Prop where
  reading_eq : ba.reading = t.reading
  not_wrapped : ba.wrapbuffer = false
  length_buffer : ba.buffer.length = ba.buflen
  total_le : ba.total ≤ ba.buflen
  of_reading : ba.reading = true →
    ba.buffer.take ba.total = t.retained ∧ ba.offset = t.pos - t.base ∧ ba.mark = t.mark - t.base
  of_writing : ba.reading = false →
    ba.buffer.take ba.offset = t.retained ∧ ba.total = ba.buflen ∧ ba.offset ≤ ba.buflen ∧
      ba.mark = 0

namespace Represents

variable {ba : Bytearray} {t : Tape UInt8}

/-- While reading, `total` is the amount of retained data. -/
theorem total_eq (h : Represents ba t) (hr : ba.reading = true) :
    ba.total = t.retained.length := by
  rw [← (h.of_reading hr).1, List.length_take, h.length_buffer]
  have hle := h.total_le
  omega

/-- While reading, the read position lies inside the data. -/
theorem offset_le_total (h : Represents ba t) (hr : ba.reading = true) :
    ba.offset ≤ ba.total := by
  rw [h.total_eq hr, (h.of_reading hr).2.1, t.length_retained]
  have hle := t.pos_le_length
  omega

/-- While reading, the bytes between the read position and the end of the data
are the unread bytes of the tape. -/
theorem unread_eq (h : Represents ba t) (hr : ba.reading = true) :
    bytesAt ba.buffer ba.offset (ba.total - ba.offset) = t.unread := by
  rw [bytesAt, ← List.drop_take, (h.of_reading hr).1, (h.of_reading hr).2.1, t.drop_retained]

theorem sizeSub_eq (h : Represents ba t) (hr : ba.reading = true) :
    sizeSub ba.total ba.offset = t.unread.length := by
  rw [sizeSub_of_le (h.offset_le_total hr), ← h.unread_eq hr, bytesAt, List.length_take,
    List.length_drop, h.length_buffer]
  have hle := h.total_le
  omega

/-- `available` counts the unread bytes. -/
theorem available_eq (h : Represents ba t) (hr : ba.reading = true) :
    bytearrayReadAvailable ba = t.unread.length := by
  rw [bytearrayReadAvailable, if_pos hr, h.sizeSub_eq hr]

/-- A slice at the read position is a prefix of the unread bytes. -/
theorem bytesAt_eq (h : Represents ba t) (hr : ba.reading = true) {n : ℕ}
    (hn : n ≤ t.unread.length) : bytesAt ba.buffer ba.offset n = t.unread.take n := by
  have hlen := h.sizeSub_eq hr
  rw [sizeSub_of_le (h.offset_le_total hr)] at hlen
  rw [← h.unread_eq hr, bytesAt, bytesAt, List.take_take]
  congr 1
  omega

/-- Moving the read position is `advance`. -/
theorem advance (h : Represents ba t) (hr : ba.reading = true) {n : ℕ}
    (hn : n ≤ t.unread.length) :
    Represents { ba with offset := ba.offset + n } (t.advance n) where
  reading_eq := h.reading_eq
  not_wrapped := h.not_wrapped
  length_buffer := h.length_buffer
  total_le := h.total_le
  of_reading := by
    intro _
    obtain ⟨hdata, hoff, hmark⟩ := h.of_reading hr
    have hpos := t.pos_advance (h.reading_eq ▸ hr) hn
    have hle : t.base ≤ t.pos := t.base_le_mark.trans t.mark_le_pos
    refine ⟨hdata, ?_, hmark⟩
    show ba.offset + n = (t.advance n).pos - t.base
    rw [hpos, hoff]
    omega
  of_writing := fun hw => by simp [hr] at hw

end Represents

/-! ## Writing -/

/-- Copying `value` to the write position of a buffer that has the room. -/
theorem represents_memcpyTo {ba : Bytearray} {t : Tape UInt8} (value : List UInt8)
    (h : Represents ba t) (hw : ba.reading = false)
    (hroom : ba.offset + value.length ≤ ba.buflen) :
    Represents
      { ba with
        buffer := memcpyTo ba.buffer ba.offset value, offset := ba.offset + value.length }
      (t.append value) where
  reading_eq := h.reading_eq
  not_wrapped := h.not_wrapped
  length_buffer := by
    show (memcpyTo ba.buffer ba.offset value).length = ba.buflen
    rw [length_memcpyTo (by rw [h.length_buffer]; exact hroom), h.length_buffer]
  total_le := h.total_le
  of_reading := fun hr => by simp [hw] at hr
  of_writing := by
    intro _
    obtain ⟨hdata, htotal, hoff, hmark⟩ := h.of_writing hw
    refine ⟨?_, htotal, hroom, hmark⟩
    show (memcpyTo ba.buffer ba.offset value).take (ba.offset + value.length) = _
    rw [take_memcpyTo value (by rw [h.length_buffer]; exact hoff), hdata, t.retained_append]

/-- **Growth keeps the data** and makes the room that was asked for. -/
theorem ensureCapacity_represents {ba : Bytearray} {t : Tape UInt8} (n : ℕ)
    (h : Represents ba t) (hw : ba.reading = false) :
    (ensureCapacityOptimized ba n).1 = true ∧
      Represents (ensureCapacityOptimized ba n).2 t ∧
      (ensureCapacityOptimized ba n).2.reading = false ∧
      (ensureCapacityOptimized ba n).2.offset = ba.offset ∧
      ba.offset + n ≤ (ensureCapacityOptimized ba n).2.buflen := by
  obtain ⟨hdata, htotal, hoff, hmark⟩ := h.of_writing hw
  have hsub : sizeSub ba.total ba.offset = ba.buflen - ba.offset := by
    rw [htotal, sizeSub_of_le hoff]
  unfold ensureCapacityOptimized
  by_cases hroom : n ≤ sizeSub ba.total ba.offset
  · simp only [hroom, if_true]
    refine ⟨trivial, h, hw, trivial, ?_⟩
    omega
  · simp only [hroom, if_false, h.not_wrapped, Bool.false_eq_true]
    have hgrow : ba.offset + n ≤ growSize (ba.offset + n) := le_growSize _
    refine ⟨trivial, ⟨h.reading_eq, rfl, ?_, le_refl _, ?_, ?_⟩, hw, trivial, hgrow⟩
    · exact length_realloc _ _
    · intro hr
      simp [hw] at hr
    · intro _
      refine ⟨?_, rfl, ?_, hmark⟩
      · show (realloc ba.buffer (growSize (ba.offset + n))).take ba.offset = t.retained
        rw [take_realloc (by rw [h.length_buffer]; exact hoff) (by omega), hdata]
      · show ba.offset ≤ growSize (ba.offset + n)
        omega

/-- **Writing appends**, whether or not the buffer has to grow. -/
theorem writeValue_represents {ba : Bytearray} {t : Tape UInt8} (value : List UInt8)
    (h : Represents ba t) (hw : ba.reading = false) :
    Represents (writeValueOptimized ba value).2 (t.append value) := by
  obtain ⟨hdata, htotal, hoff, hmark⟩ := h.of_writing hw
  unfold writeValueOptimized
  by_cases hroom : value.length ≤ sizeSub ba.total ba.offset
  · rw [if_pos hroom]
    refine represents_memcpyTo value h hw ?_
    rw [htotal, sizeSub_of_le hoff] at hroom
    omega
  · rw [if_neg hroom]
    obtain ⟨hok, hrep, hw', hoff', hroom'⟩ := ensureCapacity_represents value.length h hw
    generalize hres : ensureCapacityOptimized ba value.length = res at *
    obtain ⟨ok, ba'⟩ := res
    simp only at hok hrep hw' hoff' hroom'
    subst hok
    exact represents_memcpyTo value hrep hw' (by rw [hoff']; exact hroom')

theorem write8_represents {ba : Bytearray} {t : Tape UInt8} (value : UInt8)
    (h : Represents ba t) (hw : ba.reading = false) :
    Represents (bytearrayWrite8 ba value).2 (t.append [value]) := by
  unfold bytearrayWrite8
  by_cases hroom : ba.offset < ba.total
  · rw [if_pos hroom]
    refine represents_memcpyTo [value] h hw ?_
    rw [(h.of_writing hw).2.1] at hroom
    exact hroom
  · rw [if_neg hroom]
    exact writeValue_represents [value] h hw

/-- The bytes `ffi_stream_add_u30` appends. -/
def u30BytesLoop : ℕ → UInt32 → List UInt8
  | 0, _ => []
  | n + 1, u => u30Byte u :: (if u >>> 7 ≠ 0 then u30BytesLoop n (u >>> 7) else [])

/-- The `U30` encoding of `u`. -/
def u30Bytes (u : UInt32) : List UInt8 := u30BytesLoop 5 u

theorem addU30Loop_reading (n : ℕ) (ba : Bytearray) (u : UInt32) {t : Tape UInt8}
    (h : Represents ba t) (hw : ba.reading = false) :
    (addU30Loop n ba u).reading = false ∧
      Represents (addU30Loop n ba u) (t.append (u30BytesLoop n u)) := by
  induction n generalizing ba u t with
  | zero =>
      refine ⟨hw, ?_⟩
      have happ : t.append (u30BytesLoop 0 u) = t := by
        cases t
        simp [Tape.append, u30BytesLoop]
      rw [happ]
      exact h
  | succ n ih =>
      have h₁ := write8_represents (u30Byte u) h hw
      have hw₁ : (bytearrayWrite8 ba (u30Byte u)).2.reading = false := by
        rw [h₁.reading_eq]
        exact h.reading_eq ▸ hw
      simp only [addU30Loop, u30BytesLoop]
      by_cases hu : u >>> 7 ≠ 0
      · rw [if_pos hu, if_pos hu]
        obtain ⟨hw₂, h₂⟩ := ih _ (u >>> 7) h₁ hw₁
        refine ⟨hw₂, ?_⟩
        have happ : (t.append [u30Byte u]).append (u30BytesLoop n (u >>> 7)) =
            t.append (u30Byte u :: u30BytesLoop n (u >>> 7)) := by
          simp [Tape.append]
        rw [happ] at h₂
        exact h₂
      · rw [if_neg hu, if_neg hu]
        exact ⟨hw₁, h₁⟩

/-- The bytes an `Add*` method appends. -/
def StreamOp.addedBytes : StreamOp → List UInt8
  | .addU8 v => [v]
  | .addU16 v => leBytes 2 v.toNat
  | .addU24 v => u24Bytes v
  | .addU30 v => u30Bytes v
  | .addD64 v => leBytes 8 v.toNat
  | .addString v => u30Bytes (UInt32.ofNat v.length) ++ v
  | .addBytes v => v
  | _ => []

/-- The `Add*` methods. -/
def StreamOp.isAdd : StreamOp → Bool
  | .addU8 _ | .addU16 _ | .addU24 _ | .addU30 _ | .addD64 _ | .addString _ | .addBytes _ => true
  | _ => false

/-- **Every `Add*` method appends its bytes.** -/
theorem streamStep_add {ba : Bytearray} {t : Tape UInt8} (op : StreamOp)
    (h : Represents ba t) (hw : ba.reading = false) (hop : op.isAdd = true) :
    (streamStep ba op).2 = .nothing ∧
      Represents (streamStep ba op).1 (t.append op.addedBytes) := by
  cases op with
  | addU8 v => exact ⟨rfl, write8_represents v h hw⟩
  | addU16 v => exact ⟨rfl, writeValue_represents _ h hw⟩
  | addU24 v => exact ⟨rfl, writeValue_represents _ h hw⟩
  | addU30 v => exact ⟨rfl, (addU30Loop_reading 5 ba v h hw).2⟩
  | addD64 v => exact ⟨rfl, writeValue_represents _ h hw⟩
  | addBytes v => exact ⟨rfl, writeValue_represents _ h hw⟩
  | addString v =>
      obtain ⟨hw₁, h₁⟩ := addU30Loop_reading 5 ba (UInt32.ofNat v.length) h hw
      have h₂ := writeValue_represents v h₁ hw₁
      refine ⟨rfl, ?_⟩
      have happ : (t.append (u30Bytes (UInt32.ofNat v.length))).append v =
          t.append (StreamOp.addString v).addedBytes := by
        simp [Tape.append, StreamOp.addedBytes]
      rw [← happ]
      exact h₂
  | _ => simp [StreamOp.isAdd] at hop

/-! ## Reading -/

/-- `ffi_stream_get_u30` on the unread bytes: the value, and the number of bytes
passed. -/
def takeU30Loop : ℕ → List UInt8 → ℕ → UInt32 → Option UInt32 × ℕ
  | 0, _, _, value => (some value, 0)
  | _ + 1, [], _, _ => (none, 0)
  | n + 1, b :: bs, shift, value =>
      let value := value ||| ((b.toUInt32 &&& 127) <<< UInt32.ofNat shift)
      if b &&& 128 = 0 ∨ 30 < shift + 7 then (some value, 1)
      else
        let (r, k) := takeU30Loop n bs (shift + 7) value
        (r, k + 1)

/-- The `U30` at the front of the unread bytes. -/
def takeU30 (u : List UInt8) : Option UInt32 × ℕ := takeU30Loop 5 u 0 0

/-- A read of `n` bytes: their value, or nothing. -/
def takeFixed (n : ℕ) (f : List UInt8 → StreamResult) (u : List UInt8) : StreamResult × ℕ :=
  if n ≤ u.length then (f (u.take n), n) else (.nothing, 0)

/-- `ffi_stream_get_string` on the unread bytes. -/
def takeString (u : List UInt8) : GetString × ℕ :=
  match takeU30 u with
  | (none, _) => (.need (u.length + 1), 0)
  | (some len, k) =>
      if u.length - k < len.toNat then (.need (len.toNat + k), 0)
      else (.ok ((u.drop k).take len.toNat), k + len.toNat)

/-- The number of bytes `GetBytes` and `TestBytes` look at. -/
def takeLen (len : ℤ) (u : List UInt8) : ℕ := min (toSize len) u.length % 2 ^ 32

/-- What a read method makes of the unread bytes: its result and the number of
bytes it passes. -/
def StreamOp.readSpec : StreamOp → List UInt8 → StreamResult × ℕ
  | .getU8, u => takeFixed 1 (fun v => .integer (v.getD 0 0).toNat) u
  | .getU16, u => takeFixed 2 (fun v => .integer (ofLe v)) u
  | .getU24, u => takeFixed 3 (fun v => .integer (u24Value v)) u
  | .getS24, u =>
      takeFixed 3 (fun v => .integer
        (if v.getD 2 0 &&& 0x80 ≠ 0 then -1 - ((u24Value v ^^^ 0xffffff : ℕ) : ℤ)
          else (u24Value v : ℤ))) u
  | .getU32, u => takeFixed 4 (fun v => .integer (ofLe v)) u
  | .getD64, u => takeFixed 8 (fun v => .double (UInt64.ofNat (ofLe v))) u
  | .getU30, u => (.ofOption (fun v => .integer v.toNat) (takeU30 u).1, (takeU30 u).2)
  | .getString, u => (.ofGetString (takeString u).1, (takeString u).2)
  | .getBytes len, u =>
      if toSize len = 0 then (.nothing, 0) else (.ofBytes (u.take (takeLen len u)), takeLen len u)
  | .testBytes len, u =>
      if toSize len = 0 then (.nothing, 0) else (.ofBytes (u.take (takeLen len u)), 0)
  | .available, u => (.integer u.length, 0)
  | _, _ => (.nothing, 0)

/-- The read methods. -/
def StreamOp.isRead : StreamOp → Bool
  | .getU8 | .getU16 | .getU24 | .getS24 | .getU32 | .getU30 | .getD64 | .getString
  | .getBytes _ | .testBytes _ | .available => true
  | _ => false

/-- A read of `n` bytes, in terms of the unread bytes. -/
theorem readValue_eq {ba : Bytearray} {t : Tape UInt8} (h : Represents ba t)
    (hr : ba.reading = true) (n : ℕ) :
    readValueOptimized ba n =
      if n ≤ t.unread.length then (some (t.unread.take n), { ba with offset := ba.offset + n })
      else (none, ba) := by
  rw [readValueOptimized, h.sizeSub_eq hr]
  by_cases hn : n ≤ t.unread.length
  · rw [if_pos hn, if_pos hn, h.bytesAt_eq hr hn]
  · rw [if_neg hn, if_neg hn]

theorem read8_eq_nil {ba : Bytearray} {t : Tape UInt8} (h : Represents ba t)
    (hr : ba.reading = true) (hu : t.unread = []) : bytearrayRead8 ba = (none, ba) := by
  have hsub := h.sizeSub_eq hr
  rw [sizeSub_of_le (h.offset_le_total hr), hu, List.length_nil] at hsub
  rw [bytearrayRead8, if_neg (by omega)]

theorem read8_eq_cons {ba : Bytearray} {t : Tape UInt8} (h : Represents ba t)
    (hr : ba.reading = true) {b : UInt8} {bs : List UInt8} (hu : t.unread = b :: bs) :
    bytearrayRead8 ba = (some b, { ba with offset := ba.offset + 1 }) := by
  have hsub := h.sizeSub_eq hr
  rw [sizeSub_of_le (h.offset_le_total hr), hu, List.length_cons] at hsub
  have hone := h.bytesAt_eq hr (n := 1) (by simp [hu])
  rw [hu, bytesAt] at hone
  have hget : ba.buffer.getD ba.offset 0 = b := by
    have hlt : ba.offset < ba.buffer.length := by
      have h₁ := h.length_buffer
      have h₂ := h.total_le
      omega
    rw [List.drop_eq_getElem_cons hlt] at hone
    simp only [List.take_succ_cons, List.take_zero, List.cons.injEq, and_true] at hone
    rw [List.getD_eq_getElem _ _ hlt, hone]
  rw [bytearrayRead8, if_pos (by omega), hget]

/-- The loop of `ffi_stream_get_u30`, in terms of the unread bytes. -/
theorem getU30Loop_eq (n : ℕ) {ba : Bytearray} {t : Tape UInt8} (h : Represents ba t)
    (hr : ba.reading = true) (shift : ℕ) (value : UInt32) :
    getU30Loop n ba shift value =
        ((takeU30Loop n t.unread shift value).1,
          { ba with offset := ba.offset + (takeU30Loop n t.unread shift value).2 }) ∧
      (takeU30Loop n t.unread shift value).2 ≤ t.unread.length := by
  induction n generalizing ba t shift value with
  | zero => exact ⟨rfl, Nat.zero_le _⟩
  | succ n ih =>
      cases hu : t.unread with
      | nil =>
          rw [getU30Loop, read8_eq_nil h hr hu]
          exact ⟨rfl, le_refl _⟩
      | cons b bs =>
          have hone : 1 ≤ t.unread.length := by simp [hu]
          have hnext : (t.advance 1).unread = bs := by
            rw [t.unread_advance (h.reading_eq ▸ hr) hone, hu, List.drop_one, List.tail_cons]
          obtain ⟨ih₁, ih₂⟩ := ih (h.advance hr hone) hr (shift + 7)
            (value ||| ((b.toUInt32 &&& 127) <<< UInt32.ofNat shift))
          rw [hnext] at ih₁ ih₂
          rw [getU30Loop, read8_eq_cons h hr hu]
          simp only [takeU30Loop]
          by_cases hlast : b &&& 128 = 0 ∨ 30 < shift + 7
          · rw [if_pos hlast, if_pos hlast]
            exact ⟨rfl, by simp⟩
          · rw [if_neg hlast, if_neg hlast, ih₁]
            refine ⟨?_, ?_⟩
            · simp only [Nat.add_assoc, Nat.add_comm 1]
            · simp only [List.length_cons]
              omega

/-- `ffi_stream_get_string`, in terms of the unread bytes. -/
theorem getString_eq {ba : Bytearray} {t : Tape UInt8} (h : Represents ba t)
    (hr : ba.reading = true) :
    ffiStreamGetString ba =
        ((takeString t.unread).1, { ba with offset := ba.offset + (takeString t.unread).2 }) ∧
      (takeString t.unread).2 ≤ t.unread.length := by
  obtain ⟨hloop, hk⟩ := getU30Loop_eq 5 h hr 0 0
  rw [ffiStreamGetString, ffiStreamGetU30, hloop, takeString, takeU30]
  have hadv := h.advance hr hk
  have hrest := t.unread_advance (h.reading_eq ▸ hr) hk
  generalize takeU30Loop 5 t.unread 0 0 = res at *
  obtain ⟨len, k⟩ := res
  simp only at hk hadv hrest
  cases len with
  | none =>
      have hav := h.available_eq hr
      simp only [Nat.add_zero, Nat.zero_le, and_true]
      rw [show bytearrayReadAvailable { ba with offset := ba.offset } = t.unread.length from hav]
  | some len =>
      have hav := hadv.available_eq hr
      rw [hrest, List.length_drop] at hav
      simp only [hav]
      by_cases hshort : t.unread.length - k < len.toNat
      · simp only [hshort, if_true, Nat.add_zero, Nat.zero_le, and_true, Nat.add_sub_cancel_left]
      · have hlen : len.toNat ≤ (t.advance k).unread.length := by
          rw [hrest, List.length_drop]
          omega
        rw [if_neg hshort, if_neg hshort, bytearrayReadbuffer, readValue_eq hadv hr,
          if_pos hlen, hadv.bytesAt_eq hr hlen, hrest]
        rw [hrest, List.length_drop] at hlen
        refine ⟨?_, ?_⟩
        · simp only [Nat.add_assoc]
        · simp only
          omega

theorem bytesLen_eq {ba : Bytearray} {t : Tape UInt8} (h : Represents ba t)
    (hr : ba.reading = true) {len : ℤ} (hlen : toSize len ≠ 0) :
    (bytesLen ba (toSize len)).toNat = takeLen len t.unread := by
  rw [bytesLen, h.available_eq hr, if_pos (Nat.pos_of_ne_zero hlen), UInt32.toNat_ofNat', takeLen]
  congr 1
  by_cases hlt : t.unread.length < toSize len
  · rw [if_pos hlt]
    omega
  · rw [if_neg hlt]
    omega

theorem takeLen_le (len : ℤ) (u : List UInt8) : takeLen len u ≤ u.length :=
  (Nat.mod_le _ _).trans (Nat.min_le_right _ _)

/-- A read of fixed size, as `streamStep` performs it. -/
theorem readFixed_step {ba : Bytearray} {t : Tape UInt8} (h : Represents ba t)
    (hr : ba.reading = true) (n : ℕ) (f : List UInt8 → StreamResult) :
    StreamResult.ofOption f (readValueOptimized ba n).1 = (takeFixed n f t.unread).1 ∧
      (readValueOptimized ba n).2 =
        { ba with offset := ba.offset + (takeFixed n f t.unread).2 } ∧
      (takeFixed n f t.unread).2 ≤ t.unread.length := by
  rw [readValue_eq h hr, takeFixed]
  by_cases hn : n ≤ t.unread.length
  · rw [if_pos hn, if_pos hn]
    exact ⟨rfl, rfl, hn⟩
  · rw [if_neg hn, if_neg hn]
    exact ⟨rfl, rfl, Nat.zero_le _⟩

/-- **Every read method is a function of the unread bytes**, and does nothing to
the buffer but move the read position. -/
theorem streamStep_read {ba : Bytearray} {t : Tape UInt8} {op : StreamOp}
    (h : Represents ba t) (hr : ba.reading = true) (hop : op.isRead = true) :
    (streamStep ba op).2 = (op.readSpec t.unread).1 ∧
      (streamStep ba op).1 = { ba with offset := ba.offset + (op.readSpec t.unread).2 } ∧
      (op.readSpec t.unread).2 ≤ t.unread.length := by
  cases op with
  | getU8 =>
      cases hu : t.unread with
      | nil =>
          simp only [streamStep, StreamOp.readSpec, takeFixed, read8_eq_nil h hr hu]
          exact ⟨rfl, rfl, Nat.zero_le _⟩
      | cons b bs =>
          simp only [streamStep, StreamOp.readSpec, takeFixed, read8_eq_cons h hr hu]
          rw [if_pos (by simp)]
          exact ⟨rfl, rfl, by simp⟩
  | getU16 => exact readFixed_step h hr 2 _
  | getU32 => exact readFixed_step h hr 4 _
  | getD64 => exact readFixed_step h hr 8 _
  | getU24 =>
      have hread := readValue_eq h hr 3
      simp only [streamStep, StreamOp.readSpec, takeFixed, ffiStreamGetU24, bytearrayReadbuffer]
      rw [show (3 : UInt32).toNat = 3 from rfl, hread]
      by_cases hn : 3 ≤ t.unread.length
      · rw [if_pos hn, if_pos hn]
        exact ⟨rfl, rfl, hn⟩
      · rw [if_neg hn, if_neg hn]
        exact ⟨rfl, rfl, Nat.zero_le _⟩
  | getS24 =>
      have hread := readValue_eq h hr 3
      simp only [streamStep, StreamOp.readSpec, takeFixed, ffiStreamGetS24, bytearrayReadbuffer]
      rw [show (3 : UInt32).toNat = 3 from rfl, hread]
      by_cases hn : 3 ≤ t.unread.length
      · rw [if_pos hn, if_pos hn]
        simp only
        split <;> exact ⟨rfl, rfl, hn⟩
      · rw [if_neg hn, if_neg hn]
        exact ⟨rfl, rfl, Nat.zero_le _⟩
  | getU30 =>
      obtain ⟨hloop, hk⟩ := getU30Loop_eq 5 h hr 0 0
      simp only [streamStep, StreamOp.readSpec, ffiStreamGetU30, takeU30, hloop]
      exact ⟨trivial, trivial, hk⟩
  | getString =>
      obtain ⟨hget, hk⟩ := getString_eq h hr
      simp only [streamStep, StreamOp.readSpec, hget]
      exact ⟨trivial, trivial, hk⟩
  | getBytes len =>
      simp only [streamStep, StreamOp.readSpec]
      by_cases hlen : toSize len = 0
      · simp only [hlen, if_true]
        exact ⟨trivial, rfl, Nat.zero_le _⟩
      · have hle := takeLen_le len t.unread
        simp only [hlen, if_false, ffiStreamGetBytes, bytearrayReadbuffer, bytesLen_eq h hr hlen,
          readValue_eq h hr, hle, if_true, h.bytesAt_eq hr hle]
        exact ⟨trivial, trivial, trivial⟩
  | testBytes len =>
      simp only [streamStep, StreamOp.readSpec]
      by_cases hlen : toSize len = 0
      · simp only [hlen, if_true]
        exact ⟨trivial, rfl, Nat.zero_le _⟩
      · have hle := takeLen_le len t.unread
        simp only [hlen, if_false, ffiStreamTestBytes, bytesLen_eq h hr hlen, h.bytesAt_eq hr hle]
        exact ⟨trivial, rfl, Nat.zero_le _⟩
  | available =>
      simp only [streamStep, StreamOp.readSpec, h.available_eq hr]
      exact ⟨trivial, rfl, Nat.zero_le _⟩
  | _ => simp [StreamOp.isRead] at hop

/-! ## Modes and marks -/

/-- `mark` saves the read position. -/
theorem mark_represents {ba : Bytearray} {t : Tape UInt8} (h : Represents ba t)
    (hr : ba.reading = true) : Represents { ba with mark := ba.offset } t.setMark where
  reading_eq := h.reading_eq
  not_wrapped := h.not_wrapped
  length_buffer := h.length_buffer
  total_le := h.total_le
  of_reading := fun _ => ⟨(h.of_reading hr).1, (h.of_reading hr).2.1, (h.of_reading hr).2.1⟩
  of_writing := fun hw => by simp [hr] at hw

/-- `reset` returns to the mark. -/
theorem reset_represents {ba : Bytearray} {t : Tape UInt8} (h : Represents ba t)
    (hr : ba.reading = true) : Represents { ba with offset := ba.mark } t.reset where
  reading_eq := h.reading_eq
  not_wrapped := h.not_wrapped
  length_buffer := h.length_buffer
  total_le := h.total_le
  of_reading := fun _ => ⟨(h.of_reading hr).1, (h.of_reading hr).2.2, (h.of_reading hr).2.2⟩
  of_writing := fun hw => by simp [hr] at hw

/-- While writing nothing has been passed since the oldest retained byte. -/
theorem mark_of_writing {t : Tape UInt8} (hw : t.reading = false) :
    t.mark = t.base ∧ t.pos = t.base := by
  have h₁ := t.pos_of_writing hw
  have h₂ := t.base_le_mark
  have h₃ := t.mark_le_pos
  omega

/-- `prepare_get` and `package` start reading. -/
theorem readReady_represents {ba : Bytearray} {t : Tape UInt8} (h : Represents ba t)
    (hw : ba.reading = false) :
    Represents { ba with total := ba.offset, offset := 0, reading := true } t.beginRead where
  reading_eq := rfl
  not_wrapped := h.not_wrapped
  length_buffer := h.length_buffer
  total_le := (h.of_writing hw).2.2.1
  of_reading := by
    intro _
    obtain ⟨hdata, -, -, hmark⟩ := h.of_writing hw
    obtain ⟨hm, hp⟩ := mark_of_writing (h.reading_eq ▸ hw)
    refine ⟨hdata, ?_, ?_⟩
    · show 0 = t.pos - t.base
      omega
    · show ba.mark = t.mark - t.base
      omega
  of_writing := fun hw' => by simp at hw'

/-- **Compaction**: `prepare_add` moves the unread bytes to the front and lets go
of the others. -/
theorem writeReady_represents {ba : Bytearray} {t : Tape UInt8} (h : Represents ba t)
    (hr : ba.reading = true) :
    (bytearrayWriteReady ba).1 = true ∧ Represents (bytearrayWriteReady ba).2 t.beginWrite := by
  obtain ⟨hdata, hoff, -⟩ := h.of_reading hr
  have hle := h.offset_le_total hr
  have htotal := h.total_le
  have hlen := h.length_buffer
  have hun := h.unread_eq hr
  have hret : t.beginWrite.retained = t.unread := rfl
  unfold bytearrayWriteReady
  rw [if_pos hr]
  refine ⟨rfl, ?_⟩
  by_cases hpos : 0 < ba.offset
  · have hslice : (bytesAt ba.buffer ba.offset (ba.total - ba.offset)).length
        = ba.total - ba.offset := by
      simp only [bytesAt, List.length_take, List.length_drop]
      omega
    simp only [hpos, if_true, sizeSub_of_le hle]
    refine ⟨rfl, h.not_wrapped, ?_, le_refl _, fun hr' => by simp at hr', fun _ => ?_⟩
    · show (memcpyTo ba.buffer 0 _).length = ba.buflen
      rw [length_memcpyTo (by rw [hslice]; omega), hlen]
    · refine ⟨?_, rfl, ?_, rfl⟩
      · show (memcpyTo ba.buffer 0 (bytesAt ba.buffer ba.offset (ba.total - ba.offset))).take
            (ba.total - ba.offset) = t.beginWrite.retained
        have htake := take_memcpyTo (bytesAt ba.buffer ba.offset (ba.total - ba.offset))
          (Nat.zero_le ba.buffer.length)
        rw [hslice, Nat.zero_add] at htake
        rw [htake, List.take_zero, List.nil_append, hun, hret]
      · show ba.total - ba.offset ≤ ba.buflen
        omega
  · simp only [hpos, if_false]
    refine ⟨rfl, h.not_wrapped, hlen, le_refl _, fun hr' => by simp at hr', fun _ => ?_⟩
    refine ⟨?_, rfl, htotal, rfl⟩
    show ba.buffer.take ba.total = t.beginWrite.retained
    have hzero : ba.offset = 0 := by omega
    rw [hret, ← hun, hzero, bytesAt, List.drop_zero, Nat.sub_zero]

/-! ## Runs -/

/-- The methods that may be called in a mode: `Add*` while writing; `Get*`,
`TestBytes`, `mark` and `reset` while reading; the mode switches and `package`
always; `empty` never. -/
def StreamOp.allowed (reading : Bool) : StreamOp → Bool
  | .prepareGet | .prepareAdd | .package => true
  | .mark | .reset => reading
  | .empty => false
  | op => if op.isAdd then !reading else reading

/-- One method call on the abstract queue: appending, reading what comes next,
and moving the read position between marks. -/
def tapeStep (t : Tape UInt8) : StreamOp → Tape UInt8 × StreamResult
  | .mark => (t.setMark, .bool true)
  | .reset => (t.reset, .bool true)
  | .prepareGet => if t.reading then (t, .bool false) else (t.beginRead, .bool true)
  | .prepareAdd => if t.reading then (t.beginWrite, .bool true) else (t, .bool false)
  | .package => (t.beginRead, .string t.retained)
  | op =>
      if op.isAdd then (t.append op.addedBytes, .nothing)
      else (t.advance (op.readSpec t.unread).2, (op.readSpec t.unread).1)

theorem beginRead_of_reading {t : Tape UInt8} (h : t.reading = true) : t.beginRead = t := by
  cases t
  simp_all [Tape.beginRead]

/-- An `Add*` method on both sides. -/
theorem streamStep_tapeStep_add {ba : Bytearray} {t : Tape UInt8} {op : StreamOp}
    (h : Represents ba t) (hop : op.isAdd = true) (hw : ba.reading = false) :
    (streamStep ba op).2 = (t.append op.addedBytes, StreamResult.nothing).2 ∧
      Represents (streamStep ba op).1 (t.append op.addedBytes, StreamResult.nothing).1 :=
  streamStep_add op h hw hop

/-- A read method on both sides. -/
theorem streamStep_tapeStep_read {ba : Bytearray} {t : Tape UInt8} {op : StreamOp}
    (h : Represents ba t) (hop : op.isRead = true) (hr : ba.reading = true) :
    (streamStep ba op).2 = (op.readSpec t.unread).1 ∧
      Represents (streamStep ba op).1 (t.advance (op.readSpec t.unread).2) := by
  obtain ⟨hres, hba, hk⟩ := streamStep_read h hr hop
  rw [hba]
  exact ⟨hres, h.advance hr hk⟩

/-- **One method call keeps the link and gives the queue's answer.** -/
theorem streamStep_represents {ba : Bytearray} {t : Tape UInt8} {op : StreamOp}
    (h : Represents ba t) (hop : op.allowed ba.reading = true) :
    (streamStep ba op).2 = (tapeStep t op).2 ∧
      Represents (streamStep ba op).1 (tapeStep t op).1 := by
  cases op with
  | mark =>
      have hr : ba.reading = true := hop
      simp only [streamStep, bytearrayMark]
      rw [if_pos hr]
      exact ⟨rfl, mark_represents h hr⟩
  | reset =>
      have hr : ba.reading = true := hop
      simp only [streamStep, bytearrayReset]
      rw [if_pos hr]
      exact ⟨rfl, reset_represents h hr⟩
  | prepareGet =>
      simp only [streamStep, bytearrayReadReady, tapeStep, ← h.reading_eq]
      by_cases hr : ba.reading = true
      · simp only [hr, if_true]
        exact ⟨trivial, h⟩
      · rw [Bool.not_eq_true] at hr
        simp only [hr, Bool.false_eq_true, if_false]
        exact ⟨trivial, readReady_represents h hr⟩
  | prepareAdd =>
      simp only [streamStep, tapeStep, ← h.reading_eq]
      by_cases hr : ba.reading = true
      · obtain ⟨hok, hrep⟩ := writeReady_represents h hr
        simp only [hr, if_true, hok]
        exact ⟨trivial, hrep⟩
      · rw [Bool.not_eq_true] at hr
        simp only [bytearrayWriteReady, hr, Bool.false_eq_true, if_false]
        exact ⟨trivial, h⟩
  | package =>
      simp only [streamStep, tapeStep, ffiStreamPackage, bytearrayReadReady]
      by_cases hr : ba.reading = true
      · simp only [hr, if_true]
        rw [beginRead_of_reading (h.reading_eq ▸ hr)]
        exact ⟨congrArg StreamResult.string (h.of_reading hr).1, h⟩
      · rw [Bool.not_eq_true] at hr
        simp only [hr, Bool.false_eq_true, if_false]
        exact ⟨congrArg StreamResult.string (h.of_writing hr).1, readReady_represents h hr⟩
  | empty => simp [StreamOp.allowed] at hop
  | addU8 v => exact streamStep_tapeStep_add h rfl (Bool.not_eq_true' _ ▸ hop)
  | addU16 v => exact streamStep_tapeStep_add h rfl (Bool.not_eq_true' _ ▸ hop)
  | addU24 v => exact streamStep_tapeStep_add h rfl (Bool.not_eq_true' _ ▸ hop)
  | addU30 v => exact streamStep_tapeStep_add h rfl (Bool.not_eq_true' _ ▸ hop)
  | addD64 v => exact streamStep_tapeStep_add h rfl (Bool.not_eq_true' _ ▸ hop)
  | addString v => exact streamStep_tapeStep_add h rfl (Bool.not_eq_true' _ ▸ hop)
  | addBytes v => exact streamStep_tapeStep_add h rfl (Bool.not_eq_true' _ ▸ hop)
  | getU8 => exact streamStep_tapeStep_read h rfl hop
  | getU16 => exact streamStep_tapeStep_read h rfl hop
  | getU24 => exact streamStep_tapeStep_read h rfl hop
  | getS24 => exact streamStep_tapeStep_read h rfl hop
  | getU32 => exact streamStep_tapeStep_read h rfl hop
  | getU30 => exact streamStep_tapeStep_read h rfl hop
  | getD64 => exact streamStep_tapeStep_read h rfl hop
  | getString => exact streamStep_tapeStep_read h rfl hop
  | getBytes len => exact streamStep_tapeStep_read h rfl hop
  | testBytes len => exact streamStep_tapeStep_read h rfl hop
  | available => exact streamStep_tapeStep_read h rfl hop

/-- A sequence of method calls on a stream, with the results. -/
def streamRun (ba : Bytearray) : List StreamOp → Bytearray × List StreamResult
  | [] => (ba, [])
  | op :: ops =>
      ((streamRun (streamStep ba op).1 ops).1,
        (streamStep ba op).2 :: (streamRun (streamStep ba op).1 ops).2)

/-- A sequence of method calls on the abstract queue, with the results. -/
def tapeRun (t : Tape UInt8) : List StreamOp → Tape UInt8 × List StreamResult
  | [] => (t, [])
  | op :: ops =>
      ((tapeRun (tapeStep t op).1 ops).1, (tapeStep t op).2 :: (tapeRun (tapeStep t op).1 ops).2)

/-- Every call of the sequence is made in a mode that allows it. -/
def admissible (ba : Bytearray) : List StreamOp → Bool
  | [] => true
  | op :: ops => op.allowed ba.reading && admissible (streamStep ba op).1 ops

/-- The tape of a new stream. -/
def newTape (data : List UInt8) : Tape UInt8 := if 0 < data.length then loaded data else blank

/-- The bytes a stream holds that have not been read. -/
def storedBytes (ba : Bytearray) : List UInt8 :=
  if ba.reading then bytesAt ba.buffer ba.offset (ba.total - ba.offset)
  else ba.buffer.take ba.offset

theorem alloc_represents (length : UInt32) : Represents (bytearrayAlloc length) blank where
  reading_eq := rfl
  not_wrapped := rfl
  length_buffer := length_malloc _
  total_le := le_refl _
  of_reading := fun h => by simp [bytearrayAlloc] at h
  of_writing := fun _ => ⟨rfl, rfl, Nat.zero_le _, rfl⟩

theorem new_represents (data : List UInt8) : Represents (ffiStreamNew data) (newTape data) := by
  unfold ffiStreamNew newTape
  by_cases hlen : 0 < data.length
  · rw [if_pos hlen, if_pos hlen]
    have hwrite := writeValue_represents data (alloc_represents (UInt32.ofNat data.length)) rfl
    have hw : (bytearrayWritebuffer (bytearrayAlloc (UInt32.ofNat data.length)) data).2.reading
        = false := hwrite.reading_eq
    have hread := readReady_represents hwrite hw
    unfold bytearrayReadReady
    rw [if_neg (by simp [hw])]
    exact hread
  · rw [if_neg hlen, if_neg hlen]
    exact alloc_represents 0

theorem streamRun_represents (ops : List StreamOp) {ba : Bytearray} {t : Tape UInt8}
    (h : Represents ba t) (hops : admissible ba ops = true) :
    (streamRun ba ops).2 = (tapeRun t ops).2 ∧
      Represents (streamRun ba ops).1 (tapeRun t ops).1 := by
  induction ops generalizing ba t with
  | nil => exact ⟨rfl, h⟩
  | cons op ops ih =>
      rw [admissible, Bool.and_eq_true] at hops
      obtain ⟨hres, hrep⟩ := streamStep_represents h hops.1
      obtain ⟨hres', hrep'⟩ := ih hrep hops.2
      exact ⟨by simp only [streamRun, tapeRun, hres, hres'], hrep'⟩

/-- Appending is the only change to what was appended. -/
theorem appended_tapeStep (t : Tape UInt8) (op : StreamOp) :
    (tapeStep t op).1.appended = t.appended ++ op.addedBytes := by
  cases op with
  | prepareGet =>
      simp only [tapeStep, StreamOp.addedBytes, List.append_nil]
      split <;> rfl
  | prepareAdd =>
      simp only [tapeStep, StreamOp.addedBytes, List.append_nil]
      split <;> rfl
  | _ => simp [tapeStep, StreamOp.addedBytes, StreamOp.isAdd, Tape.append, Tape.advance,
      Tape.setMark, Tape.reset, Tape.beginRead]

theorem appended_tapeRun (ops : List StreamOp) (t : Tape UInt8) :
    (tapeRun t ops).1.appended = t.appended ++ ops.flatMap StreamOp.addedBytes := by
  induction ops generalizing t with
  | nil => simp [tapeRun]
  | cons op ops ih => rw [tapeRun, ih, appended_tapeStep, List.flatMap_cons, List.append_assoc]

theorem storedBytes_eq {ba : Bytearray} {t : Tape UInt8} (h : Represents ba t) :
    storedBytes ba = t.unread := by
  unfold storedBytes
  by_cases hr : ba.reading = true
  · rw [if_pos hr, h.unread_eq hr]
  · have hw : ba.reading = false := by simpa using hr
    rw [if_neg hr, (h.of_writing hw).1, Tape.retained, Tape.unread,
      (mark_of_writing (h.reading_eq ▸ hw)).2]

/-- **A stream is a byte queue.**  Over every admissible sequence of method calls
on a new stream: every call answers as the abstract queue does; what was
appended is the initial data followed by the bytes of the `Add*` calls; what the
read position has passed, followed by what the stream still holds, is exactly
that; and the read position of the buffer is that of the queue, whose `reset`
goes back to its last mark since the last `prepare_add`. -/
theorem stream_is_byte_fifo (data : List UInt8) (ops : List StreamOp)
    (hops : admissible (ffiStreamNew data) ops = true) :
    (streamRun (ffiStreamNew data) ops).2 = (tapeRun (newTape data) ops).2 ∧
      (tapeRun (newTape data) ops).1.appended = data ++ ops.flatMap StreamOp.addedBytes ∧
      (tapeRun (newTape data) ops).1.passed ++ storedBytes (streamRun (ffiStreamNew data) ops).1
        = data ++ ops.flatMap StreamOp.addedBytes ∧
      ((streamRun (ffiStreamNew data) ops).1.reading = true →
        (streamRun (ffiStreamNew data) ops).1.offset =
          (tapeRun (newTape data) ops).1.pos - (tapeRun (newTape data) ops).1.base) := by
  obtain ⟨hres, hrep⟩ := streamRun_represents ops (new_represents data) hops
  have hnew : (newTape data).appended = data := by
    unfold newTape
    split
    · rfl
    · rename_i hlen
      have hnil : data = [] := List.length_eq_zero_iff.mp (by omega)
      rw [hnil]
      rfl
  have happ : (tapeRun (newTape data) ops).1.appended =
      data ++ ops.flatMap StreamOp.addedBytes := by
    rw [appended_tapeRun, hnew]
  refine ⟨hres, happ, ?_, fun hr => (hrep.of_reading hr).2.1⟩
  rw [storedBytes_eq hrep, Tape.passed_append_unread, happ]

/-- A run through every mode: write, read part, mark, read on, go back, compact,
write again and read the rest. -/
theorem stream_is_byte_fifo_compacting :
    admissible (ffiStreamNew [])
        [.addString [1, 2, 3], .prepareGet, .getU8, .mark, .getBytes 2, .reset, .getU8,
          .prepareAdd, .addU16 0x0504, .prepareGet, .getBytes (-1)] = true ∧
      (tapeRun (newTape [])
        [.addString [1, 2, 3], .prepareGet, .getU8, .mark, .getBytes 2, .reset, .getU8,
          .prepareAdd, .addU16 0x0504, .prepareGet, .getBytes (-1)]).1.passed ++
        storedBytes (streamRun (ffiStreamNew [])
          [.addString [1, 2, 3], .prepareGet, .getU8, .mark, .getBytes 2, .reset, .getU8,
            .prepareAdd, .addU16 0x0504, .prepareGet, .getBytes (-1)]).1
        = [3, 1, 2, 3, 4, 5] :=
  ⟨by decide +kernel, (stream_is_byte_fifo [] _ (by decide +kernel)).2.2.1⟩

end LuaFan
