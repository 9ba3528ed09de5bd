/-
# Typed items on a stream (`src/stream_ffi.c`)

Every `Add*` method has a `Get*` method that reads back what it wrote.

* `typed_round_trip`: a sequence of items that is added, packaged and read by a new stream
  comes back with nothing left over, **exactly if** no `Bytes` item has `2 ^ 32` bytes or
  more; `ffi_stream_get_bytes` keeps the length in a `uint32_t`.
-/
import LuaFan.Stream.Frame

namespace LuaFan

open Fifo

/-! ## Items -/

/-- An item and its type.  A number is in the range of its type, a string within that of
the length prefix, and `Bytes` is not empty. -/
inductive StreamItem where
  | u8 (value : UInt8)
  | u16 (value : UInt16)
  | u24 (value : ℕ) (lt : value < 2 ^ 24)
  | s24 (value : ℤ) (range : -2 ^ 23 ≤ value ∧ value < 2 ^ 23)
  | u30 (value : UInt32)
  | d64 (bits : UInt64)
  | string (bytes : List UInt8) (short : bytes.length < 2 ^ 32)
  | bytes (bytes : List UInt8) (ne : bytes ≠ [])

namespace StreamItem

/-- The method that adds the item, with its argument as `luaL_checkinteger` hands it over. -/
def add : StreamItem → StreamOp
  | u8 v => .addU8 v
  | u16 v => .addU16 v
  | u24 v _ => .addU24 (UInt32.ofInt v)
  | s24 v _ => .addU24 (UInt32.ofInt v)
  | u30 v => .addU30 v
  | d64 bits => .addD64 bits
  | string bs _ => .addString bs
  | bytes bs _ => .addBytes bs

/-- The method that reads an item of this type; `GetBytes` is asked for all bytes. -/
def get : StreamItem → StreamOp
  | u8 _ => .getU8
  | u16 _ => .getU16
  | u24 .. => .getU24
  | s24 .. => .getS24
  | u30 _ => .getU30
  | d64 _ => .getD64
  | string .. => .getString
  | bytes bs _ => .getBytes bs.length

/-- The item as a method returns it. -/
def result : StreamItem → StreamResult
  | u8 v => .integer v.toNat
  | u16 v => .integer v.toNat
  | u24 v _ => .integer v
  | s24 v _ => .integer v
  | u30 v => .integer v.toNat
  | d64 bits => .double bits
  | string bs _ => .string bs
  | bytes bs _ => .string bs

/-- What adding the items to a new stream and packaging it gives. -/
def package (items : List StreamItem) : List UInt8 :=
  (ffiStreamPackage (streamRun (ffiStreamNew []) (items.map add)).1).1

/-- The items come back from a new stream over the package, and nothing is left. -/
def ComesBack (items : List StreamItem) : Prop :=
  (streamRun (ffiStreamNew (package items)) (items.map get)).2 = items.map result ∧
    bytearrayReadAvailable (streamRun (ffiStreamNew (package items)) (items.map get)).1 = 0

/-- The length fits a `uint32_t`. -/
def Short : StreamItem → Prop
  | bytes bs _ => bs.length < 2 ^ 32
  | _ => True

/-! ## One item -/

theorem isAdd_add (item : StreamItem) : item.add.isAdd = true := by
  cases item <;> rfl

theorem isRead_get (item : StreamItem) : item.get.isRead = true := by
  cases item <;> rfl

/-- A read of exactly the bytes that an item left. -/
theorem takeFixed_append {n : ℕ} {f : List UInt8 → StreamResult} {bs : List UInt8} (hbs : bs.length = n)
    (rest : List UInt8) : takeFixed n f (bs ++ rest) = (f bs, n) := by
  rw [takeFixed, if_pos (by simp [hbs]), List.take_left' hbs]

theorem ofLe_leBytes_of_lt {n v : ℕ} (h : v < 256 ^ n) : ofLe (leBytes n v) = v := by
  rw [ofLe_leBytes, Nat.mod_eq_of_lt h]

/-- The three low bytes of a word, put together again. -/
theorem u24Value_u24Bytes (u : UInt32) : u24Value (u24Bytes u) = u.toNat % 2 ^ 24 := by
  have hbyte : ∀ x : UInt32, ((x &&& 0xff).toUInt8).toNat = x.toNat % 256 := by
    intro x
    rw [UInt32.toNat_toUInt8, UInt32.toNat_and, show (0xff : UInt32).toNat = 2 ^ 8 - 1 from rfl,
      Nat.and_two_pow_sub_one_eq_mod]
    exact Nat.mod_mod_of_dvd _ (by decide)
  have h8 : (u >>> 8).toNat = u.toNat / 2 ^ 8 := by
    rw [UInt32.toNat_shiftRight]
    exact Nat.shiftRight_eq_div_pow _ _
  have h16 : (u >>> 16).toNat = u.toNat / 2 ^ 16 := by
    rw [UInt32.toNat_shiftRight]
    exact Nat.shiftRight_eq_div_pow _ _
  rw [u24Bytes, u24Value_eq, hbyte, hbyte, hbyte, h8, h16]
  omega

/-- The sign bit of three bytes. -/
theorem u24_negative_iff (u : UInt32) :
    (u24Bytes u).getD 2 0 &&& 0x80 ≠ 0 ↔ 2 ^ 23 ≤ u24Value (u24Bytes u) := by
  have hsign : ∀ b : UInt8, b &&& 0x80 ≠ 0 ↔ 128 ≤ b.toNat := by decide +kernel
  rw [hsign, u24Bytes, u24Value_eq]
  simp only [List.getD_cons_succ, List.getD_cons_zero]
  have h0 := ((u &&& 0xff).toUInt8).toNat_lt
  have h1 := ((u >>> 8 &&& 0xff).toUInt8).toNat_lt
  omega

/-- Flipping all 24 bits. -/
theorem xor_low24 {n : ℕ} (h : n < 2 ^ 24) : n ^^^ 0xffffff = 2 ^ 24 - 1 - n := by
  have hnot : (BitVec.ofNat 24 n ^^^ BitVec.allOnes 24).toNat = 2 ^ 24 - 1 - n := by
    rw [BitVec.xor_allOnes, BitVec.toNat_not, BitVec.toNat_ofNat, Nat.mod_eq_of_lt h]
  rwa [BitVec.toNat_xor, BitVec.toNat_ofNat, Nat.mod_eq_of_lt h] at hnot

theorem toNat_ofInt (v : ℤ) : (UInt32.ofInt v).toNat = (v % 2 ^ 32).toNat := by
  rw [UInt32.ofInt, UInt32.toNat_ofNat']
  have h := Int.emod_nonneg v (show (2 ^ 32 : ℤ) ≠ 0 by decide)
  have h' := Int.emod_lt_of_pos v (show (0 : ℤ) < 2 ^ 32 by decide)
  omega

/-- A short item is read from the front of the bytes, and passed. -/
theorem readSpec_get (item : StreamItem) (hshort : item.Short) (rest : List UInt8) :
    item.get.readSpec (item.add.addedBytes ++ rest) = (item.result, item.add.addedBytes.length) := by
  cases item with
  | u8 v =>
      simp only [get, add, StreamOp.addedBytes, StreamOp.readSpec]
      rw [takeFixed_append (n := 1) (by rfl)]
      rfl
  | u16 v =>
      have hlt := v.toNat_lt
      simp only [get, add, StreamOp.addedBytes, StreamOp.readSpec]
      rw [takeFixed_append (length_leBytes _ _), ofLe_leBytes_of_lt (by omega), length_leBytes]
      rfl
  | u24 v hv =>
      have hvalue : u24Value (u24Bytes (UInt32.ofInt v)) = v := by
        rw [u24Value_u24Bytes, toNat_ofInt]
        omega
      simp only [get, add, StreamOp.addedBytes, StreamOp.readSpec]
      rw [takeFixed_append (n := 3) (by rfl), hvalue]
      rfl
  | s24 v hv =>
      have hvalue : (u24Value (u24Bytes (UInt32.ofInt v)) : ℤ) = v % 2 ^ 24 := by
        rw [u24Value_u24Bytes, toNat_ofInt]
        omega
      have hlt := u24Value_lt (u24Bytes (UInt32.ofInt v))
      simp only [get, add, StreamOp.addedBytes, StreamOp.readSpec]
      rw [takeFixed_append (n := 3) (by rfl)]
      refine Prod.ext (congrArg StreamResult.integer ?_) rfl
      simp only [u24_negative_iff, xor_low24 hlt]
      split <;> omega
  | u30 v =>
      simp only [get, add, StreamOp.addedBytes, StreamOp.readSpec, takeU30_append]
      rfl
  | d64 bits =>
      have hlt := bits.toNat_lt
      simp only [get, add, StreamOp.addedBytes, StreamOp.readSpec]
      rw [takeFixed_append (length_leBytes _ _), ofLe_leBytes_of_lt (by omega), UInt64.ofNat_toNat,
        length_leBytes]
      rfl
  | string bs hbs =>
      simp only [get, add, ← frame_eq_addedBytes, StreamOp.readSpec, takeString_frame hbs]
      rfl
  | bytes bs hne =>
      have hlt : bs.length < 2 ^ 32 := hshort
      have hpos : 0 < bs.length := List.length_pos_iff.mpr hne
      have hlen : toSize bs.length = bs.length := by
        rw [toSize]
        omega
      have htake : takeLen bs.length (bs ++ rest) = bs.length := by
        rw [takeLen, hlen, List.length_append, Nat.min_eq_left (Nat.le_add_right _ _),
          Nat.mod_eq_of_lt hlt]
      simp only [get, add, StreamOp.addedBytes, StreamOp.readSpec]
      rw [hlen, if_neg hpos.ne', htake, List.take_left, StreamResult.ofBytes, if_pos hpos]
      rfl

/-- An item that is not short is not read back: whatever is read is shorter. -/
theorem readSpec_long {item : StreamItem} (hlong : ¬item.Short) (rest : List UInt8) :
    (item.get.readSpec (item.add.addedBytes ++ rest)).1 ≠ item.result := by
  cases item with
  | bytes bs hne =>
      have hle : 2 ^ 32 ≤ bs.length := Nat.le_of_not_lt hlong
      have hmod : takeLen bs.length (bs ++ rest) < 2 ^ 32 := Nat.mod_lt _ (by decide)
      have hne' : (bs ++ rest).take (takeLen bs.length (bs ++ rest)) ≠ bs := by
        intro h
        have hlen := congrArg List.length h
        rw [List.length_take] at hlen
        omega
      simp only [get, add, StreamOp.addedBytes, StreamOp.readSpec, result, StreamResult.ofBytes]
      split
      · simp
      · split
        · simpa using hne'
        · simp
  | _ => exact absurd trivial hlong

/-! ## A sequence of items -/

/-- What the items put on a stream. -/
def wire (items : List StreamItem) : List UInt8 := items.flatMap fun item => item.add.addedBytes

theorem wire_cons (item : StreamItem) (items : List StreamItem) :
    wire (item :: items) = item.add.addedBytes ++ wire items := by
  rw [wire, List.flatMap_cons, wire]

theorem length_addedBytes_pos (item : StreamItem) : 0 < item.add.addedBytes.length := by
  cases item with
  | bytes bs hne => exact List.length_pos_iff.mpr hne
  | string bs hbs => exact length_frame_pos bs
  | u30 v => exact length_u30Bytes_pos v
  | _ => simp [add, StreamOp.addedBytes, u24Bytes]

/-- Adding the items to a stream in write mode. -/
theorem streamRun_add (items : List StreamItem) {ba : Bytearray} {t : Tape UInt8}
    (h : Represents ba t) (hw : ba.reading = false) :
    Represents (streamRun ba (items.map add)).1 (t.append (wire items)) := by
  induction items generalizing ba t with
  | nil =>
      have happ : t.append (wire []) = t := by
        cases t
        simp [Tape.append, wire]
      rw [happ]
      exact h
  | cons item items ih =>
      have hstep := (streamStep_add item.add h hw (isAdd_add item)).2
      have happ : (t.append item.add.addedBytes).append (wire items) = t.append (wire (item :: items)) := by
        simp [Tape.append, wire_cons]
      rw [← happ]
      exact ih hstep (hstep.reading_eq.trans (h.reading_eq.symm.trans hw))

/-- The package holds the bytes of all items. -/
theorem package_eq (items : List StreamItem) : package items = wire items := by
  have hnew : Represents (ffiStreamNew []) blank := new_represents []
  have hadd := streamRun_add items hnew rfl
  have hres : StreamResult.string (package items) = .string (blank.append (wire items)).retained :=
    (streamStep_represents hadd (show StreamOp.package.allowed _ = true from rfl)).1
  injection hres

/-- Reading the items, with `rest` behind them. -/
theorem streamRun_get (items : List StreamItem) {ba : Bytearray} {t : Tape UInt8} (h : Represents ba t)
    (hr : ba.reading = true) {rest : List UInt8} (hu : t.unread = wire items ++ rest) :
    ((streamRun ba (items.map get)).2 = items.map result ↔ ∀ item ∈ items, item.Short) ∧
      ((∀ item ∈ items, item.Short) →
        bytearrayReadAvailable (streamRun ba (items.map get)).1 = rest.length) := by
  induction items generalizing ba t with
  | nil =>
      refine ⟨by simp [streamRun], fun _ => ?_⟩
      rw [List.map_nil, streamRun, h.available_eq hr, hu]
      rfl
  | cons item items ih =>
      rw [wire_cons, List.append_assoc] at hu
      obtain ⟨hres, hba, hk⟩ := streamStep_read h hr (isRead_get item)
      by_cases hshort : item.Short
      · rw [hu] at hres hba
        rw [readSpec_get item hshort] at hres hba
        have hle : item.add.addedBytes.length ≤ t.unread.length := by simp [hu]
        have hnext : Represents (streamStep ba item.get).1 (t.advance item.add.addedBytes.length) := by
          rw [hba]
          exact h.advance hr hle
        have hunread : (t.advance item.add.addedBytes.length).unread = wire items ++ rest := by
          rw [t.unread_advance (h.reading_eq ▸ hr) hle, hu, List.drop_left]
        obtain ⟨hiff, hleft⟩ := ih hnext (by rw [hba]; exact hr) hunread
        simp only [List.map_cons, streamRun, List.cons.injEq, List.forall_mem_cons, hres, hshort, hiff,
          true_and]
        exact hleft
      · have hne := readSpec_long hshort (wire items ++ rest)
        rw [← hu, ← hres] at hne
        simp only [List.map_cons, streamRun, List.cons.injEq, List.forall_mem_cons, hshort, hne, false_and,
          false_implies, and_true]

/-- Reading the package of some items from a new stream. -/
theorem reads_package {items : List StreamItem} (hne : items ≠ []) :
    ((streamRun (ffiStreamNew (package items)) (items.map get)).2 = items.map result ↔
        ∀ item ∈ items, item.Short) ∧
      ((∀ item ∈ items, item.Short) →
        bytearrayReadAvailable (streamRun (ffiStreamNew (package items)) (items.map get)).1 = 0) := by
  obtain ⟨item, items, rfl⟩ := List.exists_cons_of_ne_nil hne
  have hpos := length_addedBytes_pos item
  have hlen : 0 < (wire (item :: items)).length := by
    rw [wire_cons, List.length_append]
    omega
  have hnew := new_represents (wire (item :: items))
  rw [newTape, if_pos hlen] at hnew
  have hunread : (loaded (wire (item :: items))).unread = wire (item :: items) ++ [] := by
    rw [List.append_nil]
    rfl
  rw [package_eq]
  exact streamRun_get (item :: items) hnew hnew.reading_eq hunread

/-- Bytes that a `uint32_t` cannot count do not come back. -/
theorem not_comesBack_long {bs : List UInt8} (hne : bs ≠ []) (h : 2 ^ 32 ≤ bs.length) :
    ¬ComesBack [.bytes bs hne] := by
  rintro ⟨hres, -⟩
  have hshort := (reads_package (List.cons_ne_nil _ _)).1.mp hres _ List.mem_cons_self
  exact Nat.not_lt.mpr h hshort

end StreamItem

/-- **The items come back, and nothing is left**, exactly when every `Bytes` item is
shorter than `2 ^ 32`. -/
theorem typed_round_trip (items : List StreamItem) :
    StreamItem.ComesBack items ↔ ∀ item ∈ items, item.Short := by
  cases items with
  | nil => exact iff_of_true ⟨rfl, rfl⟩ (fun _ h => by cases h)
  | cons item items =>
      obtain ⟨hiff, hleft⟩ := StreamItem.reads_package (List.cons_ne_nil item items)
      exact ⟨fun h => hiff.mp h.1, fun h => ⟨hiff.mpr h, hleft h⟩⟩

/-- `GetBytes` reads none of `2 ^ 32` bytes. -/
theorem typed_loses_long_bytes : ∃ hne : List.replicate (2 ^ 32) (0 : UInt8) ≠ [],
    ¬StreamItem.ComesBack [.bytes (List.replicate (2 ^ 32) 0) hne] :=
  ⟨List.ne_nil_of_length_pos (by rw [List.length_replicate]; exact Nat.two_pow_pos 32),
    StreamItem.not_comesBack_long _ (le_of_eq List.length_replicate.symm)⟩

end LuaFan
