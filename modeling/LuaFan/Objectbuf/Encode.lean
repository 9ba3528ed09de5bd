/-
# Writing a value graph (`src/objectbuf.c`, `luafan_objectbuf_encode`)

The enumerated values are written list by list: doubles, u30 numbers, strings and
then the tables, whose entries refer to values by index.  The first two indices are
those of false and true; the values of a symbol table come next, and the values of
the graph that the symbol table does not have follow in the order of the lists.

A table is written as the values of its array part, up to the first hole, and the
keys and values of the other entries.
-/
import LuaFan.Objectbuf.Packer
import LuaFan.Stream.ByteFifo

namespace LuaFan

open Fp

/-! ## Symbol tables -/

/-- A symbol table: the indices of its values, the values by index (from 3 on), and
the last index in use. -/
structure SymTable where
  map : IndexMap
  vk : List LuaValue
  index : ℕ
  two_le_index : 2 ≤ index

/-- What stands for a missing symbol table. -/
def SymTable.missing : SymTable := ⟨[], [], 2, le_rfl⟩

/-! ## The code -/

/-- Values get consecutive indices. -/
def IndexMap.addAll (m : IndexMap) (index : ℕ) : List LuaValue → IndexMap
  | [] => m
  | v :: vs => IndexMap.addAll (m.set v (index + 1)) (index + 1) vs

/-- The calls on `bodystream`, the map of indices and the last index in use. -/
structure EncodeState where
  ops : List StreamOp
  map : IndexMap
  index : ℕ

/-- The bytes a sequence of `Add*` calls appends. -/
def addedBytesOf (ops : List StreamOp) : List UInt8 := ops.flatMap StreamOp.addedBytes

/-- The values of a list that the symbol table does not have. -/
def SymTable.fresh (sym : SymTable) (items : List LuaValue) : List LuaValue :=
  items.filter fun v => (sym.map.get v).isNone

/-- The part for one list of values: the number of values written, and the values. -/
def encodeItems (sym : SymTable) (add : LuaValue → StreamOp) (items : List LuaValue)
    (st : EncodeState) : EncodeState :=
  if items = [] then st
  else
    let fresh := sym.fresh items
    { ops := st.ops ++ [.addU30 (UInt32.ofNat fresh.length), .addBytes (addedBytesOf (fresh.map add))]
      map := st.map.addAll st.index fresh
      index := st.index + fresh.length }

/-- `ffi_stream_add_d64(&d, lua_tonumber(L, -1))`. -/
def addNumber (v : LuaValue) : StreamOp := .addD64 (UInt64.ofNat (luaTonumber v).toBits)

/-- `lua_tointeger`. -/
def luaTointeger : LuaValue → ℤ
  | .number n => (n.toInteger.map Int64.toInt).getD 0
  | .string s => (((str2num s).bind LuaNumber.toInteger).map Int64.toInt).getD 0
  | _ => 0

/-- `ffi_stream_add_u30(&d, lua_tointeger(L, -1))`. -/
def addInteger (v : LuaValue) : StreamOp := .addU30 (UInt32.ofInt (luaTointeger v))

/-- `ffi_stream_add_string(&d, buf, len)`. -/
def addText : LuaValue → StreamOp
  | .string s => .addString s
  | _ => .addString []

/-- `sym_map[v] or index_map[v]`; nil is written as 0. -/
def emitIndex (sym : SymTable) (m : IndexMap) (v : LuaValue) : ℕ :=
  ((sym.map.get v).or (m.get v)).getD 0

/-- The test that passes over the array part: the key, converted to a number, is a
whole number from 1 to `count`. -/
def inArrayPart (count : ℕ) (key : LuaValue) : Bool :=
  match (luaTonumber key).value with
  | .fin z => decide (z % unitsPerOne = 0 ∧ 0 < z ∧ z ≤ count * unitsPerOne)
  | _ => false

/-- The values of the array part. -/
def LuaTable.arrayPart (T : LuaTable) : List LuaValue :=
  (List.range (firstBorder T.entries)).map fun i : ℕ => rawGetI T.entries ((i : ℤ) + 1)

/-- The entries that are not passed over. -/
def LuaTable.hashPart (T : LuaTable) : List (LuaValue × LuaValue) :=
  T.entries.filter fun e => !inArrayPart (firstBorder T.entries) e.1

/-- The part for one table. -/
def emitTable (index : LuaValue → ℕ) (T : LuaTable) : List StreamOp :=
  let addIndex := fun v => StreamOp.addU30 (UInt32.ofNat (index v))
  let d := addedBytesOf (T.arrayPart.map addIndex ++
    T.hashPart.flatMap fun e => [addIndex e.1, addIndex e.2])
  let d2 := addedBytesOf [.addU30 (UInt32.ofNat (firstBorder T.entries))]
  [.addU30 (UInt32.ofNat (d.length + d2.length)), .addBytes d2, .addBytes d]

/-- The table a value refers to. -/
def LuaHeap.tableOf (H : LuaHeap) : LuaValue → LuaTable
  | .table ref => H.table ref
  | _ => LuaTable.new none

/-- The part for all tables. -/
def emitTables (H : LuaHeap) (sym : SymTable) (tables : List LuaValue) (st : EncodeState) :
    List StreamOp :=
  if tables = [] then []
  else
    let m := st.map.addAll st.index tables
    .addU30 (UInt32.ofNat tables.length) ::
      tables.flatMap fun t => emitTable (emitIndex sym m) (H.tableOf t)

/-- The first byte: which lists are not empty. -/
def encodeFlag (ctx : Ctx) : UInt8 :=
  (if ctx.numbers = [] then 0 else 0x80) ||| (if ctx.u30s = [] then 0 else 0x40)
    ||| (if ctx.strings = [] then 0 else 0x20) ||| (if ctx.tables = [] then 0 else 0x08)

/-- The state before and after the three lists of scalars. -/
def EncodeState.start (sym : SymTable) : EncodeState :=
  ⟨[], [(.boolean true, 2), (.boolean false, 1)], sym.index⟩

def encodeScalars (sym : SymTable) (ctx : Ctx) : EncodeState :=
  encodeItems sym addText ctx.strings
    (encodeItems sym addInteger ctx.u30s
      (encodeItems sym addNumber ctx.numbers (EncodeState.start sym)))

/-- The calls on `bodystream` after the place holder for the flag. -/
def bodyOps (H : LuaHeap) (sym : SymTable) (ctx : Ctx) : List StreamOp :=
  (encodeScalars sym ctx).ops ++ emitTables H sym ctx.tables (encodeScalars sym ctx)

/-- `luafan_objectbuf_encode`.  False is written as the C string with a zero byte,
which is empty. -/
def objectbufEncode (H : LuaHeap) (o : LuaValue) (sym : SymTable) : Except String (List UInt8) :=
  match o with
  | .nil => .error "no argument."
  | .boolean b => .ok (if b then [1] else [])
  | _ =>
      match packer H (H.length + 1) Ctx.init o with
      | .error e => .error (e.getD "")
      | .ok ctx => .ok (encodeFlag ctx :: addedBytesOf (bodyOps H sym ctx))

/-! ## The stream behind it -/

/-- A buffer that `Add*` calls are made on holds their bytes. -/
theorem streamRun_addAll {ops : List StreamOp} (hops : ∀ op ∈ ops, op.isAdd = true) :
    ∀ {ba : Bytearray} {t : Fifo.Tape UInt8}, Represents ba t → ba.reading = false →
      Represents (streamRun ba ops).1 (t.append (addedBytesOf ops)) := by
  induction ops with
  | nil =>
      intro ba t h _
      have happ : t.append (addedBytesOf []) = t := by
        cases t
        simp [Fifo.Tape.append, addedBytesOf]
      rw [happ]
      exact h
  | cons op ops ih =>
      intro ba t h hw
      obtain ⟨-, h₁⟩ := streamStep_add op h hw (hops op List.mem_cons_self)
      have hw₁ : (streamStep ba op).1.reading = false := h₁.reading_eq.trans (h.reading_eq ▸ hw)
      have h₂ := ih (fun op' hop' => hops op' (List.mem_cons_of_mem op hop')) h₁ hw₁
      have happ : (t.append op.addedBytes).append (addedBytesOf ops)
          = t.append (addedBytesOf (op :: ops)) := by
        simp [Fifo.Tape.append, addedBytesOf]
      rw [happ] at h₂
      exact h₂

theorem isAdd_encodeItems {sym : SymTable} {add : LuaValue → StreamOp} {items : List LuaValue}
    {st : EncodeState} (h : ∀ op ∈ st.ops, op.isAdd = true) :
    ∀ op ∈ (encodeItems sym add items st).ops, op.isAdd = true := by
  unfold encodeItems
  split
  · exact h
  · intro op hop
    simp only [List.mem_append, List.mem_cons, List.not_mem_nil, or_false] at hop
    rcases hop with hop | rfl | rfl
    · exact h op hop
    · rfl
    · rfl

theorem isAdd_bodyOps (H : LuaHeap) (sym : SymTable) (ctx : Ctx) :
    ∀ op ∈ bodyOps H sym ctx, op.isAdd = true := by
  intro op hop
  rcases List.mem_append.mp hop with hop | hop
  · refine isAdd_encodeItems (isAdd_encodeItems (isAdd_encodeItems ?_)) op hop
    simp [EncodeState.start]
  · unfold emitTables at hop
    split at hop
    · cases hop
    · rcases List.mem_cons.mp hop with rfl | hop
      · rfl
      · obtain ⟨t, -, ht⟩ := List.mem_flatMap.mp hop
        simp only [emitTable, List.mem_cons, List.not_mem_nil, or_false] at ht
        rcases ht with rfl | rfl | rfl <;> rfl

/-- **`bodystream` holds the place holder and the bytes of the encoding.** -/
theorem bodystream_holds (H : LuaHeap) (sym : SymTable) (ctx : Ctx) :
    storedBytes (streamRun (bytearrayAlloc 64) (.addU8 0 :: bodyOps H sym ctx)).1
      = 0 :: addedBytesOf (bodyOps H sym ctx) := by
  have hops : ∀ op ∈ StreamOp.addU8 0 :: bodyOps H sym ctx, op.isAdd = true := by
    intro op hop
    rcases List.mem_cons.mp hop with rfl | hop
    · rfl
    · exact isAdd_bodyOps H sym ctx op hop
  have hrep := streamRun_addAll hops (alloc_represents 64) rfl
  rw [storedBytes_eq hrep]
  rfl

end LuaFan
