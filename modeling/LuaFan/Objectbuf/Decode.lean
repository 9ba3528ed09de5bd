/-
# Reading a value graph (`src/objectbuf.c`, `luafan_objectbuf_decode`)

The input is read front to back, so it is represented by the bytes that are left.
The lists are read in the order in which they were written, and each value gets the
next index; the tables are created first and filled afterwards, so that entries may
refer to any of them.
-/
import LuaFan.Objectbuf.Encode

namespace LuaFan

open Fp

/-- How decoding ends without a value: it returns nil and a message, it raises an
error, or it does not end. -/
inductive DecodeStop where
  | failed (msg : String)
  | raised (msg : String)
  | diverges
  deriving DecidableEq, Repr

/-! ## Reading items -/

/-- `ffi_stream_get_u30`. -/
def getU30 (input : List UInt8) : Option (UInt32 × List UInt8) :=
  (takeU30 input).1.map fun u => (u, input.drop (takeU30 input).2)

/-- `ffi_stream_get_d64` and `lua_pushnumber`. -/
def getNumber (input : List UInt8) : Option (LuaValue × List UInt8) :=
  if 8 ≤ input.length then
    some (.number (.float (Binary64.ofBits (ofLe (input.take 8)))), input.drop 8)
  else none

/-- `ffi_stream_get_u30` and `lua_pushinteger`. -/
def getInteger (input : List UInt8) : Option (LuaValue × List UInt8) :=
  (getU30 input).map fun r => (.number (.integer (Int64.ofInt r.1.toNat)), r.2)

/-- `ffi_stream_get_string`. -/
def getBytes (input : List UInt8) : Option (List UInt8 × List UInt8) :=
  match takeString input with
  | (.ok s, k) => some (s, input.drop k)
  | (.need _, _) => none

/-- `ffi_stream_get_string` and `lua_pushlstring`. -/
def getText (input : List UInt8) : Option (LuaValue × List UInt8) :=
  (getBytes input).map fun r => (.string r.1, r.2)

/-! ## The lists of scalars -/

/-- The bytes left, the values that got an index, in order, and `last_top`. -/
structure DecodeState where
  input : List UInt8
  values : List LuaValue
  lastTop : ℕ

/-- `index`. -/
def DecodeState.index (sym : SymTable) (st : DecodeState) : ℕ := sym.index + st.values.length

/-- The loop over the items of one list. -/
def decodeItems (get : List UInt8 → Option (LuaValue × List UInt8)) (err : ℕ → String) :
    ℕ → ℕ → DecodeState → Except DecodeStop DecodeState
  | 0, _, st => .ok st
  | n + 1, i, st =>
      match get st.input with
      | none => .error (.failed (err i))
      | some (v, rest) =>
          decodeItems get err n (i + 1) { st with input := rest, values := st.values ++ [v] }

/-- The part for one list, if the flag has its bit. -/
def decodeList (sym : SymTable) (present : Bool)
    (get : List UInt8 → Option (LuaValue × List UInt8)) (errCount : String)
    (err : ℕ → ℕ → String) (st : DecodeState) : Except DecodeStop DecodeState :=
  if present then
    match getU30 st.input with
    | none => .error (.failed errCount)
    | some (count, rest) =>
        decodeItems get (err count.toNat) count.toNat 1
          { st with input := rest, lastTop := st.index sym + 1 }
  else .ok st

/-! ## The tables -/

/-- `sym_map_vk[i]`. -/
def SymTable.getVk (sym : SymTable) (i : ℕ) : Option LuaValue :=
  if 3 ≤ i then sym.vk[i - 3]? else none

/-- `index_map[i]`. -/
def indexMapGet (sym : SymTable) (values : List LuaValue) (i : ℕ) : Option LuaValue :=
  if sym.index < i then values[i - sym.index - 1]?
  else if i = 1 then some (.boolean false)
  else if i = 2 then some (.boolean true)
  else none

/-- `sym_map_vk[i] or index_map[i]`. -/
def lookupIndex (sym : SymTable) (values : List LuaValue) (i : ℕ) : Option LuaValue :=
  (sym.getVk i).or (indexMapGet sym values i)

/-- `lua_rawset`; NaN cannot be a key. -/
def rawsetChecked (T : LuaTable) (key value : LuaValue) : Except DecodeStop LuaTable :=
  if h : key.isKey = true then .ok (T.rawset key value h)
  else .error (.raised "table index is NaN")

/-- The loop over the array part of a table. -/
def decodeArrayPart (lookup : ℕ → Option LuaValue) :
    ℕ → ℕ → List UInt8 → LuaTable → Except DecodeStop (List UInt8 × LuaTable)
  | 0, _, d, T => .ok (d, T)
  | n + 1, j, d, T =>
      match getU30 d with
      | none => .error (.failed "'i value' decode failed.")
      | some (vi, d) =>
          match lookup vi.toNat with
          | none => .error (.raised s!"vi={vi} not found.")
          | some v =>
              match rawsetChecked T (intKey j) v with
              | .error e => .error e
              | .ok T => decodeArrayPart lookup n (j + 1) d T

/-- The loop over the other entries.  A round takes at least a byte, so the number
of bytes bounds the rounds. -/
def decodeHashPart (lookup : ℕ → Option LuaValue) :
    ℕ → List UInt8 → LuaTable → Except DecodeStop LuaTable
  | _, [], T => .ok T
  | 0, _ :: _, _ => .error .diverges
  | rounds + 1, b :: bs, T =>
      match getU30 (b :: bs) with
      | none => .error (.failed "decode failed.")
      | some (ki, d) =>
          match getU30 d with
          | none => .error (.failed "decode failed.")
          | some (vi, d) =>
              match lookup ki.toNat with
              | none => .error (.raised s!"ki={ki} not found.")
              | some k =>
                  match lookup vi.toNat with
                  | none => .error (.raised s!"vi={vi} not found.")
                  | some v =>
                      match rawsetChecked T k v with
                      | .error e => .error e
                      | .ok T => decodeHashPart lookup rounds d T

/-- The part for one table, which is new. -/
def decodeTable (lookup : ℕ → Option LuaValue) (d : List UInt8) : Except DecodeStop LuaTable :=
  match getU30 d with
  | none => .error (.failed "'count' decode failed.")
  | some (count, d) =>
      match decodeArrayPart lookup count.toNat 1 d (LuaTable.new none) with
      | .error e => .error e
      | .ok (d, T) => decodeHashPart lookup d.length d T

/-- The loop that fills the tables. -/
def decodeBodies (lookup : ℕ → Option LuaValue) :
    ℕ → List UInt8 → Except DecodeStop (List LuaTable)
  | 0, _ => .ok []
  | n + 1, input =>
      match getBytes input with
      | none => .error (.failed "decode failed.")
      | some (d, rest) =>
          match decodeTable lookup d with
          | .error e => .error e
          | .ok T =>
              match decodeBodies lookup n rest with
              | .error e => .error e
              | .ok Ts => .ok (T :: Ts)

/-- The part for all tables.  They are created by a loop whose counter is a
`uint32_t` like the count, and which the largest count keeps from ending. -/
def decodeTables (sym : SymTable) (present : Bool) (st : DecodeState) :
    Except DecodeStop (LuaHeap × DecodeState) :=
  if present then
    match getU30 st.input with
    | none => .error (.failed "decode failed.")
    | some (count, rest) =>
        if count.toNat = 2 ^ 32 - 1 then .error .diverges
        else
          let values := st.values ++ (List.range count.toNat).map .table
          match decodeBodies (lookupIndex sym values) count.toNat rest with
          | .error e => .error e
          | .ok H => .ok (H, ⟨rest, values, st.index sym + 1⟩)
  else .ok ([], st)

/-! ## The code -/

/-- The part behind the flag: the tables, and the state in which the top value is looked up. -/
def decodeLists (flag : UInt8) (input : List UInt8) (sym : SymTable) :
    Except DecodeStop (LuaHeap × DecodeState) := do
  let st : DecodeState := ⟨input, [], sym.index + 1⟩
  let st ← decodeList sym (flag &&& 0x80 ≠ 0) getNumber
    "decode failed, can't get `number` count."
    (fun count i => s!"decode failed, can't decode `number`, {i}/{count}") st
  let st ← decodeList sym (flag &&& 0x40 ≠ 0) getInteger "decode failed."
    (fun _ _ => "decode failed.") st
  let st ← decodeList sym (flag &&& 0x20 ≠ 0) getText "decode failed."
    (fun _ _ => "decode failed.") st
  decodeTables sym (flag &&& 0x08 ≠ 0) st

/-- `luafan_objectbuf_decode`, into a heap of its own.  The length of the string is
passed on as a `uint32_t`. -/
def objectbufDecode (buf : List UInt8) (sym : SymTable) : Except DecodeStop (LuaHeap × LuaValue) :=
  match buf.take (buf.length % 2 ^ 32) with
  | [] => .ok ([], .boolean false)
  | flag :: input =>
      if flag = 0 then .ok ([], .boolean false)
      else if flag = 1 then .ok ([], .boolean true)
      else do
        let (H, st) ← decodeLists flag input sym
        .ok (H, (lookupIndex sym st.values st.lastTop).getD .nil)

theorem objectbufDecode_eq {buf input : List UInt8} {flag : UInt8} (sym : SymTable)
    (hbuf : buf.take (buf.length % 2 ^ 32) = flag :: input) (h0 : flag ≠ 0) (h1 : flag ≠ 1) :
    objectbufDecode buf sym = decodeLists flag input sym >>= fun (H, st) =>
      .ok (H, (lookupIndex sym st.values st.lastTop).getD .nil) := by
  rw [objectbufDecode, hbuf]
  simp only [h0, h1, if_false]

end LuaFan
