/-
# Writing JSON (`src/json.c`, encode)

`jsonEncode` writes a Lua value as JSON text.  Tables come from a heap and may
share or contain each other, so the encoder carries the tables it is inside of,
as the source does, and answers an error when it meets one of them again.

Counters the source keeps in an `int` are 32 bits wide here too.  Running out of
memory is left out, except where the source never stops allocating.
-/
import LuaFan.Lua.Table

namespace LuaFan

open Fp

/-- What the module reads of its surroundings: the text of `caller_site`, and
whether `enable_null` was last called with a true value. -/
structure JsonState where
  site : List UInt8
  nullEnabled : Bool

/-- The text of a raised error. -/
abbrev JsonError := List UInt8

/-- The value `json.null` has in null mode, a userdata of the module. -/
def nullSentinel : LuaValue := .other .userdata 0

/-! ## Scalars -/

/-- A hexadecimal digit as `%x` writes it. -/
def hexDigit (n : ℕ) : UInt8 := UInt8.ofNat (if n < 10 then 48 + n else 87 + n)

/-- How `encode_string` writes one byte. -/
def escapeByte (c : UInt8) : List UInt8 :=
  if c = ascii '\\' then [ascii '\\', ascii '\\']
  else if c = ascii '"' then [ascii '\\', ascii '"']
  else if c = 8 then [ascii '\\', ascii 'b']
  else if c = 12 then [ascii '\\', ascii 'f']
  else if c = 10 then [ascii '\\', ascii 'n']
  else if c = 13 then [ascii '\\', ascii 'r']
  else if c = 9 then [ascii '\\', ascii 't']
  else if c < 0x20 then
    [ascii '\\', ascii 'u', ascii '0', ascii '0', hexDigit (c.toNat / 16), hexDigit (c.toNat % 16)]
  else [c]

/-- `encode_string`. -/
def encodeString (s : List UInt8) : List UInt8 :=
  ascii '"' :: s.flatMap escapeByte ++ [ascii '"']

/-- A zero without its sign. -/
def positiveZero (x : Binary64) : Binary64 := if x.mag = 0 then ofRatio false 0 1 else x

/-- `encode_number`. -/
def encodeNumber (n : LuaNumber) : Except JsonError (List UInt8) :=
  let val := n.toDouble
  let unexpected (label : String) := bytesOf "unexpected number value '" ++ bytesOf label ++ bytesOf "'"
  match val.value with
  | .nan => .error (unexpected "nan")
  | .posInf => .error (unexpected "inf")
  | .negInf => .error (unexpected "-inf")
  | .fin _ => .ok (formatG 14 (positiveZero val))

/-! ## Tables

The encoder of the values inside is a parameter here, and so is the monad it runs in: one
that raises the errors of the module, and may keep a state besides. -/

/-- The keys of an array are counted in an `int`, and must all be numbers. -/
def countKeys : List (LuaValue × LuaValue) → Int32 → Except JsonError Int32
  | [], n => .ok n
  | (.number _, _) :: es, n => countKeys es (n + 1)
  | _ :: _, _ => .error (bytesOf "invalid table: mixed or invalid key types")

section Tables

variable {m : Type → Type} [Monad m] [MonadExceptOf JsonError m] [MonadLiftT (Except JsonError) m]

/-- The elements at `i + 1`, …, `i + k`, separated by commas. -/
def encodeElements (enc : LuaValue → m (List UInt8)) (entries : List (LuaValue × LuaValue)) :
    ℕ → ℕ → m (List UInt8)
  | _, 0 => pure []
  | i, k + 1 => do
      let text ← enc (rawGetI entries (i + 1))
      let rest ← encodeElements enc entries (i + 1) k
      pure ((if 0 < i then [ascii ','] else []) ++ text ++ rest)

/-- The array branch of `encode_table`.  The loop counter is an `int` that is
compared with `<=`: it never passes the largest one, and the text grows until the
memory is used up. -/
def encodeArray (enc : LuaValue → m (List UInt8)) (T : LuaTable) : m (List UInt8) := do
  let n ← countKeys T.entries 0
  let arrLen := Int32.ofNat T.rawlen
  if n ≠ arrLen then throw (bytesOf "invalid table: sparse array")
  else do
    let text ← encodeElements enc T.entries 0 arrLen.toInt.toNat
    if arrLen = Int32.maxValue then throw (bytesOf "out of memory")
    else pure ([ascii '['] ++ text ++ [ascii ']'])

/-- The members of an object, in the order of `lua_next`. -/
def encodeMembers (enc : LuaValue → m (List UInt8)) : List (LuaValue × LuaValue) → Bool → m (List UInt8)
  | [], _ => pure []
  | (.string key, value) :: es, first => do
      let text ← enc value
      let rest ← encodeMembers enc es false
      pure ((if first then [] else [ascii ',']) ++ encodeString key ++ [ascii ':'] ++ text ++ rest)
  | _ :: _, _ => throw (bytesOf "invalid table: mixed or invalid key types")

/-- The error for an empty table that is neither tagged as array nor as object. -/
def ambiguousEmptyTable (st : JsonState) : JsonError :=
  bytesOf "ambiguous empty table at " ++ st.site
    ++ bytesOf ": use json.array() for [] or json.object() for \x7b\x7d"

/-- `encode_table`, the test for cycles apart. -/
def encodeTable (st : JsonState) (enc : LuaValue → m (List UInt8)) (T : LuaTable) : m (List UInt8) :=
  let isArrMt := T.metatable = some .jsonArray
  let isObjMt := T.metatable = some .jsonObject
  let hasIndex1 := rawGetI T.entries 1 ≠ .nil
  let empty := T.entries = []
  if hasIndex1 ∨ isArrMt ∨ (¬isObjMt ∧ empty) then
    if ¬isArrMt ∧ ¬isObjMt ∧ empty then throw (ambiguousEmptyTable st)
    else encodeArray enc T
  else do
    let text ← encodeMembers enc T.entries true
    pure ([ascii '\x7b'] ++ text ++ [ascii '\x7d'])

end Tables

/-! ### With no state -/

section Except

variable (st : JsonState) (enc : LuaValue → Except JsonError (List UInt8)) (T : LuaTable)

theorem encodeElements_step (entries : List (LuaValue × LuaValue)) (i k : ℕ) :
    encodeElements enc entries i (k + 1) = (do
      let text ← enc (rawGetI entries (i + 1))
      let rest ← encodeElements enc entries (i + 1) k
      .ok ((if 0 < i then [ascii ','] else []) ++ text ++ rest)) := rfl

theorem encodeArray_def :
    encodeArray enc T = (do
      let n ← countKeys T.entries 0
      let arrLen := Int32.ofNat T.rawlen
      if n ≠ arrLen then .error (bytesOf "invalid table: sparse array")
      else do
        let text ← encodeElements enc T.entries 0 arrLen.toInt.toNat
        if arrLen = Int32.maxValue then .error (bytesOf "out of memory")
        else .ok ([ascii '['] ++ text ++ [ascii ']'])) := rfl

theorem encodeMembers_step (key : List UInt8) (value : LuaValue) (es : List (LuaValue × LuaValue)) (first : Bool) :
    encodeMembers enc ((.string key, value) :: es) first = (do
      let text ← enc value
      let rest ← encodeMembers enc es false
      .ok ((if first then [] else [ascii ',']) ++ encodeString key ++ [ascii ':'] ++ text ++ rest)) := rfl

theorem encodeTable_def :
    encodeTable st enc T =
      if rawGetI T.entries 1 ≠ .nil ∨ T.metatable = some .jsonArray ∨
          (¬T.metatable = some .jsonObject ∧ T.entries = []) then
        if ¬T.metatable = some .jsonArray ∧ ¬T.metatable = some .jsonObject ∧ T.entries = [] then
          .error (ambiguousEmptyTable st)
        else encodeArray enc T
      else (do
        let text ← encodeMembers enc T.entries true
        .ok ([ascii '\x7b'] ++ text ++ [ascii '\x7d'])) := rfl

end Except

/-- `encode_value`, with the test for cycles of `encode_table`: `stack` holds the
tables it is inside of.  The first argument bounds the depth of the nesting. -/
def encodeValue (st : JsonState) (H : LuaHeap) :
    ℕ → List ℕ → LuaValue → Except JsonError (List UInt8)
  | depth, stack, v =>
      if v = nullSentinel then .ok (bytesOf "null")
      else
        match v, depth with
        | .nil, _ => .ok (bytesOf "null")
        | .boolean b, _ => .ok (bytesOf (if b then "true" else "false"))
        | .number n, _ => encodeNumber n
        | .string s, _ => .ok (encodeString s)
        | .other type _, _ => .error (bytesOf "unexpected type '" ++ bytesOf type.name ++ bytesOf "'")
        | .table _, 0 => .error []
        | .table ref, depth + 1 =>
            if ref ∈ stack then .error (bytesOf "circular reference")
            else encodeTable st (encodeValue st H depth (ref :: stack)) (H.table ref)

/-- `json_encode`.  The tables on the stack are distinct and, the innermost one
apart, not empty, so the nesting is not deeper than the heap has tables. -/
def jsonEncode (st : JsonState) (H : LuaHeap) (v : LuaValue) : Except JsonError (List UInt8) :=
  encodeValue st H (H.length + 1) [] v

end LuaFan
