/-
# Lua values and tables

The part of the Lua 5.3 C API that the codecs use: numbers with their two
subtypes, raw equality, `lua_tonumber`, and tables with `lua_next`, `lua_rawget`,
`lua_rawset` and `lua_rawlen`.

A table keeps what Lua guarantees as fields: its keys are normal (no nil, no NaN,
and an integer where a float has an integer's value), no two of them are equal,
no value is nil, and the length is one of its borders.  The order of the entries
is the order of `lua_next`; nothing is assumed about it.
-/
import LuaFan.Lib.Numeral

namespace LuaFan

open Fp

/-- A C string: the bytes before the first zero byte. -/
def cString (s : List UInt8) : List UInt8 := s.takeWhile (· ≠ 0)

/-- Slices of one length are the string up to where the last one ends. -/
theorem flatten_slices {α : Type} (m : ℕ) (l : List α) :
    ∀ n, ((List.range n).map fun i => (l.drop (i * m)).take m).flatten = l.take (n * m) := by
  intro n
  induction n with
  | zero => simp
  | succ n ih =>
      rw [List.range_succ, List.map_append, List.flatten_append, ih, Nat.succ_mul, List.take_add]
      simp

/-! ## Numbers -/

/-- A Lua number: a 64-bit integer or a binary64 float. -/
inductive LuaNumber where
  | integer (i : Int64)
  | float (x : Binary64)
deriving DecidableEq

namespace LuaNumber

/-- The number a Lua number stands for; raw equality compares these. -/
def value : LuaNumber → Value
  | integer i => intValue i.toInt
  | float x => x.value

/-- The `lua_Number` (a C `double`) of a number. -/
def toDouble : LuaNumber → Binary64
  | integer i => ofInt i.toInt
  | float x => x

def isNan (n : LuaNumber) : Bool := decide (n.value = .nan)

/-- The integer with the value of a float, if there is one (`luaV_tointeger`). -/
def toInteger : LuaNumber → Option Int64
  | integer i => some i
  | float x =>
      match x.value with
      | .fin z =>
          let i := z / unitsPerOne
          if z % unitsPerOne = 0 ∧ -2 ^ 63 ≤ i ∧ i < 2 ^ 63 then some (Int64.ofInt i) else none
      | _ => none

/-- The form in which a number is stored as a key. -/
def normal (n : LuaNumber) : LuaNumber :=
  match n.toInteger with
  | some i => integer i
  | none => n

end LuaNumber

/-! ## Values -/

/-- The types of the values that neither codec can hold. -/
inductive LuaType where
  | function
  | userdata
  | lightuserdata
  | thread
deriving DecidableEq

/-- `lua_typename` of these. -/
def LuaType.name : LuaType → String
  | function => "function"
  | userdata => "userdata"
  | lightuserdata => "userdata"
  | thread => "thread"

/-- A Lua value.  Tables and other objects are references. -/
inductive LuaValue where
  | nil
  | boolean (b : Bool)
  | number (n : LuaNumber)
  | string (s : List UInt8)
  | table (ref : ℕ)
  | other (type : LuaType) (ref : ℕ)
deriving DecidableEq

namespace LuaValue

/-- `lua_rawequal`. -/
def rawEq : LuaValue → LuaValue → Bool
  | number a, number b => !a.isNan && decide (a.value = b.value)
  | a, b => decide (a = b)

/-- The form in which a value is stored as a key. -/
def normal : LuaValue → LuaValue
  | number n => number n.normal
  | v => v

/-- Can the value be a key?  Nil and NaN cannot. -/
def isKey : LuaValue → Bool
  | nil => false
  | number n => !n.isNan
  | _ => true

end LuaValue

/-! ## Numerals as numbers -/

/-- The digits of a decimal numeral as an integer, unless it is too large for the
sign (`l_str2int`). -/
def decimalInteger (neg : Bool) (ds : List UInt8) : Option Int64 :=
  let n := digitsValue 10 ds
  if n < 2 ^ 63 + (if neg then 1 else 0) then some (Int64.ofInt (if neg then -n else n)) else none

/-- `l_str2int`: an integer numeral between blanks.  Hexadecimal numerals wrap
around. -/
def str2int (s : List UInt8) : Option Int64 :=
  let s := s.dropWhile isSpace
  let sign := takeSign s
  let s := s.drop sign.2
  let hex := startsWith ['0', 'x'] s
  let ds := if hex then (s.drop 2).takeWhile isXDigit else s.takeWhile isDigit
  let rest := s.drop ((if hex then 2 else 0) + ds.length)
  if ds = [] ∨ rest.dropWhile isSpace ≠ [] then none
  else if hex then
    some (Int64.ofInt (if sign.1 then -(digitsValue 16 ds) else digitsValue 16 ds))
  else decimalInteger sign.1 ds

/-- The byte that decides how `l_str2d` reads a numeral, in lower case. -/
def numeralMode (s : List UInt8) : Option UInt8 :=
  (s.find? fun b => b == ascii '.' || toLower b == ascii 'x' || toLower b == ascii 'n').map toLower

/-- `l_str2d`: a float numeral between blanks; `inf` and `nan` are refused. -/
def str2d (s : List UInt8) : Option Binary64 :=
  if numeralMode s = some (ascii 'n') then none
  else
    let r := strtod s
    if r.2 = 0 ∨ (s.drop r.2).dropWhile isSpace ≠ [] then none else some r.1

/-- `luaO_str2num` of a whole string.  The C functions stop at a zero byte, and a
numeral that does not reach the end of the string is refused. -/
def str2num (s : List UInt8) : Option LuaNumber :=
  if s.contains 0 then none
  else
    match str2int s with
    | some i => some (.integer i)
    | none => (str2d s).map .float

/-- `lua_tonumber`: 0 for what is not a number and not a numeral. -/
def luaTonumber : LuaValue → Binary64
  | .number n => n.toDouble
  | .string s => ((str2num s).map LuaNumber.toDouble).getD (ofInt 0)
  | _ => ofInt 0

/-! ## Tables -/

/-- The value at a key in a list of entries, nil if there is none.  The key
compares by raw equality, so it is looked up in its normal form. -/
def rawGet (entries : List (LuaValue × LuaValue)) (key : LuaValue) : LuaValue :=
  match entries.find? fun e => e.1 = key.normal with
  | some e => e.2
  | none => .nil

/-- The key of the integer `i`. -/
def intKey (i : ℤ) : LuaValue := .number (.integer (Int64.ofInt i))

theorem isKey_one : (intKey 1).isKey = true := rfl

theorem isKey_two : (intKey 2).isKey = true := rfl

/-- The value at the integer `i` (`lua_rawgeti`); no integer out of range is a key. -/
def rawGetI (entries : List (LuaValue × LuaValue)) (i : ℤ) : LuaValue :=
  if -2 ^ 63 ≤ i ∧ i < 2 ^ 63 then rawGet entries (intKey i) else .nil

/-- A border: `n` is 0 or the key of an entry, and `n + 1` is not. -/
def IsBorder (entries : List (LuaValue × LuaValue)) (n : ℕ) : Prop :=
  (n = 0 ∨ rawGetI entries n ≠ .nil) ∧ rawGetI entries (n + 1) = .nil

/-- A metatable: the tags of the JSON module, or some other one. -/
inductive Metatable where
  | jsonArray
  | jsonObject
  | other (ref : ℕ)
deriving DecidableEq

/-- A Lua table. -/
structure LuaTable where
  entries : List (LuaValue × LuaValue)
  rawlen : ℕ
  metatable : Option Metatable
  nodup : (entries.map Prod.fst).Nodup
  isKey : ∀ e ∈ entries, e.1.isKey = true
  normal : ∀ e ∈ entries, e.1.normal = e.1
  ne_nil : ∀ e ∈ entries, e.2 ≠ .nil
  border : IsBorder entries rawlen

/-- The tables of a Lua state; a reference beyond them is to an empty table. -/
abbrev LuaHeap := List LuaTable

/-- A coroutine. -/
abbrev Co := ℕ

end LuaFan
