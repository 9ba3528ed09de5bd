/-
# Reading JSON (`src/json.c`, decode)

A recursive-descent parser over a text.  Where the source keeps the text and a
position, the functions here keep what is left of the text; a position is the
length of the text less the length of what is left, and errors are reported with
the line and column of that position.

A table is put on the heap when its closing bracket is read; until then nothing
else can refer to it.
-/
import LuaFan.Json.Encode

namespace LuaFan

open Fp

/-- The text being decoded and the state of the module. -/
structure JsonInput where
  st : JsonState
  str : List UInt8

/-! ## Errors -/

/-- The line and column after the bytes `before`. -/
def lineCol (before : List UInt8) : ℕ × ℕ :=
  before.foldl (fun lc b => if b = 10 then (lc.1 + 1, 1) else (lc.1, lc.2 + 1)) (1, 1)

/-- `decode_error_at`, at the position where `left` is left of the text. -/
def decodeErrorAt {α : Type} (p : JsonInput) (left : List UInt8) (msg : List UInt8) :
    Except JsonError α :=
  let lc := lineCol (p.str.take (p.str.length - left.length))
  let place := msg ++ bytesOf " at line " ++ bytesOf (toString lc.1) ++ bytesOf " col "
    ++ bytesOf (toString lc.2)
  if p.st.site ≠ [] ∧ p.st.site ≠ bytesOf "?" then
    .error (place ++ bytesOf " (from " ++ p.st.site ++ bytesOf ")")
  else .error place

/-! ## Characters -/

/-- `is_space`. -/
def isJsonSpace (c : UInt8) : Bool := c == 32 || c == 9 || c == 13 || c == 10

/-- `is_delim`. -/
def isDelim (c : UInt8) : Bool :=
  isJsonSpace c || c == ascii ']' || c == ascii '\x7d' || c == ascii ','

/-- `next_char` over the spaces. -/
def skipSpaces (s : List UInt8) : List UInt8 := s.dropWhile isJsonSpace

/-- The bytes before the next delimiter. -/
def nextWord (s : List UInt8) : List UInt8 := s.takeWhile fun c => !isDelim c

/-! ## Strings -/

/-- `codepoint_to_utf8`; nothing beyond the last code point. -/
def codepointToUtf8 (n : UInt32) : Option (List UInt8) :=
  if n ≤ 0x7f then some [n.toUInt8]
  else if n ≤ 0x7ff then some [((0xc0 : UInt32) ||| (n >>> 6)).toUInt8, ((0x80 : UInt32) ||| (n &&& 0x3f)).toUInt8]
  else if n ≤ 0xffff then
    some [((0xe0 : UInt32) ||| (n >>> 12)).toUInt8, ((0x80 : UInt32) ||| ((n >>> 6) &&& 0x3f)).toUInt8,
      ((0x80 : UInt32) ||| (n &&& 0x3f)).toUInt8]
  else if n ≤ 0x10ffff then
    some [((0xf0 : UInt32) ||| (n >>> 18)).toUInt8, ((0x80 : UInt32) ||| ((n >>> 12) &&& 0x3f)).toUInt8,
      ((0x80 : UInt32) ||| ((n >>> 6) &&& 0x3f)).toUInt8, ((0x80 : UInt32) ||| (n &&& 0x3f)).toUInt8]
  else none

/-- `hex4`: the value of four hexadecimal digits. -/
def hex4 (s : List UInt8) : UInt32 :=
  (s.take 4).foldl (fun n c => (n <<< 4) ||| UInt32.ofNat (digitValue c)) 0

/-- Are there four hexadecimal digits in front? -/
def isHex4 (s : List UInt8) : Bool := decide (4 ≤ s.length) && (s.take 4).all isXDigit

/-- `is_high_surrogate_hex`. -/
def isHighSurrogateHex (s : List UInt8) : Bool :=
  isHex4 s && toLower (s.getD 0 0) == ascii 'd' &&
    ((ascii '8' ≤ s.getD 1 0 && s.getD 1 0 ≤ ascii '9')
      || toLower (s.getD 1 0) == ascii 'a' || toLower (s.getD 1 0) == ascii 'b')

/-- The part of `parse_string` for a `\u` escape: `hex` is left after the `u`, and
`start` from the backslash on. -/
def unicodeEscape (p : JsonInput) (start hex : List UInt8) : Except JsonError (List UInt8 × List UInt8) :=
  let invalid : Except JsonError (List UInt8 × List UInt8) :=
    decodeErrorAt p start (bytesOf "invalid unicode escape in string")
  let emit (cp : UInt32) (used : ℕ) : Except JsonError (List UInt8 × List UInt8) :=
    match codepointToUtf8 cp with
    | some utf8 => .ok (utf8, hex.drop used)
    | none => decodeErrorAt p start (bytesOf "invalid unicode codepoint")
  if hex.length < 4 then invalid
  else if isHighSurrogateHex hex ∧ hex.getD 4 0 = ascii '\\' ∧ hex.getD 5 0 = ascii 'u'
      ∧ isHex4 (hex.drop 6) then
    -- the second escape is taken for the low surrogate whatever its value is
    emit ((hex4 hex - 0xd800) * 0x400 + (hex4 (hex.drop 6) - 0xdc00) + 0x10000) 10
  else if isHex4 hex then emit (hex4 hex) 4
  else invalid

/-- The byte a one-letter escape stands for. -/
def simpleEscape (c : UInt8) : Option UInt8 :=
  if c = ascii '\\' then some (ascii '\\')
  else if c = ascii '/' then some (ascii '/')
  else if c = ascii '"' then some (ascii '"')
  else if c = ascii 'b' then some 8
  else if c = ascii 'f' then some 12
  else if c = ascii 'n' then some 10
  else if c = ascii 'r' then some 13
  else if c = ascii 't' then some 9
  else none

/-- One escape: `start` is left from the backslash on, `open_` from the opening
quote of the string. -/
def parseEscape (p : JsonInput) (open_ start : List UInt8) : Except JsonError (List UInt8 × List UInt8) :=
  match start.drop 1 with
  | [] => decodeErrorAt p open_ (bytesOf "expected closing quote for string")
  | c :: s =>
      if c = ascii 'u' then unicodeEscape p start s
      else
        match simpleEscape c with
        | some out => .ok ([out], s)
        | none =>
            decodeErrorAt p start
              (cString (bytesOf "invalid escape char '" ++ [c] ++ bytesOf "' in string"))

/-- The loop of `parse_string`.  The first argument bounds its rounds. -/
def parseStringLoop (p : JsonInput) (open_ : List UInt8) :
    ℕ → List UInt8 → List UInt8 → Except JsonError (List UInt8 × List UInt8)
  | n + 1, x :: s, acc =>
      if x < 32 then decodeErrorAt p (x :: s) (bytesOf "control character in string")
      else if x = ascii '\\' then do
        let (out, s) ← parseEscape p open_ (x :: s)
        parseStringLoop p open_ n s (acc ++ out)
      else if x = ascii '"' then .ok (acc, s)
      else parseStringLoop p open_ n s (acc ++ [x])
  | _, _, _ => decodeErrorAt p open_ (bytesOf "expected closing quote for string")

/-- `parse_string`. -/
def parseString (p : JsonInput) (s : List UInt8) : Except JsonError (List UInt8 × List UInt8) :=
  match s with
  | c :: s' =>
      if c = ascii '"' then parseStringLoop p s s'.length s' []
      else decodeErrorAt p s (bytesOf "expected string")
  | [] => decodeErrorAt p s (bytesOf "expected string")

/-! ## Numbers and literals -/

/-- `parse_number`. -/
def parseNumber (p : JsonInput) (s : List UInt8) : Except JsonError (LuaValue × List UInt8) :=
  let word := nextWord s
  if word.length = 0 ∨ 128 ≤ word.length then decodeErrorAt p s (bytesOf "invalid number")
  else
    let (n, used) := strtod (cString word)
    if used ≠ word.length then
      decodeErrorAt p s (bytesOf "invalid number '" ++ cString word ++ bytesOf "'")
    else .ok (.number (.float (positiveZero n)), s.drop word.length)

/-- `parse_literal`. -/
def parseLiteral (p : JsonInput) (s : List UInt8) : Except JsonError (LuaValue × List UInt8) :=
  let word := nextWord s
  let rest := s.drop word.length
  if word = bytesOf "true" then .ok (.boolean true, rest)
  else if word = bytesOf "false" then .ok (.boolean false, rest)
  else if word = bytesOf "null" then
    .ok (if p.st.nullEnabled then nullSentinel else .nil, rest)
  else
    decodeErrorAt p s (bytesOf "invalid literal '" ++ cString (word.take 31) ++ bytesOf "'")

/-! ## Containers and values -/

/-- The parser of a value, as the containers call it. -/
abbrev ValueParser := LuaHeap → List UInt8 → Except JsonError ((LuaValue × LuaHeap) × List UInt8)

/-- The key of the `int` counter of `parse_array`. -/
def counterKey (n : Int32) : LuaValue := intKey n.toInt

/-- The loop of `parse_array`: `n` is the next index and `T` the table so far.
The first argument bounds its rounds. -/
def parseArrayLoop (p : JsonInput) (pv : ValueParser) :
    ℕ → Int32 → LuaTable → LuaHeap → List UInt8 →
      Except JsonError ((LuaTable × LuaHeap) × List UInt8)
  | 0, _, _, _, _ => .error []
  | k + 1, n, T, H, s =>
      let s := skipSpaces s
      if s.head? = some (ascii ']') then .ok ((T, H), s.tail)
      else do
        let ((v, H), s) ← pv H s
        let T := T.rawset (counterKey n) v rfl
        match skipSpaces s with
        | [] => decodeErrorAt p [] (bytesOf "expected ']' or ','")
        | chr :: s =>
            if chr = ascii ']' then .ok ((T, H), s)
            else if chr = ascii ',' then parseArrayLoop p pv k (n + 1) T H s
            else decodeErrorAt p s (bytesOf "expected ']' or ','")

/-- The loop of `parse_object`. -/
def parseObjectLoop (p : JsonInput) (pv : ValueParser) :
    ℕ → LuaTable → LuaHeap → List UInt8 →
      Except JsonError ((LuaTable × LuaHeap) × List UInt8)
  | 0, _, _, _ => .error []
  | k + 1, T, H, s =>
      match skipSpaces s with
      | [] => decodeErrorAt p [] (bytesOf "expected string for key")
      | c :: s =>
          if c = ascii '\x7d' then .ok ((T, H), s)
          else if c ≠ ascii '"' then
            decodeErrorAt p (c :: s) (bytesOf "expected string for key")
          else do
            let (key, s) ← parseString p (c :: s)
            match skipSpaces s with
            | [] => decodeErrorAt p [] (bytesOf "expected ':' after key")
            | c :: s =>
                if c ≠ ascii ':' then
                  decodeErrorAt p (c :: s) (bytesOf "expected ':' after key")
                else do
                  let ((v, H), s) ← pv H (skipSpaces s)
                  let T := T.rawset (.string key) v rfl
                  match skipSpaces s with
                  | [] => decodeErrorAt p [] (bytesOf "expected '\x7d' or ','")
                  | chr :: s =>
                      if chr = ascii '\x7d' then .ok ((T, H), s)
                      else if chr = ascii ',' then parseObjectLoop p pv k T H s
                      else decodeErrorAt p s (bytesOf "expected '\x7d' or ','")

/-- `parse_value`.  The first argument bounds the depth of the nesting. -/
def parseValue (p : JsonInput) : ℕ → ValueParser
  | 0, _, _ => .error []
  | depth + 1, H, s =>
      match s with
      | [] => decodeErrorAt p [] (bytesOf "unexpected character ''")
      | chr :: rest =>
          if chr = ascii '"' then do
            let (text, s) ← parseString p s
            .ok ((.string text, H), s)
          else if isDigit chr ∨ chr = ascii '-' then do
            let (v, s) ← parseNumber p s
            .ok ((v, H), s)
          else if chr = ascii 't' ∨ chr = ascii 'f' ∨ chr = ascii 'n' then do
            let (v, s) ← parseLiteral p s
            .ok ((v, H), s)
          else if chr = ascii '[' then do
            let ((T, H), s) ←
              parseArrayLoop p (parseValue p depth) (rest.length + 1) 1 (.new (some .jsonArray)) H rest
            .ok ((.table H.length, H ++ [T]), s)
          else if chr = ascii '\x7b' then do
            let ((T, H), s) ←
              parseObjectLoop p (parseValue p depth) (rest.length + 1) (.new (some .jsonObject)) H rest
            .ok ((.table H.length, H ++ [T]), s)
          else
            decodeErrorAt p s
              (cString (bytesOf "unexpected character '" ++ [chr] ++ bytesOf "'"))

/-- `lua_typename` of a value. -/
def LuaValue.typename : LuaValue → String
  | .nil => "nil"
  | .boolean _ => "boolean"
  | .number _ => "number"
  | .string _ => "string"
  | .table _ => "table"
  | .other type _ => type.name

/-- `json_decode`: the value and the tables of which it is made. -/
def jsonDecode (st : JsonState) (arg : LuaValue) : Except JsonError (LuaValue × LuaHeap) :=
  match arg with
  | .string str => do
      let p : JsonInput := ⟨st, str⟩
      let (r, s) ← parseValue p (str.length + 1) [] (skipSpaces str)
      if skipSpaces s ≠ [] then decodeErrorAt p (skipSpaces s) (bytesOf "trailing garbage")
      else .ok r
  | v => .error (bytesOf "expected argument of type string, got " ++ bytesOf v.typename)

end LuaFan
