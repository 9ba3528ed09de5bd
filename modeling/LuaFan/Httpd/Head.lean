/-
# The request head (`modules/fan/httpd/httpd.lua`, `readheader`)

`readheader` reads the request line and the header lines of one request into a
context, as far as the buffered bytes go.  `headerLine` is what it does with one
line, and `parseHead` what it makes of unread bytes: the head is complete at an
empty line, rejected at a bad request line, and open as long as neither has come.
-/
import LuaFan.Httpd.Readline
import LuaFan.Lib.Numeral

namespace LuaFan

open Fp

/-! ## The context -/

/-- The value of a header: one string, or the list of those of repeated lines. -/
inductive HeaderValue where
  | single (value : List UInt8)
  | many (values : List (List UInt8))
  deriving DecidableEq, Repr

/-- `_http_error`. -/
structure HttpError where
  code : ℕ
  message : String
  details : Option String
  deriving DecidableEq, Repr

/-- `ResponseState`; a pending response is a `reply_status` of nil. -/
inductive ResponseState where
  | started
  | completed
  | error
  deriving DecidableEq, Repr

/-- The fields of a request context that the request loop uses. -/
structure Context where
  method : Option (List UInt8)
  path : Option (List UInt8)
  query : Option (List UInt8)
  version : Option (List UInt8)
  headers : List (List UInt8 × HeaderValue)
  firstLine : Bool
  headerComplete : Bool
  invalidHeaders : ℕ
  httpError : Option HttpError
  replyStatus : Option ResponseState
  deriving DecidableEq, Repr

/-- The context `onaccept` creates for a request. -/
def Context.new : Context :=
  ⟨none, none, none, none, [], false, false, 0, none, none⟩

/-- `headers[k]`. -/
def getHeader (headers : List (List UInt8 × HeaderValue)) (key : List UInt8) : Option HeaderValue :=
  (headers.find? fun e => e.1 = key).map Prod.snd

/-- A header line is recorded: a repeated name collects its values. -/
def addHeaderValue (headers : List (List UInt8 × HeaderValue)) (key value : List UInt8) :
    List (List UInt8 × HeaderValue) :=
  match getHeader headers key with
  | none => headers ++ [(key, .single value)]
  | some (.single old) =>
      headers.map fun e => if e.1 = key then (key, .many [old, value]) else e
  | some (.many olds) =>
      headers.map fun e => if e.1 = key then (key, .many (olds ++ [value])) else e

/-! ## Matching a line -/

/-- The characters of a header name. -/
def isTokenChar (b : UInt8) : Bool :=
  isDigit b || (97 ≤ toLower b && toLower b ≤ 122) || (bytesOf "!#$%&'*+-.^_|~").contains b
    || b == 96

/-- A blank inside a header line. -/
def isBlank (b : UInt8) : Bool := b == 32 || b == 9

/-- The match of a header line: a name, a colon and, after blanks, the value. -/
def matchHeader (line : List UInt8) : Option (List UInt8 × List UInt8) :=
  let name := line.takeWhile isTokenChar
  match line.drop name.length with
  | b :: rest => if name ≠ [] ∧ b = ascii ':' then some (name, rest.dropWhile isBlank) else none
  | [] => none

/-- The value without trailing blanks. -/
def trimRight (value : List UInt8) : List UInt8 := value.rdropWhile isBlank

/-- An upper-case letter. -/
def isUpper (b : UInt8) : Bool := 65 ≤ b && b ≤ 90

/-- Does the text consist of digits, a point and digits? -/
def isVersion (text : List UInt8) : Bool :=
  let major := text.takeWhile isDigit
  match text.drop major.length with
  | b :: minor => major ≠ [] && b == ascii '.' && minor ≠ [] && minor.all isDigit
  | [] => false

/-- The match of a request line: method, target and version. -/
def matchRequestLine (line : List UInt8) : Option (List UInt8 × List UInt8 × List UInt8) :=
  let method := line.takeWhile isUpper
  let rest := line.drop (method.length + 1)
  let path := rest.takeWhile (· ≠ 32)
  let tail := rest.drop path.length
  let version := tail.drop 6
  if method ≠ [] ∧ line.getD method.length 0 = 32 ∧ path ≠ [] ∧ tail.take 6 = bytesOf " HTTP/"
      ∧ isVersion version then
    some (method, path, version)
  else none

/-! ## The code -/

/-- What a line does to the loop of `readheader`: go on, return true, or return
false with `"400 Bad Request"` for the expected size. -/
inductive HeaderLine where
  | next (ctx : Context)
  | stop (ctx : Context)
  | reject (ctx : Context)

/-- The context after a line. -/
def HeaderLine.ctx : HeaderLine → Context
  | next ctx => ctx
  | stop ctx => ctx
  | reject ctx => ctx

def badRequest (details : String) : HttpError := ⟨400, "Bad Request", some details⟩

/-- The empty line: the head is complete, and HTTP/1.1 needs a `Host` header. -/
def completeHead (ctx : Context) : Context :=
  if ctx.version = some (bytesOf "1.1") ∧ getHeader ctx.headers (bytesOf "host") = none then
    { ctx with headerComplete := true, httpError := some (badRequest "Missing Host header") }
  else { ctx with headerComplete := true }

/-- A header line. -/
def headerField (ctx : Context) (line : List UInt8) : HeaderLine :=
  match matchHeader line with
  | none =>
      let ctx := { ctx with invalidHeaders := ctx.invalidHeaders + 1 }
      if 100 < ctx.invalidHeaders then
        .stop { ctx with httpError := some (badRequest "Too many invalid headers") }
      else .next ctx
  | some (k, v) =>
      let v := trimRight v
      let k := k.map toLower
      if 8192 < v.length then
        .stop { ctx with httpError := some (badRequest "Header value too large") }
      else .next { ctx with headers := addHeaderValue ctx.headers k v }

/-- The target of the request line, cut at the first question mark. -/
def splitQuery (path : List UInt8) : List UInt8 × Option (List UInt8) :=
  let before := path.takeWhile (· ≠ ascii '?')
  if before.length < path.length then (before, some (path.drop (before.length + 1)))
  else (path, none)

/-- The request line. -/
def requestLine (ctx : Context) (line : List UInt8) : HeaderLine :=
  match matchRequestLine line with
  | none => .reject { ctx with method := none, path := none, version := none }
  | some (method, path, version) =>
      let ctx := { ctx with method := some method, path := some path, version := some version }
      if version ≠ bytesOf "1.0" ∧ version ≠ bytesOf "1.1" then
        .stop { ctx with httpError := some ⟨505, "HTTP Version Not Supported", none⟩ }
      else if 2048 < path.length then
        .stop { ctx with httpError := some ⟨414, "URI Too Long", none⟩ }
      else
        match splitQuery path with
        | (path, some query) =>
            .next { ctx with path := some path, query := some query, firstLine := true }
        | (_, none) => .next { ctx with firstLine := true }

/-- The body of the loop of `readheader` on one line. -/
def headerLine (ctx : Context) (line : List UInt8) : HeaderLine :=
  if line = [] then .next (completeHead ctx)
  else if ctx.firstLine then headerField ctx line
  else requestLine ctx line

/-- The result of `readheader`: its status and the changed context and stream. -/
structure ReadHeader where
  status : Bool
  ctx : Context
  input : Bytearray

/-- `readheader`.  A round takes a line, so the first argument bounds their
number. -/
def readheaderLoop : ℕ → Context → Bytearray → ReadHeader
  | 0, ctx, input => ⟨true, ctx, input⟩
  | rounds + 1, ctx, input =>
      if ctx.headerComplete then ⟨true, ctx, input⟩
      else
        match readline input with
        | (none, input) => ⟨true, ctx, input⟩
        | (some (line, _), input) =>
            match headerLine ctx line with
            | .next ctx => readheaderLoop rounds ctx input
            | .stop ctx => ⟨true, ctx, input⟩
            | .reject ctx => ⟨false, ctx, input⟩

def readheader (ctx : Context) (input : Bytearray) : ReadHeader :=
  readheaderLoop (bytearrayReadAvailable input + 1) ctx input

/-! ## The head of unread bytes -/

/-- How far a head has come: complete or open, with the bytes left, or rejected. -/
inductive HeadState where
  | complete (ctx : Context) (left : List UInt8)
  | opened (ctx : Context) (left : List UInt8)
  | rejected

/-- The head in `u`, begun in `ctx`.  Where `readheader` returns early it is
called again at once, so that a stop is no different from going on. -/
def parseHead (ctx : Context) (u : List UInt8) : HeadState :=
  if ctx.headerComplete then .complete ctx u
  else
    match _hsplit : splitLine u with
    | none => .opened ctx u
    | some (line, rest) =>
        match headerLine ctx line with
        | .next ctx => parseHead ctx rest
        | .stop ctx => parseHead ctx rest
        | .reject _ => .rejected
termination_by u.length
decreasing_by
  all_goals exact length_splitLine _hsplit

section Equations

variable {ctx : Context} {u line rest : List UInt8}

theorem parseHead_complete (hdone : ctx.headerComplete = true) :
    parseHead ctx u = .complete ctx u := by
  rw [parseHead, if_pos hdone]

theorem parseHead_none (hdone : ctx.headerComplete = false) (hsplit : splitLine u = none) :
    parseHead ctx u = .opened ctx u := by
  rw [parseHead, if_neg (by simp [hdone])]
  split
  · rfl
  · rename_i hsome
    rw [hsplit] at hsome
    cases hsome

theorem parseHead_some (hdone : ctx.headerComplete = false)
    (hsplit : splitLine u = some (line, rest)) :
    parseHead ctx u = match headerLine ctx line with
      | .next ctx => parseHead ctx rest
      | .stop ctx => parseHead ctx rest
      | .reject _ => .rejected := by
  rw [parseHead, if_neg (by simp [hdone])]
  split
  · rename_i hnone
    rw [hsplit] at hnone
    cases hnone
  · rename_i hsome
    rw [hsplit] at hsome
    cases hsome
    rfl

end Equations

end LuaFan
