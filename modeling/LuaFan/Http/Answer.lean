/-
# Answers that are read

Between the calls of a handler and what `request` returns at the other end lie the head that
`context_reply_fillheader` writes, the length or the chunks behind it, and the client that reads
them again.  `told` is what the calls of a handler say, without all that: the first `reply`, or the
chunks between `reply_start` and `reply_end`.

`answer_received`: **what a handler tells is what the client returns**, the code, the message, the
headers and exactly the body, for every sequence of calls that tells something that can be written.
-/
import LuaFan.Http.Response
import LuaFan.Httpd.Encoding
import LuaFan.Lib.Decimal

namespace LuaFan

open Fp Lines Machine Segments

/-! ## Sizes in hexadecimal digits -/

theorem upperHex_digit : ∀ d : Fin 16, isXDigit (ascii (Nat.digitChar d).toUpper) = true ∧
    digitValue (ascii (Nat.digitChar d).toUpper) = d := by
  decide

theorem upperHex_of_lt {n : ℕ} (h : n < 16) : upperHex n = [ascii (Nat.digitChar n).toUpper] := by
  rw [upperHex, Nat.toDigits_of_lt_base h, List.map_singleton]

theorem upperHex_of_le {n : ℕ} (h : 16 ≤ n) :
    upperHex n = upperHex (n / 16) ++ [ascii (Nat.digitChar (n % 16)).toUpper] := by
  rw [upperHex, Nat.toDigits_of_base_le (by norm_num) h, List.map_append, List.map_singleton, upperHex]

theorem upperHex_ne_nil (n : ℕ) : upperHex n ≠ [] := by
  simp [upperHex, Nat.toDigits_ne_nil]

/-- **The size of a chunk is written in hexadecimal digits, and they denote it.** -/
theorem upperHex_spec (n : ℕ) : (∀ b ∈ upperHex n, isXDigit b = true) ∧ digitsValue 16 (upperHex n) = n := by
  induction n using Nat.strongRecOn with
  | ind n ih =>
    by_cases hn : n < 16
    · rw [upperHex_of_lt hn]
      have hdigit := upperHex_digit ⟨n, hn⟩
      refine ⟨by simpa using hdigit.1, ?_⟩
      simpa [digitsValue] using hdigit.2
    · have hdigit := upperHex_digit ⟨n % 16, Nat.mod_lt n (by norm_num)⟩
      obtain ⟨hall, hvalue⟩ := ih (n / 16) (by omega)
      rw [upperHex_of_le (by omega)]
      constructor
      · intro b hb
        rcases List.mem_append.mp hb with hb | hb
        · exact hall b hb
        · rw [List.mem_singleton.mp hb]
          exact hdigit.1
      · rw [digitsValue_concat, hvalue, hdigit.2]
        show n / 16 * 16 + n % 16 = n
        omega

/-! ## What a handler tells -/

/-- A header, its name and its value. -/
abbrev Header := List UInt8 × List UInt8

/-- The name without regard to case. -/
def Header.key (h : Header) : List UInt8 := h.1.map toLower

/-- What a handler tells: in one reply, or in chunks. -/
structure HttpAnswer where
  code : ℤ
  message : List UInt8
  headers : List Header
  chunked : Bool
  body : List UInt8

/-- No data is given to `reply_chunk` any more. -/
def silent (es : List ReplyContext.Event) : Bool :=
  es.all fun e => match e with
    | .replyChunk data => data = []
    | _ => true

/-- The chunks up to `reply_end`. -/
def chunksTold : List ReplyContext.Event → Option (List (List UInt8))
  | [] => none
  | .replyChunk data :: es => (chunksTold es).map fun cs => if data = [] then cs else data :: cs
  | .replyEnd :: es => if silent es then some [] else none
  | _ :: es => chunksTold es

/-- What the calls of a handler tell: only headers come before it, and nothing after it. -/
def told : List ReplyContext.Event → Option HttpAnswer
  | [] => none
  | .addheader key value :: es => (told es).map fun a => { a with headers := (key, value) :: a.headers }
  | .reply (some code) (some message) body :: es =>
      if silent es then some ⟨code, message, [], false, body.getD []⟩ else none
  | .replyStart (some code) (some message) :: es =>
      (chunksTold es).map fun cs => ⟨code, message, [], true, cs.flatten⟩
  | .reply .. :: _ => none
  | .replyStart .. :: _ => none
  | _ :: es => told es

namespace HttpAnswer

/-- A header that makes one line. -/
structure IsLine (h : Header) : Prop where
  name_ne : h.1 ≠ []
  token : ∀ b ∈ h.1, isTokenChar b = true
  value_end : hasLineEnd h.2 = false

/-- A header that a handler may set: it makes one line, and does not say where the body ends. -/
structure WritableHeader (h : Header) : Prop extends IsLine h where
  key_ne : h.key ≠ bytesOf "content-length" ∧ h.key ≠ bytesOf "transfer-encoding"

/-- The answer can be written as a response. -/
structure Writable (a : HttpAnswer) : Prop where
  code : 100 ≤ a.code ∧ a.code < 1000
  message_end : hasLineEnd a.message = false
  headers : ∀ h ∈ a.headers, WritableHeader h
  body : a.body.length < 2 ^ 63

/-- How the client is told where the body ends. -/
def framing (a : HttpAnswer) : Header :=
  if a.chunked then (bytesOf "Transfer-Encoding", bytesOf "chunked")
  else (bytesOf "Content-Length", bytesOf (toString a.body.length))

end HttpAnswer

/-- The request is one of HTTP/1.1, its headers are read without an error, and it does not ask for
gzip. -/
structure Answerable (ctx : Context) : Prop where
  version : ctx.version = some (bytesOf "1.1")
  replyStatus : ctx.replyStatus = none
  length : contentLengthRaises ctx = false
  connection : ∃ keep, shouldKeepAlive ctx = some keep
  encoding : getHeader ctx.headers (bytesOf "accept-encoding") = none

/-- The headers of a head: those of the handler, `Connection` if the client asks to close, and
the type. -/
def headHeaders (ctx : Context) (headers : List Header) : List Header :=
  headers ++ (if shouldKeepAlive ctx = some false then [(bytesOf "Connection", bytesOf "close")] else [])
    ++ if headers.any fun h => h.key == bytesOf "content-type" then []
      else [(bytesOf "Content-Type", bytesOf "text/plain; charset=utf-8")]

/-- All headers of an answer. -/
def HttpAnswer.allHeaders (ctx : Context) (a : HttpAnswer) : List Header :=
  headHeaders ctx a.headers ++ [a.framing]

/-- A header as the client records it. -/
def recordHeader (headers : List (List UInt8 × HeaderValue)) (h : Header) : List (List UInt8 × HeaderValue) :=
  addHeaderValue headers h.key (h.2.dropWhile (· = 32))

/-- What `request` should return; it knows no status line without a message. -/
def HttpAnswer.ret (ctx : Context) (a : HttpAnswer) : HttpRet where
  responseCode := if a.message = [] then none else some (.integer (Int64.ofInt a.code))
  responseMessage := if a.message = [] then none else some a.message
  headers := (a.allHeaders ctx).foldl recordHeader []
  body := some a.body
  error := none

/-! ## The head -/

namespace ReplyContext

variable {σ : Type} {config : HttpdConfig} {z : Zlib σ} {ctx : Context} {hs : List Header}

/-- Nothing was sent for the request, and the headers `hs` have been added. -/
structure Prepared (ctx : Context) (hs : List Header) (s : ReplyContext σ) : Prop where
  version : s.version = ctx.version
  headers : s.headers = ctx.headers
  outHeaders : s.outHeaders = hs
  contentType : s.contentType = bytesOf "text/plain; charset=utf-8"
  contentTypeSet : s.contentTypeSet = hs.any fun h => h.key == bytesOf "content-type"
  contentLengthSet : s.contentLengthSet = false
  gzipBody : s.gzipBody = false
  stream : s.gzipOutputstream = none
  sent : s.sent = []

variable {s : ReplyContext σ}

theorem prepared_ofContext : (ofContext ctx : ReplyContext σ).Prepared ctx [] :=
  ⟨rfl, rfl, rfl, rfl, rfl, rfl, rfl, rfl, rfl⟩

theorem Prepared.addheader (h : s.Prepared ctx hs) {x : Header} (hx : HttpAnswer.WritableHeader x) :
    (s.addheader x.1 x.2).Prepared ctx (hs ++ [x]) where
  version := h.version
  headers := h.headers
  outHeaders := by simp [ReplyContext.addheader, h.outHeaders]
  contentType := h.contentType
  contentTypeSet := by simp [ReplyContext.addheader, h.contentTypeSet, Header.key]
  contentLengthSet := by
    have hkey := hx.key_ne.1
    simpa [ReplyContext.addheader, h.contentLengthSet, Header.key] using hkey
  gzipBody := h.gzipBody
  stream := h.stream
  sent := h.sent

theorem Prepared.acceptsGzip (h : s.Prepared ctx hs) (hctx : Answerable ctx) : s.acceptsGzip = some false := by
  rw [ReplyContext.acceptsGzip, h.headers, hctx.encoding]

/-- The first look at the length records it, and an error if there is one. -/
theorem Prepared.readyForReply (h : s.Prepared ctx hs) (hctx : Answerable ctx) :
    ∃ s', s.readyForReply = some s' ∧ s'.Prepared ctx hs ∧ s'.replyStatus = s.replyStatus := by
  have hlength : contentLengthRaises s.toContext = false := by
    rw [contentLengthRaises, h.headers]
    exact hctx.length
  rw [ReplyContext.readyForReply, hlength]
  split
  · exact ⟨s, rfl, h, rfl⟩
  · rw [if_neg (by simp)]
    split
    all_goals
      refine ⟨_, rfl, ?_, rfl⟩
      exact ⟨h.version, h.headers, h.outHeaders, h.contentType, h.contentTypeSet, h.contentLengthSet,
        h.gzipBody, h.stream, h.sent⟩

variable (config z) in
/-- The body stays as it is. -/
theorem Prepared.replyBody (h : s.Prepared ctx hs) (hctx : Answerable ctx) (body : Option (List UInt8)) :
    ∃ s', s.replyBody config z body = some (s', body) ∧ s'.Prepared ctx hs ∧
      s'.replyStatus = s.replyStatus := by
  unfold ReplyContext.replyBody
  split
  · rename_i b bs
    have hplain : s.compressBody config z (b :: bs) = some (b :: bs, false) :=
      compressBody_of_not_worth (h.acceptsGzip hctx) (by simp) fun hno => by simp at hno
    rw [hplain]
    exact ⟨s, rfl, h, rfl⟩
  · refine ⟨_, rfl, ?_, rfl⟩
    exact ⟨h.version, h.headers, h.outHeaders, h.contentType, h.contentTypeSet, h.contentLengthSet,
      h.gzipBody, h.stream, h.sent⟩

/-- The text of a head: the status line and the headers. -/
def headText (ctx : Context) (hs : List Header) (code : ℤ) (message : List UInt8) : List UInt8 :=
  bytesOf "HTTP/1.1" ++ bytesOf (" " ++ toString code ++ " ") ++ message ++ crlf
    ++ ((headHeaders ctx hs).map headerText).flatten

theorem connection_key : Header.key (bytesOf "Connection", bytesOf "close") = bytesOf "connection" := by decide

set_option maxRecDepth 2000 in
theorem connection_token : ∀ b ∈ bytesOf "Connection", isTokenChar b = true := by decide

variable (config) in
/-- `set_keep_alive_headers` adds `Connection` where the client asks to close. -/
theorem Prepared.setKeepAliveHeaders (h : s.Prepared ctx hs) (hctx : Answerable ctx) :
    ∃ s', s.setKeepAliveHeaders config = some s' ∧
      s'.Prepared ctx (hs ++ if shouldKeepAlive ctx = some false then
        [(bytesOf "Connection", bytesOf "close")] else []) ∧ s'.replyStatus = s.replyStatus := by
  have hkeep : shouldKeepAlive s.toContext = shouldKeepAlive ctx := by
    rw [shouldKeepAlive, shouldKeepAlive, versionNumber, versionNumber, h.version, h.headers]
  obtain ⟨version, hversion, -, hnew⟩ := versionNumber_oneOne (h.version.trans hctx.version)
  obtain ⟨keep, hsome⟩ := hctx.connection
  rw [ReplyContext.setKeepAliveHeaders, hkeep, hversion, hsome]
  cases keep with
  | true =>
    simp only [hnew, Bool.false_eq_true, if_false]
    exact ⟨s, rfl, by simpa using h, rfl⟩
  | false =>
    simp only [if_true]
    refine ⟨_, rfl, h.addheader ⟨⟨by decide, connection_token, by decide⟩, ?_⟩, rfl⟩
    rw [connection_key]
    decide

variable (config) in
theorem Prepared.fillheader (h : s.Prepared ctx hs) (hctx : Answerable ctx) (code : ℤ)
    (message : List UInt8) :
    ∃ s', s.fillheader config (some code) (some message) = some (s', headText ctx hs code message) ∧
      s'.replyStatus = s.replyStatus ∧ s'.sent = [] ∧ s'.gzipBody = false ∧
      s'.gzipOutputstream = none ∧ s'.contentLengthSet = false := by
  obtain ⟨s', hkeep, hs', hstatus⟩ := h.setKeepAliveHeaders config hctx
  have hline : s.statusLine (some code) (some message) = some (bytesOf "HTTP/1.1"
      ++ bytesOf (" " ++ toString code ++ " ") ++ message ++ crlf) := by
    rw [statusLine, h.version, hctx.version]
    rfl
  have hfills : s'.fillsEncoding = false := by
    rw [fillsEncoding, hs'.acceptsGzip hctx]
    simp
  have htype : ((hs ++ if shouldKeepAlive ctx = some false then
      [(bytesOf "Connection", bytesOf "close")] else []).any fun x => x.key == bytesOf "content-type")
        = hs.any fun x => x.key == bytesOf "content-type" := by
    have hconnection : (Header.key (bytesOf "Connection", bytesOf "close") == bytesOf "content-type") = false := by
      rw [connection_key]
      decide
    split_ifs <;> simp [hconnection]
  have hall : s'.filledHeaders = headHeaders ctx hs := by
    rw [headHeaders, filledHeaders, hs'.outHeaders, hs'.contentTypeSet, hs'.contentType, hfills, htype]
    simp
  refine ⟨{ s' with gzipBody := s'.gzipBody || s'.fillsEncoding }, ?_, hstatus, hs'.sent, ?_, hs'.stream,
    hs'.contentLengthSet⟩
  · rw [fillheader_eq hline hkeep, hall, headText]
  · simp only [hs'.gzipBody, hfills, Bool.or_false]

/-! ## What is sent -/

/-- The head of an answer, with how the body ends and the empty line. -/
def answerHead (ctx : Context) (a : HttpAnswer) : List UInt8 :=
  headText ctx a.headers a.code a.message ++ headerText a.framing ++ crlf

/-- What is sent for an answer. -/
inductive Sent (ctx : Context) (a : HttpAnswer) : List Piece → Prop
  | whole (plain : a.chunked = false) : Sent ctx a [.reply (answerHead ctx a ++ a.body)]
  | chunks (chunked : a.chunked = true) (cs : List (List UInt8)) (nonempty : ∀ c ∈ cs, c ≠ [])
      (body : cs.flatten = a.body) : Sent ctx a (.head (answerHead ctx a) :: cs.map .chunk ++ [.last])

variable (config z) in
theorem Prepared.reply (h : s.Prepared ctx hs) (hctx : Answerable ctx) (hstatus : s.replyStatus = none)
    (code : ℤ) (message : List UInt8) (body : Option (List UInt8)) :
    (s.reply config z (some code) (some message) body).1.replyStatus = some .completed ∧
      Sent ctx ⟨code, message, hs, false, body.getD []⟩
        (s.reply config z (some code) (some message) body).1.sent := by
  have hbegun : Prepared ctx hs { s with replyStatus := some .completed } :=
    ⟨h.version, h.headers, h.outHeaders, h.contentType, h.contentTypeSet, h.contentLengthSet,
      h.gzipBody, h.stream, h.sent⟩
  obtain ⟨s₁, hready, h₁, hstatus₁⟩ := hbegun.readyForReply hctx
  obtain ⟨s₂, hbody, h₂, hstatus₂⟩ := h₁.replyBody config z hctx body
  obtain ⟨s₃, hfill, hstatus₃, hsent, -, -, hlength⟩ := h₂.fillheader config hctx code message
  have hreply : (s.reply config z (some code) (some message) body).1
      = s₃.send [.reply (answerHead ctx ⟨code, message, hs, false, body.getD []⟩ ++ body.getD [])] := by
    rw [ReplyContext.reply, if_neg (by simp [hstatus])]
    simp only [hready, hbody, hfill, hlength, Bool.false_eq_true, if_false, answerHead, HttpAnswer.framing]
  rw [hreply]
  refine ⟨hstatus₃.trans (hstatus₂.trans hstatus₁), ?_⟩
  rw [send_first hsent]
  exact .whole rfl

variable (config z) in
theorem Prepared.replyStart (h : s.Prepared ctx hs) (hctx : Answerable ctx) (hstatus : s.replyStatus = none)
    (code : ℤ) (message : List UInt8) :
    let s' := (s.replyStart config z (some code) (some message)).1
    s'.replyStatus = some .started ∧ s'.gzipBody = false ∧ s'.gzipOutputstream = none ∧
      s'.sent = [.head (answerHead ctx ⟨code, message, hs, true, []⟩)] := by
  obtain ⟨s₁, hready, h₁, -⟩ := h.readyForReply hctx
  have hbegun : Prepared ctx hs { s₁ with replyStatus := some .started } :=
    ⟨h₁.version, h₁.headers, h₁.outHeaders, h₁.contentType, h₁.contentTypeSet, h₁.contentLengthSet,
      h₁.gzipBody, h₁.stream, h₁.sent⟩
  obtain ⟨s₂, hfill, hstatus₂, hsent, hgzip, hstream, -⟩ :=
    hbegun.fillheader config hctx code message
  rw [ReplyContext.replyStart, if_neg (by simp [hstatus])]
  simp only [hready, hfill, hgzip, Bool.false_eq_true, if_false]
  refine ⟨hstatus₂, rfl, rfl, ?_⟩
  simp only [send, hsent, List.nil_append, answerHead, HttpAnswer.framing, if_true]

variable (config z) in
/-- After the completion, silent calls send nothing. -/
theorem run_silent {es : List Event} : ∀ {s : ReplyContext σ}, s.replyStatus = some .completed →
    silent es = true → ∃ s', run (step config z) s es = some s' ∧ s'.sent = s.sent := by
  induction es with
  | nil => exact fun _ _ => ⟨_, rfl, rfl⟩
  | cons e es ih =>
    intro s hstatus hsilent
    rw [silent, List.all_cons, Bool.and_eq_true] at hsilent
    obtain ⟨he, hes⟩ := hsilent
    have hkeeps : ∃ s₁, step config z s e = some s₁ ∧ s₁.replyStatus = some .completed ∧ s₁.sent = s.sent := by
      cases e with
      | addheader key value => exact ⟨_, rfl, hstatus, rfl⟩
      | reply code message body =>
        refine ⟨s, ?_, hstatus, rfl⟩
        rw [step, ReplyContext.reply, if_pos (by simp [hstatus])]
      | replyStart code message =>
        refine ⟨s, ?_, hstatus, rfl⟩
        rw [step, ReplyContext.replyStart, if_pos (by simp [hstatus])]
      | replyChunk data =>
        refine ⟨s, ?_, hstatus, rfl⟩
        rw [step, ReplyContext.replyChunk, if_pos (Or.inr (by simpa using he))]
      | replyEnd =>
        refine ⟨s, ?_, hstatus, rfl⟩
        rw [step, ReplyContext.replyEnd, if_pos (by simp [hstatus])]
    obtain ⟨s₁, hstep, hstatus₁, hsent₁⟩ := hkeeps
    obtain ⟨s', hrun, hsent⟩ := ih hstatus₁ hes
    exact ⟨s', run_cons.mpr ⟨s₁, hstep, hrun⟩, hsent.trans hsent₁⟩

variable (config z) in
/-- After the head, the chunks that are told are sent up to the last one. -/
theorem run_chunksTold {es : List Event} : ∀ {s : ReplyContext σ} {cs : List (List UInt8)},
    s.replyStatus = some .started → s.gzipBody = false → s.gzipOutputstream = none →
      chunksTold es = some cs → (∀ c ∈ cs, c ≠ []) ∧ ∃ s', run (step config z) s es = some s' ∧
        s'.sent = s.sent ++ cs.map .chunk ++ [.last] := by
  induction es with
  | nil => exact fun _ _ _ h => by cases h
  | cons e es ih =>
    intro s cs hstatus hgzip hstream htold
    -- what sends nothing leaves the rest to be told
    have hskip : ∀ s₁, step config z s e = some s₁ → s₁.replyStatus = some .started → s₁.gzipBody = false →
        s₁.gzipOutputstream = none → s₁.sent = s.sent → chunksTold es = some cs →
          (∀ c ∈ cs, c ≠ []) ∧ ∃ s', run (step config z) s (e :: es) = some s' ∧
            s'.sent = s.sent ++ cs.map .chunk ++ [.last] := by
      intro s₁ hstep hstatus₁ hgzip₁ hstream₁ hsent₁ hrest
      obtain ⟨hne, s', hrun, hsent⟩ := ih hstatus₁ hgzip₁ hstream₁ hrest
      exact ⟨hne, s', run_cons.mpr ⟨s₁, hstep, hrun⟩, by rw [hsent, hsent₁]⟩
    cases e with
    | addheader key value => exact hskip _ rfl hstatus hgzip hstream rfl htold
    | reply code message body =>
      refine hskip s ?_ hstatus hgzip hstream rfl htold
      rw [step, ReplyContext.reply, if_pos (by simp [hstatus])]
    | replyStart code message =>
      refine hskip s ?_ hstatus hgzip hstream rfl htold
      rw [step, ReplyContext.replyStart, if_pos (by simp [hstatus])]
    | replyChunk data =>
      obtain ⟨cs', hrest, hcs⟩ := Option.map_eq_some_iff.mp htold
      by_cases hdata : data = []
      · rw [if_pos hdata] at hcs
        subst hcs
        refine hskip s ?_ hstatus hgzip hstream rfl hrest
        rw [step, ReplyContext.replyChunk, if_pos (Or.inr hdata)]
      · rw [if_neg hdata] at hcs
        subst hcs
        have hstep : step config z s (.replyChunk data) = some (s.send [.chunk data]) := by
          rw [step, ReplyContext.replyChunk, if_neg (by simp [hstatus, hdata])]
          simp [hgzip]
        obtain ⟨hne, s', hrun, hsent⟩ := @ih (s.send [.chunk data]) cs' hstatus hgzip hstream hrest
        refine ⟨List.forall_mem_cons.mpr ⟨hdata, hne⟩, s', run_cons.mpr ⟨_, hstep, hrun⟩, ?_⟩
        rw [hsent]
        simp [send]
    | replyEnd =>
      rw [chunksTold, Option.ite_none_right_eq_some] at htold
      obtain ⟨hsilent, hcs⟩ := htold
      cases hcs
      have hstep : step config z s .replyEnd =
          some (({ s with replyStatus := some .completed } : ReplyContext σ).send [.last]) := by
        rw [step, ReplyContext.replyEnd, if_neg (by simp [hstatus])]
        simp [hstream]
      obtain ⟨s', hrun, hsent⟩ := @run_silent σ config z es
        (({ s with replyStatus := some .completed } : ReplyContext σ).send [.last]) rfl hsilent
      exact ⟨by simp, s', run_cons.mpr ⟨_, hstep, hrun⟩, by rw [hsent]; simp [send]⟩

variable (config z) in
/-- **The calls of a handler send what they tell.** -/
theorem run_told (hctx : Answerable ctx) {es : List Event} : ∀ {s : ReplyContext σ} {hs : List Header}
    {a : HttpAnswer}, s.Prepared ctx hs → s.replyStatus = none → told es = some a →
      (∀ x ∈ a.headers, HttpAnswer.WritableHeader x) → ∃ s', run (step config z) s es = some s' ∧
        Sent ctx { a with headers := hs ++ a.headers } s'.sent := by
  induction es with
  | nil => exact fun _ _ h => by cases h
  | cons e es ih =>
    intro s hs a h hstatus htold hheaders
    cases e with
    | addheader key value =>
      obtain ⟨a', ha', rfl⟩ := Option.map_eq_some_iff.mp htold
      obtain ⟨hx, hrest⟩ := List.forall_mem_cons.mp hheaders
      obtain ⟨s', hrun, hsent⟩ := ih (h.addheader hx) hstatus ha' hrest
      refine ⟨s', run_cons.mpr ⟨_, rfl, hrun⟩, ?_⟩
      simpa using hsent
    | reply code message body =>
      cases code with
      | none => cases htold
      | some code =>
        cases message with
        | none => cases htold
        | some message =>
          rw [told, Option.ite_none_right_eq_some] at htold
          obtain ⟨hsilent, ha⟩ := htold
          cases ha
          obtain ⟨hdone, hsent⟩ := h.reply config z hctx hstatus code message body
          obtain ⟨s', hrun, hsame⟩ := run_silent config z hdone hsilent
          refine ⟨s', run_cons.mpr ⟨_, rfl, hrun⟩, ?_⟩
          rw [hsame, List.append_nil]
          exact hsent
    | replyStart code message =>
      cases code with
      | none => cases htold
      | some code =>
        cases message with
        | none => cases htold
        | some message =>
          obtain ⟨cs, hcs, rfl⟩ := Option.map_eq_some_iff.mp htold
          obtain ⟨hstarted, hgzip, hstream, hhead⟩ :=
            h.replyStart config z hctx hstatus code message
          obtain ⟨hne, s', hrun, hsent⟩ :=
            run_chunksTold config z hstarted hgzip hstream hcs
          refine ⟨s', run_cons.mpr ⟨_, rfl, hrun⟩, ?_⟩
          rw [hsent, hhead, List.append_nil]
          exact .chunks rfl cs hne rfl
    | replyChunk data =>
      have hstep : step config z s (.replyChunk data) = some s := by
        rw [step, ReplyContext.replyChunk, if_pos (Or.inl hstatus)]
      obtain ⟨s', hrun, hsent⟩ := ih h hstatus htold hheaders
      exact ⟨s', run_cons.mpr ⟨s, hstep, hrun⟩, hsent⟩
    | replyEnd =>
      have hstep : step config z s .replyEnd = some s := by
        rw [step, ReplyContext.replyEnd, if_pos (by simp [hstatus])]
      obtain ⟨s', hrun, hsent⟩ := ih h hstatus htold hheaders
      exact ⟨s', run_cons.mpr ⟨s, hstep, hrun⟩, hsent⟩

end ReplyContext

/-! ## As a response -/

/-- The line of a header is the field that the client reads. -/
def IsField (f : Field) (x : Header) : Prop := f.name = x.1 ∧ f.value = 32 :: x.2

theorem exists_fields {hs : List Header} (h : ∀ x ∈ hs, HttpAnswer.IsLine x) :
    ∃ fs, List.Forall₂ IsField fs hs := by
  induction hs with
  | nil => exact ⟨[], .nil⟩
  | cons x hs ih =>
    obtain ⟨hx, hrest⟩ := List.forall_mem_cons.mp h
    obtain ⟨fs, hfs⟩ := ih hrest
    have hend : hasLineEnd (32 :: x.2) = false := by
      have hblank : hasLineEnd [32] = false := by decide
      rw [← List.singleton_append, hasLineEnd_append, hblank, hx.value_end, Bool.or_false]
    exact ⟨⟨x.1, 32 :: x.2, hx.name_ne, hx.token, hend⟩ :: fs, .cons ⟨rfl, rfl⟩ hfs⟩

section Fields

variable {fs : List Field} {hs : List Header} (h : List.Forall₂ IsField fs hs)

include h in
theorem terminated_fields :
    terminated cr lf (fs.map Field.line) = (hs.map ReplyContext.headerText).flatten := by
  have hcrlf : crlf = [cr, lf] := by decide
  have hcolon : bytesOf ": " = [ascii ':', 32] := by decide
  induction h with
  | nil => rfl
  | cons hfield _ ih =>
    rw [List.map_cons, terminated_cons, List.map_cons, List.flatten_cons, ih, Field.line, hfield.1,
      hfield.2, ReplyContext.headerText, hcrlf, hcolon]
    simp

include h in
theorem record_fields (headers : List (List UInt8 × HeaderValue)) :
    fs.foldl Field.record headers = hs.foldl recordHeader headers := by
  induction h generalizing headers with
  | nil => rfl
  | cons hfield _ ih =>
    rw [List.foldl_cons, List.foldl_cons, ih, Field.record, recordHeader, Field.key, Field.text,
      hfield.1, hfield.2, Header.key, List.dropWhile_cons_of_pos (by simp)]

include h in
theorem exists_header {f : Field} (hf : f ∈ fs) : ∃ x ∈ hs, IsField f x := by
  induction h with
  | nil => cases hf
  | cons hfield _ ih =>
    rcases List.mem_cons.mp hf with rfl | hf
    · exact ⟨_, List.mem_cons_self, hfield⟩
    · obtain ⟨x, hx, hfx⟩ := ih hf
      exact ⟨x, List.mem_cons_of_mem _ hx, hfx⟩

include h in
theorem exists_field {x : Header} (hx : x ∈ hs) : ∃ f ∈ fs, IsField f x := by
  induction h with
  | nil => cases hx
  | cons hfield _ ih =>
    rcases List.mem_cons.mp hx with rfl | hx
    · exact ⟨_, List.mem_cons_self, hfield⟩
    · obtain ⟨f, hf, hfx⟩ := ih hx
      exact ⟨f, List.mem_cons_of_mem _ hf, hfx⟩

end Fields

theorem no_extension_end : hasLineEnd [] = false := rfl

theorem no_extension_start : ([] : List UInt8) = [] ∨
    (([] : List UInt8).dropWhile isBlank).head? = some (ascii ';') := Or.inl rfl

/-- A chunk as it is sent, without an extension. -/
def chunkOf (data : List UInt8) : Chunk :=
  ⟨upperHex data.length, [], data, upperHex_ne_nil _, (upperHex_spec _).1, (upperHex_spec _).2, no_extension_end,
    no_extension_start⟩

theorem bytes_chunkOf (data : List UInt8) : (chunkOf data).bytes = (Piece.chunk data).bytes := by
  have hcrlf : crlf = [cr, lf] := by decide
  simp [Chunk.bytes, Chunk.sizeLine, chunkOf, Piece.bytes, hcrlf]

theorem toString_ne_nil (n : ℕ) : bytesOf (toString n) ≠ [] := by
  rw [bytesOf_toString]
  exact fun h => Nat.toDigits_ne_nil (List.map_eq_nil_iff.mp h)

/-- A code of three digits. -/
theorem code_digits {code : ℤ} (h : 100 ≤ code ∧ code < 1000) :
    (bytesOf (toString code)).length = 3 ∧ (∀ b ∈ bytesOf (toString code), isDigit b = true) ∧
      (digitsValue 10 (bytesOf (toString code)) : ℤ) = code := by
  obtain ⟨n, rfl⟩ := Int.eq_ofNat_of_zero_le (by omega : 0 ≤ code)
  have hstring : toString (n : ℤ) = toString n := rfl
  rw [hstring]
  refine ⟨?_, isDigit_bytesOf_toString n, by rw [digitsValue_bytesOf_toString]⟩
  have hle : (Nat.toDigits 10 n).length ≤ 3 := (Nat.length_toDigits_le_iff (by norm_num) (by norm_num)).mpr (by omega)
  have hgt : ¬(Nat.toDigits 10 n).length ≤ 2 := by
    rw [Nat.length_toDigits_le_iff (by norm_num) (by norm_num)]
    omega
  rw [bytesOf_toString, List.length_map]
  omega

section Lines

variable {ctx : Context} {a : HttpAnswer}

theorem framing_key :
    a.framing.key = if a.chunked then bytesOf "transfer-encoding" else bytesOf "content-length" := by
  have hkeys : Header.key (bytesOf "Transfer-Encoding", bytesOf "chunked") = bytesOf "transfer-encoding" := by
    decide
  have hlength : (bytesOf "Content-Length").map toLower = bytesOf "content-length" := by decide
  rw [HttpAnswer.framing]
  split_ifs
  · exact hkeys
  · exact hlength

theorem type_key : Header.key (bytesOf "Content-Type", bytesOf "text/plain; charset=utf-8")
    = bytesOf "content-type" := by decide

set_option maxRecDepth 4000 in
theorem header_tokens : (∀ b ∈ bytesOf "Content-Type", isTokenChar b = true) ∧
    (∀ b ∈ bytesOf "Content-Length", isTokenChar b = true) ∧
      ∀ b ∈ bytesOf "Transfer-Encoding", isTokenChar b = true := by
  decide

theorem isLine_framing (a : HttpAnswer) : HttpAnswer.IsLine a.framing := by
  rw [HttpAnswer.framing]
  split_ifs
  · exact ⟨by decide, header_tokens.2.2, by decide⟩
  · refine ⟨List.cons_ne_nil _ _, header_tokens.2.1, ?_⟩
    exact hasLineEnd_of_forall (fun _ h => not_lineEnd_of_isXDigit (isXDigit_of_isDigit h))
      (isDigit_bytesOf_toString _)

/-- The headers besides the framing make lines, and do not say where the body ends. -/
theorem headHeaders_writable (hw : a.Writable) {x : Header} (hx : x ∈ headHeaders ctx a.headers) :
    HttpAnswer.WritableHeader x := by
  rw [headHeaders, List.mem_append, List.mem_append] at hx
  rcases hx with (hx | hx) | hx
  · exact hw.headers x hx
  · split_ifs at hx
    · rw [List.mem_singleton.mp hx]
      refine ⟨⟨by decide, ReplyContext.connection_token, by decide⟩, ?_⟩
      rw [ReplyContext.connection_key]
      decide
    · cases hx
  · split_ifs at hx
    · cases hx
    · rw [List.mem_singleton.mp hx]
      refine ⟨⟨by decide, header_tokens.1, by decide⟩, ?_⟩
      rw [type_key]
      decide

theorem allHeaders_line (hw : a.Writable) : ∀ x ∈ a.allHeaders ctx, HttpAnswer.IsLine x := by
  intro x hx
  rcases List.mem_append.mp hx with hx | hx
  · exact (headHeaders_writable hw hx).toIsLine
  · rw [List.mem_singleton.mp hx]
    exact isLine_framing a

/-- Only the framing says where the body ends. -/
theorem eq_framing (hw : a.Writable) {x : Header} (hx : x ∈ a.allHeaders ctx)
    (hkey : x.key = bytesOf "content-length" ∨ x.key = bytesOf "transfer-encoding") : x = a.framing := by
  rcases List.mem_append.mp hx with hx | hx
  · obtain ⟨hlength, hencoding⟩ := (headHeaders_writable hw hx).key_ne
    exact absurd hkey (not_or.mpr ⟨hlength, hencoding⟩)
  · exact List.mem_singleton.mp hx

variable {fs : List Field} (h : List.Forall₂ IsField fs (a.allHeaders ctx))

include h in
theorem field_framing (hw : a.Writable) {f : Field} (hf : f ∈ fs)
    (hkey : f.key = bytesOf "content-length" ∨ f.key = bytesOf "transfer-encoding") : IsField f a.framing := by
  obtain ⟨x, hx, hfield⟩ := exists_header h hf
  have hsame : f.key = x.key := by rw [Field.key, hfield.1, Header.key]
  rw [hsame] at hkey
  exact eq_framing hw hx hkey ▸ hfield

include h in
/-- The field that says where the body ends. -/
theorem exists_framing : ∃ f ∈ fs, IsField f a.framing ∧
    f.key = if a.chunked then bytesOf "transfer-encoding" else bytesOf "content-length" := by
  obtain ⟨f, hf, hfield⟩ := exists_field h (List.mem_append_right _ List.mem_cons_self)
  refine ⟨f, hf, hfield, ?_⟩
  rw [← framing_key, Field.key, hfield.1, Header.key]

end Lines

namespace HttpAnswer

open ReplyContext

variable {ctx : Context} {a : HttpAnswer} {fs : List Field}

theorem keys_differ : bytesOf "content-length" ≠ bytesOf "transfer-encoding" := by decide

/-- A plain body, behind its length. -/
def wholeResponse (hw : a.Writable) (h : List.Forall₂ IsField fs (a.allHeaders ctx)) (hplain : a.chunked = false) :
    HttpResponse where
  status := bytesOf (toString a.code)
  reason := a.message
  fields := fs
  payload := .sized a.body
  status_length := (code_digits hw.code).1
  status_digits := (code_digits hw.code).2.1
  reason_end := hw.message_end
  framed := by
    obtain ⟨f, hf, -, hkey⟩ := exists_framing h
    rw [hplain, if_neg (by simp)] at hkey
    refine ⟨⟨f, hf, hkey⟩, fun g hg hlength => ?_, fun g hg hencoding => ?_⟩
    · have hfield := (field_framing h hw hg (.inl hlength)).2
      rw [HttpAnswer.framing, hplain, if_neg (by simp)] at hfield
      exact ⟨[32], bytesOf (toString a.body.length), [], by rw [hfield]; simp, toString_ne_nil _,
        by simp [isBlank], isDigit_bytesOf_toString _, by simp, digitsValue_bytesOf_toString _⟩
    · have hfield := (field_framing h hw hg (.inr hencoding)).1
      have hsame : g.key = a.framing.key := by rw [Field.key, hfield, Header.key]
      rw [framing_key, hplain, if_neg (by simp), hencoding] at hsame
      exact keys_differ hsame.symm

/-- A body in chunks. -/
def chunkedResponse (hw : a.Writable) (h : List.Forall₂ IsField fs (a.allHeaders ctx)) (hchunked : a.chunked = true)
    (cs : List (List UInt8)) (hne : ∀ c ∈ cs, c ≠ []) : HttpResponse where
  status := bytesOf (toString a.code)
  reason := a.message
  fields := fs
  payload := .chunked (cs.map chunkOf) (chunkOf []) []
  status_length := (code_digits hw.code).1
  status_digits := (code_digits hw.code).2.1
  reason_end := hw.message_end
  framed := by
    obtain ⟨f, hf, -, hkey⟩ := exists_framing h
    rw [hchunked, if_pos rfl] at hkey
    refine ⟨⟨f, hf, hkey⟩, fun g hg hencoding => ?_, ?_, rfl⟩
    · have hfield := (field_framing h hw hg (.inr hencoding)).2
      rw [HttpAnswer.framing, hchunked, if_pos rfl] at hfield
      rw [Field.content, hfield]
      decide
    · intro c hc
      obtain ⟨d, hd, rfl⟩ := List.mem_map.mp hc
      exact hne d hd

/-- The bytes of a response with the status, the fields and the payload of the answer. -/
theorem bytes_eq {p : HttpResponse} (h : List.Forall₂ IsField fs (a.allHeaders ctx))
    (hstatus : p.status = bytesOf (toString a.code)) (hreason : p.reason = a.message) (hfields : p.fields = fs) :
    p.bytes = answerHead ctx a ++ p.payload.bytes := by
  have hcrlf : crlf = [cr, lf] := by decide
  have hversion : bytesOf "HTTP/1.1 " = bytesOf "HTTP/1.1" ++ [32] := by decide
  have hcode : bytesOf (" " ++ toString a.code ++ " ") = 32 :: (bytesOf (toString a.code) ++ [32]) := by
    simp [bytesOf]
    decide
  rw [HttpResponse.bytes, terminated_cons, terminated_append, hfields, terminated_fields h,
    HttpResponse.statusLine, hstatus, hreason, answerHead, headText, hversion, hcode, allHeaders, hcrlf]
  simp

/-- What the client returns for such a response. -/
theorem expected_eq {p : HttpResponse} (hw : a.Writable) (h : List.Forall₂ IsField fs (a.allHeaders ctx))
    (hstatus : p.status = bytesOf (toString a.code)) (hreason : p.reason = a.message) (hfields : p.fields = fs)
    (hbody : p.payload.decoded = a.body) : p.expected = a.ret ctx := by
  rw [HttpResponse.expected, ret, hstatus, hreason, hfields, hbody, record_fields h,
    (code_digits hw.code).2.2]

/-- **What is sent for an answer is a response that the client knows.** -/
theorem exists_response (hw : a.Writable) {ps : List Piece} (hsent : Sent ctx a ps) :
    ∃ p : HttpResponse, p.bytes = ps.flatMap Piece.bytes ∧ p.expected = a.ret ctx ∧ p.Known := by
  obtain ⟨fs, h⟩ := exists_fields (@allHeaders_line ctx a hw)
  cases hsent with
  | whole hplain =>
    refine ⟨wholeResponse hw h hplain, ?_, expected_eq hw h rfl rfl rfl rfl, hw.body⟩
    rw [bytes_eq h rfl rfl rfl]
    simp [wholeResponse, Payload.bytes, Piece.bytes]
  | chunks hchunked cs hne hbody =>
    have hdecoded : (cs.map chunkOf).flatMap Chunk.data = a.body := by
      rw [List.flatMap_map, ← hbody, List.flatMap_def]
      simp [chunkOf]
    refine ⟨chunkedResponse hw h hchunked cs hne, ?_, expected_eq hw h rfl rfl rfl hdecoded, ?_, ?_⟩
    · have hlast : (chunkOf []).sizeLine ++ [cr, lf] ++ [cr, lf] = Piece.last.bytes := by decide
      rw [bytes_eq h rfl rfl rfl]
      simp only [chunkedResponse, Payload.bytes, List.map_nil, terminated_nil, List.nil_append,
        List.append_assoc] at hlast ⊢
      rw [hlast, List.flatMap_map]
      simp [bytes_chunkOf, Piece.bytes, List.flatMap_map]
    · obtain ⟨f, hf, hfield, hkey⟩ := exists_framing h
      rw [hchunked, if_pos rfl] at hkey
      refine ⟨f, hf, hkey, ?_⟩
      rw [Field.text, hfield.2, framing, hchunked, if_pos rfl]
      decide
    · intro c hc
      rcases List.mem_append.mp hc with hc | hc
      · obtain ⟨d, hd, rfl⟩ := List.mem_map.mp hc
        have hle : d.length ≤ cs.flatten.length := (List.sublist_flatten_of_mem hd).length_le
        rw [hbody] at hle
        exact ⟨rfl, hle.trans_lt hw.body⟩
      · rw [List.mem_singleton.mp hc]
        exact ⟨rfl, by norm_num [chunkOf]⟩

end HttpAnswer

open ReplyContext

variable {σ : Type}

/-- **What a handler tells is what the client returns**: for every sequence of calls that tells an
answer, what is sent for a request that can be answered is a response, and however it is cut, if
not inside a line of the head or the size of a chunk, `request` returns the code, the message, the
headers and exactly the body (neither code nor message where the message is empty). -/
theorem answer_received (config : HttpdConfig) (z : Zlib σ) {ctx : Context} (hctx : Answerable ctx)
    {es : List ReplyContext.Event} {a : HttpAnswer} (htold : told es = some a) (hw : a.Writable) :
    ∃ (s : ReplyContext σ) (p : HttpResponse), run (ReplyContext.step config z) (ofContext ctx) es = some s ∧
      p.bytes = s.sent.flatMap Piece.bytes ∧
      (∀ chunks message, chunks.flatten = s.sent.flatMap Piece.bytes → p.Uncut chunks →
        (ClientRun.start chunks message).Returns (a.ret ctx)) ∧
      ((s.sent.flatMap Piece.bytes).length + 1 < 2 ^ 32 → ∀ message,
        (ClientRun.start [s.sent.flatMap Piece.bytes] message).Returns (a.ret ctx)) := by
  obtain ⟨s, hrun, hsent⟩ := run_told config z hctx prepared_ofContext hctx.replyStatus
    htold hw.headers
  obtain ⟨p, hbytes, hret, hknown⟩ := HttpAnswer.exists_response hw hsent
  refine ⟨s, p, hrun, hbytes, ?_⟩
  rw [← hret, ← hbytes]
  refine ⟨fun chunks message hflat huncut => ?_, fun hshort message => ?_⟩
  · exact ClientRun.returns_expected message hflat hknown huncut
  · refine ClientRun.returns_expected message (by simp) hknown ⟨?_, ?_⟩
    · rw [← HttpResponse.spell_segments]
      exact aligned_single p.segments
    · intro c hc
      rw [List.mem_singleton.mp hc]
      exact hshort

/-- A handler that answers in two chunks, with calls in between that say nothing. -/
def greeting : List ReplyContext.Event :=
  [.addheader (bytesOf "X-A") (bytesOf "1"), .replyEnd, .replyStart (some 200) (some (bytesOf "OK")),
    .replyChunk (bytesOf "hel"), .replyChunk [], .replyChunk (bytesOf "lo"), .replyEnd,
    .reply (some 500) (some (bytesOf "Error")) none]

set_option maxRecDepth 4000 in
theorem answer_received_greeting : Answerable plainContext ∧
    told greeting = some ⟨200, bytesOf "OK", [(bytesOf "X-A", bytesOf "1")], true, bytesOf "hello"⟩ ∧
    ∃ s : ReplyContext Unit, run (ReplyContext.step {} noZlib) (ofContext plainContext) greeting = some s ∧
      ((s.sent.flatMap Piece.bytes).length + 1 < 2 ^ 32 → ∀ message,
        (ClientRun.start [s.sent.flatMap Piece.bytes] message).Returns (HttpAnswer.ret plainContext
          ⟨200, bytesOf "OK", [(bytesOf "X-A", bytesOf "1")], true, bytesOf "hello"⟩)) := by
  have hctx : Answerable plainContext := by
    refine ⟨rfl, rfl, by decide, ?_, by decide⟩
    obtain ⟨version, hversion, -⟩ := @versionNumber_oneOne plainContext rfl
    have hnone : getHeader plainContext.headers (bytesOf "connection") = none := by decide
    rw [shouldKeepAlive, hversion, hnone]
    exact ⟨_, rfl⟩
  have htold : told greeting
      = some ⟨200, bytesOf "OK", [(bytesOf "X-A", bytesOf "1")], true, bytesOf "hello"⟩ := rfl
  have hw : HttpAnswer.Writable
      ⟨200, bytesOf "OK", [(bytesOf "X-A", bytesOf "1")], true, bytesOf "hello"⟩ := by
    refine ⟨by decide, by decide, ?_, by decide⟩
    intro x hx
    rw [List.mem_singleton.mp hx]
    exact ⟨⟨by decide, by decide, by decide⟩, by decide⟩
  obtain ⟨s, p, hrun, -, -, hreturns⟩ := answer_received {} noZlib hctx htold hw
  exact ⟨hctx, htold, s, hrun, hreturns⟩

end LuaFan
