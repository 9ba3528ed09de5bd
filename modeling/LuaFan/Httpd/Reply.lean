/-
# Replies (`modules/fan/httpd/httpd.lua`)

A request is answered by `reply`, or by `reply_start`, any number of `reply_chunk` and
`reply_end`.  What is sent is logged piece by piece: a whole reply, the head of a chunked
one, a chunk, or the last chunk.  The deflate stream of zlib is a parameter; it hands
what it has to the callback that sends it.

* `reply_one_response`: **the pieces are the beginning of one response**, exactly as long
  as no chunk that would be sent comes before the head or after the completion, and no
  `reply_end` before the head;
* `reply_chunk_after_reply`: a chunk that follows a complete reply.
-/
import LuaFan.Lib.Machine
import LuaFan.Httpd.Loop

namespace LuaFan

open Fp Machine

/-! ## Parts of the code -/

/-- The settings of `config`, with their defaults. -/
structure HttpdConfig where
  connectionTimeout : ℤ := 30
  gzipMinSize : ℕ := 1024

/-- The zlib module: `zlib.compress`, and the stream of `zlib.deflate`, each of whose
methods may hand data to the callback `write`. -/
structure Zlib (σ : Type) where
  compress : List UInt8 → Option (List UInt8)
  deflate : σ
  write : σ → List UInt8 → σ × List (List UInt8)
  flush : σ → σ × List (List UInt8)
  close : σ → List (List UInt8)

/-- The callback is called when there is data to be written, and only then. -/
structure Zlib.HandsData {σ : Type} (z : Zlib σ) : Prop where
  write : ∀ st data, ∀ out ∈ (z.write st data).2, out ≠ []
  flush : ∀ st, ∀ out ∈ (z.flush st).2, out ≠ []
  close : ∀ st, ∀ out ∈ z.close st, out ≠ []

/-- What a call of `apt:send` sends. -/
inductive Piece where
  | reply (text : List UInt8)
  | head (text : List UInt8)
  | chunk (data : List UInt8)
  | last
  deriving DecidableEq

def crlf : List UInt8 := bytesOf "\r\n"

/-- `%X`. -/
def upperHex (n : ℕ) : List UInt8 := (Nat.toDigits 16 n).map fun c => ascii c.toUpper

/-- The bytes of a piece. -/
def Piece.bytes : Piece → List UInt8
  | reply text => text
  | head text => text
  | chunk data => upperHex data.length ++ crlf ++ data ++ crlf
  | last => bytesOf "0" ++ crlf ++ crlf

/-- The fields of a request context that a reply uses.  `contentLength` is the cached
value of `content_length`, and `sent` is what went to the connection. -/
structure ReplyContext (σ : Type) extends Context where
  outHeaders : List (List UInt8 × List UInt8)
  contentType : List UInt8
  contentTypeSet : Bool
  contentLengthSet : Bool
  contentEncodingSet : Bool
  noGzip : Bool
  gzipBody : Bool
  gzipOutputstream : Option σ
  contentLength : Option ℕ
  sent : List Piece

namespace ReplyContext

variable {σ : Type} (config : HttpdConfig) (z : Zlib σ) (s : ReplyContext σ)

/-- The context that is handed to the service. -/
def ofContext (ctx : Context) : ReplyContext σ :=
  { ctx with
    outHeaders := []
    contentType := bytesOf "text/plain; charset=utf-8"
    contentTypeSet := false
    contentLengthSet := false
    contentEncodingSet := false
    noGzip := false
    gzipBody := false
    gzipOutputstream := none
    contentLength := none
    sent := [] }

def send (pieces : List Piece) : ReplyContext σ := { s with sent := s.sent ++ pieces }

/-- `context_mt:addheader`. -/
def addheader (key value : List UInt8) : ReplyContext σ :=
  let lk := key.map toLower
  { s with
    contentTypeSet := s.contentTypeSet || lk == bytesOf "content-type"
    contentLengthSet := s.contentLengthSet || lk == bytesOf "content-length"
    contentEncodingSet := s.contentEncodingSet || lk == bytesOf "content-encoding"
    outHeaders := s.outHeaders ++ [(key, value)] }

/-- `context_mt:_ready_for_reply`, none if it raises an error.  No text is a number by
the pattern of `context_index_content_length`, so that nothing is read; but the first
look at the length records an error for it. -/
def readyForReply : Option (ReplyContext σ) :=
  if s.contentLength.isSome then some s
  else if contentLengthRaises s.toContext then none
  else
    match getHeader s.headers (bytesOf "content-length") with
    | some (.single _) =>
        some { s with
          contentLength := some 0
          httpError := some (badRequest "Invalid Content-Length header") }
    | _ => some { s with contentLength := some 0 }

/-- `context_mt:set_keep_alive_headers`, none if it raises an error. -/
def setKeepAliveHeaders : Option (ReplyContext σ) :=
  match shouldKeepAlive s.toContext, versionNumber s.toContext with
  | some true, some version =>
      if Value.lt version.value onePointOne then
        some ((s.addheader (bytesOf "Connection") (bytesOf "keep-alive")).addheader
          (bytesOf "Keep-Alive")
          (bytesOf ("timeout=" ++ toString config.connectionTimeout ++ ", max=100")))
      else some s
  | some false, _ => some (s.addheader (bytesOf "Connection") (bytesOf "close"))
  | _, _ => none

/-- Does the client accept gzip?  None if there is a list of the header's values. -/
def acceptsGzip : Option Bool :=
  match getHeader s.headers (bytesOf "accept-encoding") with
  | none => some false
  | some (.single accept) => some (decide (bytesOf "gzip" <:+: accept))
  | some (.many _) => none

/-- The status line, none if a value cannot be formatted. -/
def statusLine (code : Option ℤ) (message : Option (List UInt8)) : Option (List UInt8) :=
  match code, message with
  | some code, some message =>
      some (bytesOf "HTTP/" ++ s.version.getD (bytesOf "1.1") ++ bytesOf (" " ++ toString code ++ " ") ++
        message ++ crlf)
  | _, _ => none

def headerText (header : List UInt8 × List UInt8) : List UInt8 :=
  header.1 ++ bytesOf ": " ++ header.2 ++ crlf

/-- `context_reply_fillheader`, none if it raises an error. -/
def fillheader (code : Option ℤ) (message : Option (List UInt8)) :
    Option (ReplyContext σ × List UInt8) :=
  match s.statusLine code message, s.setKeepAliveHeaders config with
  | some status, some s =>
      let text := status ++ (s.outHeaders.map headerText).flatten ++
        if s.contentTypeSet then [] else headerText (bytesOf "Content-Type", s.contentType)
      if !s.noGzip && !s.contentEncodingSet && !s.contentLengthSet && s.acceptsGzip == some true then
        some ({ s with gzipBody := true }, text ++ headerText (bytesOf "Content-Encoding", bytesOf "gzip"))
      else some (s, text)
  | _, _ => none

/-- The types of content that are compressed. -/
def compressibleTypes : List String :=
  ["text/", "application/json", "application/javascript", "application/xml", "application/xhtml+xml"]

/-- `context_mt:should_compress`, none if it raises an error. -/
def shouldCompress (body : List UInt8) : Option Bool :=
  if body = [] then some false
  else s.acceptsGzip.map fun accepts =>
    accepts && decide (config.gzipMinSize ≤ body.length) &&
      compressibleTypes.any fun t => decide (bytesOf t <:+: s.contentType)

/-- `context_mt:compress_body`: the result counts if it is a tenth shorter. -/
def compressBody (body : List UInt8) : Option (List UInt8 × Bool) :=
  (s.shouldCompress config body).map fun should =>
    match z.compress body with
    | some compressed =>
        if should && decide (10 * compressed.length < 9 * body.length) then (compressed, true)
        else (body, false)
    | none => (body, false)

/-! ## The four operations -/

/-- The part of `context_mt:reply` that deals with the body, none if it raises an error. -/
def replyBody (body : Option (List UInt8)) : Option (ReplyContext σ × Option (List UInt8)) :=
  match body with
  | some (b :: bs) =>
      (s.compressBody config z (b :: bs)).map fun r =>
        if r.2 then
          ({ s.addheader (bytesOf "Content-Encoding") (bytesOf "gzip") with contentEncodingSet := true },
            some r.1)
        else (s, some r.1)
  | body => some ({ s with noGzip := true }, body)

/-- `context_mt:reply`.  The second component tells that an error was raised. -/
def reply (code : Option ℤ) (message body : Option (List UInt8)) : ReplyContext σ × Bool :=
  if s.replyStatus.isSome then (s, false)
  else
    let s : ReplyContext σ := { s with replyStatus := some .completed }
    match s.readyForReply with
    | none => (s, true)
    | some s =>
        match s.replyBody config z body with
        | none => (s, true)
        | some (s, body) =>
            match s.fillheader config code message with
            | none => (s, true)
            | some (s, text) =>
                let length := if s.contentLengthSet then []
                  else headerText (bytesOf "Content-Length", bytesOf (toString (body.getD []).length))
                (s.send [.reply (text ++ length ++ crlf ++ body.getD [])], false)

/-- `context_mt:reply_start`. -/
def replyStart (code : Option ℤ) (message : Option (List UInt8)) : ReplyContext σ × Bool :=
  if s.replyStatus.isSome then (s, false)
  else
    match s.readyForReply with
    | none => (s, true)
    | some s =>
        let s : ReplyContext σ := { s with replyStatus := some .started }
        match s.fillheader config code message with
        | none => (s, true)
        | some (s, text) =>
            let s := { s with gzipOutputstream := if s.gzipBody then some z.deflate else none }
            (s.send [.head (text ++ headerText (bytesOf "Transfer-Encoding", bytesOf "chunked") ++ crlf)],
              false)

/-- `context_mt:reply_chunk`, on a connection that is open. -/
def replyChunk (data : List UInt8) : ReplyContext σ × Bool :=
  if s.replyStatus = none ∨ data = [] then (s, false)
  else if s.gzipBody then
    match s.gzipOutputstream with
    | none => (s, true)
    | some st =>
        let written := z.write st data
        let flushed := z.flush written.1
        ({ s with gzipOutputstream := some flushed.1 }.send
          ((written.2 ++ flushed.2).map .chunk), false)
  else (s.send [.chunk data], false)

/-- `context_mt:reply_end`. -/
def replyEnd : ReplyContext σ × Bool :=
  if s.replyStatus ≠ some .started then (s, false)
  else
    let s : ReplyContext σ := { s with replyStatus := some .completed }
    match s.gzipOutputstream with
    | some st =>
        (({ s with gzipOutputstream := none }.send ((z.close st).map .chunk)).send [.last], false)
    | none => (s.send [.last], false)

/-- The calls on a request context. -/
inductive Event where
  | addheader (key value : List UInt8)
  | reply (code : Option ℤ) (message body : Option (List UInt8))
  | replyStart (code : Option ℤ) (message : Option (List UInt8))
  | replyChunk (data : List UInt8)
  | replyEnd

def step (s : ReplyContext σ) : Event → Option (ReplyContext σ)
  | .addheader key value => some (s.addheader key value)
  | .reply code message body => some (s.reply config z code message body).1
  | .replyStart code message => some (s.replyStart config z code message).1
  | .replyChunk data => some (s.replyChunk z data).1
  | .replyEnd => some (s.replyEnd z).1

end ReplyContext

/-! ## One response -/

/-- A response: a whole reply, or a head with its chunks. -/
inductive Response where
  | whole (text : List UInt8)
  | chunked (head : List UInt8) (chunks : List (List UInt8))

namespace Response

def pieces : Response → List Piece
  | whole text => [.reply text]
  | chunked head chunks => .head head :: chunks.map .chunk ++ [.last]

/-- No chunk is empty. -/
def WellFormed : Response → Prop
  | whole _ => True
  | chunked _ chunks => ∀ c ∈ chunks, c ≠ []

end Response

/-- What was sent is the beginning of one response. -/
def OneResponse (sent : List Piece) : Prop :=
  ∃ r : Response, r.WellFormed ∧ sent <+: r.pieces

section OneResponse

variable {head data : List UInt8} {chunks : List (List UInt8)} {sent : List Piece} {x : Piece}

theorem oneResponse_nil : OneResponse [] := ⟨.whole [], trivial, List.nil_prefix⟩

theorem oneResponse_reply (text : List UInt8) : OneResponse [.reply text] :=
  ⟨.whole text, trivial, List.prefix_rfl⟩

theorem oneResponse_open (h : ∀ c ∈ chunks, c ≠ []) : OneResponse (.head head :: chunks.map .chunk) :=
  ⟨.chunked head chunks, h, List.prefix_append _ _⟩

theorem oneResponse_closed (h : ∀ c ∈ chunks, c ≠ []) :
    OneResponse (.head head :: chunks.map .chunk ++ [.last]) :=
  ⟨.chunked head chunks, h, List.prefix_rfl⟩

/-- A response does not begin with a chunk. -/
theorem not_oneResponse_chunk : ¬OneResponse (.chunk data :: sent) := by
  rintro ⟨r, -, hpre⟩
  cases r <;> simp [Response.pieces] at hpre

theorem not_oneResponse_last : ¬OneResponse (.last :: sent) := by
  rintro ⟨r, -, hpre⟩
  cases r <;> simp [Response.pieces] at hpre

/-- Nothing follows a whole reply. -/
theorem not_oneResponse_after_reply {text : List UInt8} : ¬OneResponse [.reply text, x] := by
  rintro ⟨r, -, hpre⟩
  cases r <;> simp [Response.pieces] at hpre

/-- Nothing follows the last chunk. -/
theorem not_oneResponse_after_last (h : .last ∈ sent) : ¬OneResponse (sent ++ [x]) := by
  rintro ⟨r, -, hpre⟩
  cases r with
  | whole text =>
      have hmem := hpre.subset (List.mem_append_left _ h)
      simp [Response.pieces] at hmem
  | chunked head chunks =>
      have hnot : .last ∉ (Piece.head head :: chunks.map .chunk) := by simp
      rcases List.prefix_concat_iff.mp hpre with heq | hpre
      · obtain ⟨rfl, -⟩ := List.append_inj' heq rfl
        exact hnot h
      · exact hnot (hpre.subset (List.mem_append_left _ h))

end OneResponse

namespace ReplyContext

variable {σ : Type} {config : HttpdConfig} {z : Zlib σ} {s s' : ReplyContext σ}

/-- A chunk that would be sent comes after the head and before the completion, and so
does a `reply_end` after the head. -/
def InTurn (s : ReplyContext σ) : Event → Prop
  | .replyChunk data => data ≠ [] → s.replyStatus ≠ none → s.gzipBody = false →
      s.replyStatus = some .started ∧ s.sent ≠ []
  | .replyEnd => s.replyStatus = some .started → s.sent ≠ []
  | _ => True

instance (s : ReplyContext σ) : ∀ e : Event, Decidable (s.InTurn e)
  | .addheader .. => isTrue trivial
  | .reply .. => isTrue trivial
  | .replyStart .. => isTrue trivial
  | .replyChunk data => inferInstanceAs (Decidable (data ≠ [] → s.replyStatus ≠ none →
      s.gzipBody = false → s.replyStatus = some .started ∧ s.sent ≠ []))
  | .replyEnd => inferInstanceAs (Decidable (s.replyStatus = some .started → s.sent ≠ []))

/-! ## What the parts do -/

/-- The first look at the length sets it to 0, and may record an error. -/
theorem readyForReply_cases (h : s.readyForReply = some s') :
    s' = s ∨ ∃ err, s' = { s with contentLength := some 0, httpError := err } := by
  rw [readyForReply] at h
  split at h
  · exact Or.inl (Option.some.inj h).symm
  · split at h
    · cases h
    · split at h
      · exact Or.inr ⟨_, (Option.some.inj h).symm⟩
      · exact Or.inr ⟨s.httpError, (Option.some.inj h).symm⟩

/-- Headers about the connection are added, or none. -/
theorem setKeepAliveHeaders_cases (h : s.setKeepAliveHeaders config = some s') :
    s' = s ∨ (∃ state, s' = s.addheader (bytesOf "Connection") state) ∨
      ∃ state limits,
        s' = (s.addheader (bytesOf "Connection") state).addheader (bytesOf "Keep-Alive") limits := by
  rw [setKeepAliveHeaders] at h
  split at h
  · split at h
    · exact Or.inr (Or.inr ⟨_, _, (Option.some.inj h).symm⟩)
    · exact Or.inl (Option.some.inj h).symm
  · exact Or.inr (Or.inl ⟨_, (Option.some.inj h).symm⟩)
  · cases h

/-- The body is left as it is, not there, or compressed. -/
theorem replyBody_cases {body body' : Option (List UInt8)}
    (h : s.replyBody config z body = some (s', body')) :
    s' = s ∨ s' = { s with noGzip := true } ∨
      s' = { s.addheader (bytesOf "Content-Encoding") (bytesOf "gzip") with contentEncodingSet := true } := by
  unfold replyBody at h
  split at h
  · obtain ⟨r, -, hr⟩ := Option.map_eq_some_iff.mp h
    split at hr
    · exact Or.inr (Or.inr (congrArg Prod.fst hr).symm)
    · exact Or.inl (congrArg Prod.fst hr).symm
  · exact Or.inr (Or.inl (congrArg Prod.fst (Option.some.inj h)).symm)

/-- Behind the headers about the connection it may decide for gzip. -/
theorem fillheader_cases {code : Option ℤ} {message : Option (List UInt8)} {text : List UInt8}
    (h : s.fillheader config code message = some (s', text)) :
    ∃ s₁, s.setKeepAliveHeaders config = some s₁ ∧ (s' = s₁ ∨ s' = { s₁ with gzipBody := true }) := by
  rw [fillheader] at h
  split at h
  case h_2 => cases h
  case h_1 status s₁ _ hkeep =>
    refine ⟨s₁, hkeep, ?_⟩
    simp only at h
    split at h
    · exact Or.inr (congrArg Prod.fst (Option.some.inj h)).symm
    · exact Or.inl (congrArg Prod.fst (Option.some.inj h)).symm

/-! ## What the parts leave alone -/

/-- Nothing was sent, and the stage of the reply is the same. -/
structure SameStage (s s' : ReplyContext σ) : Prop where
  status : s'.replyStatus = s.replyStatus
  sent : s'.sent = s.sent
  gzipBody : s'.gzipBody = s.gzipBody
  stream : s'.gzipOutputstream = s.gzipOutputstream

theorem SameStage.refl (s : ReplyContext σ) : SameStage s s := ⟨rfl, rfl, rfl, rfl⟩

theorem SameStage.trans {s₁ s₂ : ReplyContext σ} (h : SameStage s s₁) (h' : SameStage s₁ s₂) :
    SameStage s s₂ :=
  ⟨h'.status.trans h.status, h'.sent.trans h.sent, h'.gzipBody.trans h.gzipBody,
    h'.stream.trans h.stream⟩

theorem addheader_same (s : ReplyContext σ) (key value : List UInt8) :
    SameStage s (s.addheader key value) := ⟨rfl, rfl, rfl, rfl⟩

theorem readyForReply_same (h : s.readyForReply = some s') : SameStage s s' := by
  obtain rfl | ⟨err, rfl⟩ := readyForReply_cases h
  · exact SameStage.refl _
  · exact ⟨rfl, rfl, rfl, rfl⟩

theorem setKeepAliveHeaders_same (h : s.setKeepAliveHeaders config = some s') : SameStage s s' := by
  obtain rfl | ⟨state, rfl⟩ | ⟨state, limits, rfl⟩ := setKeepAliveHeaders_cases h
  · exact SameStage.refl _
  · exact addheader_same s _ _
  · exact (addheader_same s _ _).trans (addheader_same _ _ _)

theorem replyBody_same {body body' : Option (List UInt8)}
    (h : s.replyBody config z body = some (s', body')) : SameStage s s' := by
  obtain rfl | rfl | rfl := replyBody_cases h
  · exact SameStage.refl _
  · exact ⟨rfl, rfl, rfl, rfl⟩
  · exact ⟨rfl, rfl, rfl, rfl⟩

/-- `context_reply_fillheader` may decide for gzip. -/
theorem fillheader_same {code : Option ℤ} {message : Option (List UInt8)} {text : List UInt8}
    (h : s.fillheader config code message = some (s', text)) :
    s'.replyStatus = s.replyStatus ∧ s'.sent = s.sent ∧ s'.gzipOutputstream = s.gzipOutputstream := by
  obtain ⟨s₁, hkeep, rfl | rfl⟩ := fillheader_cases h
  · have hsame := setKeepAliveHeaders_same hkeep
    exact ⟨hsame.status, hsame.sent, hsame.stream⟩
  · have hsame := setKeepAliveHeaders_same hkeep
    exact ⟨hsame.status, hsame.sent, hsame.stream⟩

/-! ## The invariant -/

/-- What was sent fits the stage of the reply: nothing before it, a head and chunks once
it has started (nothing if the head could not be made), and after its completion all of
a response, or nothing. -/
inductive Fits : ReplyContext σ → Prop
  | pending {s : ReplyContext σ} (status : s.replyStatus = none) (sent : s.sent = [])
      (gzip : s.gzipBody = false) (stream : s.gzipOutputstream = none) : Fits s
  | headless {s : ReplyContext σ} (status : s.replyStatus = some .started) (sent : s.sent = [])
      (gzip : s.gzipBody = false) (stream : s.gzipOutputstream = none) : Fits s
  | started {s : ReplyContext σ} (head : List UInt8) (chunks : List (List UInt8))
      (status : s.replyStatus = some .started) (sent : s.sent = .head head :: chunks.map .chunk)
      (nonempty : ∀ c ∈ chunks, c ≠ []) : Fits s
  | failed {s : ReplyContext σ} (status : s.replyStatus = some .completed) (sent : s.sent = [])
      (stream : s.gzipOutputstream = none) : Fits s
  | replied {s : ReplyContext σ} (text : List UInt8)
      (status : s.replyStatus = some .completed) (sent : s.sent = [.reply text])
      (stream : s.gzipOutputstream = none) : Fits s
  | closed {s : ReplyContext σ} (head : List UInt8) (chunks : List (List UInt8))
      (status : s.replyStatus = some .completed)
      (sent : s.sent = .head head :: chunks.map .chunk ++ [.last])
      (nonempty : ∀ c ∈ chunks, c ≠ []) (stream : s.gzipOutputstream = none) : Fits s

theorem Fits.oneResponse (h : s.Fits) : OneResponse s.sent := by
  cases h with
  | pending _ sent => exact sent ▸ oneResponse_nil
  | headless _ sent => exact sent ▸ oneResponse_nil
  | started head chunks _ sent nonempty => exact sent ▸ oneResponse_open nonempty
  | failed _ sent => exact sent ▸ oneResponse_nil
  | replied text _ sent => exact sent ▸ oneResponse_reply text
  | closed head chunks _ sent nonempty => exact sent ▸ oneResponse_closed nonempty

theorem Fits.same (h : s.Fits) (hsame : SameStage s s') : s'.Fits := by
  cases h with
  | pending status sent gzip stream =>
      exact .pending (hsame.status.trans status) (hsame.sent.trans sent) (hsame.gzipBody.trans gzip)
        (hsame.stream.trans stream)
  | headless status sent gzip stream =>
      exact .headless (hsame.status.trans status) (hsame.sent.trans sent) (hsame.gzipBody.trans gzip)
        (hsame.stream.trans stream)
  | started head chunks status sent nonempty =>
      exact .started head chunks (hsame.status.trans status) (hsame.sent.trans sent) nonempty
  | failed status sent stream =>
      exact .failed (hsame.status.trans status) (hsame.sent.trans sent) (hsame.stream.trans stream)
  | replied text status sent stream =>
      exact .replied text (hsame.status.trans status) (hsame.sent.trans sent) (hsame.stream.trans stream)
  | closed head chunks status sent nonempty stream =>
      exact .closed head chunks (hsame.status.trans status) (hsame.sent.trans sent) nonempty
        (hsame.stream.trans stream)

/-- Before a reply has begun, nothing was sent. -/
theorem Fits.of_pending (h : s.Fits) (hstatus : s.replyStatus = none) :
    s.sent = [] ∧ s.gzipBody = false ∧ s.gzipOutputstream = none := by
  cases h with
  | pending _ sent gzip stream => exact ⟨sent, gzip, stream⟩
  | headless status => simp [status] at hstatus
  | started _ _ status => simp [status] at hstatus
  | failed status => simp [status] at hstatus
  | replied _ status => simp [status] at hstatus
  | closed _ _ status => simp [status] at hstatus

theorem send_first (h : s.sent = []) (p : Piece) : (s.send [p]).sent = [p] := by
  rw [send, h]
  rfl

theorem Fits.reply (h : s.Fits) (code : Option ℤ) (message body : Option (List UInt8)) :
    (s.reply config z code message body).1.Fits := by
  rw [ReplyContext.reply]
  split
  case isTrue => exact h
  case isFalse hstatus =>
    obtain ⟨hsent, -, hstream⟩ := h.of_pending (by simpa using hstatus)
    -- the status is set first, so that an error leaves a completed reply behind
    have hbegun : Fits { s with replyStatus := some .completed } := .failed rfl hsent hstream
    dsimp only
    split
    · exact hbegun
    · rename_i s₁ hready
      have hready := readyForReply_same hready
      split
      · exact hbegun.same hready
      · rename_i s₂ body' hbody
        have hsame := hready.trans (replyBody_same hbody)
        split
        · exact hbegun.same hsame
        · rename_i s₃ text hfill
          obtain ⟨hst, hse, hgz⟩ := fillheader_same hfill
          exact .replied _ (hst.trans hsame.status) (send_first (hse.trans (hsame.sent.trans hsent)) _)
            (hgz.trans (hsame.stream.trans hstream))

theorem Fits.replyStart (h : s.Fits) (code : Option ℤ) (message : Option (List UInt8)) :
    (s.replyStart config z code message).1.Fits := by
  rw [ReplyContext.replyStart]
  split
  case isTrue => exact h
  case isFalse hstatus =>
    obtain ⟨hsent, hgzip, hstream⟩ := h.of_pending (by simpa using hstatus)
    split
    · exact h
    · rename_i s₁ hready
      have hready := readyForReply_same hready
      dsimp only
      split
      · exact .headless rfl (hready.sent.trans hsent) (hready.gzipBody.trans hgzip)
          (hready.stream.trans hstream)
      · rename_i s₂ text hfill
        obtain ⟨hst, hse, -⟩ := fillheader_same hfill
        exact .started _ [] hst (send_first (hse.trans (hready.sent.trans hsent)) _) (by simp)

/-- Chunks are added to a reply that has started. -/
theorem Fits.sendChunks {head : List UInt8} {chunks out : List (List UInt8)}
    (status : s.replyStatus = some .started) (sent : s.sent = .head head :: chunks.map .chunk)
    (nonempty : ∀ c ∈ chunks, c ≠ []) (hout : ∀ c ∈ out, c ≠ []) :
    (s.send (out.map .chunk)).Fits := by
  refine .started head (chunks ++ out) status ?_ ?_
  · rw [send, sent, List.map_append]
    rfl
  · intro c hc
    rcases List.mem_append.mp hc with hc | hc
    · exact nonempty c hc
    · exact hout c hc

theorem Fits.replyChunk (h : s.Fits) (hz : z.HandsData) (data : List UInt8) :
    (s.InTurn (.replyChunk data) → (s.replyChunk z data).1.Fits) ∧
      (OneResponse (s.replyChunk z data).1.sent ↔ s.InTurn (.replyChunk data)) := by
  rw [ReplyContext.replyChunk]
  split
  case isTrue hnothing =>
    refine ⟨fun _ => h, iff_of_true h.oneResponse fun hdata hstatus => ?_⟩
    rcases hnothing with hnone | hempty
    · exact absurd hnone hstatus
    · exact absurd hempty hdata
  case isFalse hsends =>
    rw [not_or] at hsends
    obtain ⟨hstatus, hdata⟩ := hsends
    split
    case isTrue hgzip =>
      have hturn : s.InTurn (.replyChunk data) := fun _ _ hplain => by simp [hgzip] at hplain
      suffices hfits : Fits (match s.gzipOutputstream with
          | none => (s, true)
          | some st => ({ s with gzipOutputstream := some (z.flush (z.write st data).1).1 }.send
              (((z.write st data).2 ++ (z.flush (z.write st data).1).2).map .chunk), false)).1 from
        ⟨fun _ => hfits, iff_of_true hfits.oneResponse hturn⟩
      -- a deflate stream is there only after the head and before the completion
      split
      case h_1 => exact h
      case h_2 st hst =>
        cases h with
        | pending status => exact absurd status hstatus
        | headless _ _ gzip => simp [hgzip] at gzip
        | failed _ _ stream => simp [hst] at stream
        | replied _ _ _ stream => simp [hst] at stream
        | closed _ _ _ _ _ stream => simp [hst] at stream
        | started head chunks status sent nonempty =>
            refine Fits.sendChunks status sent nonempty fun c hc => ?_
            rcases List.mem_append.mp hc with hc | hc
            · exact hz.write st data c hc
            · exact hz.flush _ c hc
    case isFalse hplain =>
      rw [Bool.not_eq_true] at hplain
      have hturn : s.InTurn (.replyChunk data) ↔ s.replyStatus = some .started ∧ s.sent ≠ [] := by
        simp [InTurn, hdata, hstatus, hplain]
      rw [hturn]
      cases h with
      | pending status => exact absurd status hstatus
      | headless status sent =>
          simp only [sent, ne_eq, not_true, and_false, false_imp_iff, true_and, iff_false,
            send_first sent]
          exact not_oneResponse_chunk
      | started head chunks status sent nonempty =>
          have hfits : (s.send ([data].map .chunk)).Fits :=
            Fits.sendChunks status sent nonempty (by simpa using hdata)
          exact ⟨fun _ => hfits, iff_of_true hfits.oneResponse ⟨status, by simp [sent]⟩⟩
      | failed status sent =>
          simp only [sent, ne_eq, not_true, and_false, false_imp_iff, true_and, iff_false,
            send_first sent]
          exact not_oneResponse_chunk
      | replied text status sent =>
          simp only [status, send, sent]
          exact ⟨fun hs => by simp at hs, iff_of_false not_oneResponse_after_reply (by simp)⟩
      | closed head chunks status sent =>
          simp only [status, send, sent]
          exact ⟨fun hs => by simp at hs,
            iff_of_false (not_oneResponse_after_last (by simp)) (by simp)⟩

theorem Fits.replyEnd (h : s.Fits) (hz : z.HandsData) :
    (s.InTurn .replyEnd → (s.replyEnd z).1.Fits) ∧
      (OneResponse (s.replyEnd z).1.sent ↔ s.InTurn .replyEnd) := by
  rw [ReplyContext.replyEnd]
  split
  case isTrue hnot => exact ⟨fun _ => h, iff_of_true h.oneResponse fun hstatus => absurd hstatus hnot⟩
  case isFalse hstatus =>
    rw [not_not] at hstatus
    have hturn : s.InTurn .replyEnd ↔ s.sent ≠ [] := by simp [InTurn, hstatus]
    rw [hturn]
    cases h with
    | pending status => simp [status] at hstatus
    | failed status => simp [status] at hstatus
    | replied _ status => simp [status] at hstatus
    | closed _ _ status => simp [status] at hstatus
    | headless _ sent _ stream =>
        simp only [stream, send, sent, ne_eq, not_true, false_imp_iff, true_and, iff_false]
        exact not_oneResponse_last
    | started head chunks _ sent nonempty =>
        have hne : s.sent ≠ [] := by simp [sent]
        suffices hfits : Fits (match s.gzipOutputstream with
            | some st => ((({ s with
                replyStatus := some .completed
                gzipOutputstream := none } : ReplyContext σ).send ((z.close st).map .chunk)).send [.last],
                false)
            | none => (({ s with replyStatus := some .completed } : ReplyContext σ).send [.last],
                false)).1 from
          ⟨fun _ => hfits, iff_of_true hfits.oneResponse hne⟩
        split
        case h_1 st _ =>
          refine .closed head (chunks ++ z.close st) rfl ?_ ?_ rfl
          · simp [send, sent]
          · intro c hc
            rcases List.mem_append.mp hc with hc | hc
            · exact nonempty c hc
            · exact hz.close st c hc
        case h_2 hst => exact .closed head chunks rfl (by simp [send, sent]) nonempty hst

/-- **A step keeps what was sent one response exactly when it is in turn.** -/
theorem step_fits (hz : z.HandsData) {e : Event} (h : s.Fits) (hstep : step config z s e = some s') :
    (s.InTurn e → s'.Fits) ∧ (OneResponse s'.sent ↔ s.InTurn e) := by
  cases e with
  | addheader key value =>
      cases hstep
      have hfits := h.same (addheader_same s key value)
      exact ⟨fun _ => hfits, iff_of_true hfits.oneResponse trivial⟩
  | reply code message body =>
      cases hstep
      have hfits : (s.reply config z code message body).1.Fits := h.reply code message body
      exact ⟨fun _ => hfits, iff_of_true hfits.oneResponse trivial⟩
  | replyStart code message =>
      cases hstep
      have hfits : (s.replyStart config z code message).1.Fits := h.replyStart code message
      exact ⟨fun _ => hfits, iff_of_true hfits.oneResponse trivial⟩
  | replyChunk data =>
      cases hstep
      exact h.replyChunk hz data
  | replyEnd =>
      cases hstep
      exact h.replyEnd hz

end ReplyContext

open ReplyContext

variable {σ : Type}

/-- **What is sent for a request is the beginning of one response, in every state of a
run of calls**, exactly when every chunk that would be sent comes after the head and
before the completion, and every `reply_end` of a started reply after the head. -/
theorem reply_one_response (config : HttpdConfig) {z : Zlib σ} (hz : z.HandsData) {ctx : Context}
    (hctx : ctx.replyStatus = none) {es : List ReplyContext.Event} {s : ReplyContext σ}
    (hrun : run (ReplyContext.step config z) (ofContext ctx) es = some s) :
    Always (ReplyContext.step config z) (fun s => OneResponse s.sent) (ofContext ctx) es ↔
      Meets (ReplyContext.step config z) InTurn (ofContext ctx) es :=
  always_iff (fun _ _ _ hfits _ hstep => step_fits hz hfits hstep) (.pending hctx rfl rfl rfl)
    oneResponse_nil hrun

/-- A request with an HTTP/1.1 version and no headers that matter. -/
def plainContext : Context :=
  { Context.new with
    method := some (bytesOf "GET")
    path := some (bytesOf "/")
    version := some (bytesOf "1.1")
    headers := [(bytesOf "host", .single (bytesOf "a"))]
    firstLine := true
    headerComplete := true }

/-- A zlib that is not asked for anything. -/
def noZlib : Zlib Unit := ⟨fun _ => none, (), fun _ _ => ((), []), fun _ => ((), []), fun _ => []⟩

theorem noZlib_handsData : noZlib.HandsData := ⟨by simp [noZlib], by simp [noZlib], by simp [noZlib]⟩

/-- A chunked reply, with calls in between that send nothing. -/
def chunkedReply : List ReplyContext.Event :=
  [.replyEnd, .replyStart (some 200) (some (bytesOf "OK")), .replyChunk (bytesOf "hi"), .replyChunk [],
    .replyEnd, .reply (some 500) (some (bytesOf "Error")) none]

theorem reply_one_response_chunked : ∃ s : ReplyContext Unit,
    run (ReplyContext.step {} noZlib) (ofContext plainContext) chunkedReply = some s ∧
      Always (ReplyContext.step {} noZlib) (fun s => OneResponse s.sent) (ofContext plainContext)
        chunkedReply := by
  refine ⟨_, rfl, (reply_one_response _ noZlib_handsData rfl rfl).mpr ?_⟩
  decide +kernel

/-- A reply, and a chunk after it. -/
def chunkAfterReply : List ReplyContext.Event :=
  [.reply (some 200) (some (bytesOf "OK")) none, .replyChunk (bytesOf "hi")]

/-- The chunk is sent behind the complete reply. -/
theorem reply_chunk_after_reply : ∃ s : ReplyContext Unit,
    run (ReplyContext.step {} noZlib) (ofContext plainContext) chunkAfterReply = some s ∧
      s.sent = [.reply (bytesOf ("HTTP/1.1 200 OK\r\nContent-Type: text/plain; charset=utf-8\r\n" ++
        "Content-Length: 0\r\n\r\n")), .chunk (bytesOf "hi")] ∧ ¬OneResponse s.sent := by
  have hsent : ((run (ReplyContext.step {} noZlib) (ofContext plainContext) chunkAfterReply).map
      ReplyContext.sent) = some [.reply (bytesOf ("HTTP/1.1 200 OK\r\nContent-Type: text/plain; " ++
        "charset=utf-8\r\nContent-Length: 0\r\n\r\n")), .chunk (bytesOf "hi")] := by
    decide +kernel
  obtain ⟨s, hrun, hs⟩ := Option.map_eq_some_iff.mp hsent
  exact ⟨s, hrun, hs, hs ▸ not_oneResponse_after_reply⟩

end LuaFan
