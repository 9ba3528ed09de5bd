/-
# Requests on one connection (`modules/fan/httpd/httpd.lua`)

The bodies of requests and the run of `onaccept` over the chunks of a connection, with a log
of the calls of the service: the fields of the head, what `ctx.body` is, and the bytes that
have not been read by then.

The pattern of `context_index_content_length` is meant as an alternative, which Lua patterns
do not have.  It matches no number, so that **every request has the length 0**
(`indexContentLength_eq`), its body is empty (`indexBody_eq`), and a service that replies
reads nothing (`service_replies`).
-/
import LuaFan.Httpd.Reply
import LuaFan.Httpd.Chunking

namespace LuaFan

open Fp

/-! ## The length and the body of a request -/

/-- `context_index_content_length`, with the limit of the configuration: the length and the
error that is recorded, or none if an error is raised. -/
def indexContentLength (limit : LuaNumber) (ctx : Context) : Option (LuaNumber × Option HttpError) :=
  match getHeader ctx.headers (bytesOf "content-length") with
  | some (.single text) =>
      let invalid := some (badRequest "Invalid Content-Length header")
      match matchContentLength text with
      | some num =>
          match str2num num with
          | some len =>
              if Value.le (intValue 0) len.value then
                if Value.lt limit.value len.value then
                  some (.integer 0, some ⟨413, "Content Too Large", none⟩)
                else some (len, ctx.httpError)
              else some (.integer 0, invalid)
          | none => none
      | none => some (.integer 0, invalid)
  | _ => some (.integer 0, ctx.httpError)

/-- The calls of `ctx:read` by `context_index_body`: the number of bytes read and the bytes,
none if a call is parked in `receive`. -/
def bodyLoop (total : Value) : ℕ → ℕ → TcpRead → List UInt8 → Option (ℕ × List UInt8)
  | 0, offset, _, acc => some (offset, acc)
  | rounds + 1, offset, apt, acc =>
      if Value.le total (intValue offset) then some (offset, acc)
      else
        match apt.receive 1 with
        | (.closed, _) => some (offset, acc)
        | (.parked, _) => none
        | (.input, apt) =>
            match streamStep apt.readstream (.getBytes (-1)) with
            | (ba, .string buff) =>
                bodyLoop total rounds (offset + buff.length) { apt with readstream := ba } (acc ++ buff)
            | _ => some (offset, acc)

/-- What an access to `ctx.body` comes to. -/
inductive BodyAccess where
  | body (bytes : List UInt8)
  | broken (bytes : List UInt8)
  | parked
  | raised
  deriving DecidableEq

/-- `context_index_body`. -/
def indexBody (limit : LuaNumber) (ctx : Context) (apt : TcpRead) : BodyAccess :=
  match indexContentLength limit ctx with
  | none => .raised
  | some (total, _) =>
      if total.value = intValue 0 then .body []
      else
        match bodyLoop total.value (bytearrayReadAvailable apt.readstream + 2) 0 apt [] with
        | none => .parked
        | some (offset, bytes) =>
            if Value.le total.value (intValue offset) then .body bytes else .broken bytes

/-- A zero with a bar behind it is no numeral. -/
theorem str2num_bar (rest : List UInt8) : str2num (48 :: 124 :: rest) = none := by
  have hzero : toLower 48 = 48 := by decide
  have hbar : toLower 124 = 124 := by decide
  have hs0 : isSpace 48 = false := by decide
  have hsbar : isSpace 124 = false := by decide
  have hd0 : isDigit 48 = true := by decide
  have hdbar : isDigit 124 = false := by decide
  have hsign : takeSign (48 :: 124 :: rest) = (false, 0) := by
    simp only [takeSign]
    rw [if_neg (by decide), if_neg (by decide)]
  have hhex : startsWith ['0', 'x'] (48 :: 124 :: rest) = false := by
    simp [startsWith, hzero, hbar, ascii]
  have hint : str2int (48 :: 124 :: rest) = none := by
    simp only [str2int, List.dropWhile_cons, hs0, Bool.false_eq_true, if_false, hsign, List.drop_zero,
      hhex, List.takeWhile_cons, hd0, if_true, hdbar, List.length_singleton, Nat.zero_add,
      List.drop_succ_cons, hsbar]
    simp
  have hused : ∃ x, strtod (48 :: 124 :: rest) = (x, 1) := by
    have hword : ∀ c w, ascii c ≠ 48 → startsWith (c :: w) (48 :: 124 :: rest) = false := by
      intro c w hc
      simp [startsWith, hzero, Ne.symm hc]
    have hdot : startsWith ['.'] (124 :: rest) = false := by simp [startsWith, hbar, ascii]
    have hexp : takeExponent 'e' (124 :: rest) = (0, 0) := by
      have hmark : startsWith ['e'] (124 :: rest) = false := by simp [startsWith, hbar, ascii]
      rw [takeExponent, hmark]
      rfl
    have hspecial : takeSpecial false (48 :: 124 :: rest) = none := by
      simp only [takeSpecial]
      rw [if_neg, if_neg, if_neg]
      · simpa using hword 'n' _ (by decide)
      · simpa using hword 'i' _ (by decide)
      · simpa using hword 'i' _ (by decide)
    have hnumeral : ∃ x, takeNumeral 10 10 1 'e' isDigit false (48 :: 124 :: rest) = some (x, 1) := by
      simp [takeNumeral, hd0, hdbar, hdot, hexp]
    obtain ⟨x, hx⟩ := hnumeral
    refine ⟨x, ?_⟩
    simp [strtod, hs0, hsign, takeUnsigned, hspecial, hhex, hx]
  obtain ⟨x, hx⟩ := hused
  have hd : str2d (48 :: 124 :: rest) = none := by
    simp [str2d, hx, hsbar]
  rw [str2num, hint, hd]
  simp

/-- What the pattern matches is no number. -/
theorem str2num_matchContentLength {text num : List UInt8} (h : matchContentLength text = some num) :
    str2num num = none := by
  rw [matchContentLength] at h
  split at h
  · split at h
    · rename_i b digits hdrop hmatch
      cases h
      simp only [Bool.and_eq_true, decide_eq_true_eq] at hmatch
      have htake : text.take 2 = [48, 124] := hmatch.1.1.1.trans (by decide +kernel)
      rw [← List.take_append_drop 2 text, htake]
      exact str2num_bar _
    · cases h
  · cases h

/-- **The length of a request is 0**, whatever its header says, or an error is raised. -/
theorem indexContentLength_eq (limit : LuaNumber) (ctx : Context) :
    indexContentLength limit ctx =
      if contentLengthRaises ctx then none
      else some (.integer 0, match getHeader ctx.headers (bytesOf "content-length") with
        | some (.single _) => some (badRequest "Invalid Content-Length header")
        | _ => ctx.httpError) := by
  rw [indexContentLength, contentLengthRaises]
  cases hheader : getHeader ctx.headers (bytesOf "content-length") with
  | none => rfl
  | some value =>
      cases value with
      | many values => rfl
      | single text =>
          simp only
          cases hmatch : matchContentLength text with
          | some num => simp only [str2num_matchContentLength hmatch, Option.isSome_some, if_true]
          | none => simp only [Option.isSome_none, Bool.false_eq_true, if_false]

/-- Every body is empty. -/
theorem indexBody_eq (limit : LuaNumber) (ctx : Context) (apt : TcpRead) :
    indexBody limit ctx apt = if contentLengthRaises ctx then .raised else .body [] := by
  have hzero : (LuaNumber.integer 0).value = intValue 0 := by simp [LuaNumber.value]
  rw [indexBody, indexContentLength_eq]
  cases contentLengthRaises ctx with
  | true => rfl
  | false => simp only [Bool.false_eq_true, if_false, hzero, if_true]

/-! ## A service that replies once -/

/-- A reply: whole, or in chunks. -/
inductive Answer where
  | whole (code : ℤ) (message body : List UInt8)
  | chunked (code : ℤ) (message : List UInt8) (chunks : List (List UInt8))

/-- What a service does with a request: it may look at the body, and adds headers to its
reply. -/
structure Handling where
  readsBody : Bool
  headers : List (List UInt8 × List UInt8)
  answer : Answer

namespace Handling

variable {σ : Type} (config : HttpdConfig) (z : Zlib σ)

/-- The chunks of a reply, up to an error. -/
def sendChunks : List (List UInt8) → ReplyContext σ → ReplyContext σ × Bool
  | [], s => s.replyEnd z
  | data :: chunks, s =>
      match s.replyChunk z data with
      | (s, true) => (s, true)
      | (s, false) => sendChunks chunks s

def give : Answer → ReplyContext σ → ReplyContext σ × Bool
  | .whole code message body, s => s.reply config z (some code) (some message) (some body)
  | .chunked code message chunks, s =>
      match s.replyStart config z (some code) (some message) with
      | (s, true) => (s, true)
      | (s, false) => sendChunks z chunks s

/-- The calls of the service on its context.  The body is looked at by way of its length, as
in `_ready_for_reply`. -/
def handle (h : Handling) (ctx : Context) : ReplyContext σ × Bool :=
  let s : ReplyContext σ := .ofContext ctx
  match (if h.readsBody then s.readyForReply else some s) with
  | none => (s, true)
  | some s => give config z h.answer (h.headers.foldl (fun s kv => s.addheader kv.1 kv.2) s)

/-- The service.  Nothing of a body is read. -/
def service (h : Handling) : Service := fun ctx _ =>
  let r := h.handle config z ctx
  ⟨r.2, r.1.toContext, [], false⟩

end Handling

/-! ### What a reply leaves alone -/

namespace ReplyContext

variable {σ : Type} {config : HttpdConfig} {z : Zlib σ} {s s' s'' : ReplyContext σ}

/-- A reply does not change the request. -/
structure Kept (s s' : ReplyContext σ) : Prop where
  version : s'.version = s.version
  headers : s'.headers = s.headers

theorem Kept.refl (s : ReplyContext σ) : Kept s s := ⟨rfl, rfl⟩

theorem Kept.trans (h : Kept s s') (h' : Kept s' s'') : Kept s s'' :=
  ⟨h'.version.trans h.version, h'.headers.trans h.headers⟩

theorem Kept.shouldKeepAlive (h : Kept s s') :
    LuaFan.shouldKeepAlive s'.toContext = LuaFan.shouldKeepAlive s.toContext := by
  simp only [LuaFan.shouldKeepAlive, versionNumber, h.version, h.headers]

theorem Kept.acceptsGzip (h : Kept s s') : s'.acceptsGzip = s.acceptsGzip := by
  simp only [ReplyContext.acceptsGzip, h.headers]

theorem kept_addheader (s : ReplyContext σ) (key value : List UInt8) : Kept s (s.addheader key value) :=
  ⟨rfl, rfl⟩

theorem kept_readyForReply (h : s.readyForReply = some s') : Kept s s' := by
  obtain rfl | ⟨err, rfl⟩ := readyForReply_cases h
  · exact Kept.refl _
  · exact ⟨rfl, rfl⟩

theorem kept_setKeepAliveHeaders (h : s.setKeepAliveHeaders config = some s') : Kept s s' := by
  obtain rfl | ⟨state, rfl⟩ | ⟨state, limits, rfl⟩ := setKeepAliveHeaders_cases h
  · exact Kept.refl _
  · exact kept_addheader s _ _
  · exact (kept_addheader s _ _).trans (kept_addheader _ _ _)

theorem kept_replyBody {body body' : Option (List UInt8)}
    (h : s.replyBody config z body = some (s', body')) : Kept s s' := by
  obtain rfl | rfl | rfl := replyBody_cases h
  · exact Kept.refl _
  · exact ⟨rfl, rfl⟩
  · exact ⟨rfl, rfl⟩

theorem kept_fillheader {code : Option ℤ} {message : Option (List UInt8)} {text : List UInt8}
    (h : s.fillheader config code message = some (s', text)) : Kept s s' := by
  obtain ⟨s₁, hkeep, rfl | rfl⟩ := fillheader_cases h
  · exact kept_setKeepAliveHeaders hkeep
  · have hkept := kept_setKeepAliveHeaders hkeep
    exact ⟨hkept.version, hkept.headers⟩

/-! ### When a reply raises an error -/

/-- Without a length that raises an error, the first look at it passes. -/
theorem readyForReply_some (h : contentLengthRaises s.toContext = false) :
    ∃ s', s.readyForReply = some s' := by
  rw [readyForReply]
  split
  · exact ⟨_, rfl⟩
  · rw [h]
    simp only [Bool.false_eq_true, if_false]
    split
    · exact ⟨_, rfl⟩
    · exact ⟨_, rfl⟩

theorem setKeepAliveHeaders_isSome (config : HttpdConfig) (s : ReplyContext σ) :
    (s.setKeepAliveHeaders config).isSome = (LuaFan.shouldKeepAlive s.toContext).isSome := by
  rw [setKeepAliveHeaders]
  cases halive : LuaFan.shouldKeepAlive s.toContext with
  | none => rfl
  | some alive =>
      cases alive with
      | false => rfl
      | true =>
          cases hversion : versionNumber s.toContext with
          | none =>
              rw [LuaFan.shouldKeepAlive, hversion] at halive
              cases halive
          | some version =>
              simp only
              split <;> rfl

theorem fillheader_isSome (config : HttpdConfig) (s : ReplyContext σ) (code : ℤ) (message : List UInt8) :
    (s.fillheader config (some code) (some message)).isSome =
      (LuaFan.shouldKeepAlive s.toContext).isSome := by
  rw [← setKeepAliveHeaders_isSome config, fillheader]
  cases s.setKeepAliveHeaders config with
  | none => rfl
  | some s' =>
      simp only [statusLine]
      split <;> rfl

theorem replyBody_isSome (config : HttpdConfig) (z : Zlib σ) (s : ReplyContext σ) (body : List UInt8) :
    (s.replyBody config z (some body)).isSome = (decide (body = []) || s.acceptsGzip.isSome) := by
  cases body with
  | nil => rfl
  | cons b bs =>
      simp only [replyBody, compressBody, shouldCompress, reduceCtorEq, if_false, decide_false,
        Bool.false_or, Option.isSome_map]

end ReplyContext

namespace Handling

open ReplyContext

variable {σ : Type} (config : HttpdConfig) (z : Zlib σ) {s : ReplyContext σ}

/-- Is the reply one whose text is compressed if the client wants that? -/
def hasText : Answer → Bool
  | .whole _ _ body => decide (body ≠ [])
  | .chunked .. => false

/-- The outcome of a reply: it fails exactly when `fails` says so, and a reply that does not
fail is complete and leaves the request alone. -/
def Outcome (s : ReplyContext σ) (r : ReplyContext σ × Bool) (fails : Prop) : Prop :=
  (r.2 = true ↔ fails) ∧ (r.2 = false → r.1.replyStatus = some .completed ∧ ReplyContext.Kept s r.1)

theorem outcome_sendChunks (chunks : List (List UInt8)) (hstatus : s.replyStatus = some .started)
    (hstream : s.gzipBody = true → s.gzipOutputstream.isSome = true) :
    Outcome s (sendChunks z chunks s) False := by
  induction chunks generalizing s with
  | nil =>
      rw [sendChunks, replyEnd, if_neg (by simp [hstatus])]
      simp only
      split
      · exact ⟨by simp, fun _ => ⟨rfl, ⟨rfl, rfl⟩⟩⟩
      · exact ⟨by simp, fun _ => ⟨rfl, ⟨rfl, rfl⟩⟩⟩
  | cons data chunks ih =>
      have hchunk : ∃ s', s.replyChunk z data = (s', false) ∧ s'.replyStatus = some .started ∧
          (s'.gzipBody = true → s'.gzipOutputstream.isSome = true) ∧ ReplyContext.Kept s s' := by
        rw [replyChunk]
        split
        · exact ⟨s, rfl, hstatus, hstream, ReplyContext.Kept.refl s⟩
        · split
          · rename_i hgzip
            obtain ⟨st, hst⟩ := Option.isSome_iff_exists.mp (hstream hgzip)
            rw [hst]
            exact ⟨_, rfl, hstatus, fun _ => rfl, ⟨rfl, rfl⟩⟩
          · exact ⟨_, rfl, hstatus, hstream, ⟨rfl, rfl⟩⟩
      obtain ⟨s', hs', hstatus', hstream', hkept⟩ := hchunk
      obtain ⟨hfails, hdone⟩ := ih hstatus' hstream'
      rw [sendChunks, hs']
      refine ⟨hfails, ?_⟩
      intro hok
      obtain ⟨hcompleted, hkept'⟩ := hdone hok
      exact ⟨hcompleted, hkept.trans hkept'⟩

/-- **A reply fails exactly** when keep-alive cannot be decided, or when it has a text and
the client repeated its `Accept-Encoding`. -/
theorem outcome_give (answer : Answer) (hpending : s.replyStatus = none)
    (hlength : contentLengthRaises s.toContext = false) :
    Outcome s (give config z answer s) (shouldKeepAlive s.toContext = none ∨
      (hasText answer = true ∧ s.acceptsGzip = none)) := by
  cases answer with
  | whole code message body =>
      obtain ⟨s₁, hready⟩ :=
        readyForReply_some (s := { s with replyStatus := some .completed }) hlength
      have hkept₁ : ReplyContext.Kept s s₁ := ⟨(kept_readyForReply hready).version, (kept_readyForReply hready).headers⟩
      have hstatus₁ : s₁.replyStatus = some .completed := (readyForReply_same hready).status
      rw [give, ReplyContext.reply, if_neg (by simp [hpending])]
      simp only [hready, hasText, ne_eq, decide_eq_true_eq]
      have hbody := replyBody_isSome config z s₁ body
      rw [hkept₁.acceptsGzip] at hbody
      cases hb : s₁.replyBody config z (some body) with
      | none =>
          rw [hb] at hbody
          have hfails : ¬body = [] ∧ s.acceptsGzip = none := by simpa using hbody.symm
          exact ⟨iff_of_true rfl (Or.inr hfails), fun h => by cases h⟩
      | some r =>
          obtain ⟨s₂, body'⟩ := r
          rw [hb] at hbody
          have hgzip : ¬(¬body = [] ∧ s.acceptsGzip = none) := by
            rintro ⟨hne, hnone⟩
            simp [hne, hnone] at hbody
          have hkept₂ := hkept₁.trans (kept_replyBody hb)
          have hfill := fillheader_isSome config s₂ code message
          rw [hkept₂.shouldKeepAlive] at hfill
          simp only
          cases hf : s₂.fillheader config (some code) (some message) with
          | none =>
              rw [hf] at hfill
              exact ⟨iff_of_true rfl (Or.inl (by simpa using hfill.symm)), fun h => by cases h⟩
          | some r =>
              obtain ⟨s₃, text⟩ := r
              rw [hf] at hfill
              have halive : shouldKeepAlive s.toContext ≠ none := by
                rw [← Option.isSome_iff_ne_none]
                exact hfill.symm
              refine ⟨iff_of_false (by simp) (by simp [halive, hgzip]), fun _ => ?_⟩
              have hkept₃ := hkept₂.trans (kept_fillheader hf)
              exact ⟨(fillheader_same hf).1.trans ((replyBody_same hb).status.trans hstatus₁),
                hkept₃.version, hkept₃.headers⟩
  | chunked code message chunks =>
      obtain ⟨s₁, hready⟩ := readyForReply_some hlength
      have hkept₁ : ReplyContext.Kept s { s₁ with replyStatus := some .started } :=
        ⟨(kept_readyForReply hready).version, (kept_readyForReply hready).headers⟩
      have hfill := fillheader_isSome config { s₁ with replyStatus := some .started } code message
      rw [hkept₁.shouldKeepAlive] at hfill
      rw [give, ReplyContext.replyStart, if_neg (by simp [hpending])]
      simp only [hready, hasText, Bool.false_eq_true, false_and, or_false]
      cases hf : ReplyContext.fillheader config { s₁ with replyStatus := some .started } (some code)
          (some message) with
      | none =>
          rw [hf] at hfill
          exact ⟨iff_of_true rfl (by simpa using hfill.symm), fun h => by cases h⟩
      | some r =>
          obtain ⟨s₂, text⟩ := r
          rw [hf] at hfill
          have halive : ¬shouldKeepAlive s.toContext = none := by
            rw [← ne_eq, ← Option.isSome_iff_ne_none]
            exact hfill.symm
          have hkept₂ := hkept₁.trans (kept_fillheader hf)
          simp only [halive]
          obtain ⟨hfails, hdone⟩ := outcome_sendChunks (z := z) (s := ReplyContext.send { s₂ with
            gzipOutputstream := if s₂.gzipBody then some z.deflate else none }
            [.head (text ++ headerText (bytesOf "Transfer-Encoding", bytesOf "chunked") ++ crlf)]) chunks
            (fillheader_same hf).1 (by intro hgzip; simp only [send] at hgzip ⊢; simp [hgzip])
          refine ⟨hfails, fun hok => ?_⟩
          obtain ⟨hcompleted, hkept₃⟩ := hdone hok
          exact ⟨hcompleted, hkept₂.trans ⟨hkept₃.version, hkept₃.headers⟩⟩

/-- **A service that replies once** fails exactly when its reply does; else the reply is
complete and the request as it was. -/
theorem service_replies (h : Handling) {ctx : Context} (apt : TcpRead) (hpending : ctx.replyStatus = none)
    (hlength : contentLengthRaises ctx = false) :
    ((h.service config z ctx apt).raised = true ↔ shouldKeepAlive ctx = none ∨
        (hasText h.answer = true ∧ (ReplyContext.ofContext (σ := σ) ctx).acceptsGzip = none)) ∧
      ((h.service config z ctx apt).raised = false →
        (h.service config z ctx apt).ctx.replyStatus = some .completed ∧
        shouldKeepAlive (h.service config z ctx apt).ctx = shouldKeepAlive ctx) := by
  have hheaders : ∀ (kvs : List (List UInt8 × List UInt8)) (s : ReplyContext σ),
      (kvs.foldl (fun s kv => s.addheader kv.1 kv.2) s).toContext = s.toContext := by
    intro kvs
    induction kvs with
    | nil =>
        intro s
        rfl
    | cons kv kvs ih =>
        intro s
        rw [List.foldl_cons, ih]
        rfl
  have hread : ∃ s : ReplyContext σ, (if h.readsBody then (ofContext ctx).readyForReply
      else some (ofContext ctx)) = some s ∧ s.replyStatus = none ∧ ReplyContext.Kept (ofContext ctx) s := by
    cases h.readsBody with
    | false => exact ⟨_, rfl, hpending, ReplyContext.Kept.refl _⟩
    | true =>
        obtain ⟨s, hs⟩ := readyForReply_some (s := ofContext (σ := σ) ctx) hlength
        exact ⟨s, hs, (readyForReply_same hs).status.trans hpending, kept_readyForReply hs⟩
  obtain ⟨s, hs, hstatus, hkept⟩ := hread
  have hsame := hheaders h.headers s
  have hkept' : ReplyContext.Kept (ofContext ctx) (h.headers.foldl (fun s kv => s.addheader kv.1 kv.2) s) := by
    refine ⟨?_, ?_⟩
    · rw [hsame]
      exact hkept.version
    · rw [hsame]
      exact hkept.headers
  obtain ⟨hfails, hdone⟩ := outcome_give config z
    (s := h.headers.foldl (fun s kv => s.addheader kv.1 kv.2) s) h.answer (by rw [hsame]; exact hstatus)
    (by rw [contentLengthRaises, hkept'.headers]; exact hlength)
  rw [hkept'.shouldKeepAlive, hkept'.acceptsGzip] at hfails
  have hhandle : h.handle config z ctx =
      give config z h.answer (h.headers.foldl (fun s kv => s.addheader kv.1 kv.2) s) := by
    simp only [handle, hs]
  simp only [service, hhandle]
  refine ⟨hfails, fun hok => ?_⟩
  obtain ⟨hcompleted, hkept''⟩ := hdone hok
  exact ⟨hcompleted, (hkept'.trans hkept'').shouldKeepAlive⟩

end Handling

end LuaFan
