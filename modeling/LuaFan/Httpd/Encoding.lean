/-
# The encoding of a reply (`modules/fan/httpd/httpd.lua`)

`compress_body` decides whether the body of a reply is compressed, and `reply` adds the header
for it.  `context_reply_fillheader` adds the same header whenever the client takes gzip and no
flag stands against it, and none does when the body was left as it is.

* `reply_encoding_agrees`: the header says what the body is, **exactly if** the body is empty or
  worth compressing, the client does not take gzip, or the handler set the length.
-/
import LuaFan.Httpd.KeepAlive

namespace LuaFan

open Fp

/-! ## The parts of a response -/

/-- The parts of a reply's text. -/
structure ReplyParts where
  status : List UInt8
  headers : List (List UInt8 × List UInt8)
  body : List UInt8

def ReplyParts.text (r : ReplyParts) : List UInt8 :=
  r.status ++ (r.headers.map ReplyContext.headerText).flatten ++ crlf ++ r.body

def gzipHeader : List UInt8 × List UInt8 := (bytesOf "Content-Encoding", bytesOf "gzip")

def isContentEncoding (header : List UInt8 × List UInt8) : Bool :=
  header.1.map toLower == bytesOf "content-encoding"

/-- The header says gzip and the body is compressed, or there is none and the body is that of
the handler. -/
def EncodingAgrees {σ : Type} (z : Zlib σ) (body : List UInt8) (r : ReplyParts) : Prop :=
  r.headers.filter isContentEncoding = [gzipHeader] ∧ z.compress body = some r.body ∨
    r.headers.filter isContentEncoding = [] ∧ r.body = body

namespace ReplyContext

variable {σ : Type} (config : HttpdConfig) (z : Zlib σ) (s : ReplyContext σ)

/-- Does `context_reply_fillheader` add the encoding? -/
def fillsEncoding : Bool :=
  !s.noGzip && !s.contentEncodingSet && !s.contentLengthSet && s.acceptsGzip == some true

/-- The headers that `context_reply_fillheader` writes. -/
def filledHeaders : List (List UInt8 × List UInt8) :=
  s.outHeaders ++ (if s.contentTypeSet then [] else [(bytesOf "Content-Type", s.contentType)]) ++
    if s.fillsEncoding then [gzipHeader] else []

/-- The parts of the text that `context_mt:reply` sends, if it sends one. -/
def replyParts (code : Option ℤ) (message body : Option (List UInt8)) : Option ReplyParts :=
  if s.replyStatus.isSome then none
  else
    ({ s with replyStatus := some .completed } : ReplyContext σ).readyForReply.bind fun s =>
      (s.replyBody config z body).bind fun sb =>
        match sb.1.statusLine code message, sb.1.setKeepAliveHeaders config with
        | some status, some s =>
            let body := sb.2.getD []
            let length := if s.contentLengthSet then []
              else [(bytesOf "Content-Length", bytesOf (toString body.length))]
            some ⟨status, s.filledHeaders ++ length, body⟩
        | _, _ => none

variable {config z s}

/-- What `context_reply_fillheader` writes is the status line and these headers. -/
theorem fillheader_eq {code : Option ℤ} {message : Option (List UInt8)} {s' : ReplyContext σ}
    {status : List UInt8} (hstatus : s.statusLine code message = some status)
    (hkeep : s.setKeepAliveHeaders config = some s') :
    s.fillheader config code message =
      some ({ s' with gzipBody := s'.gzipBody || s'.fillsEncoding },
        status ++ (s'.filledHeaders.map headerText).flatten) := by
  have htype : (if s'.contentTypeSet then [] else headerText (bytesOf "Content-Type", s'.contentType)) =
      ((if s'.contentTypeSet then [] else [(bytesOf "Content-Type", s'.contentType)]).map headerText).flatten := by
    split <;> simp
  rw [fillheader, hstatus, hkeep]
  simp only [htype]
  split
  · rename_i hfills
    rw [filledHeaders, fillsEncoding, hfills]
    simp [gzipHeader]
  · rename_i hfills
    rw [filledHeaders, fillsEncoding, Bool.eq_false_iff.mpr hfills]
    simp

variable (config z s)

/-- **The parts make up the text** that is sent; without them nothing is. -/
theorem reply_replyParts (code : Option ℤ) (message body : Option (List UInt8)) :
    (s.reply config z code message body).1.sent =
      s.sent ++ ((s.replyParts config z code message body).map fun r => Piece.reply r.text).toList := by
  rw [reply, replyParts]
  split
  · simp
  · generalize hs : ({ s with replyStatus := some .completed } : ReplyContext σ) = s₀
    have hsent : s₀.sent = s.sent := by rw [← hs]
    cases hready : s₀.readyForReply with
    | none => simpa [hready] using hsent
    | some s₁ =>
        have hsent₁ := (readyForReply_same hready).sent
        cases hbody : s₁.replyBody config z body with
        | none => simpa [hready, hbody] using hsent₁.trans hsent
        | some sb =>
            obtain ⟨s₂, body'⟩ := sb
            have hsent₂ := (replyBody_same hbody).sent.trans (hsent₁.trans hsent)
            simp only [hready, Option.bind_some, hbody]
            cases hstatus : s₂.statusLine code message with
            | none => simpa [fillheader, hstatus] using hsent₂
            | some status =>
                cases hkeep : s₂.setKeepAliveHeaders config with
                | none => simpa [fillheader, hstatus, hkeep] using hsent₂
                | some s₃ =>
                    have hsent₃ := (setKeepAliveHeaders_same hkeep).sent.trans hsent₂
                    have hlength : (if s₃.contentLengthSet then []
                        else headerText (bytesOf "Content-Length", bytesOf (toString (body'.getD []).length))) =
                      ((if s₃.contentLengthSet then []
                        else [(bytesOf "Content-Length", bytesOf (toString (body'.getD []).length))]).map
                          headerText).flatten := by
                      split <;> simp
                    rw [fillheader_eq hstatus hkeep]
                    simp only [send, hsent₃, hlength, ReplyParts.text, List.map_append, List.flatten_append,
                      List.append_assoc, Option.map_some, Option.toList_some]

/-! ## The flags -/

/-- The same headers and flags, and the same request. -/
structure SameFlags (s s' : ReplyContext σ) : Prop where
  headers : s'.headers = s.headers
  outHeaders : s'.outHeaders = s.outHeaders
  contentType : s'.contentType = s.contentType
  contentLengthSet : s'.contentLengthSet = s.contentLengthSet
  contentEncodingSet : s'.contentEncodingSet = s.contentEncodingSet
  noGzip : s'.noGzip = s.noGzip

variable {config z s} {s' : ReplyContext σ}

theorem readyForReply_flags (h : s.readyForReply = some s') : SameFlags s s' := by
  obtain rfl | ⟨err, rfl⟩ := readyForReply_cases h
  · exact ⟨rfl, rfl, rfl, rfl, rfl, rfl⟩
  · exact ⟨rfl, rfl, rfl, rfl, rfl, rfl⟩

/-- Keep-alive adds headers, none of which is about the encoding or the length. -/
structure KeepsEncoding (s s' : ReplyContext σ) : Prop where
  headers : s'.headers = s.headers
  outHeaders : s'.outHeaders.filter isContentEncoding = s.outHeaders.filter isContentEncoding
  contentLengthSet : s'.contentLengthSet = s.contentLengthSet
  contentEncodingSet : s'.contentEncodingSet = s.contentEncodingSet
  noGzip : s'.noGzip = s.noGzip

theorem addheader_keepsEncoding {key : List UInt8} (value : List UInt8)
    (hencoding : (key.map toLower == bytesOf "content-encoding") = false)
    (hlength : (key.map toLower == bytesOf "content-length") = false) :
    KeepsEncoding s (s.addheader key value) where
  headers := rfl
  outHeaders := by simp [addheader, isContentEncoding, hencoding]
  contentLengthSet := by simp [addheader, hlength]
  contentEncodingSet := by simp [addheader, hencoding]
  noGzip := rfl

theorem KeepsEncoding.trans {s s' s'' : ReplyContext σ} (h : KeepsEncoding s s') (h' : KeepsEncoding s' s'') :
    KeepsEncoding s s'' :=
  ⟨h'.headers.trans h.headers, h'.outHeaders.trans h.outHeaders,
    h'.contentLengthSet.trans h.contentLengthSet, h'.contentEncodingSet.trans h.contentEncodingSet,
    h'.noGzip.trans h.noGzip⟩

theorem setKeepAliveHeaders_keepsEncoding (h : s.setKeepAliveHeaders config = some s') : KeepsEncoding s s' := by
  have hconnection : ((bytesOf "Connection").map toLower == bytesOf "content-encoding") = false ∧
      ((bytesOf "Connection").map toLower == bytesOf "content-length") = false := by decide +kernel
  have hkeepAlive : ((bytesOf "Keep-Alive").map toLower == bytesOf "content-encoding") = false ∧
      ((bytesOf "Keep-Alive").map toLower == bytesOf "content-length") = false := by decide +kernel
  obtain rfl | ⟨state, rfl⟩ | ⟨state, limits, rfl⟩ := setKeepAliveHeaders_cases h
  · exact ⟨rfl, rfl, rfl, rfl, rfl⟩
  · exact addheader_keepsEncoding _ hconnection.1 hconnection.2
  · exact (addheader_keepsEncoding _ hconnection.1 hconnection.2).trans
      (addheader_keepsEncoding _ hkeepAlive.1 hkeepAlive.2)

/-- The encoding that is written. -/
theorem filter_filledHeaders (s : ReplyContext σ) :
    s.filledHeaders.filter isContentEncoding =
      s.outHeaders.filter isContentEncoding ++ if s.fillsEncoding then [gzipHeader] else [] := by
  have htype : isContentEncoding (bytesOf "Content-Type", s.contentType) = false := by
    show ((bytesOf "Content-Type").map toLower == bytesOf "content-encoding") = false
    decide +kernel
  have hgzip : isContentEncoding gzipHeader = true := by decide +kernel
  rw [filledHeaders, List.filter_append, List.filter_append]
  split <;> split <;> simp [htype, hgzip]

/-! ## The decision -/

/-- The body is long enough, of a kind that is compressed, and a tenth shorter then. -/
def WorthCompressing (config : HttpdConfig) (z : Zlib σ) (contentType body : List UInt8) : Prop :=
  config.gzipMinSize ≤ body.length ∧ (∃ t ∈ compressibleTypes, bytesOf t <:+: contentType) ∧
    ∃ c, z.compress body = some c ∧ 10 * c.length < 9 * body.length

section Decision

variable {body : List UInt8}

theorem shouldCompress_eq {accepts : Bool} (haccepts : s.acceptsGzip = some accepts) (hbody : body ≠ []) :
    s.shouldCompress config body = some (accepts && decide (config.gzipMinSize ≤ body.length) &&
      compressibleTypes.any fun t => decide (bytesOf t <:+: s.contentType)) := by
  rw [shouldCompress, if_neg hbody, haccepts, Option.map_some]

theorem compressBody_of_worth (haccepts : s.acceptsGzip = some true) (hbody : body ≠ [])
    (h : WorthCompressing config z s.contentType body) :
    ∃ c, z.compress body = some c ∧ s.compressBody config z body = some (c, true) := by
  obtain ⟨hsize, ⟨t, ht, htype⟩, c, hc, hshorter⟩ := h
  have hany : (compressibleTypes.any fun t => decide (bytesOf t <:+: s.contentType)) = true :=
    List.any_eq_true.mpr ⟨t, ht, decide_eq_true htype⟩
  refine ⟨c, hc, ?_⟩
  rw [compressBody, shouldCompress_eq haccepts hbody, Option.map_some, hc, hany]
  simp [hsize, hshorter]

theorem compressBody_of_not_worth {accepts : Bool} (haccepts : s.acceptsGzip = some accepts) (hbody : body ≠ [])
    (h : ¬(accepts = true ∧ WorthCompressing config z s.contentType body)) :
    s.compressBody config z body = some (body, false) := by
  rw [compressBody, shouldCompress_eq haccepts hbody, Option.map_some]
  cases hc : z.compress body with
  | none => rfl
  | some c =>
      simp only
      rw [if_neg]
      simp only [Bool.and_eq_true, decide_eq_true_eq, List.any_eq_true, not_and]
      rintro ⟨⟨haccept, hsize⟩, t, ht, htype⟩ hshorter
      exact h ⟨haccept, hsize, ⟨t, ht, htype⟩, c, hc, hshorter⟩

end Decision

/-- What is settled before the reply: the body is empty or worth compressing, the client does not
take gzip, or the length is set; or compression leaves the body as it is. -/
def Settled (config : HttpdConfig) (z : Zlib σ) (s : ReplyContext σ) (body : List UInt8) : Prop :=
  body = [] ∨ WorthCompressing config z s.contentType body ∨ s.acceptsGzip ≠ some true ∨
    s.contentLengthSet = true ∨ z.compress body = some body

/-- No decision about the encoding has been made. -/
structure Undecided (s : ReplyContext σ) : Prop where
  contentEncodingSet : s.contentEncodingSet = false
  noGzip : s.noGzip = false
  outHeaders : s.outHeaders.filter isContentEncoding = []

/-- The headers that end up in the parts. -/
theorem filter_replyHeaders (s : ReplyContext σ) (length : List UInt8) :
    (s.filledHeaders ++ if s.contentLengthSet then [] else [(bytesOf "Content-Length", length)]).filter
      isContentEncoding =
        s.outHeaders.filter isContentEncoding ++ if s.fillsEncoding then [gzipHeader] else [] := by
  have hlength : isContentEncoding (bytesOf "Content-Length", length) = false := by
    show ((bytesOf "Content-Length").map toLower == bytesOf "content-encoding") = false
    decide +kernel
  rw [List.filter_append, filter_filledHeaders]
  split <;> simp [hlength]

/-- A reply without a body. -/
theorem replyBody_nil {body : Option (List UInt8)} (h : body.getD [] = []) :
    s.replyBody config z body = some ({ s with noGzip := true }, body) := by
  cases body with
  | none => rfl
  | some bytes =>
      cases bytes with
      | nil => rfl
      | cons b bs => cases h

/-- A reply with a body, as it is decided. -/
theorem replyBody_cons {bytes compressed : List UInt8} {decision : Bool} (hne : bytes ≠ [])
    (h : s.compressBody config z bytes = some (compressed, decision)) :
    s.replyBody config z (some bytes) =
      some (if decision then { s.addheader gzipHeader.1 gzipHeader.2 with contentEncodingSet := true } else s,
        some compressed) := by
  cases bytes with
  | nil => exact absurd rfl hne
  | cons b bs =>
      rw [replyBody, h]
      cases decision <;> rfl

/-- What is declared against what is done, once the body has been dealt with. -/
theorem encodingAgrees_replyBody (h : Undecided s) {body : Option (List UInt8)} {s₂ : ReplyContext σ}
    {body' : Option (List UInt8)} (hbody : s.replyBody config z body = some (s₂, body'))
    {headers : List (List UInt8 × List UInt8)} {status : List UInt8}
    (hheaders : headers.filter isContentEncoding =
      s₂.outHeaders.filter isContentEncoding ++ if s₂.fillsEncoding then [gzipHeader] else []) :
    EncodingAgrees z (body.getD []) ⟨status, headers, body'.getD []⟩ ↔ Settled config z s (body.getD []) := by
  simp only [EncodingAgrees, hheaders]
  by_cases hnil : body.getD [] = []
  · rw [replyBody_nil hnil] at hbody
    cases hbody
    simp [Settled, fillsEncoding, h.outHeaders, hnil]
  · obtain ⟨bytes, rfl⟩ : ∃ bytes, body = some bytes := by
      cases body with
      | none => exact absurd rfl hnil
      | some bytes => exact ⟨bytes, rfl⟩
    rw [Option.getD_some] at hnil ⊢
    cases haccepts : s.acceptsGzip with
    | none =>
        obtain ⟨b, bs, rfl⟩ := List.exists_cons_of_ne_nil hnil
        simp [replyBody, compressBody, shouldCompress, haccepts] at hbody
    | some accepts =>
        by_cases hworth : accepts = true ∧ WorthCompressing config z s.contentType bytes
        · -- compressed, and the flag stands against a second header
          obtain ⟨rfl, hworth⟩ := hworth
          obtain ⟨c, hc, hcompress⟩ := compressBody_of_worth haccepts hnil hworth
          rw [replyBody_cons hnil hcompress] at hbody
          cases hbody
          have hgzip : isContentEncoding gzipHeader = true := by decide +kernel
          have hpair : (gzipHeader.1, gzipHeader.2) = gzipHeader := rfl
          simp [Settled, fillsEncoding, addheader, h.outHeaders, hgzip, hpair, hc, hworth]
        · -- left as it is, and only the client and the length stand against the header
          rw [replyBody_cons hnil (compressBody_of_not_worth haccepts hnil hworth)] at hbody
          cases hbody
          have hnot : accepts = true → ¬WorthCompressing config z s.contentType bytes := fun ha hw => hworth ⟨ha, hw⟩
          cases accepts with
          | false => simp [Settled, fillsEncoding, h.outHeaders, haccepts]
          | true =>
              cases hlength : s.contentLengthSet with
              | true => simp [Settled, fillsEncoding, h.outHeaders, hlength]
              | false =>
                  simp [Settled, fillsEncoding, h.outHeaders, h.noGzip, h.contentEncodingSet, hlength, haccepts,
                    hnil, hnot rfl]

/-- What a response declares against what it holds. -/
theorem encodingAgrees_replyParts (h : Undecided s) {code : Option ℤ} {message body : Option (List UInt8)}
    {r : ReplyParts} (hr : s.replyParts config z code message body = some r) :
    EncodingAgrees z (body.getD []) r ↔ Settled config z s (body.getD []) := by
  rw [replyParts] at hr
  split at hr
  · cases hr
  · obtain ⟨s₁, hready, hr⟩ := Option.bind_eq_some_iff.mp hr
    obtain ⟨⟨s₂, body'⟩, hbody, hr⟩ := Option.bind_eq_some_iff.mp hr
    simp only at hr
    split at hr
    · rename_i status s₃ hstatus hkeep
      cases hr
      have hflags := readyForReply_flags hready
      have hkept := setKeepAliveHeaders_keepsEncoding hkeep
      have hfills : s₃.fillsEncoding = s₂.fillsEncoding := by
        simp only [fillsEncoding, acceptsGzip, hkept.noGzip, hkept.contentEncodingSet, hkept.contentLengthSet,
          hkept.headers]
      have hsettled : Settled config z s₁ (body.getD []) ↔ Settled config z s (body.getD []) := by
        simp only [Settled, acceptsGzip, hflags.contentType, hflags.headers, hflags.contentLengthSet]
      rw [← hsettled]
      refine encodingAgrees_replyBody ?_ hbody ?_
      · exact ⟨hflags.contentEncodingSet.trans h.contentEncodingSet, hflags.noGzip.trans h.noGzip, by
          rw [hflags.outHeaders]
          exact h.outHeaders⟩
      · rw [filter_replyHeaders, hkept.outHeaders, hfills]
    · cases hr

/-! ## The handler -/

/-- The context after the handler: it chose a type of content and added headers. -/
def prepared (ctx : Context) (contentType : List UInt8) (headers : List (List UInt8 × List UInt8)) :
    ReplyContext σ :=
  { headers.foldl (fun s kv => s.addheader kv.1 kv.2) (ofContext ctx) with contentType := contentType }

/-- The headers are collected, and the flags tell which have come. -/
theorem foldl_addheader (headers : List (List UInt8 × List UInt8)) :
    ∀ s : ReplyContext σ,
      let s' := headers.foldl (fun s kv => s.addheader kv.1 kv.2) s
      s'.sent = s.sent ∧ s'.headers = s.headers ∧ s'.outHeaders = s.outHeaders ++ headers ∧ s'.noGzip = s.noGzip ∧
        s'.contentEncodingSet = (s.contentEncodingSet || headers.any isContentEncoding) ∧
        s'.contentLengthSet = (s.contentLengthSet || headers.any fun h => h.1.map toLower == bytesOf "content-length") := by
  induction headers with
  | nil => intro s; simp
  | cons h headers ih =>
      intro s
      obtain ⟨hsent, hheaders, hout, hgzip, hencoding, hlength⟩ := ih (s.addheader h.1 h.2)
      refine ⟨hsent, hheaders, ?_, hgzip, ?_, ?_⟩
      · rw [List.foldl_cons, hout]
        simp [addheader]
      · rw [List.foldl_cons, hencoding]
        simp [addheader, isContentEncoding, Bool.or_assoc]
      · rw [List.foldl_cons, hlength]
        simp [addheader, Bool.or_assoc]

theorem acceptsGzip_eq_true : s.acceptsGzip = some true ↔
    ∃ accept, getHeader s.headers (bytesOf "accept-encoding") = some (.single accept) ∧
      bytesOf "gzip" <:+: accept := by
  rw [acceptsGzip]
  cases getHeader s.headers (bytesOf "accept-encoding") with
  | none => simp
  | some value =>
      cases value with
      | single accept => simp
      | many values => simp

theorem undecided_prepared {ctx : Context} {contentType : List UInt8} {headers : List (List UInt8 × List UInt8)}
    (hheaders : ∀ h ∈ headers, isContentEncoding h = false) :
    Undecided (prepared ctx contentType headers : ReplyContext σ) := by
  obtain ⟨-, -, hout, hgzip, hencoding, -⟩ := foldl_addheader headers (ofContext ctx : ReplyContext σ)
  refine ⟨?_, hgzip, ?_⟩
  · exact hencoding.trans (by simpa [ofContext] using hheaders)
  · show List.filter isContentEncoding
      (headers.foldl (fun s kv => s.addheader kv.1 kv.2) (ofContext ctx : ReplyContext σ)).outHeaders = []
    rw [hout]
    simpa [ofContext] using hheaders

end ReplyContext

open ReplyContext

/-- **The encoding of a reply**: for every request, configuration, body and headers of the handler,
a response that is written says what its body is exactly if this was settled. -/
theorem reply_encoding_agrees {σ : Type} {config : HttpdConfig} {z : Zlib σ} {ctx : Context}
    {contentType : List UInt8} {headers : List (List UInt8 × List UInt8)}
    (hheaders : ∀ h ∈ headers, isContentEncoding h = false) {code : Option ℤ}
    {message body : Option (List UInt8)} {r : ReplyParts}
    (hr : (prepared ctx contentType headers : ReplyContext σ).replyParts config z code message body = some r) :
    ((prepared ctx contentType headers : ReplyContext σ).reply config z code message body).1.sent = [.reply r.text] ∧
    (EncodingAgrees z (body.getD []) r ↔
      body.getD [] = [] ∨ WorthCompressing config z contentType (body.getD []) ∨
        (¬∃ accept, getHeader ctx.headers (bytesOf "accept-encoding") = some (.single accept) ∧
          bytesOf "gzip" <:+: accept) ∨
        (∃ h ∈ headers, h.1.map toLower = bytesOf "content-length") ∨
        z.compress (body.getD []) = some (body.getD [])) := by
  obtain ⟨hsent, hreq, -, -, -, hlength⟩ := foldl_addheader headers (ofContext ctx : ReplyContext σ)
  have haccepts : (prepared ctx contentType headers : ReplyContext σ).acceptsGzip = some true ↔
      ∃ accept, getHeader ctx.headers (bytesOf "accept-encoding") = some (.single accept) ∧
        bytesOf "gzip" <:+: accept := by
    rw [acceptsGzip_eq_true]
    show (∃ accept, getHeader (headers.foldl (fun s kv => s.addheader kv.1 kv.2)
      (ofContext ctx : ReplyContext σ)).headers _ = _ ∧ _) ↔ _
    rw [hreq]
    rfl
  have hset : (prepared ctx contentType headers : ReplyContext σ).contentLengthSet = true ↔
      ∃ h ∈ headers, h.1.map toLower = bytesOf "content-length" := by
    show (headers.foldl (fun s kv => s.addheader kv.1 kv.2) (ofContext ctx : ReplyContext σ)).contentLengthSet
      = true ↔ _
    rw [hlength]
    simp [ofContext]
  constructor
  · rw [reply_replyParts, hr]
    show (headers.foldl (fun s kv => s.addheader kv.1 kv.2) (ofContext ctx : ReplyContext σ)).sent ++ _ = _
    rw [hsent]
    rfl
  · rw [encodingAgrees_replyParts (undecided_prepared hheaders) hr, Settled, ne_eq, haccepts, hset]
    rfl

/-- What zlib makes of two texts. -/
def gzipForms : List (List UInt8 × List UInt8) :=
  [(bytesOf "hello", [31, 139, 8, 0, 0, 0, 0, 0, 0, 3, 203, 72, 205, 201, 201, 7, 0, 134, 166, 16, 54, 5, 0, 0, 0]),
    (List.replicate 64 (ascii 'a'),
      [31, 139, 8, 0, 0, 0, 0, 0, 0, 3, 75, 76, 164, 12, 0, 0, 85, 101, 180, 137, 64, 0, 0, 0])]

/-- A zlib that knows these texts, for replies that are not streamed. -/
def shortZlib : Zlib Unit where
  compress body := gzipForms.lookup body
  deflate := ()
  write st _ := (st, [])
  flush st := (st, [])
  close _ := []

/-- A request that takes gzip. -/
def gzipRequest : Context :=
  { Context.new with
    version := some (bytesOf "1.1")
    headers := [(bytesOf "accept-encoding", .single (bytesOf "gzip"))] }

/-- A body that is compressed, with a header of the handler. -/
theorem reply_encoding_agrees_compressed : ∃ r : ReplyParts,
    (prepared gzipRequest (bytesOf "text/plain") [(bytesOf "X-Tag", bytesOf "1")] : ReplyContext Unit).replyParts
      { gzipMinSize := 64 } shortZlib (some 200) (some (bytesOf "OK")) (some (List.replicate 64 (ascii 'a'))) = some r ∧
      r.headers.filter isContentEncoding = [gzipHeader] ∧ r.body.length = 24 ∧
      EncodingAgrees shortZlib (List.replicate 64 (ascii 'a')) r := by
  have hparts : ((prepared gzipRequest (bytesOf "text/plain") [(bytesOf "X-Tag", bytesOf "1")] :
      ReplyContext Unit).replyParts { gzipMinSize := 64 } shortZlib (some 200) (some (bytesOf "OK"))
        (some (List.replicate 64 (ascii 'a')))).map
        (fun r => (r.headers.filter isContentEncoding, r.body.length)) = some ([gzipHeader], 24) := by
    decide +kernel
  obtain ⟨r, hr, hpair⟩ := Option.map_eq_some_iff.mp hparts
  obtain ⟨hheaders, hbody⟩ := Prod.mk.inj hpair
  have hworth : WorthCompressing { gzipMinSize := 64 } shortZlib (bytesOf "text/plain") (List.replicate 64 (ascii 'a')) :=
    ⟨by simp, ⟨"text/", by decide, by decide +kernel⟩, _, rfl, by decide⟩
  exact ⟨r, hr, hheaders, hbody, (reply_encoding_agrees (by decide +kernel) hr).2.mpr (Or.inr (Or.inl hworth))⟩

/-- A short body is sent as it is and declared as compressed. -/
theorem short_body_declared : ∃ r : ReplyParts,
    (prepared gzipRequest (bytesOf "text/plain") [] : ReplyContext Unit).replyParts {} shortZlib (some 200)
      (some (bytesOf "OK")) (some (bytesOf "hello")) = some r ∧
      r.headers.filter isContentEncoding = [gzipHeader] ∧ r.body = bytesOf "hello" ∧
      ¬EncodingAgrees shortZlib (bytesOf "hello") r := by
  have hparts : ((prepared gzipRequest (bytesOf "text/plain") [] : ReplyContext Unit).replyParts {} shortZlib
      (some 200) (some (bytesOf "OK")) (some (bytesOf "hello"))).map
        (fun r => (r.headers.filter isContentEncoding, r.body)) = some ([gzipHeader], bytesOf "hello") := by
    decide +kernel
  obtain ⟨r, hr, hpair⟩ := Option.map_eq_some_iff.mp hparts
  obtain ⟨hheaders, hbody⟩ := Prod.mk.inj hpair
  refine ⟨r, hr, hheaders, hbody, ?_⟩
  rintro (⟨-, hcompressed⟩ | ⟨hnone, -⟩)
  · rw [hbody] at hcompressed
    exact absurd hcompressed (by decide +kernel)
  · rw [hheaders] at hnone
    cases hnone

end LuaFan
