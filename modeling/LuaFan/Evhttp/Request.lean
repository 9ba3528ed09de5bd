/-
# Replying to an evhttp request (`src/httpd_request.c`, `src/httpd.c`)

A Lua request wraps an `evhttp_request`.  Six functions answer it, `reply` being also the
end of a reply that was started, and the connection's close callback takes the
`evhttp_request` away.  `reply_status` and `req` are all that keeps them apart.  The
model logs every evhttp function that is called on the request.

`evhttp_send_reply_end` itself ends a connection that has nothing left to write and is not kept
(HTTP/1.0, or `Connection: close` with a `Content-Length`).  That calls the close callback while
`reply_status` still says that the reply has only been started, and the callback ends it again.

* `evhttp_reply_calls`: **whatever is called in whatever order**, at most one call
  completes the reply, chunks lie between its start and its completion, headers come
  before it, and nothing is called on the request after the close callback, exactly as long
  as no `evhttp_send_reply_end` ends the connection under the callback;
* `evhttp_reply_ended_twice`: a reply of which everything has been written when it is ended.
-/
import Mathlib.Data.List.Infix
import Mathlib.Algebra.Order.Group.Nat
import LuaFan.Lib.Machine
import LuaFan.Lib.Numeral

namespace LuaFan

open Fp Machine

/-! ## What is called -/

/-- The evhttp functions that take the request, or its headers. -/
inductive EvhttpCall where
  | addHeader (key value : List UInt8)
  | findHeader (key : List UInt8)
  | getConnection
  | own
  | sendReply (code : ℤ) (message : Option (List UInt8)) (body : List UInt8)
  | sendReplyStart (code : ℤ) (message : Option (List UInt8))
  | sendReplyChunk (data : List UInt8)
  | sendReplyEnd
  deriving DecidableEq

namespace EvhttpCall

/-- The sends that complete a reply. -/
def terminal : EvhttpCall → Bool
  | sendReply .. => true
  | sendReplyEnd => true
  | _ => false

/-- The sends that start a reply: a whole reply is its own start. -/
def starts : EvhttpCall → Bool
  | sendReply .. => true
  | sendReplyStart .. => true
  | _ => false

end EvhttpCall

/-! ## The code -/

/-- `REPLY_STATUS_NONE`, `REPLY_STATUS_REPLYED` and `REPLY_STATUS_REPLY_START`. -/
inductive ReplyStatus where
  | none
  | replyed
  | replyStart
  deriving DecidableEq

/-- The headers of the client's request that the functions look at. -/
structure InputHeaders where
  connection : Option (List UInt8)
  upgrade : Option (List UInt8)
  secWebSocketKey : Option (List UInt8)
  secWebSocketVersion : Option (List UInt8)

/-- A request without any of the headers. -/
def plainRequest : InputHeaders := ⟨none, none, none, none⟩

/-- The settings of `LuaServer` that `set_connection_header` uses. -/
structure LuaServer where
  enableKeepAlive : Bool
  keepAliveTimeout : ℤ
  maxKeepAliveRequests : ℤ

/-- What a function finds outside of the request: `httpd_server` in the registry, whether
buffers and keys can be allocated, whether the connection and its bufferevent are there,
and whether a peek at the socket finds its end.  `endsConnection` tells whether a connection
that is there has nothing left to write and is not kept, so that `evhttp_send_reply_end` ends
it. -/
structure Surroundings where
  server : Option LuaServer
  evbufferNew : Bool
  evbufferAdd : Bool
  acceptKey : Bool
  evcon : Bool
  bev : Bool
  peekEnd : Bool
  endsConnection : Bool

/-- No server in the registry, and every resource at hand. -/
def calm : Surroundings := ⟨none, true, true, true, true, true, false, false⟩

/-- The fields of `Request` that replying uses.  `closecb` tells whether the close
callback is registered with the connection, and `calls` is what was called on the
`evhttp_request`. -/
structure EvRequest where
  req : Bool
  replyStatus : ReplyStatus
  isWebsocket : Bool
  ownsRequest : Bool
  closecb : Bool
  calls : List EvhttpCall

/-- What a function returns to Lua, or the error that it raises. -/
abbrev LuaResult := Except String Unit

/-- `strcasecmp` and `strcasestr` against a text in lower case. -/
def sameFolded (value : Option (List UInt8)) (text : String) : Bool :=
  value.any fun v => v.map toLower = bytesOf text

def containsFolded (value : Option (List UInt8)) (text : String) : Bool :=
  value.any fun v => decide (bytesOf text <:+: v.map toLower)

/-- `set_connection_header`; the branch for versions before 1.1 is never taken, the
version being the constant 1.1. -/
def setConnectionHeader (input : InputHeaders) (server : LuaServer) : List EvhttpCall :=
  if server.enableKeepAlive then
    .findHeader (bytesOf "Connection") ::
      if sameFolded input.connection "close" then
        [.addHeader (bytesOf "Connection") (bytesOf "close")]
      else
        [.addHeader (bytesOf "Keep-Alive")
            (bytesOf ("timeout=" ++ toString server.keepAliveTimeout ++ ", max=" ++
              toString server.maxKeepAliveRequests)),
          .addHeader (bytesOf "Connection") (bytesOf "keep-alive")]
  else [.addHeader (bytesOf "Connection") (bytesOf "close")]

/-- The headers that `reply` adds by itself. -/
def replyHeaders (input : InputHeaders) : Option LuaServer → List EvhttpCall
  | some server => setConnectionHeader input server
  | none => [.addHeader (bytesOf "Connection") (bytesOf "close")]

/-- `is_websocket_upgrade_request`. -/
def isWebsocketUpgradeRequest (input : InputHeaders) : Bool :=
  sameFolded input.upgrade "websocket" && containsFolded input.connection "upgrade" &&
    input.secWebSocketKey.any (fun key => key ≠ []) &&
    input.secWebSocketVersion == some (bytesOf "13")

/-- The lookups of `is_websocket_upgrade_request`. -/
def upgradeLookups : List EvhttpCall :=
  [.findHeader (bytesOf "Upgrade"), .findHeader (bytesOf "Connection"),
    .findHeader (bytesOf "Sec-WebSocket-Key"), .findHeader (bytesOf "Sec-WebSocket-Version")]

namespace EvRequest

/-- `newtable_from_req`, on a connection that is there. -/
def newtableFromReq : EvRequest := ⟨true, .none, false, false, true, [.getConnection]⟩

def call (s : EvRequest) (cs : List EvhttpCall) : EvRequest := { s with calls := s.calls ++ cs }

/-- `httpd_release_conn_guard`. -/
def releaseConnGuard (s : EvRequest) (evcon : Bool) : EvRequest :=
  if s.req then { s.call [.getConnection] with closecb := s.closecb && !evcon } else s

/-- `httpd_conn_close_cb`, with what its `evhttp_send_reply_end` does. -/
def connCloseCbWith (sendReplyEnd : EvRequest → EvRequest) (s : EvRequest) : EvRequest :=
  { if s.req ∧ s.replyStatus = .replyStart then sendReplyEnd s else s with
    req := false
    replyStatus := .replyed }

/-- `httpd_conn_close_cb`, when the connection has gone before: `evhttp_send_reply_end` has
nothing to end. -/
def connCloseCb (s : EvRequest) : EvRequest := s.connCloseCbWith fun s => s.call [.sendReplyEnd]

/-- `evhttp_send_reply_end`, which may end the connection and so call the close callback.  What
it does when the callback calls it once more, on the request that it has freed, is not defined;
here it returns. -/
def sendReplyEnd (s : EvRequest) (ends : Bool) : EvRequest :=
  if ends ∧ s.closecb then (s.call [.sendReplyEnd]).connCloseCb else s.call [.sendReplyEnd]

/-- What follows the last send. -/
def complete (s : EvRequest) (evcon : Bool) : EvRequest :=
  { s with replyStatus := .replyed }.releaseConnGuard evcon

/-- `lua_evhttp_request_reply`. -/
def reply (input : InputHeaders) (around : Surroundings) (code : ℤ) (message body : Option (List UInt8))
    (s : EvRequest) : EvRequest × LuaResult :=
  if s.req then
    match s.replyStatus with
    | .replyed => (s, .error "reply has completed already.")
    | .replyStart =>
        ((s.sendReplyEnd (around.evcon && around.endsConnection)).complete around.evcon, .ok ())
    | .none =>
        let s := s.call (replyHeaders input around.server)
        let data := body.getD []
        if around.evbufferNew = false then (s, .error "Failed to create response buffer")
        else if data ≠ [] ∧ around.evbufferAdd = false then
          (s, .error "Failed to add data to response buffer")
        else ((s.call [.sendReply code message data]).complete around.evcon, .ok ())
  else (s, .error "connection closed by peer")

/-- `lua_evhttp_request_reply_addheader`; an argument that is no string is none. -/
def addheader (key value : Option (List UInt8)) (s : EvRequest) : EvRequest × LuaResult :=
  if s.req then
    match s.replyStatus with
    | .replyed => (s, .error "reply has completed already.")
    | .replyStart => (s, .error "reply has started already.")
    | .none =>
        match key, value with
        | some key, some value => (s.call [.addHeader key value], .ok ())
        | none, _ => (s, .error "bad argument #2 to 'addheader' (string expected)")
        | some _, none => (s, .error "bad argument #3 to 'addheader' (string expected)")
  else (s, .error "connection closed by peer")

/-- `lua_evhttp_request_reply_start`. -/
def replyStart (code : ℤ) (message : Option (List UInt8)) (s : EvRequest) : EvRequest × LuaResult :=
  if s.req then
    match s.replyStatus with
    | .replyed => (s, .error "reply has completed already.")
    | .replyStart => (s, .error "reply has started already.")
    | .none =>
        ({ s.call [.sendReplyStart code message] with replyStatus := .replyStart }, .ok ())
  else (s, .error "connection closed by peer")

/-- `lua_evhttp_request_reply_chunk`.  A connection that is gone is noticed by its missing
object or by a peek at the socket; the arguments that are strings are put together. -/
def replyChunk (around : Surroundings) (pieces : List (Option (List UInt8))) (s : EvRequest) :
    EvRequest × LuaResult :=
  if s.req then
    match s.replyStatus with
    | .replyed => (s, .error "reply has completed already.")
    | .none => (s, .error "reply has not started yet.")
    | .replyStart =>
        let s := s.call [.getConnection]
        let data := (pieces.map fun p => p.getD []).flatten
        if around.evcon = false ∨ (around.bev ∧ around.peekEnd) then
          ({ s with replyStatus := .replyed }, .error "connection closed by peer")
        else if pieces = [] then (s, .ok ())
        else if around.evbufferNew = false then (s, .error "Failed to create chunk buffer")
        else if data ≠ [] ∧ around.evbufferAdd = false then
          (s, .error "Failed to add data to chunk buffer")
        else (s.call [.sendReplyChunk data], .ok ())
  else ({ s with replyStatus := .replyed }, .error "connection closed by peer")

/-- `lua_evhttp_request_reply_end`. -/
def replyEnd (around : Surroundings) (s : EvRequest) : EvRequest × LuaResult :=
  if s.req then
    match s.replyStatus with
    | .replyed => (s, .error "reply has completed already.")
    | .none => (s, .error "reply has not started yet.")
    | .replyStart =>
        let s := s.call [.getConnection]
        if around.evcon then
          ((s.sendReplyEnd around.endsConnection).complete around.evcon, .ok ())
        else (s.complete around.evcon, .ok ())
  else ({ s with replyStatus := .replyed }, .ok ())

/-- `lua_evhttp_request_websocket_accept`.  The connection's bufferevent is asked for
without a test of the connection, so a call that finds none does not return. -/
def websocketAccept (input : InputHeaders) (around : Surroundings) (s : EvRequest) :
    EvRequest × LuaResult :=
  if s.req then
    if s.replyStatus ≠ .none then (s, .error "Response already started")
    else
      let s := s.call upgradeLookups
      if isWebsocketUpgradeRequest input then
        let s := s.call [.findHeader (bytesOf "Sec-WebSocket-Key")]
        if around.acceptKey = false then (s, .error "Failed to generate WebSocket accept key")
        else
          let s := { s.call [.own] with ownsRequest := true }
          if around.evbufferNew = false then (s, .error "Failed to create response buffer")
          else
            let s := s.call [.getConnection]
            if around.bev then
              ({ s with isWebsocket := true, replyStatus := .replyed, closecb := false }, .ok ())
            else (s, .ok ())
      else (s, .error "Not a valid WebSocket upgrade request")
  else (s, .error "connection closed by peer")

/-- The calls that Lua can make. -/
inductive Op where
  | reply (code : ℤ) (message body : Option (List UInt8))
  | addheader (key value : Option (List UInt8))
  | replyStart (code : ℤ) (message : Option (List UInt8))
  | replyChunk (pieces : List (Option (List UInt8)))
  | replyEnd
  | websocketAccept

def perform (input : InputHeaders) (around : Surroundings) (s : EvRequest) :
    Op → EvRequest × LuaResult
  | .reply code message body => s.reply input around code message body
  | .addheader key value => s.addheader key value
  | .replyStart code message => s.replyStart code message
  | .replyChunk pieces => s.replyChunk around pieces
  | .replyEnd => s.replyEnd around
  | .websocketAccept => s.websocketAccept input around

/-- Does the operation end a reply that was started, and with it the connection? -/
def endsConnection (s : EvRequest) (around : Surroundings) : Op → Bool
  | .reply .. => s.req && s.replyStatus = .replyStart && around.evcon && around.endsConnection
  | .replyEnd => s.req && s.replyStatus = .replyStart && around.evcon && around.endsConnection
  | _ => false

/-- A call, with what it finds around the request, or the close callback: the client has gone,
or `evhttp_free` ends a connection that may still be there for `evhttp_send_reply_end` to end. -/
inductive Event where
  | op (op : Op) (around : Surroundings)
  | closed (ends : Bool)

def step (input : InputHeaders) (s : EvRequest) : Event → EvRequest
  | .op op around => (s.perform input around op).1
  | .closed ends => s.connCloseCbWith fun s => s.sendReplyEnd ends

/-- The request after a run. -/
def after (input : InputHeaders) (es : List Event) : EvRequest :=
  es.foldl (step input) newtableFromReq

/-- As a machine: every event can happen. -/
def moves (input : InputHeaders) (s : EvRequest) (e : Event) : Option EvRequest := some (s.step input e)

/-- No `evhttp_send_reply_end` ends the connection while the close callback is registered. -/
def Unhurried (s : EvRequest) : Event → Prop
  | .op op around => s.endsConnection around op → s.closecb = false
  | .closed ends => s.req ∧ s.replyStatus = .replyStart → ends → s.closecb = false

instance (s : EvRequest) : ∀ e : Event, Decidable (s.Unhurried e)
  | .op op around => inferInstanceAs (Decidable (s.endsConnection around op → s.closecb = false))
  | .closed ends =>
      inferInstanceAs (Decidable (s.req ∧ s.replyStatus = .replyStart → ends → s.closecb = false))

end EvRequest

/-! ## The protocol of a reply -/

namespace EvhttpCall

/-- What a call makes of a reply, and where it is out of place. -/
def advance : ReplyStatus → EvhttpCall → Option ReplyStatus
  | .none, addHeader .. => some .none
  | .none, sendReply .. => some .replyed
  | .none, sendReplyStart .. => some .replyStart
  | .replyStart, sendReplyChunk _ => some .replyStart
  | .replyStart, sendReplyEnd => some .replyed
  | status, findHeader _ => some status
  | status, getConnection => some status
  | status, own => some status
  | _, _ => none

/-- How far the calls have brought the reply, if none of them was out of place. -/
def progress (status : ReplyStatus) (calls : List EvhttpCall) : Option ReplyStatus :=
  calls.foldlM advance status

theorem progress_append (status : ReplyStatus) (cs ds : List EvhttpCall) :
    progress status (cs ++ ds) = (progress status cs).bind fun status' => progress status' ds := by
  simp [progress, List.foldlM_append]

/-- A second end is out of place. -/
theorem progress_twice (status : ReplyStatus) (cs : List EvhttpCall) :
    progress status (cs ++ [sendReplyEnd, sendReplyEnd]) = none := by
  rw [progress_append, Option.bind_eq_none_iff]
  intro status' _
  cases status' <;> rfl

/-- What is known of the calls behind each stage of the reply. -/
def Reached (calls : List EvhttpCall) : ReplyStatus → Prop
  | .none => calls.countP starts = 0 ∧ calls.countP terminal = 0
  | .replyStart => (∃ code message, sendReplyStart code message ∈ calls) ∧ calls.countP terminal = 0
  | .replyed => calls.countP terminal = 1

theorem Reached.concat {calls : List EvhttpCall} {status status' : ReplyStatus} {c : EvhttpCall}
    (h : Reached calls status) (hc : advance status c = some status') :
    Reached (calls ++ [c]) status' := by
  have hstarts : (calls ++ [c]).countP starts = calls.countP starts + [c].countP starts :=
    List.countP_append
  have hterminal : (calls ++ [c]).countP terminal = calls.countP terminal + [c].countP terminal :=
    List.countP_append
  cases status with
  | none =>
      cases c <;> cases hc
      case sendReply.refl => exact hterminal.trans (by rw [h.2]; rfl)
      case sendReplyStart.refl code message =>
        exact ⟨⟨code, message, List.mem_concat_self⟩, hterminal.trans (by rw [h.2]; rfl)⟩
      all_goals exact ⟨hstarts.trans (by rw [h.1]; rfl), hterminal.trans (by rw [h.2]; rfl)⟩
  | replyStart =>
      obtain ⟨⟨code, message, hmem⟩, hnone⟩ := h
      cases c <;> cases hc
      case sendReplyEnd.refl => exact hterminal.trans (by rw [hnone]; rfl)
      all_goals
        exact ⟨⟨code, message, List.mem_append_left _ hmem⟩, hterminal.trans (by rw [hnone]; rfl)⟩
  | replyed =>
      have hone : calls.countP terminal = 1 := h
      cases c <;> cases hc
      all_goals exact hterminal.trans (by rw [hone]; rfl)

theorem reached_of_progress {calls : List EvhttpCall} {status : ReplyStatus}
    (h : progress .none calls = some status) : Reached calls status := by
  induction calls using List.reverseRecOn generalizing status with
  | nil =>
      cases h
      exact ⟨rfl, rfl⟩
  | append_singleton calls c ih =>
      rw [progress_append, Option.bind_eq_some_iff] at h
      obtain ⟨before, hbefore, hc⟩ := h
      refine (ih hbefore).concat ?_
      simpa [progress] using hc

/-- The call at a position was in place there. -/
theorem progress_split {status : ReplyStatus} {before after : List EvhttpCall} {c : EvhttpCall}
    (h : progress .none (before ++ c :: after) = some status) :
    ∃ at_ next, Reached before at_ ∧ advance at_ c = some next := by
  rw [progress_append, Option.bind_eq_some_iff] at h
  obtain ⟨at_, hbefore, h⟩ := h
  simp only [progress, List.foldlM_cons, Option.bind_eq_bind, Option.bind_eq_some_iff] at h
  obtain ⟨next, hc, -⟩ := h
  exact ⟨at_, next, reached_of_progress hbefore, hc⟩

end EvhttpCall

open EvhttpCall

/-- One reply: a single completion, chunks between the start and it, and headers before
the start. -/
structure OneReply (calls : List EvhttpCall) : Prop where
  one_terminal : calls.countP terminal ≤ 1
  chunks_inside : ∀ before data after, calls = before ++ .sendReplyChunk data :: after →
    (∃ code message, .sendReplyStart code message ∈ before) ∧ ∀ c ∈ before, c.terminal = false
  headers_first : ∀ before key value after, calls = before ++ .addHeader key value :: after →
    ∀ c ∈ before, c.starts = false

/-- **Calls that follow the protocol make one reply.** -/
theorem oneReply_of_progress {calls : List EvhttpCall} {status : ReplyStatus}
    (h : progress .none calls = some status) : OneReply calls where
  one_terminal := by
    have hreached := reached_of_progress h
    cases status with
    | none => exact hreached.2.le.trans (Nat.zero_le 1)
    | replyStart => exact hreached.2.le.trans (Nat.zero_le 1)
    | replyed => exact hreached.le
  chunks_inside := by
    rintro before data after rfl
    obtain ⟨status, next, hreached, hc⟩ := progress_split h
    cases status with
    | none => cases hc
    | replyed => cases hc
    | replyStart => exact ⟨hreached.1, by simpa [List.countP_eq_zero] using hreached.2⟩
  headers_first := by
    rintro before key value after rfl
    obtain ⟨status, next, hreached, hc⟩ := progress_split h
    cases status with
    | none => simpa [List.countP_eq_zero] using hreached.1
    | replyed => cases hc
    | replyStart => cases hc

/-! ## The code follows the protocol -/

theorem progress_replyHeaders (input : InputHeaders) (server : Option LuaServer) :
    progress .none (replyHeaders input server) = some .none := by
  cases server with
  | none => rfl
  | some server =>
      simp only [replyHeaders, setConnectionHeader]
      split
      · split <;> rfl
      · rfl

namespace EvRequest

variable {s : EvRequest} {input : InputHeaders}

/-- What an operation that leads from `s` to `s'` can do: the calls it makes are in place,
it makes none once the request is gone or the reply completed, and its status is where
the calls led or `REPLYED`.  The close callback goes with a completion or a WebSocket. -/
structure Answers (s s' : EvRequest) (cs : List EvhttpCall) (stage : ReplyStatus) : Prop where
  req : s'.req = s.req
  calls : s'.calls = s.calls ++ cs
  refused : s.req = false ∨ s.replyStatus = .replyed → cs = []
  inPlace : progress s.replyStatus cs = some stage
  status : s'.replyStatus = .replyed ∨ s'.replyStatus = stage
  guard : (s'.closecb = s.closecb ∧ s'.isWebsocket = s.isWebsocket) ∨
    (s'.closecb = false ∧ ((∃ c ∈ cs, c.terminal = true) ∨ s'.isWebsocket = true))

theorem Answers.refl (s : EvRequest) : Answers s s [] s.replyStatus :=
  ⟨rfl, by simp, fun _ => rfl, rfl, Or.inr rfl, Or.inl ⟨rfl, rfl⟩⟩

/-- The connection was found to be gone. -/
theorem Answers.gone (s : EvRequest) :
    Answers s { s with replyStatus := .replyed } [] s.replyStatus :=
  ⟨rfl, by simp, fun _ => rfl, rfl, Or.inl rfl, Or.inl ⟨rfl, rfl⟩⟩

/-- Calls, with the status where they lead or completed. -/
theorem Answers.call (cs : List EvhttpCall) (stage : ReplyStatus) {status : ReplyStatus} (owns : Bool)
    (hreq : s.req) (hstatus : s.replyStatus ≠ .replyed) (hcs : progress s.replyStatus cs = some stage)
    (h : status = .replyed ∨ status = stage) :
    Answers s { s.call cs with replyStatus := status, ownsRequest := owns } cs stage where
  req := rfl
  calls := rfl
  refused := by rintro (h | h) <;> simp_all
  inPlace := hcs
  status := h
  guard := Or.inl ⟨rfl, rfl⟩

/-- One thing after another. -/
theorem Answers.trans {s₁ s₂ : EvRequest} {cs cs' : List EvhttpCall} {stage stage' : ReplyStatus}
    (h : Answers s s₁ cs stage) (hstatus : s₁.replyStatus = stage)
    (h' : Answers s₁ s₂ cs' stage') : Answers s s₂ (cs ++ cs') stage' where
  req := h'.req.trans h.req
  calls := by rw [h'.calls, h.calls, List.append_assoc]
  refused := by
    intro hs
    -- nothing was called before, so that the status is what it was
    have hcs : cs = [] := h.refused hs
    have hstage : s.replyStatus = stage := by simpa [hcs, progress] using h.inPlace
    have hcs' : cs' = [] := by
      apply h'.refused
      rwa [h.req, hstatus, ← hstage]
    rw [hcs, hcs', List.append_nil]
  inPlace := by
    rw [progress_append, h.inPlace, ← hstatus]
    exact h'.inPlace
  status := h'.status
  guard := by
    rcases h.guard with ⟨hcb, hws⟩ | ⟨hcb, hterm | hws⟩ <;>
      rcases h'.guard with ⟨hcb', hws'⟩ | ⟨hcb', hterm' | hws'⟩
    · exact Or.inl ⟨hcb'.trans hcb, hws'.trans hws⟩
    all_goals grind

/-- A last send. -/
theorem Answers.complete {c : EvhttpCall} (evcon : Bool) (hreq : s.req)
    (hstatus : s.replyStatus ≠ .replyed) (hc : c.terminal)
    (hsend : advance s.replyStatus c = some .replyed) :
    Answers s ((s.call [c]).complete evcon) [c, .getConnection] .replyed where
  req := by simp [EvRequest.complete, releaseConnGuard, EvRequest.call, hreq]
  calls := by simp [EvRequest.complete, releaseConnGuard, EvRequest.call, hreq]
  refused := by rintro (h | h) <;> simp_all
  inPlace := by
    simp only [progress, List.foldlM_cons, hsend]
    rfl
  status := by simp [EvRequest.complete, releaseConnGuard, EvRequest.call, hreq]
  guard := by
    cases evcon with
    | false => simp [EvRequest.complete, releaseConnGuard, EvRequest.call, hreq]
    | true => exact Or.inr ⟨by simp [EvRequest.complete, releaseConnGuard, EvRequest.call, hreq],
        Or.inl ⟨c, by simp, hc⟩⟩

/-- The connection does not end, or nobody hears of it. -/
theorem sendReplyEnd_unhurried {ends : Bool} (h : ends → s.closecb = false) :
    s.sendReplyEnd ends = s.call [.sendReplyEnd] := by
  rw [sendReplyEnd, if_neg]
  rintro ⟨hends, hcb⟩
  rw [h hends] at hcb
  cases hcb

theorem reply_answers (around : Surroundings) (code : ℤ) (message body : Option (List UInt8))
    (hcalm : s.endsConnection around (.reply code message body) → s.closecb = false) :
    ∃ cs stage, Answers s (s.reply input around code message body).1 cs stage := by
  rw [reply]
  split
  case isFalse => exact ⟨_, _, Answers.refl s⟩
  case isTrue hreq =>
    split
    case h_1 => exact ⟨_, _, Answers.refl s⟩
    case h_2 hstatus =>
      -- the reply was started, and is ended here
      have hsend : s.sendReplyEnd (around.evcon && around.endsConnection) = s.call [.sendReplyEnd] := by
        apply sendReplyEnd_unhurried
        intro hends
        apply hcalm
        simpa [endsConnection, hreq, hstatus] using hends
      rw [hsend]
      exact ⟨_, _, Answers.complete around.evcon hreq (by simp [hstatus]) rfl (by rw [hstatus]; rfl)⟩
    case h_3 hstatus =>
      have hheaders : Answers s (s.call (replyHeaders input around.server))
          (replyHeaders input around.server) s.replyStatus :=
        Answers.call _ _ s.ownsRequest hreq (by simp [hstatus])
          (by rw [hstatus]; exact progress_replyHeaders input around.server) (Or.inr rfl)
      dsimp only
      split
      · exact ⟨_, _, hheaders⟩
      · split
        · exact ⟨_, _, hheaders⟩
        · exact ⟨_, _, hheaders.trans rfl (Answers.complete around.evcon hreq
            (by simp [EvRequest.call, hstatus]) rfl (by simp [EvRequest.call, hstatus, advance]))⟩

theorem addheader_answers (key value : Option (List UInt8)) :
    ∃ cs stage, Answers s (s.addheader key value).1 cs stage := by
  unfold addheader
  split
  case isFalse => exact ⟨_, _, Answers.refl s⟩
  case isTrue hreq =>
    split
    case h_1 => exact ⟨_, _, Answers.refl s⟩
    case h_2 => exact ⟨_, _, Answers.refl s⟩
    case h_3 hstatus =>
      split
      · exact ⟨_, _, Answers.call _ _ s.ownsRequest hreq (by simp [hstatus]) (by rw [hstatus]; rfl)
          (Or.inr hstatus)⟩
      · exact ⟨_, _, Answers.refl s⟩
      · exact ⟨_, _, Answers.refl s⟩

theorem replyStart_answers (code : ℤ) (message : Option (List UInt8)) :
    ∃ cs stage, Answers s (s.replyStart code message).1 cs stage := by
  rw [replyStart]
  split
  case isFalse => exact ⟨_, _, Answers.refl s⟩
  case isTrue hreq =>
    split
    case h_1 => exact ⟨_, _, Answers.refl s⟩
    case h_2 => exact ⟨_, _, Answers.refl s⟩
    case h_3 hstatus =>
      exact ⟨_, _, Answers.call _ _ s.ownsRequest hreq (by simp [hstatus]) (by rw [hstatus]; rfl)
        (Or.inr rfl)⟩

theorem replyChunk_answers (around : Surroundings) (pieces : List (Option (List UInt8))) :
    ∃ cs stage, Answers s (s.replyChunk around pieces).1 cs stage := by
  rw [replyChunk]
  split
  case isFalse => exact ⟨_, _, Answers.gone s⟩
  case isTrue hreq =>
    split
    case h_1 => exact ⟨_, _, Answers.refl s⟩
    case h_2 => exact ⟨_, _, Answers.refl s⟩
    case h_3 hstatus =>
      have hlookup : Answers s (s.call [.getConnection]) [.getConnection] s.replyStatus :=
        Answers.call _ _ s.ownsRequest hreq (by simp [hstatus]) (by rw [hstatus]; rfl) (Or.inr rfl)
      dsimp only
      split
      · exact ⟨_, _, hlookup.trans rfl (Answers.gone _)⟩
      · split
        · exact ⟨_, _, hlookup⟩
        · split
          · exact ⟨_, _, hlookup⟩
          · split
            · exact ⟨_, _, hlookup⟩
            · exact ⟨_, _, hlookup.trans rfl (Answers.call _ _ s.ownsRequest hreq
                (by simp [EvRequest.call, hstatus]) (by simp [EvRequest.call, hstatus, progress, advance])
                (Or.inr hstatus))⟩

/-- Without a connection there is no callback to take back. -/
theorem releaseConnGuard_absent (hreq : s.req) :
    s.releaseConnGuard false = s.call [.getConnection] := by
  simp [releaseConnGuard, EvRequest.call, hreq]

theorem replyEnd_answers (around : Surroundings)
    (hcalm : s.endsConnection around .replyEnd → s.closecb = false) :
    ∃ cs stage, Answers s (s.replyEnd around).1 cs stage := by
  rw [replyEnd]
  split
  case isFalse => exact ⟨_, _, Answers.gone s⟩
  case isTrue hreq =>
    split
    case h_1 => exact ⟨_, _, Answers.refl s⟩
    case h_2 => exact ⟨_, _, Answers.refl s⟩
    case h_3 hstatus =>
      have hlookup : Answers s (s.call [.getConnection]) [.getConnection] s.replyStatus :=
        Answers.call _ _ s.ownsRequest hreq (by simp [hstatus]) (by rw [hstatus]; rfl) (Or.inr rfl)
      dsimp only
      split
      case isTrue hevcon =>
        have hsend : (s.call [.getConnection]).sendReplyEnd around.endsConnection
            = (s.call [.getConnection]).call [.sendReplyEnd] := by
          apply sendReplyEnd_unhurried
          intro hends
          apply hcalm
          simp [endsConnection, hreq, hstatus, hevcon, hends]
        rw [hsend]
        exact ⟨_, _, hlookup.trans rfl (Answers.complete around.evcon hreq
          (by simp [EvRequest.call, hstatus]) rfl (by simp [EvRequest.call, hstatus, advance]))⟩
      case isFalse hevcon =>
        -- without a connection nothing is sent, and the reply counts as completed
        rw [Bool.not_eq_true] at hevcon
        rw [hevcon, EvRequest.complete, releaseConnGuard_absent (by exact hreq)]
        exact ⟨_, _, hlookup.trans rfl (Answers.call [.getConnection] .replyStart s.ownsRequest hreq
          (by simp [EvRequest.call, hstatus]) (by simp [EvRequest.call, hstatus, progress, advance])
          (Or.inl rfl))⟩

/-- The WebSocket takes the connection over, and with it the callbacks. -/
theorem Answers.websocket (s : EvRequest) :
    Answers s { s with isWebsocket := true, replyStatus := .replyed, closecb := false } []
      s.replyStatus :=
  ⟨rfl, by simp, fun _ => rfl, rfl, Or.inl rfl, Or.inr ⟨rfl, Or.inr rfl⟩⟩

/-- Lookups leave a reply where it is. -/
theorem Answers.lookup (cs : List EvhttpCall) (owns : Bool) (hreq : s.req)
    (hstatus : s.replyStatus = .none) (hcs : progress .none cs = some .none) :
    Answers s { s.call cs with ownsRequest := owns } cs .none :=
  Answers.call cs .none owns hreq (by simp [hstatus]) (by rwa [hstatus]) (Or.inr hstatus)

theorem websocketAccept_answers (around : Surroundings) :
    ∃ cs stage, Answers s (s.websocketAccept input around).1 cs stage := by
  rw [websocketAccept]
  split
  case isFalse => exact ⟨_, _, Answers.refl s⟩
  case isTrue hreq =>
    split
    case isTrue => exact ⟨_, _, Answers.refl s⟩
    case isFalse hstatus =>
      rw [not_not] at hstatus
      have hheaders : Answers s (s.call upgradeLookups) upgradeLookups .none :=
        Answers.lookup _ s.ownsRequest hreq hstatus rfl
      dsimp only
      split
      · have hkey := hheaders.trans hstatus (Answers.lookup
          [.findHeader (bytesOf "Sec-WebSocket-Key")] s.ownsRequest hreq hstatus rfl)
        split
        · exact ⟨_, _, hkey⟩
        · have hown := hkey.trans hstatus (Answers.lookup [.own] true hreq hstatus rfl)
          split
          · exact ⟨_, _, hown⟩
          · have hcon := hown.trans hstatus
              (Answers.lookup [.getConnection] true hreq hstatus rfl)
            split
            · exact ⟨_, _, hcon.trans hstatus (Answers.websocket _)⟩
            · exact ⟨_, _, hcon⟩
      · exact ⟨_, _, hheaders⟩

/-- **What a call from Lua can do**, if it does not end the connection under the callback. -/
theorem perform_answers (s : EvRequest) (input : InputHeaders) (around : Surroundings) (op : Op)
    (hcalm : s.endsConnection around op → s.closecb = false) :
    ∃ cs stage, Answers s (s.perform input around op).1 cs stage := by
  cases op with
  | reply code message body => exact reply_answers around code message body hcalm
  | addheader key value => exact addheader_answers key value
  | replyStart code message => exact replyStart_answers code message
  | replyChunk pieces => exact replyChunk_answers around pieces
  | replyEnd => exact replyEnd_answers around hcalm
  | websocketAccept => exact websocketAccept_answers around

/-- What an operation does that ends the connection under the callback. -/
structure EndsTwice (s s' : EvRequest) : Prop where
  req : s'.req = false
  status : s'.replyStatus = .replyed
  calls : ∃ cs, s'.calls = s.calls ++ cs ++ [.sendReplyEnd, .sendReplyEnd]
  websocket : s'.isWebsocket = s.isWebsocket

/-- The callback ends the reply again, before the status says that it has been ended. -/
theorem sendReplyEnd_twice (hreq : s.req) (hstatus : s.replyStatus = .replyStart) (hcb : s.closecb) :
    s.sendReplyEnd true = { s.call [.sendReplyEnd, .sendReplyEnd] with
      req := false, replyStatus := .replyed } := by
  simp [sendReplyEnd, connCloseCb, connCloseCbWith, EvRequest.call, hreq, hstatus, hcb]

/-- Only an end of a reply that was started ends the connection. -/
theorem endsConnection_started {around : Surroundings} {op : Op} (h : s.endsConnection around op) :
    (s.req ∧ s.replyStatus = .replyStart) ∧ (around.evcon ∧ around.endsConnection) ∧
      (op = .replyEnd ∨ ∃ code message body, op = .reply code message body) := by
  cases op with
  | reply code message body =>
      have hall : ((s.req ∧ s.replyStatus = .replyStart) ∧ around.evcon) ∧ around.endsConnection := by
        simpa [endsConnection] using h
      exact ⟨hall.1.1, ⟨hall.1.2, hall.2⟩, Or.inr ⟨code, message, body, rfl⟩⟩
  | replyEnd =>
      have hall : ((s.req ∧ s.replyStatus = .replyStart) ∧ around.evcon) ∧ around.endsConnection := by
        simpa [endsConnection] using h
      exact ⟨hall.1.1, ⟨hall.1.2, hall.2⟩, Or.inl rfl⟩
  | addheader key value => cases h
  | replyStart code message => cases h
  | replyChunk pieces => cases h
  | websocketAccept => cases h

theorem perform_endsTwice {around : Surroundings} {op : Op} (hends : s.endsConnection around op)
    (hcb : s.closecb) : EndsTwice s (s.perform input around op).1 := by
  obtain ⟨⟨hreq, hstatus⟩, ⟨hevcon, hend⟩, rfl | ⟨code, message, body, rfl⟩⟩ := endsConnection_started hends
  · have htwice := sendReplyEnd_twice (s := s.call [.getConnection]) hreq hstatus hcb
    simp only [perform, replyEnd, hreq, hstatus, if_true, hevcon, hend, htwice]
    exact ⟨rfl, rfl, ⟨[.getConnection], rfl⟩, rfl⟩
  · simp only [perform, reply, hreq, hstatus, if_true, hevcon, hend, Bool.and_self,
      sendReplyEnd_twice hreq hstatus hcb]
    exact ⟨rfl, rfl, ⟨[], by rw [List.append_nil]; rfl⟩, rfl⟩

/-! ## Whole runs -/

/-- While the request is there, a status other than `REPLYED` tells how far the calls went;
and either they followed the protocol, or they ended the reply twice. -/
structure Follows (s : EvRequest) : Prop where
  known : s.req → s.replyStatus ≠ .replyed → progress .none s.calls = some s.replyStatus
  orTwice : (∃ stage, progress .none s.calls = some stage) ∨ 1 < s.calls.countP terminal

theorem newtableFromReq_follows : newtableFromReq.Follows where
  known := fun _ _ => rfl
  orTwice := Or.inl ⟨.none, rfl⟩

/-- The calls followed the protocol. -/
def InPlace (s : EvRequest) : Prop := ∃ stage, progress .none s.calls = some stage

theorem Follows.answers {s' : EvRequest} {cs : List EvhttpCall} {stage : ReplyStatus}
    (h : s.Follows) (hans : Answers s s' cs stage) : s'.Follows ∧ (s'.InPlace ↔ s.InPlace) := by
  by_cases hrefused : s.req = false ∨ s.replyStatus = .replyed
  · -- nothing is called, and the status stays or becomes `REPLYED`
    have hcs := hans.refused hrefused
    have hcalls : s'.calls = s.calls := by rw [hans.calls, hcs, List.append_nil]
    have hstage : s.replyStatus = stage := by simpa [hcs, progress] using hans.inPlace
    refine ⟨⟨fun hreq hstatus => ?_, by rw [hcalls]; exact h.orTwice⟩, by rw [InPlace, InPlace, hcalls]⟩
    rw [hans.req] at hreq
    rcases hans.status with hdone | hsame
    · exact absurd hdone hstatus
    · rcases hrefused with hgone | hdone
      · simp [hgone] at hreq
      · exact absurd (hsame.trans (hstage.symm.trans hdone)) hstatus
  · rw [not_or, Bool.not_eq_false] at hrefused
    have hknown := h.known hrefused.1 hrefused.2
    have hprogress : progress .none s'.calls = some stage := by
      rw [hans.calls, progress_append, hknown]
      exact hans.inPlace
    refine ⟨⟨fun _ hstatus => ?_, Or.inl ⟨stage, hprogress⟩⟩, iff_of_true ⟨stage, hprogress⟩ ⟨_, hknown⟩⟩
    rcases hans.status with hdone | hsame
    · exact absurd hdone hstatus
    · rw [hprogress, hsame]

/-- The reply has been ended twice, and the calls do not follow the protocol any more. -/
theorem EndsTwice.follows {s' : EvRequest} (h : EndsTwice s s') : s'.Follows ∧ ¬ s'.InPlace := by
  obtain ⟨cs, hcalls⟩ := h.calls
  refine ⟨⟨fun hreq => ?_, Or.inr ?_⟩, ?_⟩
  · rw [h.req] at hreq
    cases hreq
  · rw [hcalls, List.countP_append]
    show 1 < _ + 2
    omega
  · rintro ⟨stage, hstage⟩
    rw [hcalls, progress_twice] at hstage
    cases hstage

/-- The close callback, with an end of its own that does not call it again. -/
theorem Follows.connCloseCb (h : s.Follows) : s.connCloseCb.Follows ∧ (s.connCloseCb.InPlace ↔ s.InPlace) := by
  by_cases hstarted : s.req ∧ s.replyStatus = .replyStart
  · have hknown := h.known hstarted.1 (by simp [hstarted.2])
    have hprogress : progress .none s.connCloseCb.calls = some .replyed := by
      simp only [EvRequest.connCloseCb, connCloseCbWith, hstarted, and_self, if_true, EvRequest.call,
        progress_append, hknown]
      rfl
    exact ⟨⟨fun _ hstatus => absurd rfl hstatus, Or.inl ⟨_, hprogress⟩⟩,
      iff_of_true ⟨_, hprogress⟩ ⟨_, hknown⟩⟩
  · have hcalls : s.connCloseCb.calls = s.calls := by
      simp only [EvRequest.connCloseCb, connCloseCbWith, hstarted, if_false]
    refine ⟨⟨fun _ hstatus => absurd rfl hstatus, ?_⟩, by rw [InPlace, InPlace, hcalls]⟩
    rw [hcalls]
    exact h.orTwice

/-- The callback, whatever its end does. -/
theorem closed_cases (s : EvRequest) (input : InputHeaders) (ends : Bool) :
    (s.Unhurried (.closed ends) ∧ s.step input (.closed ends) = s.connCloseCb) ∨
      (¬ s.Unhurried (.closed ends) ∧ EndsTwice s (s.step input (.closed ends))) := by
  by_cases hok : s.Unhurried (.closed ends)
  · refine Or.inl ⟨hok, ?_⟩
    by_cases hstarted : s.req ∧ s.replyStatus = .replyStart
    · simp only [EvRequest.step, EvRequest.connCloseCb, connCloseCbWith, hstarted, and_self, if_true,
        sendReplyEnd_unhurried (hok hstarted)]
    · simp only [EvRequest.step, EvRequest.connCloseCb, connCloseCbWith, hstarted, if_false]
  · refine Or.inr ⟨hok, ?_⟩
    obtain ⟨hstarted, rfl, hcb⟩ : (s.req ∧ s.replyStatus = .replyStart) ∧ ends = true ∧ s.closecb = true := by
      simpa [Unhurried, and_assoc] using hok
    simp only [EvRequest.step, connCloseCbWith, hstarted, and_self, if_true,
      sendReplyEnd_twice hstarted.1 hstarted.2 hcb]
    exact ⟨rfl, rfl, ⟨[], by rw [List.append_nil]; rfl⟩, rfl⟩

/-- **The calls stay in place exactly while no end of the reply ends the connection under the
callback.** -/
theorem step_follows (h : s.Follows) (e : Event) :
    (s.step input e).Follows ∧ ((s.step input e).InPlace ↔ s.InPlace ∧ s.Unhurried e) := by
  cases e with
  | op op around =>
      by_cases hcalm : s.endsConnection around op → s.closecb = false
      · obtain ⟨cs, stage, hans⟩ := perform_answers s input around op hcalm
        obtain ⟨hfollows, hinPlace⟩ := h.answers hans
        exact ⟨hfollows, hinPlace.trans (iff_self_and.mpr fun _ => hcalm)⟩
      · -- the connection ends under the callback
        rw [Classical.not_imp, Bool.not_eq_false] at hcalm
        have htwice : EndsTwice s (s.perform input around op).1 := perform_endsTwice hcalm.1 hcalm.2
        obtain ⟨hfollows, hnot⟩ := htwice.follows
        refine ⟨hfollows, iff_of_false hnot ?_⟩
        rintro ⟨-, hok⟩
        have hnone := hok hcalm.1
        rw [hcalm.2] at hnone
        cases hnone
  | closed ends =>
      rcases closed_cases s input ends with ⟨hok, hsame⟩ | ⟨hbad, htwice⟩
      · rw [hsame]
        obtain ⟨hfollows, hinPlace⟩ := h.connCloseCb
        exact ⟨hfollows, hinPlace.trans (iff_self_and.mpr fun _ => hok)⟩
      · obtain ⟨hfollows, hnot⟩ := htwice.follows
        exact ⟨hfollows, iff_of_false hnot fun hboth => hbad hboth.2⟩

theorem run_moves (input : InputHeaders) (s : EvRequest) (es : List Event) :
    run (moves input) s es = some (es.foldl (step input) s) := by
  induction es generalizing s with
  | nil => rfl
  | cons e es ih => exact ih (s.step input e)

theorem after_follows (input : InputHeaders) (es : List Event) :
    (after input es).Follows ∧
      ((after input es).InPlace ↔ Meets (moves input) Unhurried newtableFromReq es) := by
  have hstep : ∀ s e s', Follows s → True → moves input s e = some s' →
      Follows s' ∧ (InPlace s' ↔ InPlace s ∧ Unhurried s e) := by
    intro s e s' hs _ hmove
    obtain rfl := Option.some.inj hmove
    exact step_follows hs e
  have hruns := run_iff hstep newtableFromReq_follows (meets_true _ es)
    (run_moves input newtableFromReq es)
  exact ⟨hruns.1, hruns.2.trans (and_iff_right ⟨_, rfl⟩)⟩

/-- Nothing is called on a request that is gone. -/
theorem step_gone (input : InputHeaders) (h : s.req = false) (e : Event) :
    (s.step input e).req = false ∧ (s.step input e).calls = s.calls := by
  cases e with
  | op op around =>
      have hcalm : s.endsConnection around op → s.closecb = false := by
        cases op <;> simp [endsConnection, h]
      obtain ⟨cs, stage, hans⟩ := perform_answers s input around op hcalm
      refine ⟨hans.req.trans h, ?_⟩
      rw [EvRequest.step, hans.calls, hans.refused (Or.inl h), List.append_nil]
  | closed ends => simp [EvRequest.step, connCloseCbWith, h]

theorem foldl_gone (es : List Event) (h : s.req = false) :
    (es.foldl (step input) s).calls = s.calls := by
  induction es generalizing s with
  | nil => rfl
  | cons e es ih =>
      obtain ⟨hreq, hcalls⟩ := step_gone input h e
      rw [List.foldl_cons, ih hreq, hcalls]

/-- **After any run there was one reply at most**, made in order, and the close callback
was the last to call anything on the request, exactly as long as no `evhttp_send_reply_end`
ended the connection under the callback. -/
theorem evhttp_reply_calls (input : InputHeaders) (es : List Event) :
    (OneReply (after input es).calls ∧
      ∀ es₁ ends es₂, es = es₁ ++ .closed ends :: es₂ →
        (after input es).calls = (after input (es₁ ++ [.closed ends])).calls) ↔
      Meets (moves input) Unhurried newtableFromReq es := by
  obtain ⟨hfollows, hmeets⟩ := after_follows input es
  rw [← hmeets]
  constructor
  · rintro ⟨hone, -⟩
    exact hfollows.orTwice.resolve_right (not_lt.mpr hone.one_terminal)
  · rintro ⟨stage, hprogress⟩
    refine ⟨oneReply_of_progress hprogress, ?_⟩
    rintro es₁ ends es₂ rfl
    simp only [after, List.foldl_append, List.foldl_cons, List.foldl_nil]
    exact foldl_gone es₂ rfl

/-- A reply that has been written when it is ended, on a connection that is not kept. -/
def endsLate : List Event :=
  [.op (.replyStart 200 none) calm, .op (.replyChunk [some [104]]) calm,
    .op .replyEnd { calm with endsConnection := true }]

/-- The close callback ends it again. -/
theorem evhttp_reply_ended_twice :
    (after plainRequest endsLate).calls.countP terminal = 2 ∧
      ¬ OneReply (after plainRequest endsLate).calls := by
  have htwice : (after plainRequest endsLate).calls.countP terminal = 2 := by decide
  refine ⟨htwice, ?_⟩
  intro hone
  have hle := hone.one_terminal
  rw [htwice] at hle
  exact absurd hle (by decide)

end EvRequest

end LuaFan
