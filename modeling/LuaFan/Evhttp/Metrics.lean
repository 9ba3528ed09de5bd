/-
# The metrics of the server (`src/httpd_metrics.c`)

`g_metrics` counts what `httpd_handler_cgi_bin` dispatches and what a whole `reply`
completes.  A server is the metrics together with every request that was dispatched;
`requests_active` should be the number of those that are in progress.

* `requests_active_counted`: `requests_active` is the number of requests in progress **in
  every state of a run exactly if** every request in progress that ends, ends by a whole
  `reply`, no request is rejected, and no `bind` finds one in progress;
* `requests_active_drifts`: a reply that is started and ended is counted for ever.
-/
import LuaFan.Evhttp.Guard

namespace LuaFan

open Machine EvhttpCall EvRequest

/-! ## The counters -/

/-- The counters of `httpd_metrics_t` that are ever updated. -/
structure HttpdMetrics where
  requestsTotal : ℕ
  requestsActive : ℕ
  bytesSent : ℕ
  errorsTotal : ℕ
  connectionsTotal : ℕ
  requestsGet : ℕ
  requestsPost : ℕ
  requestsPut : ℕ
  requestsDelete : ℕ
  requestsOther : ℕ
  responses2xx : ℕ
  responses3xx : ℕ
  responses4xx : ℕ
  responses5xx : ℕ

/-- What an `unsigned long` holds of a sum. -/
def ulong (n : ℕ) : ℕ := n % 2 ^ 64

namespace HttpdMetrics

/-- `metrics_init`. -/
def init : HttpdMetrics := ⟨0, 0, 0, 0, 0, 0, 0, 0, 0, 0, 0, 0, 0, 0⟩

/-- The counter of the request's method, if it has a name. -/
def countMethod (m : HttpdMetrics) : Option String → HttpdMetrics
  | none => m
  | some method =>
      if method = "GET" then { m with requestsGet := ulong (m.requestsGet + 1) }
      else if method = "POST" then { m with requestsPost := ulong (m.requestsPost + 1) }
      else if method = "PUT" then { m with requestsPut := ulong (m.requestsPut + 1) }
      else if method = "DELETE" then { m with requestsDelete := ulong (m.requestsDelete + 1) }
      else { m with requestsOther := ulong (m.requestsOther + 1) }

/-- `metrics_update_request_start`. -/
def updateRequestStart (m : HttpdMetrics) (method : Option String) : HttpdMetrics :=
  { m with
    requestsTotal := ulong (m.requestsTotal + 1)
    requestsActive := ulong (m.requestsActive + 1) }.countMethod method

/-- The counter of the response's class. -/
def countStatus (m : HttpdMetrics) (statusCode : ℤ) : HttpdMetrics :=
  if 200 ≤ statusCode ∧ statusCode < 300 then { m with responses2xx := ulong (m.responses2xx + 1) }
  else if 300 ≤ statusCode ∧ statusCode < 400 then
    { m with responses3xx := ulong (m.responses3xx + 1) }
  else if 400 ≤ statusCode ∧ statusCode < 500 then
    { m with
      responses4xx := ulong (m.responses4xx + 1)
      errorsTotal := ulong (m.errorsTotal + 1) }
  else if 500 ≤ statusCode then
    { m with
      responses5xx := ulong (m.responses5xx + 1)
      errorsTotal := ulong (m.errorsTotal + 1) }
  else m

/-- `metrics_update_request_end`. -/
def updateRequestEnd (m : HttpdMetrics) (statusCode : ℤ) (bytesSent : ℕ) : HttpdMetrics :=
  { m with
    requestsActive := if m.requestsActive > 0 then m.requestsActive - 1 else m.requestsActive
    bytesSent := ulong (m.bytesSent + bytesSent) }.countStatus statusCode

/-- `metrics_update_connection`. -/
def updateConnection (m : HttpdMetrics) : HttpdMetrics :=
  { m with connectionsTotal := ulong (m.connectionsTotal + 1) }

variable (m : HttpdMetrics)

@[simp] theorem countMethod_requestsActive (method : Option String) :
    (m.countMethod method).requestsActive = m.requestsActive := by
  unfold countMethod
  split
  · rfl
  · split_ifs <;> rfl

@[simp] theorem countStatus_requestsActive (statusCode : ℤ) :
    (m.countStatus statusCode).requestsActive = m.requestsActive := by
  unfold countStatus
  split_ifs <;> rfl

@[simp] theorem updateRequestStart_requestsActive (method : Option String) :
    (m.updateRequestStart method).requestsActive = ulong (m.requestsActive + 1) :=
  countMethod_requestsActive _ method

/-- Zero stays zero. -/
@[simp] theorem updateRequestEnd_requestsActive (statusCode : ℤ) (bytesSent : ℕ) :
    (m.updateRequestEnd statusCode bytesSent).requestsActive = m.requestsActive - 1 := by
  rw [updateRequestEnd, countStatus_requestsActive]
  dsimp only
  split <;> omega

@[simp] theorem updateConnection_requestsActive :
    m.updateConnection.requestsActive = m.requestsActive :=
  rfl

end HttpdMetrics

/-! ## The server -/

/-- `enum evhttp_cmd_type`; `other` is any command that `methodMap` does not list. -/
inductive EvhttpCmdType where
  | get
  | post
  | head
  | put
  | delete
  | options
  | trace
  | connect
  | patch
  | other

/-- `methodMap`, as it is searched for a command. -/
def methodMap : EvhttpCmdType → Option String
  | .get => some "GET"
  | .post => some "POST"
  | .head => some "HEAD"
  | .put => some "PUT"
  | .delete => some "DELETE"
  | .options => some "OPTIONS"
  | .trace => some "TRACE"
  | .connect => some "CONNECT"
  | .patch => some "PATCH"
  | .other => none

/-- A request that was dispatched: what the client sent, and where it stands. -/
structure Dispatched where
  input : InputHeaders
  served : Served

/-- `g_metrics`, and all requests that were dispatched since the process started. -/
structure HttpdCore where
  metrics : HttpdMetrics
  requests : List Dispatched

namespace Served

/-- The request is neither finished, answered or taken over or found to be closed, nor
aborted by its client. -/
def inProgress (s : Served) : Bool := s.connected && s.request.replyStatus ≠ .replyed

/-- The status code and the length of the body that `reply` tells `metrics_update_request_end`
when it gets to its end from `REPLY_STATUS_NONE`; nothing else calls that function. -/
def toldEnd (input : InputHeaders) (s : Served) : Event → Option (ℤ × ℕ)
  | .op (.reply code message body) around =>
      if s.request.req ∧ s.request.replyStatus = .none then
        match (s.request.reply input around code message body).2 with
        | .ok () => some (code, (body.getD []).length)
        | .error _ => none
      else none
  | _ => none

end Served

namespace HttpdCore

def start : HttpdCore := ⟨.init, []⟩

/-- The number of requests in progress. -/
def active (c : HttpdCore) : ℕ := c.requests.countP fun d => d.served.inProgress

/-- `bind` starts a server, and the metrics anew.  `httpd_handler_cgi_bin` dispatches a
request, or rejects it when there is no coroutine or no function to call.  A request that
was dispatched moves on. -/
inductive Event where
  | bind
  | dispatch (cmd : EvhttpCmdType) (input : InputHeaders)
  | reject (cmd : EvhttpCmdType)
  | request (i : ℕ) (e : Served.Event)

/-- The metrics at the start of `httpd_handler_cgi_bin`. -/
def received (c : HttpdCore) (cmd : EvhttpCmdType) : HttpdMetrics :=
  c.metrics.updateConnection.updateRequestStart (methodMap cmd)

def ended (m : HttpdMetrics) : Option (ℤ × ℕ) → HttpdMetrics
  | some (code, length) => m.updateRequestEnd code length
  | none => m

def step (c : HttpdCore) : Event → Option HttpdCore
  | .bind => some { c with metrics := .init }
  | .dispatch cmd input => some ⟨c.received cmd, c.requests ++ [⟨input, Served.dispatched⟩]⟩
  | .reject cmd => some { c with metrics := c.received cmd }
  | .request i e => do
      let d ← c.requests[i]?
      let served ← d.served.step d.input e
      some ⟨ended c.metrics (d.served.toldEnd d.input e), c.requests.set i { d with served := served }⟩

/-- The counter says how many requests are in progress. -/
def Counted (c : HttpdCore) : Prop := c.metrics.requestsActive = c.active

end HttpdCore

/-! ## How requests end -/

namespace Served

/-- A request in progress does not end by this event unless by a whole reply: a reply that
was started is not ended, a chunk does not find the connection closed, no WebSocket is
accepted, and the client does not go away. -/
def EndsByReply (input : InputHeaders) (s : Served) : Event → Prop
  | .op (.reply ..) _ => s.inProgress → s.request.replyStatus = .none
  | .op (.replyChunk _) around =>
      s.inProgress → s.request.replyStatus = .replyStart → ¬(around.bev ∧ around.peekEnd)
  | .op .replyEnd _ => s.inProgress → s.request.replyStatus = .none
  | .op .websocketAccept around =>
      s.inProgress → s.request.replyStatus = .none → isWebsocketUpgradeRequest input →
        ¬(around.acceptKey ∧ around.evbufferNew ∧ around.bev)
  | .closes => s.inProgress = false
  | _ => True

instance (input : InputHeaders) (s : Served) : ∀ e : Event, Decidable (s.EndsByReply input e)
  | .op (.reply ..) _ => inferInstanceAs (Decidable (s.inProgress → s.request.replyStatus = .none))
  | .op (.addheader ..) _ => isTrue trivial
  | .op (.replyStart ..) _ => isTrue trivial
  | .op (.replyChunk _) around =>
      inferInstanceAs (Decidable
        (s.inProgress → s.request.replyStatus = .replyStart → ¬(around.bev ∧ around.peekEnd)))
  | .op .replyEnd _ => inferInstanceAs (Decidable (s.inProgress → s.request.replyStatus = .none))
  | .op .websocketAccept around =>
      inferInstanceAs (Decidable
        (s.inProgress → s.request.replyStatus = .none → isWebsocketUpgradeRequest input →
          ¬(around.acceptKey ∧ around.evbufferNew ∧ around.bev)))
  | .yields => isTrue trivial
  | .ends _ => isTrue trivial
  | .closes => inferInstanceAs (Decidable (s.inProgress = false))
  | .freed => isTrue trivial

/-- The request is there with its connection, and is over without it or with a WebSocket. -/
structure Kept (s : Served) : Prop where
  req : s.connected → s.request.req
  websocket : s.request.isWebsocket → s.request.replyStatus = .replyed
  gone : s.connected = false → s.request.replyStatus = .replyed

variable {s s' : Served} {input : InputHeaders}

theorem dispatched_kept : dispatched.Kept where
  req := fun _ => rfl
  websocket := fun h => by cases h
  gone := fun h => by cases h

theorem Kept.inProgress_iff (h : s.Kept) : s.inProgress ↔ s.request.replyStatus ≠ .replyed := by
  constructor
  · intro hs
    simpa using (Bool.and_eq_true_iff.mp hs).2
  · intro hs
    cases hc : s.connected with
    | true => simp [inProgress, hc, hs]
    | false => exact absurd (h.gone hc) hs

theorem not_inProgress (hs : s.request.replyStatus = .replyed) : s.inProgress = false := by
  simp [inProgress, hs]

/-- What is over stays over. -/
theorem perform_replyed {r : EvRequest} (around : Surroundings) (op : Op) (h : r.replyStatus = .replyed) :
    (r.perform input around op).1.replyStatus = .replyed := by
  have hcalm : r.endsConnection around op → r.closecb = false := by
    cases op <;> simp [endsConnection, h]
  obtain ⟨cs, stage, hans⟩ := perform_answers r input around op hcalm
  have hstage : r.replyStatus = stage := by
    simpa [hans.refused (Or.inr h), progress] using hans.inPlace
  rcases hans.status with hdone | hsame
  · exact hdone
  · rw [hsame, ← hstage, h]

@[simp] theorem releaseConnGuard_replyStatus (r : EvRequest) (evcon : Bool) :
    (r.releaseConnGuard evcon).replyStatus = r.replyStatus := by
  rw [releaseConnGuard]
  split <;> rfl

@[simp] theorem releaseConnGuard_isWebsocket (r : EvRequest) (evcon : Bool) :
    (r.releaseConnGuard evcon).isWebsocket = r.isWebsocket := by
  rw [releaseConnGuard]
  split <;> rfl

@[simp] theorem complete_replyStatus (r : EvRequest) (evcon : Bool) :
    (r.complete evcon).replyStatus = .replyed :=
  releaseConnGuard_replyStatus _ _

/-- Only a WebSocket that is accepted marks the request, and the request is over with it. -/
theorem perform_isWebsocket {r : EvRequest} (around : Surroundings) (op : Op)
    (h : r.isWebsocket → r.replyStatus = .replyed) :
    (r.perform input around op).1.isWebsocket → (r.perform input around op).1.replyStatus = .replyed := by
  by_cases hdone : r.replyStatus = .replyed
  · exact fun _ => perform_replyed around op hdone
  · have hplain : r.isWebsocket = false := by simpa [hdone] using h
    cases op with
    | websocketAccept =>
        simp only [perform, websocketAccept]
        split_ifs <;> simp [EvRequest.call, hplain]
    | reply code message body =>
        simp only [perform, reply]
        split
        · split
          · exact h
          · simp
          · split_ifs <;> simp [EvRequest.call, hplain]
        · exact h
    | addheader key value =>
        simp only [perform, addheader]
        grind [EvRequest.call]
    | replyStart code message =>
        simp only [perform, EvRequest.replyStart]
        grind [EvRequest.call]
    | replyChunk pieces =>
        simp only [perform, replyChunk]
        grind [EvRequest.call]
    | replyEnd =>
        simp only [perform, replyEnd]
        grind [EvRequest.call, complete_replyStatus]

/-- How many the event takes out of progress, by what the counter is told. -/
def told (input : InputHeaders) (s : Served) (e : Event) : ℕ := (s.toldEnd input e).isSome.toNat

/-- A request that is over tells nothing. -/
theorem told_replyed (h : s.request.replyStatus = .replyed) (e : Event) : s.told input e = 0 := by
  cases e with
  | op op around => cases op <;> simp [told, toldEnd, h]
  | _ => rfl

/-- **What an event takes out of progress it takes at least, and exactly if the request
does not end otherwise.** -/
def Ends (input : InputHeaders) (s : Served) (e : Event) (s' : Served) : Prop :=
  s'.inProgress.toNat + s.told input e ≤ s.inProgress.toNat ∧
    (s.EndsByReply input e ↔ s'.inProgress.toNat + s.told input e = s.inProgress.toNat)

/-- An operation in a request in progress. -/
theorem perform_ends (hreq : s.request.req) (hopen : s.request.replyStatus ≠ .replyed)
    (hc : s.connected = true) {around : Surroundings} (hevcon : around.evcon) (op : Op) :
    Ends input s (.op op around) (s.performs input op around) := by
  cases op with
  | reply code message body =>
      cases hstatus : s.request.replyStatus with
      | replyed => exact absurd hstatus hopen
      | replyStart =>
          simp [Ends, told, toldEnd, EndsByReply, inProgress, performs, endsConnection, perform, reply, hreq, hstatus, hc]
      | none =>
          simp only [Ends, told, toldEnd, EndsByReply, inProgress, performs, endsConnection, perform, reply, hreq, hstatus, hc]
          split_ifs <;> simp_all [EvRequest.call]
  | addheader key value =>
      cases hstatus : s.request.replyStatus with
      | replyed => exact absurd hstatus hopen
      | replyStart => simp [Ends, told, toldEnd, EndsByReply, inProgress, performs, endsConnection, perform, addheader, hreq, hstatus]
      | none =>
          cases key <;> cases value <;>
            simp [Ends, told, toldEnd, EndsByReply, inProgress, performs, endsConnection, perform, addheader, hreq, hstatus,
              EvRequest.call]
  | replyStart code message =>
      cases hstatus : s.request.replyStatus with
      | replyed => exact absurd hstatus hopen
      | replyStart =>
          simp [Ends, told, toldEnd, EndsByReply, inProgress, performs, endsConnection, perform, EvRequest.replyStart, hreq, hstatus]
      | none =>
          simp [Ends, told, toldEnd, EndsByReply, inProgress, performs, endsConnection, perform, EvRequest.replyStart, hreq, hstatus]
  | replyChunk pieces =>
      cases hstatus : s.request.replyStatus with
      | replyed => exact absurd hstatus hopen
      | none => simp [Ends, told, toldEnd, EndsByReply, inProgress, performs, endsConnection, perform, replyChunk, hreq, hstatus]
      | replyStart =>
          simp only [Ends, told, toldEnd, EndsByReply, inProgress, performs, endsConnection, perform, replyChunk, hreq, hstatus, hc]
          split_ifs <;> simp_all [EvRequest.call]
  | replyEnd =>
      cases hstatus : s.request.replyStatus with
      | replyed => exact absurd hstatus hopen
      | none => simp [Ends, told, toldEnd, EndsByReply, inProgress, performs, endsConnection, perform, replyEnd, hreq, hstatus]
      | replyStart =>
          simp [Ends, told, toldEnd, EndsByReply, inProgress, performs, endsConnection, perform, replyEnd, hreq, hstatus, hc, hevcon]
  | websocketAccept =>
      cases hstatus : s.request.replyStatus with
      | replyed => exact absurd hstatus hopen
      | replyStart =>
          simp [Ends, told, toldEnd, EndsByReply, inProgress, performs, endsConnection, perform, websocketAccept, hreq, hstatus]
      | none =>
          simp only [Ends, told, toldEnd, EndsByReply, inProgress, performs, endsConnection, perform, websocketAccept, hreq, hstatus,
            hc]
          split_ifs <;> simp_all [EvRequest.call]

/-- A request that is over stays out of progress. -/
theorem ends_replyed {e : Event} (h : s.request.replyStatus = .replyed)
    (h' : s'.request.replyStatus = .replyed) : Ends input s e s' := by
  have hs := not_inProgress h
  have hs' := not_inProgress h'
  have htold : s.told input e = 0 := told_replyed h e
  refine ⟨by simp [hs', htold], iff_of_true ?_ (by simp [hs, hs', htold])⟩
  cases e with
  | op op around => cases op <;> simp [EndsByReply, hs]
  | closes => exact hs
  | _ => trivial

/-- An event that is no operation and leaves the request as far in progress as it was. -/
theorem ends_same {e : Event} (htold : s.told input e = 0) (hok : s.EndsByReply input e)
    (h : s'.inProgress = s.inProgress) : Ends input s e s' := by
  refine ⟨by rw [htold, h, Nat.add_zero], iff_of_true hok (by rw [htold, h, Nat.add_zero])⟩

theorem handlerEnds_request (s : Served) (evcon : Bool) :
    (s.handlerEnds evcon).request.replyStatus = s.request.replyStatus ∧
      (s.handlerEnds evcon).request.isWebsocket = s.request.isWebsocket ∧
      (s.handlerEnds evcon).request.req = s.request.req ∧
      (s.handlerEnds evcon).connected = s.connected := by
  rw [handlerEnds]
  split
  · exact ⟨rfl, rfl, rfl, rfl⟩
  · exact ⟨releaseConnGuard_replyStatus _ _, releaseConnGuard_isWebsocket _ _, releaseConnGuard_req _ _, rfl⟩

theorem Kept.performs {op : Op} {around : Surroundings} (h : s.Kept) :
    (s.performs input op around).Kept := by
  refine ⟨?_, perform_isWebsocket around op h.websocket, ?_⟩
  · cases hends : s.request.endsConnection around op with
    | true => simp [Served.performs, hends]
    | false =>
        obtain ⟨cs, stage, hans⟩ := perform_answers s.request input around op (by simp [hends])
        rw [performs_calm hends]
        exact fun hc => hans.req.trans (h.req hc)
  · cases hends : s.request.endsConnection around op with
    | true =>
        -- the reply has been ended
        intro _
        obtain ⟨⟨hreq, hstatus⟩, ⟨hevcon, -⟩, rfl | ⟨code, message, body, rfl⟩⟩ :=
          endsConnection_started hends
        · simp [Served.performs, perform, replyEnd, hreq, hstatus, hevcon]
        · simp [Served.performs, perform, reply, hreq, hstatus]
    | false =>
        rw [performs_calm hends]
        exact fun hc => perform_replyed around op (h.gone hc)

/-- **What a request's event takes out of progress, and what it keeps.** -/
theorem step_ends {e : Event} (h : s.Kept) (hstep : step input s e = some s') :
    Ends input s e s' ∧ (s.EndsByReply input e → s'.Kept) := by
  cases e with
  | op op around =>
      obtain ⟨hevcon, rfl⟩ := guard_taken hstep
      constructor
      · by_cases hdone : s.request.replyStatus = .replyed
        · exact ends_replyed hdone (perform_replyed around op hdone)
        · have hc : s.connected = true := (Bool.and_eq_true_iff.mp (h.inProgress_iff.mpr hdone)).1
          exact perform_ends (h.req hc) hdone hc (hevcon hc) op
      · intro _
        exact h.performs
  | yields =>
      obtain ⟨-, rfl⟩ := guard_taken hstep
      exact ⟨ends_same rfl trivial rfl, fun _ => ⟨h.req, h.websocket, h.gone⟩⟩
  | ends evcon =>
      obtain ⟨-, rfl⟩ := guard_taken hstep
      obtain ⟨hstatus, hws, hreq, hc⟩ := handlerEnds_request s evcon
      refine ⟨ends_same rfl trivial (by simp only [inProgress, hstatus, hc]), fun _ => ⟨?_, ?_, ?_⟩⟩
      · rw [hreq, hc]
        exact h.req
      · rw [hws, hstatus]
        exact h.websocket
      · rw [hc, hstatus]
        exact h.gone
  | closes =>
      obtain ⟨hconnected, rfl⟩ := guard_taken hstep
      have hs' : s.closes.inProgress = false := rfl
      constructor
      · refine ⟨by simp [hs', told, toldEnd], ?_⟩
        cases hs : s.inProgress <;> simp [EndsByReply, hs, hs', told, toldEnd]
      · intro hover
        have hdone : s.request.replyStatus = .replyed := by
          by_contra hopen
          simp [EndsByReply, h.inProgress_iff.mpr hopen] at hover
        have hstatus : s.closes.request.replyStatus = .replyed := by
          simp only [closes]
          split
          · rfl
          · exact hdone
        exact ⟨fun hc => (by cases hc), fun _ => hstatus, fun _ => hstatus⟩
  | freed =>
      obtain ⟨hws, rfl⟩ := guard_taken hstep
      have hdone := h.websocket hws
      exact ⟨ends_replyed hdone hdone, fun _ => ⟨fun hc => (by cases hc), fun _ => hdone, fun _ => hdone⟩⟩

end Served

/-! ## The counter of requests in progress -/

namespace HttpdCore

variable {c c' : HttpdCore}

/-- No `bind` finds a request in progress, the counter is not full, no request is
rejected, and what is in progress ends by a whole reply. -/
def Accountable (c : HttpdCore) : Event → Prop
  | .bind => c.active = 0
  | .dispatch .. => c.active + 1 < 2 ^ 64
  | .reject _ => False
  | .request i e => ∀ d ∈ c.requests[i]?, d.served.EndsByReply d.input e

instance (c : HttpdCore) : ∀ e : Event, Decidable (c.Accountable e)
  | .bind => inferInstanceAs (Decidable (c.active = 0))
  | .dispatch .. => inferInstanceAs (Decidable (c.active + 1 < 2 ^ 64))
  | .reject _ => isFalse id
  | .request i e =>
      inferInstanceAs (Decidable (∀ d ∈ c.requests[i]?, d.served.EndsByReply d.input e))

/-- Every request is kept, and the counter can be as high as it is. -/
structure Sound (c : HttpdCore) : Prop where
  kept : ∀ d ∈ c.requests, d.served.Kept
  fits : c.metrics.requestsActive < 2 ^ 64

theorem start_sound : start.Sound := ⟨fun _ h => (by cases h), by decide⟩

theorem ended_requestsActive (m : HttpdMetrics) (told : Option (ℤ × ℕ)) :
    (ended m told).requestsActive = m.requestsActive - told.isSome.toNat := by
  cases told <;> simp [ended]

theorem received_requestsActive (cmd : EvhttpCmdType) :
    (c.received cmd).requestsActive = ulong (c.metrics.requestsActive + 1) := by
  simp [received]

theorem ulong_lt (n : ℕ) : ulong n < 2 ^ 64 := Nat.mod_lt n (by decide)

/-- What one request of the server takes out of progress. -/
theorem active_set (m : HttpdMetrics) {i : ℕ} {d d' : Dispatched} (hd : c.requests[i]? = some d) :
    (HttpdCore.mk m (c.requests.set i d')).active + d.served.inProgress.toNat =
      c.active + d'.served.inProgress.toNat := by
  obtain ⟨hi, rfl⟩ := List.getElem?_eq_some_iff.mp hd
  have hpos : c.requests[i].served.inProgress.toNat ≤ c.active := by
    cases hon : c.requests[i].served.inProgress with
    | false => exact Nat.zero_le _
    | true => exact List.countP_pos_iff.mpr ⟨_, List.getElem_mem hi, hon⟩
  have hset := List.countP_set (p := fun d : Dispatched => d.served.inProgress) (a := d') hi
  simp only [active] at hpos ⊢
  rw [hset]
  cases hon : c.requests[i].served.inProgress <;> cases hon' : d'.served.inProgress <;>
    simp only [hon, Bool.toNat_false, Bool.toNat_true, if_true, if_false, Bool.false_eq_true] at hpos ⊢ <;>
    omega

theorem step_counted {e : Event} (h : c.Sound) (hcounted : c.Counted) (hstep : step c e = some c') :
    (c.Accountable e → c'.Sound) ∧ (c'.Counted ↔ c.Accountable e) := by
  rw [Counted] at hcounted ⊢
  cases e with
  | bind =>
      cases hstep
      refine ⟨fun _ => ⟨h.kept, Nat.two_pow_pos 64⟩, ?_⟩
      show 0 = c.active ↔ c.active = 0
      exact eq_comm
  | dispatch cmd input =>
      cases hstep
      have hactive : (HttpdCore.mk (c.received cmd) (c.requests ++ [⟨input, Served.dispatched⟩])).active =
          c.active + 1 := by
        simp only [active, List.countP_append]
        rfl
      constructor
      · refine fun _ => ⟨fun d hd => ?_, by rw [received_requestsActive]; exact ulong_lt _⟩
        rcases List.mem_append.mp hd with hd | hd
        · exact h.kept d hd
        · rw [List.mem_singleton] at hd
          rw [hd]
          exact Served.dispatched_kept
      · rw [hactive, received_requestsActive, hcounted]
        show ulong (c.active + 1) = c.active + 1 ↔ c.active + 1 < 2 ^ 64
        exact Nat.mod_eq_iff_lt (by decide)
  | reject cmd =>
      cases hstep
      refine ⟨False.elim, iff_of_false (fun hstays => ?_) id⟩
      -- the counter moves, be it around its end, and no request does
      have hmoved : ulong (c.metrics.requestsActive + 1) = c.metrics.requestsActive := by
        rw [← received_requestsActive cmd, hcounted]
        exact hstays
      have hfits := h.fits
      rw [ulong] at hmoved
      omega
  | request i e =>
      obtain ⟨d, hd, hstep⟩ := Option.bind_eq_some_iff.mp hstep
      obtain ⟨served, hserved, hstep⟩ := Option.bind_eq_some_iff.mp hstep
      cases hstep
      have hmem : d ∈ c.requests := List.mem_of_getElem? hd
      obtain ⟨⟨hle, hiff⟩, hkept⟩ := Served.step_ends (h.kept d hmem) hserved
      have hok : c.Accountable (.request i e) ↔ d.served.EndsByReply d.input e :=
        ⟨fun hall => hall d hd, fun hone d' hd' => Option.some.inj (hd.symm.trans hd') ▸ hone⟩
      have hactive : (HttpdCore.mk (ended c.metrics (d.served.toldEnd d.input e))
          (c.requests.set i { d with served })).active + d.served.inProgress.toNat =
            c.active + served.inProgress.toNat := active_set _ hd
      rw [hok, hiff, ended_requestsActive, hcounted]
      constructor
      · intro hone
        refine ⟨fun d' hd' => ?_, ?_⟩
        · rcases List.mem_or_eq_of_mem_set hd' with hd' | rfl
          · exact h.kept d' hd'
          · exact hkept (hiff.mpr hone)
        · rw [ended_requestsActive]
          exact lt_of_le_of_lt (Nat.sub_le _ _) h.fits
      · rw [Served.told] at hle ⊢
        omega

end HttpdCore

/-- **`requests_active` is the number of requests in progress in every state of a run**,
exactly when every step is accountable. -/
theorem requests_active_counted {es : List HttpdCore.Event} {c : HttpdCore}
    (hrun : run HttpdCore.step HttpdCore.start es = some c) :
    Always HttpdCore.step HttpdCore.Counted HttpdCore.start es ↔
      Meets HttpdCore.step HttpdCore.Accountable HttpdCore.start es :=
  always_iff (fun _ _ _ hP hQ hstep => HttpdCore.step_counted hP hQ hstep) HttpdCore.start_sound rfl hrun

/-- Two requests at a time, each answered by a whole reply, and clients that leave later. -/
def answersWhole : List HttpdCore.Event :=
  [.dispatch .get plainRequest, .dispatch .post plainRequest,
    .request 1 (.op (.reply 200 none (some [104])) calm), .request 0 .yields, .request 1 .closes,
    .request 0 (.op (.reply 404 none none) calm), .bind]

theorem requests_active_counted_whole : ∃ c : HttpdCore,
    run HttpdCore.step HttpdCore.start answersWhole = some c ∧ c.requests.length = 2 ∧
      Always HttpdCore.step HttpdCore.Counted HttpdCore.start answersWhole := by
  refine ⟨_, rfl, rfl, (requests_active_counted rfl).mpr ?_⟩
  decide

/-- A reply that is started, sent in a chunk and ended. -/
def answersInChunks : List HttpdCore.Event :=
  [.dispatch .get plainRequest, .request 0 (.op (.replyStart 200 none) calm),
    .request 0 (.op (.replyChunk [some [104]]) calm), .request 0 (.op .replyEnd calm),
    .request 0 (.ends true), .request 0 .closes]

/-- **The request is over, and is counted as active ever after.** -/
theorem requests_active_drifts : ∃ c : HttpdCore,
    run HttpdCore.step HttpdCore.start answersInChunks = some c ∧ c.active = 0 ∧
      c.metrics.requestsActive = 1 := by
  refine ⟨_, rfl, ?_, ?_⟩ <;> decide

end LuaFan
