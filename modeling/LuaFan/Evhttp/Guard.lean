/-
# The close callback of a request (`src/httpd.c`)

`newtable_from_req` registers a close callback that clears `req` when the client goes
away, so that a coroutine that answers later is refused.  A last send takes the callback
back; so does `httpd_handler_cgi_bin` when the handler ends without a reply, and so does
an accepted WebSocket.

* `closed_request_refused`: a request whose connection closed unanswered has no `req` and
  refuses every operation, **exactly as long as no connection closes unanswered after
  its handler ended without a reply, or after it was taken over by a WebSocket**;
* `closed_request_answered`: a handler that leaves the reply to another coroutine, and a
  client that does not wait for it.
-/
import LuaFan.Lib.Machine
import LuaFan.Evhttp.Request

namespace LuaFan

open Machine EvhttpCall EvRequest

/-! ## The server around a request -/

/-- `httpd_handler_cgi_bin` is resuming the handler, or has gone on: the handler has
yielded, or ended. -/
inductive HandlerState where
  | running
  | yielded
  | ended
  deriving DecidableEq

/-- A request being served.  `connected` is the client's connection, and `lost` tells that
it closed before a last send; `abandoned` tells that the handler ended without a reply. -/
structure Served where
  request : EvRequest
  handler : HandlerState
  abandoned : Bool
  connected : Bool
  lost : Bool

namespace Served

/-- `httpd_handler_cgi_bin`, up to where the handler runs. -/
def dispatched : Served := ⟨newtableFromReq, .running, false, true, false⟩

/-- No last send was issued. -/
def unanswered (s : Served) : Bool := !s.request.calls.any terminal

/-- An operation, which may end the connection with the reply. -/
def performs (input : InputHeaders) (s : Served) (op : Op) (around : Surroundings) : Served :=
  { s with
    request := (s.request.perform input around op).1
    connected := s.connected && !s.request.endsConnection around op }

/-- The rest of `httpd_handler_cgi_bin`, for a handler that returned or raised an error. -/
def handlerEnds (s : Served) (evcon : Bool) : Served :=
  if s.request.replyStatus = .replyed then { s with handler := .ended }
  else
    { s with
      handler := .ended
      abandoned := true
      request := s.request.releaseConnGuard evcon }

/-- The client's connection closes, which calls the callback if it is still registered. -/
def closes (s : Served) : Served :=
  { s with
    connected := false
    lost := s.unanswered
    request := if s.request.closecb then s.request.connCloseCb else s.request }

/-- `ws_deferred_free_cb`: the connection of a WebSocket is freed and the request let go. -/
def websocketFreed (s : Served) : Served :=
  { s with
    connected := false
    lost := s.lost || (s.connected && s.unanswered)
    request := { s.request with req := false, ownsRequest := false } }

/-- Lua calls an operation, from the handler or from another coroutine; the handler yields
or ends; the client goes away; a WebSocket is freed. -/
inductive Event where
  | op (op : Op) (around : Surroundings)
  | yields
  | ends (evcon : Bool)
  | closes
  | freed

/-- As long as the client is there, so is the connection's object. -/
def step (input : InputHeaders) (s : Served) : Event → Option Served
  | .op op around => if s.connected → around.evcon then some (s.performs input op around) else none
  | .yields => if s.handler = .running then some { s with handler := .yielded } else none
  | .ends evcon =>
      if s.handler = .running ∧ (s.connected → evcon) then some (s.handlerEnds evcon) else none
  | .closes => if s.connected then some s.closes else none
  | .freed => if s.request.isWebsocket then some s.websocketFreed else none

/-- A request that is lost has no `req`, and every operation is refused: it calls nothing
on the request, and all but `reply_end` raise an error. -/
def Detected (input : InputHeaders) (s : Served) : Prop :=
  s.lost → s.request.req = false ∧ ∀ op around,
    (s.request.perform input around op).1.calls = s.request.calls ∧
      (op = .replyEnd ∨ (s.request.perform input around op).2 = .error "connection closed by peer")

/-- A connection closes unanswered only while the handler has not ended without a reply
and no WebSocket has taken it over. -/
def WhileGuarded (s : Served) : Event → Prop
  | .closes => s.unanswered → s.abandoned = false ∧ s.request.isWebsocket = false
  | _ => True

instance (s : Served) : ∀ e : Event, Decidable (s.WhileGuarded e)
  | .op .. => isTrue trivial
  | .yields => isTrue trivial
  | .ends _ => isTrue trivial
  | .closes =>
      inferInstanceAs (Decidable (s.unanswered → s.abandoned = false ∧ s.request.isWebsocket = false))
  | .freed => isTrue trivial

/-! ## The callback is registered as long as it is needed -/

variable {s : Served} {input : InputHeaders}

theorem detected_iff : s.Detected input ↔ (s.lost → s.request.req = false) := by
  refine ⟨fun h hlost => (h hlost).1, fun h hlost => ⟨h hlost, fun op around => ⟨?_, ?_⟩⟩⟩
  · exact (step_gone input (h hlost) (.op op around)).2
  · cases op <;> simp [perform, reply, addheader, EvRequest.replyStart, replyChunk, websocketAccept,
      h hlost]

/-- While the client is there the request is, and until it is answered the callback is
registered unless the handler or a WebSocket has taken it back. -/
def Watched (s : Served) : Prop :=
  s.connected → s.request.req ∧ (s.unanswered →
    (s.request.closecb = true ↔ s.abandoned = false ∧ s.request.isWebsocket = false))

theorem dispatched_watched : dispatched.Watched :=
  fun _ => ⟨rfl, fun _ => ⟨fun _ => ⟨rfl, rfl⟩, fun _ => rfl⟩⟩

theorem unanswered_append {request : EvRequest} {cs : List EvhttpCall}
    (h : request.calls = s.request.calls ++ cs) :
    { s with request := request }.unanswered = (s.unanswered && !cs.any terminal) := by
  simp [unanswered, h]

/-- An operation that ends no connection. -/
theorem performs_calm {op : Op} {around : Surroundings} (h : s.request.endsConnection around op = false) :
    s.performs input op around = { s with request := (s.request.perform input around op).1 } := by
  simp [performs, h]

/-- An operation takes the callback back only with a last send or for a WebSocket. -/
theorem Watched.op {op : Op} {around : Surroundings} (h : s.Watched) :
    (s.performs input op around).Watched := by
  cases hends : s.request.endsConnection around op with
  | true =>
      intro hconnected
      simp [performs, hends] at hconnected
  | false =>
      rw [performs_calm hends]
      intro hconnected
      obtain ⟨hreq, hguard⟩ := h hconnected
      obtain ⟨cs, stage, hans⟩ := perform_answers s.request input around op (by simp [hends])
      refine ⟨hans.req.trans hreq, fun hopen => ?_⟩
      rw [unanswered_append hans.calls, Bool.and_eq_true] at hopen
      rcases hans.guard with ⟨hcb, hws⟩ | ⟨hcb, hterminal | hws⟩
      · rw [hcb, hws]
        exact hguard hopen.1
      · have hany : cs.any terminal = true := List.any_eq_true.mpr hterminal
        simp [hany] at hopen
      · simp [hcb, hws]

theorem Watched.handlerEnds {evcon : Bool} (h : s.Watched) (hevcon : s.connected → evcon) :
    (s.handlerEnds evcon).Watched := by
  by_cases hdone : s.request.replyStatus = .replyed
  · rw [Served.handlerEnds, if_pos hdone]
    exact h
  · rw [Served.handlerEnds, if_neg hdone]
    intro hconnected
    obtain ⟨hreq, -⟩ := h hconnected
    simp [releaseConnGuard, EvRequest.call, hreq, hevcon hconnected]

theorem releaseConnGuard_req (r : EvRequest) (evcon : Bool) : (r.releaseConnGuard evcon).req = r.req := by
  rw [releaseConnGuard]
  split <;> rfl

/-- Only the closing of a connection can leave a request behind, and it does so exactly
when the callback is gone. -/
theorem step_watched {e : Event} {s' : Served} (h : s.Watched) (hsafe : s.Detected input)
    (hstep : step input s e = some s') :
    s'.Watched ∧ (s'.Detected input ↔ s.WhileGuarded e) := by
  rw [detected_iff] at hsafe ⊢
  cases e with
  | op op around =>
      obtain ⟨-, rfl⟩ := guard_taken hstep
      refine ⟨h.op, iff_of_true (fun hlost => ?_) trivial⟩
      exact (step_gone input (hsafe hlost) (.op op around)).1
  | yields =>
      obtain ⟨-, rfl⟩ := guard_taken hstep
      exact ⟨h, iff_of_true hsafe trivial⟩
  | ends evcon =>
      obtain ⟨⟨-, hevcon⟩, rfl⟩ := guard_taken hstep
      refine ⟨h.handlerEnds hevcon, iff_of_true ?_ trivial⟩
      rw [Served.handlerEnds]
      split
      · exact hsafe
      · intro hlost
        exact (releaseConnGuard_req _ _).trans (hsafe hlost)
  | closes =>
      obtain ⟨hconnected, rfl⟩ := guard_taken hstep
      obtain ⟨hreq, hguard⟩ := h hconnected
      refine ⟨fun hgone => (by cases hgone), ?_⟩
      refine forall_congr' fun hopen : s.unanswered = true => ?_
      rw [← hguard hopen]
      cases hcb : s.request.closecb with
      | true => simp [closes, hcb, connCloseCb, connCloseCbWith]
      | false => simp [closes, hcb, hreq]
  | freed =>
      obtain ⟨-, rfl⟩ := guard_taken hstep
      exact ⟨fun hgone => (by cases hgone), iff_of_true (fun _ => rfl) trivial⟩

end Served

open Served

/-- **A request that lost its client unanswered refuses every operation, in every state
of a run**, exactly when no connection closes unanswered after its handler ended without
a reply or after a WebSocket took it over. -/
theorem closed_request_refused (input : InputHeaders) {es : List Served.Event} {s : Served}
    (hrun : run (Served.step input) dispatched es = some s) :
    Always (Served.step input) (Detected input) dispatched es ↔
      Meets (Served.step input) WhileGuarded dispatched es :=
  always_iff (fun _ _ _ hP hQ hstep => (step_watched hP hQ hstep).imp_left fun h _ => h) dispatched_watched (fun hlost => by cases hlost) hrun

/-- The handler yields, the client goes away, and a reply comes too late. -/
def repliesLate : List Served.Event :=
  [.yields, .op (.replyStart 200 none) calm, .closes, .op (.replyChunk [some [104]]) calm]

theorem closed_request_refused_late : ∃ s : Served,
    run (Served.step plainRequest) dispatched repliesLate = some s ∧ s.lost = true ∧
      Always (Served.step plainRequest) (Detected plainRequest) dispatched repliesLate := by
  refine ⟨_, rfl, rfl, (closed_request_refused plainRequest rfl).mpr ?_⟩
  decide

/-- A handler that returns and leaves the reply to another coroutine. -/
def leavesReply : List Served.Event := [.ends true, .closes]

/-- The client is gone, and the reply is issued all the same. -/
theorem closed_request_answered : ∃ s : Served,
    run (Served.step plainRequest) dispatched leavesReply = some s ∧ s.lost = true ∧
      s.request.req = true ∧
      .sendReply 200 none [] ∈ (s.request.perform plainRequest calm (.reply 200 none none)).1.calls := by
  refine ⟨_, rfl, rfl, rfl, ?_⟩
  decide

end LuaFan
