/-
# Cleaning up a WebSocket (`src/httpd_websocket.c`)

`ws_connection_cleanup` may be called from several places; a flag lets only the first call
through.  It schedules the release of the connection and of the Lua references, at once if
nothing is left to be written, else by two callbacks that wait for the output to be
flushed or for the connection to end.  Those callbacks look at the same flag.

* `cleanup_completes`: once the output is flushed or the connection has ended, the release
  was scheduled, and once only, **exactly as long as neither comes after a cleanup that
  found output pending**;
* `cleanup_leaks`: a peer closes the WebSocket, and its connection is never released.
-/
import LuaFan.Lib.Machine
import LuaFan.Websocket.Frame

namespace LuaFan

open Machine

/-! ## The code -/

/-- `websocket_state_t`. -/
inductive WsState where
  | connecting
  | opened
  | closing
  | closed
  deriving DecidableEq

/-- The callbacks of the bufferevent: `ws_readcb` and `ws_eventcb`, then `ws_flush_writecb`
and `ws_flush_eventcb`, or none. -/
inductive WsCallbacks where
  | opened
  | flush
  | cleared
  deriving DecidableEq

/-- The events of a bufferevent. -/
inductive BevEvent where
  | eof
  | error
  | other
  deriving DecidableEq

/-- `what & (BEV_EVENT_EOF | BEV_EVENT_ERROR)`. -/
def BevEvent.ends (what : BevEvent) : Bool := what ≠ .other

/-- The fields of `Request` that the cleanup uses, the length of the output buffer and the
callbacks in place.  `evcon` is the connection until it is freed, `scheduled` and `fired`
count the deferred frees; `ended` tells that EOF or an error was reported, and `flushed`
that the output was found empty by the cleanup or by a write callback after it. -/
structure WsConnection where
  wsState : WsState
  wsBev : Bool
  wsCleaningUp : Bool
  output : ℕ
  callbacks : WsCallbacks
  req : Bool
  ownsRequest : Bool
  evcon : Bool
  selfRef : Bool
  preventGcRef : Bool
  scheduled : ℕ
  fired : ℕ
  ended : Bool
  flushed : Bool

namespace WsConnection

/-- After `websocket_accept`, with the response in the output buffer. -/
def accepted (response : ℕ) : WsConnection :=
  ⟨.opened, true, false, response, .opened, true, true, true, true, true, 0, 0, false, false⟩

/-- `ws_schedule_free`. -/
def scheduleFree (s : WsConnection) : WsConnection :=
  { s with callbacks := .cleared, scheduled := s.scheduled + 1 }

/-- The request is let go: the connection is freed, and the references are given back. -/
def letGo (s : WsConnection) : WsConnection :=
  { s with
    req := false
    ownsRequest := false
    evcon := s.evcon && !(s.ownsRequest && s.req)
    selfRef := false
    preventGcRef := false }

/-- `ws_deferred_free_cb`. -/
def deferredFreeCb (s : WsConnection) : WsConnection := if s.wsCleaningUp then s.letGo else s

/-- `ws_flush_writecb`. -/
def flushWritecb (s : WsConnection) : WsConnection :=
  if s.wsCleaningUp then s else if s.output = 0 then s.scheduleFree else s

/-- `ws_flush_eventcb`. -/
def flushEventcb (s : WsConnection) (what : BevEvent) : WsConnection :=
  if s.wsCleaningUp then s else if what.ends then s.scheduleFree else s

/-- `ws_connection_cleanup`, but for the frame queue. -/
def connectionCleanup (s : WsConnection) : WsConnection :=
  if s.wsCleaningUp then s
  else if s.wsBev then
    if s.output = 0 then
      { s with wsCleaningUp := true, wsBev := false, flushed := true }.scheduleFree
    else { s with wsCleaningUp := true, wsBev := false, callbacks := .flush }
  else if s.ownsRequest ∧ s.req then { s with wsCleaningUp := true }.letGo
  else { s with wsCleaningUp := true }

/-- `websocket_send`, `websocket_ping` and `websocket_pong`, and the answer to a ping: a
frame is written while the WebSocket is open. -/
def write (s : WsConnection) (frame : ℕ) : WsConnection :=
  if s.wsState = .opened ∧ s.wsBev then { s with output := s.output + frame } else s

/-- `websocket_close`. -/
def close (s : WsConnection) (frame : ℕ) : WsConnection :=
  if s.wsState = .closed then s
  else if s.wsBev then { s with output := s.output + frame, wsState := .closing }
  else { s with wsState := .closed }

/-- The first part of `ws_readcb` for a close frame: it is answered. -/
def answerClose (s : WsConnection) (frame : ℕ) : WsConnection :=
  { s with
    wsState := .closed
    output := if s.wsBev then s.output + frame else s.output }

/-- The connection has ended. -/
def reportEnd (s : WsConnection) : WsConnection := { s with wsState := .closed, ended := true }

/-- What `ws_readcb` and `ws_eventcb` do last: the cleanup is called unless a coroutine was
parked and goes on. -/
def closeDown (s : WsConnection) (cleans : Bool) : WsConnection :=
  if cleans then s.connectionCleanup else s

/-- A frame is written from Lua or in answer to a ping; `websocket_close` is called; a close
frame is read, or one that cannot be parsed; a resumed coroutine ends, or the cleanup is
called by anyone else; the socket takes bytes of the output; the write or the event
callback is called; a deferred free fires. -/
inductive Event where
  | write (frame : ℕ)
  | close (frame : ℕ)
  | closeFrame (answer : ℕ) (cleans : Bool)
  | parseError (cleans : Bool)
  | cleanup
  | drain (n : ℕ)
  | writecb
  | eventcb (what : BevEvent) (cleans : Bool)
  | timeout

def step (s : WsConnection) : Event → Option WsConnection
  | .write frame => some (s.write frame)
  | .close frame => some (s.close frame)
  | .closeFrame answer cleans =>
      if s.callbacks = .opened then some ((s.answerClose answer).closeDown cleans) else none
  | .parseError cleans =>
      if s.callbacks = .opened then some ({ s with wsState := .closed }.closeDown cleans) else none
  | .cleanup => some s.connectionCleanup
  | .drain n => if n ≤ s.output then some { s with output := s.output - n } else none
  | .writecb =>
      let found := { s with flushed := s.flushed || (s.wsCleaningUp && s.output == 0) }
      match s.callbacks with
      | .flush => some found.flushWritecb
      | _ => some found
  | .eventcb what cleans =>
      match s.callbacks, what.ends with
      | .opened, true => some (s.reportEnd.closeDown cleans)
      | .opened, false => some s
      | .flush, ends => some ({ s with ended := s.ended || ends }.flushEventcb what)
      | .cleared, ends => some { s with ended := s.ended || ends }
  | .timeout =>
      if s.fired < s.scheduled then some { s.deferredFreeCb with fired := s.fired + 1 } else none

/-- The deferred free was scheduled at most once; exactly once when a cleanup was called
and its output was flushed or the connection has ended; and a free that has fired left
nothing behind. -/
structure Completes (s : WsConnection) : Prop where
  never_twice : s.scheduled ≤ 1
  not_skipped : s.wsCleaningUp → s.ended ∨ s.flushed → s.scheduled = 1
  released : 0 < s.fired → s.req = false ∧ s.evcon = false ∧ s.selfRef = false ∧ s.preventGcRef = false

/-- A first cleanup that comes after the end of the connection finds no output. -/
def CleansUp (s : WsConnection) : Prop := s.wsCleaningUp = false → s.ended → s.output = 0

instance (s : WsConnection) : Decidable s.CleansUp :=
  inferInstanceAs (Decidable (s.wsCleaningUp = false → s.ended → s.output = 0))

/-- The output is flushed, and the connection ends, only when no cleanup has found output
pending. -/
def InOrder (s : WsConnection) : Event → Prop
  | .closeFrame answer cleans => cleans → (s.answerClose answer).CleansUp
  | .parseError cleans => cleans → s.CleansUp
  | .cleanup => s.CleansUp
  | .writecb => s.callbacks = .flush → s.output ≠ 0
  | .eventcb what cleans =>
      what.ends → s.callbacks ≠ .flush ∧ (s.callbacks = .opened → cleans → s.reportEnd.CleansUp)
  | _ => True

instance (s : WsConnection) : ∀ e : Event, Decidable (s.InOrder e)
  | .write _ => isTrue trivial
  | .close _ => isTrue trivial
  | .closeFrame answer cleans =>
      inferInstanceAs (Decidable (cleans → (s.answerClose answer).CleansUp))
  | .parseError cleans => inferInstanceAs (Decidable (cleans → s.CleansUp))
  | .cleanup => inferInstanceAs (Decidable s.CleansUp)
  | .drain _ => isTrue trivial
  | .writecb => inferInstanceAs (Decidable (s.callbacks = .flush → s.output ≠ 0))
  | .eventcb what cleans => inferInstanceAs (Decidable (what.ends →
      s.callbacks ≠ .flush ∧ (s.callbacks = .opened → cleans → s.reportEnd.CleansUp)))
  | .timeout => isTrue trivial

/-! ## The invariant -/

/-- The callbacks tell where the cleanup stands: not called, waiting for the output, or
scheduled, which happens once. -/
structure Sound (s : WsConnection) : Prop where
  bev : s.wsBev = !s.wsCleaningUp
  opened : s.callbacks = .opened ↔ s.wsCleaningUp = false
  counted : s.scheduled = if s.callbacks = .cleared then 1 else 0
  fired : s.fired ≤ s.scheduled
  held : s.fired = 0 → s.req ∧ s.ownsRequest
  released : 0 < s.fired → s.req = false ∧ s.evcon = false ∧ s.selfRef = false ∧ s.preventGcRef = false
  flushed : s.flushed → s.wsCleaningUp

/-- No cleanup waits for what has come already. -/
def Unblocked (s : WsConnection) : Prop := s.callbacks = .flush → s.ended = false ∧ s.flushed = false

variable {s : WsConnection}

/-- The flush callbacks are only in place while they return at once. -/
theorem Sound.cleaning_of_flush (h : s.Sound) (hcb : s.callbacks = .flush) : s.wsCleaningUp = true := by
  rw [← Bool.not_eq_false, ← h.opened, hcb]
  decide

theorem accepted_sound (response : ℕ) : (accepted response).Sound :=
  ⟨rfl, ⟨fun _ => rfl, fun _ => rfl⟩, rfl, le_rfl, fun _ => ⟨rfl, rfl⟩, fun h => absurd h (lt_irrefl 0),
    fun h => by cases h⟩

/-- Given the invariant, only a cleanup that waits in vain stands against the property. -/
theorem Sound.completes_iff (h : s.Sound) : s.Completes ↔ s.Unblocked := by
  constructor
  · intro hc hflush
    have hcleaning := h.cleaning_of_flush hflush
    have hzero : s.scheduled ≠ 1 := by simp [h.counted, hflush]
    by_contra hnot
    refine hzero (hc.not_skipped hcleaning ?_)
    rw [not_and_or, Bool.not_eq_false, Bool.not_eq_false] at hnot
    exact hnot
  · intro hu
    refine ⟨?_, fun hcleaning hcome => ?_, h.released⟩
    · rw [h.counted]
      split <;> simp
    · rw [h.counted]
      cases hcb : s.callbacks with
      | opened => simp [h.opened.mp hcb] at hcleaning
      | flush =>
          obtain ⟨hended, hflushed⟩ := hu hcb
          simp [hended, hflushed] at hcome
      | cleared => rfl

/-- The first cleanup. -/
theorem connectionCleanup_first (h : s.Sound) (hfirst : s.wsCleaningUp = false) :
    s.connectionCleanup =
      if s.output = 0 then { s with wsCleaningUp := true, wsBev := false, flushed := true }.scheduleFree
      else { s with wsCleaningUp := true, wsBev := false, callbacks := .flush } := by
  have hbev : s.wsBev = true := by rw [h.bev, hfirst]; rfl
  rw [connectionCleanup, if_neg (by simp [hfirst]), if_pos hbev]

theorem connectionCleanup_again (hagain : s.wsCleaningUp = true) : s.connectionCleanup = s :=
  if_pos hagain

theorem Sound.connectionCleanup (h : s.Sound) : s.connectionCleanup.Sound := by
  cases hcleaning : s.wsCleaningUp with
  | true => rwa [connectionCleanup_again hcleaning]
  | false =>
      have hopen := h.opened.mpr hcleaning
      have hcount := h.counted
      have hfired := h.fired
      simp only [hopen, reduceCtorEq, if_false] at hcount
      rw [connectionCleanup_first h hcleaning]
      split
      · exact ⟨rfl, by simp [scheduleFree], by simp [scheduleFree, hcount],
          by simp only [scheduleFree]; omega, h.held, h.released, fun _ => rfl⟩
      · exact ⟨rfl, by simp, by simp [hcount], hfired, h.held, h.released, fun _ => rfl⟩

/-- A first cleanup waits in vain when the end has been reported and output is pending. -/
theorem Sound.unblocked_cleanup (h : s.Sound) (hu : s.Unblocked) :
    s.connectionCleanup.Unblocked ↔ s.CleansUp := by
  cases hcleaning : s.wsCleaningUp with
  | true => simp [connectionCleanup_again hcleaning, hu, CleansUp, hcleaning]
  | false =>
      have hflushed : s.flushed = false := by
        rw [← Bool.not_eq_true]
        intro hf
        simp [h.flushed hf] at hcleaning
      rw [connectionCleanup_first h hcleaning]
      by_cases hout : s.output = 0
      · simp [hout, Unblocked, scheduleFree, CleansUp]
      · simp [hout, Unblocked, CleansUp, hcleaning, hflushed]

theorem Sound.closeDown (h : s.Sound) (hu : s.Unblocked) (cleans : Bool) :
    (s.closeDown cleans).Sound ∧ ((s.closeDown cleans).Unblocked ↔ (cleans → s.CleansUp)) := by
  cases cleans with
  | true => exact ⟨h.connectionCleanup, (h.unblocked_cleanup hu).trans (by simp)⟩
  | false => exact ⟨h, iff_of_true hu (by simp)⟩

/-- Nothing but the output and the state of the protocol has changed. -/
theorem Sound.frame (h : s.Sound) (state : WsState) (output : ℕ) :
    { s with wsState := state, output := output }.Sound :=
  ⟨h.bev, h.opened, h.counted, h.fired, h.held, h.released, h.flushed⟩

theorem Sound.reportEnd (h : s.Sound) : s.reportEnd.Sound :=
  ⟨h.bev, h.opened, h.counted, h.fired, h.held, h.released, h.flushed⟩

theorem Sound.timeout (h : s.Sound) (hlt : s.fired < s.scheduled) :
    { s.deferredFreeCb with fired := s.fired + 1 }.Sound := by
  have hcleared : s.callbacks = .cleared := by
    by_contra hnot
    simp [h.counted, hnot] at hlt
  have hcount : s.scheduled = 1 := by simp [h.counted, hcleared]
  have hcleaning : s.wsCleaningUp = true := by
    rw [← Bool.not_eq_false, ← h.opened, hcleared]
    decide
  obtain ⟨hreq, howns⟩ := h.held (by omega)
  rw [deferredFreeCb, if_pos hcleaning]
  exact ⟨h.bev, h.opened, h.counted, by simp only [letGo]; omega, fun hzero => by simp at hzero,
    fun _ => ⟨rfl, by simp [letGo, hreq, howns], rfl, rfl⟩, h.flushed⟩

/-- The write callback tests the flag first, and so schedules nothing. -/
theorem Sound.writecb {s' : WsConnection} (h : s.Sound) (hu : s.Unblocked)
    (hstep : step s .writecb = some s') :
    s'.Sound ∧ (s'.Unblocked ↔ (s.callbacks = .flush → s.output ≠ 0)) := by
  have hs' : s' = { s with flushed := s.flushed || (s.wsCleaningUp && s.output == 0) } := by
    rw [step] at hstep
    split at hstep
    case h_1 hcb =>
      rw [flushWritecb, if_pos (h.cleaning_of_flush hcb)] at hstep
      exact (Option.some.inj hstep).symm
    case h_2 => exact (Option.some.inj hstep).symm
  subst hs'
  refine ⟨⟨h.bev, h.opened, h.counted, h.fired, h.held, h.released, fun hflushed => ?_⟩,
    forall_congr' fun hcb => ?_⟩
  · rcases (Bool.or_eq_true _ _).mp hflushed with hbefore | hnow
    · exact h.flushed hbefore
    · exact (Bool.and_eq_true _ _ ▸ hnow).1
  · obtain ⟨hended, hflushed⟩ := hu hcb
    simp [hended, hflushed, h.cleaning_of_flush hcb]

/-- So does the event callback. -/
theorem Sound.eventcb {s' : WsConnection} {what : BevEvent} {cleans : Bool} (h : s.Sound)
    (hu : s.Unblocked) (hstep : step s (.eventcb what cleans) = some s') :
    s'.Sound ∧ (s'.Unblocked ↔ s.InOrder (.eventcb what cleans)) := by
  have hend : ∀ e : Bool, { s with ended := e }.Sound := fun e =>
    ⟨h.bev, h.opened, h.counted, h.fired, h.held, h.released, h.flushed⟩
  rw [step] at hstep
  split at hstep
  case h_1 hcb hends =>
    cases hstep
    have hu' : s.reportEnd.Unblocked := fun hflush =>
      absurd (hcb.symm.trans hflush) (by decide)
    obtain ⟨hsound, hiff⟩ := h.reportEnd.closeDown hu' cleans
    refine ⟨hsound, hiff.trans ?_⟩
    simp [InOrder, hends, hcb]
  case h_2 hcb hends =>
    cases hstep
    exact ⟨h, iff_of_true hu (by simp [InOrder, hends])⟩
  case h_3 hcb =>
    rw [flushEventcb, if_pos (h.cleaning_of_flush hcb)] at hstep
    cases hstep
    refine ⟨hend _, ?_⟩
    obtain ⟨hended, hflushed⟩ := hu hcb
    simp [Unblocked, InOrder, hcb, hended, hflushed]
  case h_4 hcb =>
    cases hstep
    exact ⟨hend _, iff_of_true (fun hflush => absurd (hcb.symm.trans hflush) (by decide))
      (by simp [InOrder, hcb])⟩

/-- **A step keeps the invariant, and blocks a cleanup exactly when it is out of order.** -/
theorem step_sound {e : Event} {s' : WsConnection} (h : s.Sound) (hc : s.Completes)
    (hstep : step s e = some s') : s'.Sound ∧ (s'.Completes ↔ s.InOrder e) := by
  have hu := h.completes_iff.mp hc
  suffices hs' : s'.Sound ∧ (s'.Unblocked ↔ s.InOrder e) from ⟨hs'.1, hs'.1.completes_iff.trans hs'.2⟩
  cases e with
  | write frame =>
      cases hstep
      rw [write]
      split
      · exact ⟨h.frame s.wsState _, iff_of_true hu trivial⟩
      · exact ⟨h, iff_of_true hu trivial⟩
  | close frame =>
      cases hstep
      rw [close]
      split
      · exact ⟨h, iff_of_true hu trivial⟩
      · split
        · exact ⟨h.frame .closing _, iff_of_true hu trivial⟩
        · exact ⟨h.frame .closed s.output, iff_of_true hu trivial⟩
  | closeFrame answer cleans =>
      obtain ⟨-, rfl⟩ := guard_taken hstep
      exact (h.frame .closed _).closeDown hu cleans
  | parseError cleans =>
      obtain ⟨-, rfl⟩ := guard_taken hstep
      exact (h.frame .closed s.output).closeDown hu cleans
  | cleanup =>
      cases hstep
      exact ⟨h.connectionCleanup, h.unblocked_cleanup hu⟩
  | drain n =>
      obtain ⟨-, rfl⟩ := guard_taken hstep
      exact ⟨h.frame s.wsState _, iff_of_true hu trivial⟩
  | writecb => exact h.writecb hu hstep
  | eventcb what cleans => exact h.eventcb hu hstep
  | timeout =>
      obtain ⟨hlt, rfl⟩ := guard_taken hstep
      refine ⟨h.timeout hlt, iff_of_true ?_ trivial⟩
      rw [deferredFreeCb]
      split <;> exact hu

end WsConnection

open WsConnection

/-- **In every state of a run the deferred free was scheduled as it should be**, exactly
when neither a flush of the output nor the end of the connection comes after a cleanup
that found output pending, nor such a cleanup after the end. -/
theorem cleanup_completes (response : ℕ) {es : List WsConnection.Event} {s : WsConnection}
    (hrun : run WsConnection.step (accepted response) es = some s) :
    Always WsConnection.step Completes (accepted response) es ↔
      Meets WsConnection.step InOrder (accepted response) es :=
  always_iff (fun _ _ _ hP hQ hstep => (step_sound hP hQ hstep).imp_left fun h _ => h) (accepted_sound response)
    ((accepted_sound response).completes_iff.mpr fun hflush => by cases hflush) hrun

/-- The response is written, then a frame; the connection ends and is cleaned up with
nothing left to write; the deferred free fires, and a second cleanup does nothing. -/
def closesEmpty : List WsConnection.Event :=
  [.drain 129, .write 5, .drain 5, .eventcb .eof true, .timeout, .cleanup]

theorem cleanup_completes_empty : ∃ s : WsConnection,
    run WsConnection.step (accepted 129) closesEmpty = some s ∧ s.fired = 1 ∧
      Always WsConnection.step Completes (accepted 129) closesEmpty := by
  refine ⟨_, rfl, rfl, (cleanup_completes 129 rfl).mpr ?_⟩
  decide

/-- The peer closes: its close frame is answered, and the answer is flushed. -/
def peerCloses : List WsConnection.Event :=
  [.drain 129, .closeFrame 4 true, .drain 4, .writecb, .eventcb .eof false]

/-- The answer is flushed and the connection has ended, and no free was ever scheduled. -/
theorem cleanup_leaks : ∃ s : WsConnection,
    run WsConnection.step (accepted 129) peerCloses = some s ∧ s.wsCleaningUp = true ∧
      s.ended = true ∧ s.flushed = true ∧ s.scheduled = 0 ∧ ¬s.Completes := by
  refine ⟨_, rfl, rfl, rfl, rfl, rfl, fun h => ?_⟩
  exact absurd (h.not_skipped rfl (Or.inl rfl)) (by decide)

end LuaFan
