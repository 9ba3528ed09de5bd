/-
# Receiving from a WebSocket (`src/httpd_websocket.c`)

A frame that `ws_readcb` parses resumes the coroutine parked in `websocket_receive`, or
is queued (`frame_queue`, at most 64 frames).  A close frame, a frame that cannot be parsed
or the end of the connection resumes a parked coroutine with nil; if there is none, the
connection is cleaned up at once, and the queue with it.  The session is that of
`Websocket/Session`; what has arrived and what the calls returned is written down beside it.

* `websocket_receive_exact`: the results are the arrived messages, each once and in
  order, and nil comes after all of them, **as long as what ends the connection finds nothing
  to receive**, and memory is granted for every message.
-/
import LuaFan.Websocket.Session

namespace LuaFan

open Machine

/-! ## Histories of a session -/

/-- What `websocket_receive` returns: the payload and the opcode. -/
structure WsMessage where
  payload : List UInt8
  opcode : UInt8
  deriving DecidableEq

/-- The message of a text or binary frame. -/
def WsFrame.message (f : WsFrame) : WsMessage := ⟨f.payload, f.opcode⟩

/-- `WS_OPCODE_TEXT` and `WS_OPCODE_BINARY`. -/
def WsFrame.IsData (f : WsFrame) : Prop := f.opcode = 1 ∨ f.opcode = 2

instance (f : WsFrame) : Decidable f.IsData := inferInstanceAs (Decidable (_ ∨ _))

namespace WsSession

/-- The call of `websocket_parse_frame` in a round of `ws_readcb`. -/
def parse (s : WsSession) (granted : Bool) : WsParse :=
  websocketParse (fun n => granted && decide (n < 2 ^ 63)) s.input

/-- The queue is full, and nobody is parked. -/
def Full (s : WsSession) : Prop := s.ref = none ∧ s.frameQueueLen ≥ wsMaxQueuedFrames

instance (s : WsSession) : Decidable s.Full := inferInstanceAs (Decidable (_ ∧ _))

/-- The message that a step parses on the open connection, marked if it finds the queue
full. -/
def arrivals (s : WsSession) : Event → List (WsMessage × Bool)
  | .next granted _ =>
      match s.parse granted with
      | .frame f _ =>
          if s.wsState = .opened ∧ f.IsData then [(f.message, decide s.Full)] else []
      | _ => []
  | _ => []

/-- What a step returns from `websocket_receive`: to the coroutine that was parked in it, or
to the one that calls it. -/
def returns (s : WsSession) : Event → List (Co × Option WsMessage)
  | .next granted _ =>
      match s.ref, s.parse granted with
      | some co, .failed _ => [(co, none)]
      | some co, .frame f _ =>
          if f.opcode = 8 then [(co, none)] else if f.IsData then [(co, some f.message)] else []
      | _, _ => []
  | .event what => if what.ends then (s.ref.map fun co => (co, none)).toList else []
  | .receive co =>
      if s.isWebsocket = false then []
      else if s.wsState ≠ .opened then [(co, none)]
      else
        match s.frameQueueHead.bind s.memory with
        | some node => [(co, some node.item.message)]
        | none => []
  | _ => []

/-- The messages among the bytes that have not been parsed, up to a close frame or one whose
payload no memory is granted for. -/
def unparsed (s : WsSession) : List WsFrame :=
  ((wsParseLoop s.input.length s.input).1.takeWhile
    fun f => f.opcode ≠ 8 ∧ f.payloadLen < 2 ^ 63).filter fun f => f.IsData

end WsSession

/-- A session, the messages parsed while it was open, with those marked that found the queue
full, and what the calls of `websocket_receive` returned. -/
structure WsRequest where
  session : WsSession
  arrived : List (WsMessage × Bool)
  results : List (Co × Option WsMessage)

namespace WsRequest

/-- After `websocket_accept`. -/
def accepted : WsRequest := ⟨WsSession.created.accept true, [], []⟩

/-- A step of the session, written down. -/
def step (s : WsRequest) (e : WsSession.Event) : Option WsRequest :=
  (s.session.step e).map fun session =>
    ⟨session, s.arrived ++ s.session.arrivals e, s.results ++ s.session.returns e⟩

/-- The runs are those of the session. -/
theorem run_session {es : List WsSession.Event} {s s' : WsRequest} (h : run step s es = some s') :
    run WsSession.step s.session es = some s'.session := by
  induction es generalizing s with
  | nil =>
      cases h
      rfl
  | cons e es ih =>
      obtain ⟨s₁, hstep, hrest⟩ := run_cons.mp h
      obtain ⟨session, hsession, rfl⟩ := Option.map_eq_some_iff.mp hstep
      exact run_cons.mpr ⟨session, hsession, ih hrest⟩

/-! ## What should have been received -/

/-- The messages that calls of `websocket_receive` returned. -/
def received (s : WsRequest) : List WsMessage := s.results.filterMap Prod.snd

/-- The messages that arrived and did not find the queue full. -/
def kept (s : WsRequest) : List WsMessage := (s.arrived.filter fun a => !a.2).map Prod.fst

/-- The results are the messages, each once and in order; nil was returned only after all
of them; and no coroutine waits while there is something to receive. -/
structure Exact (s : WsRequest) : Prop where
  in_order : s.received <+: s.kept
  nil_last : (∃ co, (co, none) ∈ s.results) → s.received = s.kept
  none_withheld : s.session.ref ≠ none → s.session.reading = false →
    s.received = s.kept ∧ s.session.unparsed = []

end WsRequest

namespace WsSession

/-- A frame that ends the connection, or that no memory is granted for, finds the queue
empty; memory is granted for what is parsed, and for the node of a message that is queued. -/
def RoundInTime (s : WsSession) (granted : Bool) (node : Option ℕ) : WsParse → Prop
  | .more => True
  | .failed _ => s.frameQueueHead = none
  | .frame f _ =>
      (0 < f.payloadLen → granted) ∧ (f.opcode = 8 → s.frameQueueHead = none) ∧
        (f.IsData → s.ref = none → ¬s.Full → node ≠ none)

/-- What ends the open connection finds nothing to receive: a frame or an event finds the
queue empty, a coroutine that was resumed ends only when no message is left to be parsed, and
`websocket_close` is called only when both hold and nobody is parked. -/
def InTime (s : WsSession) : Event → Prop
  | .next granted node => s.wsState = .opened → s.RoundInTime granted node (s.parse true)
  | .event what => what.ends → s.wsState = .opened → s.frameQueueHead = none
  | .close _ _ => s.wsState = .opened → s.ref = none ∧ s.frameQueueHead = none ∧ s.unparsed = []
  | .finish => s.wsState = .opened → s.unparsed = []
  | _ => True

instance (s : WsSession) (granted : Bool) (node : Option ℕ) :
    ∀ p : WsParse, Decidable (s.RoundInTime granted node p)
  | .more => isTrue trivial
  | .failed _ => inferInstanceAs (Decidable (s.frameQueueHead = none))
  | .frame f _ => inferInstanceAs (Decidable
      ((0 < f.payloadLen → granted) ∧ (f.opcode = 8 → s.frameQueueHead = none) ∧
        (f.IsData → s.ref = none → ¬s.Full → node ≠ none)))

instance (s : WsSession) : ∀ e : Event, Decidable (s.InTime e)
  | .next granted node => inferInstanceAs (Decidable
      (s.wsState = .opened → s.RoundInTime granted node (s.parse true)))
  | .event what => inferInstanceAs (Decidable
      (what.ends → s.wsState = .opened → s.frameQueueHead = none))
  | .close _ _ => inferInstanceAs (Decidable
      (s.wsState = .opened → s.ref = none ∧ s.frameQueueHead = none ∧ s.unparsed = []))
  | .finish => inferInstanceAs (Decidable (s.wsState = .opened → s.unparsed = []))
  | .accept _ => isTrue trivial
  | .read _ => isTrue trivial
  | .receive _ => isTrue trivial
  | .ping _ => isTrue trivial
  | .pong _ => isTrue trivial
  | .yield => isTrue trivial

end WsSession

/-! ## The invariant -/

namespace WsSession

variable {s : WsSession} {cells : List (ℕ × WsFrame)}

theorem parse_more {granted : Bool} (h : s.parse granted = .more) : s.unparsed = [] := by
  have hnone : websocketParseFrame s.input = none := by
    unfold parse websocketParse at h
    split at h
    · assumption
    · split_ifs at h
  rw [unparsed, wsParseLoop_none hnone]
  rfl

/-- Where memory that is asked for is granted, a round parses what it would with all memory
granted. -/
theorem parse_granted {granted : Bool} {node : Option ℕ} (h : s.RoundInTime granted node (s.parse true)) :
    s.parse granted = s.parse true := by
  cases granted with
  | true => rfl
  | false =>
      unfold parse websocketParse at h ⊢
      cases hparse : websocketParseFrame s.input with
      | none => rfl
      | some p =>
          rw [hparse] at h
          by_cases hlen : p.1.payloadLen > 0
          · by_cases hsize : p.1.payloadLen < 2 ^ 63
            · simp only [hlen, hsize, decide_true, Bool.true_and, true_and, Bool.true_eq_false, if_false] at h
              exact absurd (h.1 hlen) Bool.false_ne_true
            · simp [hlen]
              omega
          · simp [hlen]

theorem closeDown_spec (s : WsSession) :
    s.closeDown.wsState = s.wsState ∧ s.closeDown.ref = none ∧ s.closeDown.reading = false ∧
      s.closeDown.replied = s.replied ∧ s.closeDown.isWebsocket = s.isWebsocket ∧
      (s.closeDown.running = none ↔ s.ref = none ∧ s.running = none) := by
  unfold closeDown
  split
  · rename_i co hco
    have hco : s.ref = some co := hco
    refine ⟨rfl, rfl, rfl, rfl, rfl, iff_of_false (Option.some_ne_none co) fun h => ?_⟩
    exact Option.some_ne_none co (hco.symm.trans h.1)
  · rename_i hnone
    have hnone : s.ref = none := hnone
    unfold connectionCleanup
    split
    · exact ⟨rfl, hnone, rfl, rfl, rfl, fun h => ⟨hnone, h⟩, fun h => h.2⟩
    · exact ⟨rfl, hnone, rfl, rfl, rfl, fun h => ⟨hnone, h⟩, fun h => h.2⟩

/-- A push changes nothing but the queue. -/
theorem frameQueuePush_spec (s : WsSession) (f : WsFrame) (node : Option ℕ) :
    let t := s.frameQueuePush f node
    t.wsState = s.wsState ∧ t.ref = s.ref ∧ (t.replied = s.replied ∧ t.isWebsocket = s.isWebsocket) ∧
      (t.reading = s.reading ∧ t.wsBev = s.wsBev) ∧ t.running = s.running := by
  intro t
  by_cases hdropped : s.frameQueueLen ≥ wsMaxQueuedFrames ∨ node = none
  · have ht : t = s := frameQueuePush_dropped hdropped
    rw [ht]
    exact ⟨rfl, rfl, ⟨rfl, rfl⟩, ⟨rfl, rfl⟩, rfl⟩
  · rw [not_or] at hdropped
    obtain ⟨a, rfl⟩ := Option.ne_none_iff_exists'.mp hdropped.2
    have ht : t = s.frameQueuePush f (some a) := rfl
    rw [frameQueuePush, if_neg hdropped.1] at ht
    rw [ht]
    exact ⟨rfl, rfl, ⟨rfl, rfl⟩, ⟨rfl, rfl⟩, rfl⟩

end WsSession

namespace WsRequest

/-- While the connection is open, what was received and what is queued are the messages;
once it is not, all of them were received.  The queue is empty while a coroutine that a
callback resumed is running. -/
structure Sound (s : WsRequest) (cells : List (ℕ × WsFrame)) : Prop where
  fits : s.session.QueueFits cells
  accepted : s.session.replied ∧ s.session.isWebsocket
  loop : s.session.reading → s.session.wsBev
  running : s.session.running ≠ none → cells = []
  opened : s.session.wsState = .opened → s.received ++ cells.map (·.2.message) = s.kept
  ended : s.session.wsState ≠ .opened → s.session.ref = none ∧ s.received = s.kept
  nils : (∃ co, (co, none) ∈ s.results) → s.session.wsState ≠ .opened
  parsed : s.session.wsState = .opened → s.session.reading = false → s.session.unparsed = []

theorem accepted_sound : accepted.Sound [] where
  fits := WsSession.created_queueFits.congr rfl rfl rfl rfl rfl
  accepted := ⟨rfl, rfl⟩
  loop := fun _ => rfl
  running := fun _ => rfl
  opened := fun _ => rfl
  ended := fun h => absurd rfl h
  nils := fun ⟨_, h⟩ => absurd h List.not_mem_nil
  parsed := fun _ _ => rfl

section Sound

variable {s : WsRequest} {cells : List (ℕ × WsFrame)}

theorem received_append (t : WsSession) (arrived : List (WsMessage × Bool))
    (r : List (Co × Option WsMessage)) :
    received ⟨t, arrived, s.results ++ r⟩ = s.received ++ r.filterMap Prod.snd :=
  List.filterMap_append

theorem kept_append (t : WsSession) (a : List (WsMessage × Bool)) (results : List (Co × Option WsMessage)) :
    kept ⟨t, s.arrived ++ a, results⟩ = s.kept ++ (a.filter fun a => !a.2).map Prod.fst := by
  rw [kept, List.filter_append, List.map_append]
  rfl

/-- The queue is empty, and so all messages were received. -/
theorem Sound.all_received (h : s.Sound cells)
    (hempty : s.session.wsState = .opened → s.session.frameQueueHead = none) : s.received = s.kept := by
  by_cases hopen : s.session.wsState = .opened
  · have hcells : cells = [] := h.fits.queue.head_eq_none_iff.mp (hempty hopen)
    have hopened := h.opened hopen
    rwa [hcells, List.map_nil, List.append_nil] at hopened
  · exact (h.ended hopen).2

/-- The invariant says what should have been received. -/
theorem Sound.exact (h : s.Sound cells) : s.Exact where
  in_order := by
    by_cases hopen : s.session.wsState = .opened
    · exact ⟨_, h.opened hopen⟩
    · rw [(h.ended hopen).2]
  nil_last := fun hnil => (h.ended (h.nils hnil)).2
  none_withheld := by
    intro href hread
    have hopen : s.session.wsState = .opened := by
      by_contra hended
      exact href (h.ended hended).1
    have hopened := h.opened hopen
    rw [h.fits.parked href, List.map_nil, List.append_nil] at hopened
    exact ⟨hopened, h.parsed hopen hread⟩

/-- Nothing was received, and nothing has arrived. -/
theorem Sound.same (h : s.Sound cells) {t : WsSession} (hfits : t.QueueFits cells)
    (hstate : t.wsState = s.session.wsState) (href : t.ref = s.session.ref)
    (haccepted : t.replied = s.session.replied ∧ t.isWebsocket = s.session.isWebsocket)
    (hloop : t.reading → t.wsBev) (hrunning : t.running ≠ none → s.session.running ≠ none)
    (hparsed : s.session.wsState = .opened → t.reading = false → t.unparsed = []) :
    Sound ⟨t, s.arrived ++ [], s.results ++ []⟩ cells := by
  rw [List.append_nil, List.append_nil]
  refine ⟨hfits, ?_, hloop, fun hrun => h.running (hrunning hrun), ?_, ?_, ?_, ?_⟩
  · rw [haccepted.1, haccepted.2]
    exact h.accepted
  all_goals simp only [hstate]
  · exact h.opened
  · intro hended
    exact ⟨href.trans (h.ended hended).1, (h.ended hended).2⟩
  · exact h.nils
  · exact hparsed

/-- The connection ends while the queue is empty: the parked coroutine gets nil, or the
cleanup is called. -/
theorem Sound.closeDown (h : s.Sound cells)
    (hempty : s.session.wsState = .opened → s.session.frameQueueHead = none) {t : WsSession}
    (hclosed : t.wsState = .closed) (hfits : t.QueueFits cells)
    (haccepted : t.replied = s.session.replied ∧ t.isWebsocket = s.session.isWebsocket)
    (hrunning : t.running = none) :
    ∃ cells', Sound ⟨t.closeDown, s.arrived ++ [],
      s.results ++ (s.session.ref.map fun co => (co, none)).toList⟩ cells' := by
  obtain ⟨hstate, hnobody, hreading, hreplied, hwebsocket, hrun⟩ := t.closeDown_spec
  have hended : t.closeDown.wsState ≠ .opened := by
    rw [hstate, hclosed]
    decide
  have hnils : ((s.session.ref.map fun co => (co, (none : Option WsMessage))).toList).filterMap Prod.snd
      = [] := by
    cases s.session.ref <;> rfl
  rw [List.append_nil]
  refine ⟨_, hfits.closeDown, ?_, ?_, ?_, fun hopen => absurd hopen hended, fun _ => ⟨hnobody, ?_⟩,
    fun _ => hended, fun hopen => absurd hopen hended⟩
  · show t.closeDown.replied = true ∧ t.closeDown.isWebsocket = true
    rw [hreplied, hwebsocket, haccepted.1, haccepted.2]
    exact h.accepted
  · intro hread
    rw [hreading] at hread
    cases hread
  · -- the coroutine that runs now was parked, and so the queue is empty
    intro hresumed
    have hparked : t.ref ≠ none := fun hnone => hresumed (hrun.mpr ⟨hnone, hrunning⟩)
    rw [hfits.parked hparked]
    exact ite_self []
  · rw [received_append, hnils, List.append_nil]
    exact h.all_received hempty

/-- The parked coroutine gets the message. -/
theorem Sound.resumed (h : s.Sound cells) {co : Co} (hco : s.session.ref = some co) (m : WsMessage)
    {t : WsSession} (hfits : t.QueueFits cells) (hstate : t.wsState = s.session.wsState)
    (haccepted : t.replied = s.session.replied ∧ t.isWebsocket = s.session.isWebsocket)
    (hreading : t.reading ∧ t.wsBev) :
    Sound ⟨t.resumeWith co, s.arrived ++ [(m, false)], s.results ++ [(co, some m)]⟩ cells := by
  have href : s.session.ref ≠ none := by
    rw [hco]
    exact Option.some_ne_none co
  have hempty := h.fits.parked href
  have hopen : s.session.wsState = .opened := by
    by_contra hended
    exact href (h.ended hended).1
  have hnow : t.wsState = .opened := hstate.trans hopen
  have hopened := h.opened hopen
  refine ⟨hfits.resumeWith co, ?_, fun _ => hreading.2, fun _ => hempty, ?_, fun hended => absurd hnow hended,
    ?_, fun _ hread => absurd (hreading.1.symm.trans hread) (by decide)⟩
  · show t.replied = true ∧ t.isWebsocket = true
    rw [haccepted.1, haccepted.2]
    exact h.accepted
  · intro _
    rw [received_append, kept_append, ← hopened, hempty]
    simp
  · rintro ⟨co', hmem⟩
    have hold : (co', none) ∈ s.results := by simpa using hmem
    exact absurd hopen (h.nils ⟨co', hold⟩)

/-- The message is queued, or dropped; what comes when the connection is not open does not
count. -/
theorem Sound.pushed (h : s.Sound cells) (href : s.session.ref = none) (hrun : s.session.running = none)
    (f : WsFrame) {t : WsSession} (hfits : t.QueueFits cells) (hstate : t.wsState = s.session.wsState)
    (hqueue : t.ref = s.session.ref ∧ t.frameQueueLen = s.session.frameQueueLen)
    (haccepted : t.replied = s.session.replied ∧ t.isWebsocket = s.session.isWebsocket)
    (hreading : t.reading ∧ t.wsBev) (hrunning : t.running = s.session.running) {node : Option ℕ}
    (hfree : ∀ a ∈ node, t.memory a = none)
    (hnode : s.session.wsState = .opened → ¬s.session.Full → node ≠ none) :
    ∃ cells', Sound ⟨t.frameQueuePush f node,
      s.arrived ++ (if s.session.wsState = .opened then [(f.message, decide s.session.Full)] else []),
      s.results ++ []⟩ cells' := by
  obtain ⟨hstate', href', haccepted', hreading', hrunning'⟩ := t.frameQueuePush_spec f node
  have hnobody : (t.frameQueuePush f node).ref = none := href'.trans (hqueue.1.trans href)
  have hloop : (t.frameQueuePush f node).reading = true := hreading'.1.trans hreading.1
  -- what does not depend on whether the message counts
  have hsound : ∀ cells' : List (ℕ × WsFrame), (t.frameQueuePush f node).QueueFits cells' →
      (s.session.wsState = .opened → s.received ++ cells'.map (·.2.message)
        = s.kept ++ (([(f.message, decide s.session.Full)].filter fun a => !a.2).map Prod.fst)) →
      Sound ⟨t.frameQueuePush f node,
        s.arrived ++ (if s.session.wsState = .opened then [(f.message, decide s.session.Full)] else []),
        s.results ++ []⟩ cells' := by
    intro cells' hfits' hkept
    rw [List.append_nil]
    refine ⟨hfits', ?_, fun _ => hreading'.2.trans hreading.2, ?_, ?_, ?_, ?_, ?_⟩
    · show (t.frameQueuePush f node).replied = true ∧ (t.frameQueuePush f node).isWebsocket = true
      rw [haccepted'.1, haccepted'.2, haccepted.1, haccepted.2]
      exact h.accepted
    · intro hresumed
      exact absurd (hrunning'.trans (hrunning.trans hrun)) hresumed
    · intro hopen
      have hopen : s.session.wsState = .opened := hstate.symm.trans (hstate'.symm.trans hopen)
      rw [if_pos hopen, kept_append]
      exact hkept hopen
    · intro hended
      have hended : s.session.wsState ≠ .opened := fun hopen => hended (hstate'.trans (hstate.trans hopen))
      rw [if_neg hended, List.append_nil]
      exact ⟨hnobody, (h.ended hended).2⟩
    · intro hnil hopen
      exact h.nils hnil (hstate.symm.trans (hstate'.symm.trans hopen))
    · intro _ hread
      exact absurd (hloop.symm.trans hread) (by decide)
  by_cases hqueued : s.session.wsState = .opened ∧ ¬s.session.Full
  · obtain ⟨a, rfl⟩ := Option.ne_none_iff_exists'.mp (hnode hqueued.1 hqueued.2)
    have hroom : cells.length < wsMaxQueuedFrames := by
      have hfull := hqueued.2
      have hlen := hfits.len
      rw [WsSession.Full, ← hqueue.2] at hfull
      have hlt : ¬t.frameQueueLen ≥ wsMaxQueuedFrames := fun hge => hfull ⟨href, hge⟩
      omega
    refine ⟨_, hsound _ (hfits.pushed (hqueue.1.trans href) f hroom (hfree a rfl)) fun hopen => ?_⟩
    rw [← h.opened hopen]
    simp [hqueued.2]
  · obtain ⟨cells', hfits'⟩ := hfits.frameQueuePush (hqueue.1.trans href) f hfree
    by_cases hopen : s.session.wsState = .opened
    · have hfull : s.session.Full := by
        by_contra hroom
        exact hqueued ⟨hopen, hroom⟩
      have hsame : t.frameQueuePush f node = t := by
        apply WsSession.frameQueuePush_dropped
        rw [hqueue.2]
        exact Or.inl hfull.2
      refine ⟨cells, hsound cells (by rwa [hsame]) fun _ => ?_⟩
      rw [h.opened hopen]
      simp [hfull]
    · exact ⟨cells', hsound cells' hfits' fun hopen' => absurd hopen' hopen⟩

/-- A frame is taken from the input. -/
theorem Sound.handle (h : s.Sound cells) {granted : Bool} {node : Option ℕ} {f : WsFrame}
    {left : List UInt8} (hparse : s.session.parse granted = .frame f left)
    (hin : s.session.wsState = .opened → s.session.RoundInTime granted node (.frame f left))
    (hread : s.session.reading = true) (hrun : s.session.running = none)
    (hfree : ∀ a ∈ node, s.session.memory a = none) :
    ∃ cells', Sound ⟨{ s.session with input := left }.handle f node,
      s.arrived ++ s.session.arrivals (.next granted node),
      s.results ++ s.session.returns (.next granted node)⟩ cells' := by
  have hbev := h.loop hread
  have hleft : { s.session with input := left }.QueueFits cells := h.fits.congr rfl rfl rfl rfl rfl
  have hopcode : ∀ {n m : UInt8}, f.opcode = n → n ≠ m → f.opcode ≠ m := fun hn hne => by rwa [hn]
  -- a frame that changes nothing but the input, and what is written
  have hsame : f.opcode ≠ 8 → ¬f.IsData → ∀ t : WsSession, t.QueueFits cells →
      t.wsState = s.session.wsState ∧ t.ref = s.session.ref →
      (t.replied = s.session.replied ∧ t.isWebsocket = s.session.isWebsocket) →
      (t.reading = s.session.reading ∧ t.wsBev = s.session.wsBev) ∧ t.running = s.session.running →
      Sound ⟨t, s.arrived ++ s.session.arrivals (.next granted node),
        s.results ++ s.session.returns (.next granted node)⟩ cells := by
    intro h8 hdata t hfits hstate haccepted hflags
    have harrivals : s.session.arrivals (.next granted node) = [] := by
      simp [WsSession.arrivals, hparse, hdata]
    have hreturns : s.session.returns (.next granted node) = [] := by
      rw [WsSession.returns, hparse]
      cases s.session.ref <;> simp [h8, hdata]
    rw [harrivals, hreturns]
    refine h.same hfits hstate.1 hstate.2 haccepted (fun _ => hflags.1.2.trans hbev) ?_ ?_
    · rw [hflags.2]
      exact id
    · intro _ hstop
      exact absurd (hread.symm.trans (hflags.1.1.symm.trans hstop)) (by decide)
  unfold WsSession.handle
  by_cases h9 : f.opcode = 9
  · rw [if_pos h9]
    have hdata : ¬f.IsData := by rw [WsFrame.IsData, h9]; decide
    have hquiet := hsame (hopcode h9 (by decide)) hdata
    split_ifs
    · exact ⟨cells, hquiet _ (hleft.congr rfl rfl rfl rfl rfl) ⟨rfl, rfl⟩ ⟨rfl, rfl⟩ ⟨⟨rfl, rfl⟩, rfl⟩⟩
    · exact ⟨cells, hquiet _ hleft ⟨rfl, rfl⟩ ⟨rfl, rfl⟩ ⟨⟨rfl, rfl⟩, rfl⟩⟩
  rw [if_neg h9]
  by_cases hpong : f.opcode = 0xA
  · rw [if_pos hpong]
    have hdata : ¬f.IsData := by rw [WsFrame.IsData, hpong]; decide
    exact ⟨cells, hsame (hopcode hpong (by decide)) hdata _ hleft ⟨rfl, rfl⟩ ⟨rfl, rfl⟩ ⟨⟨rfl, rfl⟩, rfl⟩⟩
  rw [if_neg hpong]
  by_cases h8 : f.opcode = 8
  · rw [if_pos h8]
    have hdata : ¬f.IsData := by rw [WsFrame.IsData, h8]; decide
    have harrivals : s.session.arrivals (.next granted node) = [] := by
      simp [WsSession.arrivals, hparse, hdata]
    have hreturns : s.session.returns (.next granted node)
        = (s.session.ref.map fun co => (co, none)).toList := by
      rw [WsSession.returns, hparse]
      cases s.session.ref <;> simp [h8]
    rw [harrivals, hreturns]
    have hempty : s.session.wsState = .opened → s.session.frameQueueHead = none := fun hopen =>
      (hin hopen).2.1 h8
    show ∃ cells', Sound ⟨(if s.session.wsBev = true then
        ({ s.session with input := left, wsState := .closed } : WsSession).emit 8 f.payload
      else { s.session with input := left, wsState := .closed }).closeDown, _, _⟩ cells'
    rw [if_pos hbev]
    exact h.closeDown hempty rfl (h.fits.congr rfl rfl rfl rfl rfl) ⟨rfl, rfl⟩ hrun
  rw [if_neg h8]
  split
  · rename_i hdata
    have hdata : f.IsData := hdata
    split
    · rename_i co hco
      have hco : s.session.ref = some co := hco
      have hopen : s.session.wsState = .opened := by
        by_contra hended
        exact Option.some_ne_none co (hco.symm.trans (h.ended hended).1)
      have harrivals : s.session.arrivals (.next granted node) = [(f.message, false)] := by
        simp [WsSession.arrivals, hparse, hdata, hopen, WsSession.Full, hco]
      have hreturns : s.session.returns (.next granted node) = [(co, some f.message)] := by
        rw [WsSession.returns, hparse, hco]
        simp [h8, hdata]
      rw [harrivals, hreturns]
      exact ⟨cells, h.resumed hco f.message hleft rfl ⟨rfl, rfl⟩ ⟨hread, hbev⟩⟩
    · rename_i hco
      have hco : s.session.ref = none := hco
      have harrivals : s.session.arrivals (.next granted node)
          = if s.session.wsState = .opened then [(f.message, decide s.session.Full)] else [] := by
        simp [WsSession.arrivals, hparse, hdata]
      have hreturns : s.session.returns (.next granted node) = [] := by
        rw [WsSession.returns, hparse, hco]
      rw [harrivals, hreturns]
      exact h.pushed hco hrun f hleft rfl ⟨rfl, rfl⟩ ⟨rfl, rfl⟩ ⟨hread, hbev⟩ rfl hfree
        fun hopen hroom => (hin hopen).2.2 hdata hco hroom
  · rename_i hdata
    exact ⟨cells, hsame h8 hdata _ hleft ⟨rfl, rfl⟩ ⟨rfl, rfl⟩ ⟨⟨rfl, rfl⟩, rfl⟩⟩

/-- One round of the loop of `ws_readcb`. -/
theorem Sound.readRound (h : s.Sound cells) {granted : Bool} {node : Option ℕ}
    (hin : s.session.InTime (.next granted node)) (hread : s.session.reading = true)
    (hrun : s.session.running = none) (hfree : ∀ a ∈ node, s.session.memory a = none) :
    ∃ cells', Sound ⟨s.session.readRound granted node,
      s.arrived ++ s.session.arrivals (.next granted node),
      s.results ++ s.session.returns (.next granted node)⟩ cells' := by
  have hbev := h.loop hread
  have hround : s.session.readRound granted node = match s.session.parse granted with
      | .more => { s.session with reading := false }
      | .failed left => { s.session with input := left, wsState := .closed }.closeDown
      | .frame f left => { s.session with input := left }.handle f node := rfl
  have hin' : s.session.wsState = .opened →
      s.session.RoundInTime granted node (s.session.parse granted) := by
    intro hopen
    rw [WsSession.parse_granted (hin hopen)]
    exact hin hopen
  rw [hround]
  cases hparse : s.session.parse granted with
  | more =>
      have harrivals : s.session.arrivals (.next granted node) = [] := by
        rw [WsSession.arrivals, hparse]
      have hreturns : s.session.returns (.next granted node) = [] := by
        rw [WsSession.returns, hparse]
        cases s.session.ref <;> rfl
      rw [harrivals, hreturns]
      have hnone : s.session.unparsed = [] := WsSession.parse_more hparse
      exact ⟨cells, h.same (h.fits.congr rfl rfl rfl rfl rfl) rfl rfl ⟨rfl, rfl⟩ (fun _ => hbev) id
        fun _ _ => hnone⟩
  | failed left =>
      have harrivals : s.session.arrivals (.next granted node) = [] := by
        rw [WsSession.arrivals, hparse]
      have hreturns : s.session.returns (.next granted node)
          = (s.session.ref.map fun co => (co, none)).toList := by
        rw [WsSession.returns, hparse]
        cases s.session.ref <;> rfl
      rw [harrivals, hreturns]
      rw [hparse] at hin'
      exact h.closeDown hin' rfl (h.fits.congr rfl rfl rfl rfl rfl) ⟨rfl, rfl⟩ hrun
  | frame f left =>
      rw [hparse] at hin'
      exact h.handle hparse hin' hread hrun hfree

/-- A coroutine is parked. -/
theorem Sound.parked (h : s.Sound cells) (hopen : s.session.wsState = .opened) (hempty : cells = [])
    {t : WsSession} (hfits : t.QueueFits []) (hstate : t.wsState = .opened)
    (haccepted : t.replied = s.session.replied ∧ t.isWebsocket = s.session.isWebsocket)
    (hloop : t.reading → t.wsBev) (hreading : t.reading = s.session.reading)
    (hparsed : t.unparsed = s.session.unparsed) : Sound ⟨t, s.arrived ++ [], s.results ++ []⟩ [] := by
  rw [List.append_nil, List.append_nil]
  refine ⟨hfits, ?_, hloop, fun _ => rfl, ?_, fun hended => absurd hstate hended,
    fun hnil _ => h.nils hnil hopen, ?_⟩
  · show t.replied = true ∧ t.isWebsocket = true
    rw [haccepted.1, haccepted.2]
    exact h.accepted
  · intro _
    have hopened := h.opened hopen
    rwa [hempty] at hopened
  · intro _ hstop
    exact hparsed.trans (h.parsed hopen (hreading.symm.trans hstop))

/-- `websocket_receive`. -/
theorem Sound.receive (h : s.Sound cells) (co : Co) :
    ∃ cells', Sound ⟨s.session.receive co, s.arrived ++ [], s.results ++ s.session.returns (.receive co)⟩
      cells' := by
  have hweb : ¬s.session.isWebsocket = false := by
    rw [h.accepted.2]
    decide
  by_cases hopen : s.session.wsState = .opened
  · have hguard : ¬(s.session.isWebsocket = false ∨ s.session.wsState ≠ .opened) := by
      rw [not_or, not_not]
      exact ⟨hweb, hopen⟩
    rw [WsSession.receive, if_neg hguard, WsSession.returns, if_neg hweb, if_neg (not_not.mpr hopen)]
    cases hhead : s.session.frameQueueHead with
    | some a =>
        -- the first message of the queue
        obtain ⟨node, hnode, cells', hcells, hpop⟩ := h.fits.frameQueuePop hhead
        simp only [Option.bind_some, hnode]
        refine ⟨cells', hpop, h.accepted, h.loop, ?_, ?_, fun hended => absurd hopen hended, ?_, h.parsed⟩
        · intro hresumed
          have hempty := h.running hresumed
          rw [hcells] at hempty
          cases hempty
        · intro _
          rw [received_append, kept_append, ← h.opened hopen, hcells]
          simp
        · rintro ⟨co', hmem⟩
          have hold : (co', none) ∈ s.results := by simpa using hmem
          exact h.nils ⟨co', hold⟩
    | none =>
        have hempty : cells = [] := h.fits.queue.head_eq_none_iff.mp hhead
        have hfits := h.fits
        rw [hempty] at hfits
        have hpark : { s.session with ref := some co }.QueueFits [] :=
          ⟨hfits.queue, hfits.len, hfits.le, hfits.owned, fun _ => rfl⟩
        simp only [Option.bind_none]
        split_ifs with hwaits hrunning
        · exact ⟨cells, h.same h.fits rfl rfl ⟨rfl, rfl⟩ h.loop id h.parsed⟩
        · have hreading : (s.session.reading && s.session.wsBev) = s.session.reading := by
            by_cases hread : s.session.reading = true
            · rw [hread, h.loop hread]
              rfl
            · rw [Bool.not_eq_true] at hread
              rw [hread, Bool.false_and]
          refine ⟨[], h.parked hopen hempty (hpark.congr rfl hhead.symm rfl rfl rfl) hopen ⟨rfl, rfl⟩ ?_
            hreading rfl⟩
          intro hread
          exact (Bool.and_eq_true_iff.mp hread).2
        · exact ⟨[], h.parked hopen hempty (hpark.congr rfl hhead.symm rfl rfl rfl) hopen ⟨rfl, rfl⟩ h.loop
            rfl rfl⟩
  · rw [WsSession.receive, if_pos (Or.inr hopen), WsSession.returns, if_neg hweb, if_pos hopen,
      List.append_nil]
    refine ⟨cells, h.fits, h.accepted, h.loop, h.running, fun hopen' => absurd hopen' hopen, fun _ => ?_,
      fun _ => hopen, fun hopen' => absurd hopen' hopen⟩
    refine ⟨(h.ended hopen).1, ?_⟩
    rw [received_append]
    exact (List.append_nil _).trans (h.ended hopen).2

/-- `websocket_ping` and `websocket_pong`. -/
theorem Sound.ping (h : s.Sound cells) (opcode : UInt8) (payload : List UInt8) :
    Sound ⟨s.session.ping opcode payload, s.arrived ++ [], s.results ++ []⟩ cells := by
  unfold WsSession.ping
  split_ifs
  · exact h.same (h.fits.congr rfl rfl rfl rfl rfl) rfl rfl ⟨rfl, rfl⟩ h.loop id h.parsed
  · exact h.same h.fits rfl rfl ⟨rfl, rfl⟩ h.loop id h.parsed

/-- `websocket_close`, when there is nothing to receive. -/
theorem Sound.close (h : s.Sound cells) {code : Int64} {reason : List UInt8}
    (hin : s.session.InTime (.close code reason)) :
    Sound ⟨s.session.close code reason, s.arrived ++ [], s.results ++ []⟩ cells := by
  unfold WsSession.close
  split_ifs with hclosed hbev
  · exact h.same h.fits rfl rfl ⟨rfl, rfl⟩ h.loop id h.parsed
  all_goals
    rw [List.append_nil, List.append_nil]
    have hnobody : s.session.ref = none ∧ s.received = s.kept := by
      by_cases hopen : s.session.wsState = .opened
      · exact ⟨(hin hopen).1, h.all_received fun _ => (hin hopen).2.1⟩
      · exact h.ended hopen
    refine ⟨h.fits.congr rfl rfl rfl rfl rfl, h.accepted, h.loop, h.running, ?_, fun _ => hnobody, ?_, ?_⟩
    · intro hopen
      cases hopen
    · intro _ hopen
      cases hopen
    · intro hopen
      cases hopen

/-- The coroutine that a callback resumed ends. -/
theorem Sound.finish (h : s.Sound cells) (hin : s.session.InTime .finish)
    (hresumed : s.session.running ≠ none) :
    Sound ⟨s.session.connectionCleanup.comeBack, s.arrived ++ [], s.results ++ []⟩ [] := by
  have hempty := h.running hresumed
  have hclean := h.fits.cleanedUp
  rw [hempty, ite_self] at hclean
  -- the input and the state are what they were
  have hkept : s.session.connectionCleanup.wsState = s.session.wsState ∧
      s.session.connectionCleanup.ref = s.session.ref ∧
      s.session.connectionCleanup.input = s.session.input ∧
      s.session.connectionCleanup.replied = s.session.replied ∧
      s.session.connectionCleanup.isWebsocket = s.session.isWebsocket := by
    unfold WsSession.connectionCleanup
    split
    · exact ⟨rfl, rfl, rfl, rfl, rfl⟩
    · exact ⟨rfl, rfl, rfl, rfl, rfl⟩
  obtain ⟨hstate, href, hinput, hreplied, hwebsocket⟩ := hkept
  rw [hempty] at h
  refine h.same (hclean.congr rfl rfl rfl rfl rfl) hstate href ⟨hreplied, hwebsocket⟩ ?_ ?_ ?_
  · intro hread
    exact (Bool.and_eq_true_iff.mp hread).2
  · intro hrun
    exact absurd rfl hrun
  · intro hopen _
    show WsSession.unparsed s.session.connectionCleanup = []
    rw [WsSession.unparsed, hinput]
    exact hin hopen

/-- **Every step in time keeps the invariant.** -/
theorem Sound.step (h : s.Sound cells) {e : WsSession.Event} (hin : s.session.InTime e) {s' : WsRequest}
    (hstep : step s e = some s') : ∃ cells', s'.Sound cells' := by
  obtain ⟨t, htaken, rfl⟩ := Option.map_eq_some_iff.mp hstep
  cases e with
  | accept bev =>
      rw [WsSession.step, Option.ite_none_left_eq_some] at htaken
      exact absurd h.accepted.1 htaken.1
  | read bytes =>
      obtain ⟨hidle, rfl⟩ := guard_taken htaken
      refine ⟨cells, h.same (h.fits.congr rfl rfl rfl rfl rfl) rfl rfl ⟨rfl, rfl⟩ (fun _ => hidle.1) id ?_⟩
      intro _ hstop
      cases hstop
  | next granted node =>
      obtain ⟨⟨hread, hrun, hfree⟩, rfl⟩ := guard_taken htaken
      refine h.readRound hin hread hrun fun a ha => ?_
      rw [ha] at hfree
      simpa using hfree
  | event what =>
      obtain ⟨⟨hbev, hread, hrun⟩, rfl⟩ := guard_taken htaken
      by_cases hends : what.ends = true
      · rw [if_pos hends, WsSession.returns, if_pos hends]
        exact h.closeDown (hin hends) rfl (h.fits.congr rfl rfl rfl rfl rfl) ⟨rfl, rfl⟩ hrun
      · rw [if_neg hends, WsSession.returns, if_neg hends]
        exact ⟨cells, h.same h.fits rfl rfl ⟨rfl, rfl⟩ h.loop id h.parsed⟩
  | receive co =>
      rw [WsSession.step, Option.ite_none_left_eq_some] at htaken
      obtain ⟨-, htaken⟩ := htaken
      cases htaken
      exact h.receive co
  | ping payload =>
      cases htaken
      exact ⟨cells, h.ping 9 payload⟩
  | pong payload =>
      cases htaken
      exact ⟨cells, h.ping 0xA payload⟩
  | close code reason =>
      cases htaken
      exact ⟨cells, h.close hin⟩
  | yield =>
      obtain ⟨-, rfl⟩ := guard_taken htaken
      refine ⟨cells, h.same (h.fits.congr rfl rfl rfl rfl rfl) rfl rfl ⟨rfl, rfl⟩ ?_ ?_ ?_⟩
      · intro hread
        exact (Bool.and_eq_true_iff.mp hread).2
      · intro hresumed
        exact absurd rfl hresumed
      · intro hopen hstop
        apply h.parsed hopen
        by_contra hread
        rw [Bool.not_eq_false] at hread
        have hboth : (s.session.reading && s.session.wsBev) = false := hstop
        rw [hread, h.loop hread] at hboth
        cases hboth
  | finish =>
      obtain ⟨hresumed, rfl⟩ := guard_taken htaken
      exact ⟨[], h.finish hin (Option.isSome_iff_ne_none.mp hresumed)⟩

end Sound

end WsRequest

/-- **Receiving from a WebSocket**: if what ends the connection finds nothing to receive, and
memory is granted for every message, then the results are the arrived messages, each once and
in order, and nil is returned only after all of them. -/
theorem websocket_receive_exact {es : List WsSession.Event} {s : WsRequest}
    (hmeets : Meets WsRequest.step (fun s e => s.session.InTime e) WsRequest.accepted es)
    (hrun : run WsRequest.step WsRequest.accepted es = some s) : s.Exact := by
  obtain ⟨cells, hsound⟩ := run_invariant (P := fun s => ∃ cells, WsRequest.Sound s cells)
    (fun s e s' ⟨cells, h⟩ hin hstep => h.step hin hstep) ⟨[], WsRequest.accepted_sound⟩ hmeets hrun
  exact hsound.exact

/-- Two messages in one read, the first for the parked coroutine; then a close frame. -/
def twoMessages : List WsSession.Event :=
  [.receive 1, .read [129, 1, 104, 130, 1, 7, 136, 0], .next true none, .receive 1, .next true (some 16),
    .yield, .receive 2, .next true none, .yield, .receive 1]

theorem websocket_receive_exact_two_messages : ∃ s : WsRequest,
    run WsRequest.step WsRequest.accepted twoMessages = some s ∧
      s.results = [(1, some ⟨[104], 1⟩), (1, some ⟨[7], 2⟩), (2, none), (1, none)] ∧ s.Exact := by
  have hrun : run WsRequest.step WsRequest.accepted twoMessages = some _ := rfl
  exact ⟨_, hrun, rfl, websocket_receive_exact (by decide) hrun⟩

/-- A message arrives while nobody receives, and then the connection ends: the queue is
cleared, and `websocket_receive` returns nil. -/
theorem websocket_receive_loses_queued : ∃ s : WsRequest,
    run WsRequest.step WsRequest.accepted
        [.read [129, 1, 104], .next true (some 16), .next true none, .event .eof, .receive 1] = some s ∧
      s.arrived = [(⟨[104], 1⟩, false)] ∧ s.results = [(1, none)] ∧ ¬s.Exact := by
  refine ⟨_, rfl, rfl, rfl, ?_⟩
  intro hexact
  have hall := hexact.nil_last ⟨1, List.mem_singleton.mpr rfl⟩
  exact absurd hall (by decide)

/-- So does a frame after it whose payload no memory is granted for. -/
example : ∃ s : WsRequest,
    run WsRequest.step WsRequest.accepted [.read [129, 1, 104], .next true (some 16), .next true none,
      .read [129, 127, 255, 255, 255, 255, 255, 255, 255, 255], .next true none, .receive 1] = some s ∧
      s.arrived = [(⟨[104], 1⟩, false)] ∧ s.results = [(1, none)] :=
  ⟨_, rfl, rfl, rfl⟩

end LuaFan
