/-
# The two sides of a WebSocket (`src/httpd_websocket.c`)

The calls of Lua and the callbacks of the connection meet in one `Request`: its frame queue
is a linked list in memory, and its reference is that of the coroutine parked in
`websocket_receive`.  A coroutine that a callback resumes may make any of the calls before
the callback goes on.  `websocket_send` changes none of the fields and is left out.

* `ws_queue_invariant`: **the fields of the queue fit the list, which has at most 64 nodes,
  and no coroutine is parked while a frame is queued**;
* `control_frames_legal`: the control frames the server writes have at most 125 bytes of
  payload **exactly as long as** the peer's have, and the reasons it closes with have at
  most 123.
-/
import LuaFan.Lib.Linked
import LuaFan.Lua.Value
import LuaFan.Websocket.Cleanup
import LuaFan.Websocket.Complete

namespace LuaFan

open Machine Linked

/-! ## The code -/

/-- `WS_MAX_QUEUED_FRAMES`. -/
def wsMaxQueuedFrames : ℕ := 64

/-- A CLOSE, PING or PONG frame that was written. -/
structure ControlFrame where
  opcode : UInt8
  payload : List UInt8
  deriving DecidableEq

/-- The fields of `Request` and the memory of the queue.  `replied` tells that the reply has
been started.  `reading` tells that `ws_readcb` is in its loop, and `running` is the
coroutine that a callback has resumed and that has not come back yet; `controls` are the
control frames written so far. -/
structure WsSession where
  replied : Bool
  isWebsocket : Bool
  wsState : WsState
  wsBev : Bool
  wsCleaningUp : Bool
  input : List UInt8
  memory : Memory WsFrame
  frameQueueHead : Option ℕ
  frameQueueTail : Option ℕ
  frameQueueLen : ℤ
  ref : Option Co
  reading : Bool
  running : Option Co
  controls : List ControlFrame

namespace WsSession

/-- The request of a connection that may become a WebSocket. -/
def created : WsSession :=
  ⟨false, false, .connecting, false, false, [], fun _ => none, none, none, 0, none, false, none, []⟩

/-- `ws_frame_queue_push`; `node` is what `malloc` returns. -/
def frameQueuePush (s : WsSession) (f : WsFrame) (node : Option ℕ) : WsSession :=
  if s.frameQueueLen ≥ wsMaxQueuedFrames then s
  else
    match node with
    | none => s
    | some a =>
        { s with
          memory := pushNode s.memory s.frameQueueTail a f
          frameQueueHead := if s.frameQueueTail = none then some a else s.frameQueueHead
          frameQueueTail := some a
          frameQueueLen := s.frameQueueLen + 1 }

/-- `ws_frame_queue_pop`, when the queue has a head. -/
def frameQueuePop (s : WsSession) (a : ℕ) (node : Node WsFrame) : WsSession :=
  { s with
    memory := Function.update s.memory a none
    frameQueueHead := node.next
    frameQueueTail := if node.next = none then none else s.frameQueueTail
    frameQueueLen := s.frameQueueLen - 1 }

/-- The loop of `ws_frame_queue_clear`, of at most `n` rounds. -/
def freeNodes : ℕ → Memory WsFrame → Option ℕ → Memory WsFrame
  | n + 1, m, some a =>
      match m a with
      | some node => freeNodes n (Function.update m a none) node.next
      | none => m
  | _, m, _ => m

/-- `ws_frame_queue_clear`. -/
def frameQueueClear (s : WsSession) : WsSession :=
  { s with
    memory := freeNodes s.frameQueueLen.toNat s.memory s.frameQueueHead
    frameQueueHead := none
    frameQueueTail := none
    frameQueueLen := 0 }

/-- `ws_connection_cleanup`, but for the release of the connection. -/
def connectionCleanup (s : WsSession) : WsSession :=
  if s.wsCleaningUp then s else { s.frameQueueClear with wsCleaningUp := true, wsBev := false }

/-- A frame of `websocket_create_frame` is written. -/
def emit (s : WsSession) (opcode : UInt8) (payload : List UInt8) : WsSession :=
  { s with controls := s.controls ++ [⟨opcode, payload⟩] }

/-- `ws_resume_with_frame` and `ws_resume_with_error`, up to where the coroutine runs. -/
def resumeWith (s : WsSession) (co : Co) : WsSession := { s with ref := none, running := some co }

/-- What `ws_readcb` and `ws_eventcb` do when the connection is closed, before they return:
the parked coroutine is resumed with an error, or the cleanup is called. -/
def closeDown (s : WsSession) : WsSession :=
  match s.ref with
  | some co => { s with reading := false }.resumeWith co
  | none => { s with reading := false }.connectionCleanup

/-- What `ws_readcb` does with a frame. -/
def handle (s : WsSession) (f : WsFrame) (node : Option ℕ) : WsSession :=
  if f.opcode = 9 then
    if s.wsBev ∧ s.wsState = .opened then s.emit 0xA f.payload else s
  else if f.opcode = 0xA then s
  else if f.opcode = 8 then
    let s := { s with wsState := .closed }
    (if s.wsBev then s.emit 8 f.payload else s).closeDown
  else if f.opcode = 1 ∨ f.opcode = 2 then
    match s.ref with
    | some co => s.resumeWith co
    | none => s.frameQueuePush f node
  else s

/-- One round of the loop of `ws_readcb`.  `granted` tells whether memory for the payload is
granted; no block of 2^63 bytes is. -/
def readRound (s : WsSession) (granted : Bool) (node : Option ℕ) : WsSession :=
  match websocketParse (fun n => granted && decide (n < 2 ^ 63)) s.input with
  | .more => { s with reading := false }
  | .failed left => { s with input := left, wsState := .closed }.closeDown
  | .frame f left => { s with input := left }.handle f node

/-- The resumed coroutine comes back to the callback, which goes on only while it has a
bufferevent. -/
def comeBack (s : WsSession) : WsSession :=
  { s with running := none, reading := s.reading && s.wsBev }

/-- `websocket_receive`. -/
def receive (s : WsSession) (co : Co) : WsSession :=
  if s.isWebsocket = false ∨ s.wsState ≠ .opened then s
  else
    match s.frameQueueHead with
    | some a =>
        match s.memory a with
        | some node => s.frameQueuePop a node
        | none => s
    | none =>
        if s.ref.isSome then s
        else if s.running = some co then { s with ref := some co }.comeBack
        else { s with ref := some co }

/-- `websocket_ping` and `websocket_pong`; a longer payload raises an error. -/
def ping (s : WsSession) (opcode : UInt8) (payload : List UInt8) : WsSession :=
  if s.isWebsocket ∧ s.wsState = .opened ∧ s.wsBev ∧ payload.length ≤ 125 then s.emit opcode payload
  else s

/-- The payload of a close frame: the code is an `int`. -/
def closePayload (code : Int64) (reason : List UInt8) : List UInt8 :=
  let closeCode := code.toInt32
  if 1000 ≤ closeCode ∧ closeCode ≤ 4999 then
    beBytes 2 closeCode.toInt.toNat ++ reason.take 125
  else []

/-- `websocket_close`. -/
def close (s : WsSession) (code : Int64) (reason : List UInt8) : WsSession :=
  if s.isWebsocket = false ∨ s.wsState = .closed then s
  else if s.wsBev then { s.emit 8 (closePayload code reason) with wsState := .closing }
  else { s with wsState := .closed }

/-- `websocket_accept` of a valid upgrade request; there may be no bufferevent. -/
def accept (s : WsSession) (bev : Bool) : WsSession :=
  if bev then { s with replied := true, isWebsocket := true, wsState := .opened, wsBev := true } else s

/-- Lua accepts the WebSocket; bytes are read and `ws_readcb` is called, it takes one round
of its loop, or `ws_eventcb` is called; Lua calls one of the other functions; the coroutine
that a callback resumed yields elsewhere, or ends. -/
inductive Event where
  | accept (bev : Bool)
  | read (bytes : List UInt8)
  | next (granted : Bool) (node : Option ℕ)
  | event (what : BevEvent)
  | receive (co : Co)
  | ping (payload : List UInt8)
  | pong (payload : List UInt8)
  | close (code : Int64) (reason : List UInt8)
  | yield
  | finish

/-- A callback can be called: the connection is there, and no callback is at work. -/
def Idle (s : WsSession) : Prop := s.wsBev ∧ s.reading = false ∧ s.running = none

instance (s : WsSession) : Decidable s.Idle := inferInstanceAs (Decidable (_ ∧ _))

def step (s : WsSession) : Event → Option WsSession
  | .accept bev => if s.replied then none else some (s.accept bev)
  | .read bytes => if s.Idle then some { s with input := s.input ++ bytes, reading := true } else none
  | .next granted node =>
      if s.reading ∧ s.running = none ∧ (node.all fun a => (s.memory a).isNone) then
        some (s.readRound granted node)
      else none
  | .event what =>
      if s.Idle then some (if what.ends then { s with wsState := .closed }.closeDown else s) else none
  | .receive co => if s.ref = some co then none else some (s.receive co)
  | .ping payload => some (s.ping 9 payload)
  | .pong payload => some (s.ping 0xA payload)
  | .close code reason => some (s.close code reason)
  | .yield => if s.running.isSome then some s.comeBack else none
  | .finish => if s.running.isSome then some s.connectionCleanup.comeBack else none

/-! ## The queue -/

/-- The fields of the queue fit the list from its head: the tail is its last node, and its
length, at most 64, is what was counted.  No other node is in memory, and no coroutine is
parked while the list has one. -/
structure QueueFits (s : WsSession) (cells : List (ℕ × WsFrame)) : Prop where
  queue : Queue s.memory s.frameQueueHead s.frameQueueTail cells
  len : s.frameQueueLen = cells.length
  le : cells.length ≤ wsMaxQueuedFrames
  owned : ∀ a, s.memory a ≠ none ↔ a ∈ cells.map Prod.fst
  parked : s.ref ≠ none → cells = []

section Queue

variable {s : WsSession} {cells : List (ℕ × WsFrame)}

theorem created_queueFits : created.QueueFits [] :=
  ⟨.nil, rfl, Nat.zero_le _, fun a => by simp [created], fun _ => rfl⟩

/-- A frame that finds room and a node is the new end of the list. -/
theorem QueueFits.pushed (h : s.QueueFits cells) (href : s.ref = none) (f : WsFrame)
    (hroom : cells.length < wsMaxQueuedFrames) {a : ℕ} (ha : s.memory a = none) :
    (s.frameQueuePush f (some a)).QueueFits (cells ++ [(a, f)]) := by
  have hlen := h.len
  rw [WsSession.frameQueuePush, if_neg (by omega)]
  refine ⟨h.queue.push ha, by simp [hlen], ?_, ?_, fun hparked => absurd href hparked⟩
  · rw [List.length_append, List.length_singleton]
    omega
  · intro b
    have hb := h.owned b
    simp only [ne_eq, pushNode_eq_none, List.map_append, List.mem_append, ← hb, List.map_cons,
      List.map_nil, List.mem_singleton]
    tauto

/-- A frame that does not is dropped. -/
theorem frameQueuePush_dropped {s : WsSession} {f : WsFrame} {node : Option ℕ}
    (h : s.frameQueueLen ≥ wsMaxQueuedFrames ∨ node = none) : s.frameQueuePush f node = s := by
  unfold WsSession.frameQueuePush
  rcases h with hfull | rfl
  · rw [if_pos hfull]
  · exact ite_self s

theorem QueueFits.frameQueuePush (h : s.QueueFits cells) (href : s.ref = none) (f : WsFrame)
    {node : Option ℕ} (hfree : ∀ a ∈ node, s.memory a = none) :
    ∃ cells', (s.frameQueuePush f node).QueueFits cells' := by
  by_cases hdropped : s.frameQueueLen ≥ wsMaxQueuedFrames ∨ node = none
  · rw [frameQueuePush_dropped hdropped]
    exact ⟨cells, h⟩
  · rw [not_or] at hdropped
    obtain ⟨a, rfl⟩ := Option.ne_none_iff_exists'.mp hdropped.2
    have hlen := h.len
    exact ⟨_, h.pushed href f (by omega) (hfree a rfl)⟩

/-- What a pop takes is the first node. -/
theorem QueueFits.frameQueuePop (h : s.QueueFits cells) {a : ℕ} (hhead : s.frameQueueHead = some a) :
    ∃ node, s.memory a = some node ∧
      ∃ cells', cells = (a, node.item) :: cells' ∧ (s.frameQueuePop a node).QueueFits cells' := by
  have hqueue := h.queue
  rw [hhead] at hqueue
  obtain ⟨x, next, cells', ha, rfl, hrest⟩ := hqueue.pop
  have hnodup := h.queue.path.nodup
  rw [List.map_cons, List.nodup_cons] at hnodup
  have hlen := h.len
  have hle := h.le
  rw [List.length_cons] at hlen hle
  refine ⟨_, ha, cells', rfl, hrest, ?_, by omega, ?_, ?_⟩
  · show s.frameQueueLen - 1 = cells'.length
    omega
  · intro b
    show Function.update s.memory a none b ≠ none ↔ _
    by_cases hb : b = a
    · rw [hb, Function.update_self]
      simp [hnodup.1]
    · rw [Function.update_of_ne hb, h.owned b, List.map_cons, List.mem_cons]
      simp [hb]
  · intro hparked
    cases h.parked hparked

/-- The loop frees the nodes of the list, and no others. -/
theorem freeNodes_eq {cells : List (ℕ × WsFrame)} :
    ∀ {m : Memory WsFrame} {p : Option ℕ}, Path m p cells none → ∀ b,
      freeNodes cells.length m p b = if b ∈ cells.map Prod.fst then none else m b := by
  induction cells with
  | nil =>
      intro m p hpath b
      obtain rfl := hpath.eq_of_nil
      rfl
  | cons cell cells ih =>
      intro m p hpath b
      have hnodup := hpath.nodup
      rw [List.map_cons, List.nodup_cons] at hnodup
      cases hpath with
      | @cons a x next _ _ ha hrest =>
          rw [List.length_cons, freeNodes, ha]
          simp only
          rw [ih (hrest.update hnodup.1 none)]
          simp only [List.map_cons, List.mem_cons]
          by_cases hb : b = a
          · simp [hb, hnodup.1]
          · rw [Function.update_of_ne hb]
            simp only [hb, false_or]

theorem QueueFits.frameQueueClear (h : s.QueueFits cells) : s.frameQueueClear.QueueFits [] := by
  refine ⟨.nil, rfl, Nat.zero_le _, fun b => ?_, fun _ => rfl⟩
  show freeNodes s.frameQueueLen.toNat s.memory s.frameQueueHead b ≠ none ↔ _
  rw [h.len, Int.toNat_natCast, freeNodes_eq h.queue.path]
  by_cases hb : b ∈ cells.map Prod.fst
  · simp [hb]
  · have hnone := mt (h.owned b).mp hb
    simp [hb, not_not.mp hnone]

/-- The list is cleared, unless this has been done before. -/
theorem QueueFits.cleanedUp (h : s.QueueFits cells) :
    s.connectionCleanup.QueueFits (if s.wsCleaningUp then cells else []) := by
  unfold WsSession.connectionCleanup
  split
  · exact h
  · have hclear := h.frameQueueClear
    exact ⟨hclear.queue, hclear.len, hclear.le, hclear.owned, hclear.parked⟩

theorem QueueFits.resumeWith (h : s.QueueFits cells) (co : Co) : (s.resumeWith co).QueueFits cells :=
  ⟨h.queue, h.len, h.le, h.owned, fun hparked => absurd rfl hparked⟩

theorem QueueFits.closeDown (h : s.QueueFits cells) :
    s.closeDown.QueueFits (if s.ref.isSome ∨ s.wsCleaningUp then cells else []) := by
  have hs : { s with reading := false }.QueueFits cells := ⟨h.queue, h.len, h.le, h.owned, h.parked⟩
  unfold WsSession.closeDown
  split
  · rename_i co hco
    have hco : s.ref = some co := hco
    rw [if_pos (Or.inl (by rw [hco]; rfl))]
    exact hs.resumeWith co
  · rename_i hnone
    have hnone : s.ref = none := hnone
    simpa [hnone] using hs.cleanedUp

/-- Nothing of the queue has changed. -/
theorem QueueFits.congr (h : s.QueueFits cells) {s' : WsSession} (hmemory : s'.memory = s.memory)
    (hhead : s'.frameQueueHead = s.frameQueueHead) (htail : s'.frameQueueTail = s.frameQueueTail)
    (hlen : s'.frameQueueLen = s.frameQueueLen) (href : s'.ref = s.ref) : s'.QueueFits cells := by
  refine ⟨?_, hlen.trans h.len, h.le, ?_, ?_⟩
  · rw [hmemory, hhead, htail]
    exact h.queue
  · rw [hmemory]
    exact h.owned
  · rw [href]
    exact h.parked

theorem QueueFits.handle (h : s.QueueFits cells) (f : WsFrame) {node : Option ℕ}
    (hfree : ∀ a ∈ node, s.memory a = none) : ∃ cells', (s.handle f node).QueueFits cells' := by
  unfold WsSession.handle
  split
  · split
    · exact ⟨cells, h.congr rfl rfl rfl rfl rfl⟩
    · exact ⟨cells, h⟩
  · split
    · exact ⟨cells, h⟩
    · split
      · have hreply : (if s.wsBev then ({ s with wsState := .closed } : WsSession).emit 8 f.payload
            else { s with wsState := .closed }).QueueFits cells := by
          split
          · exact h.congr rfl rfl rfl rfl rfl
          · exact h.congr rfl rfl rfl rfl rfl
        exact ⟨_, hreply.closeDown⟩
      · split
        · split
          · exact ⟨cells, h.resumeWith _⟩
          · rename_i hnone
            exact h.frameQueuePush hnone f hfree
        · exact ⟨cells, h⟩

theorem QueueFits.readRound (h : s.QueueFits cells) (granted : Bool) {node : Option ℕ}
    (hfree : ∀ a ∈ node, s.memory a = none) : ∃ cells', (s.readRound granted node).QueueFits cells' := by
  unfold WsSession.readRound
  split
  · exact ⟨cells, h.congr rfl rfl rfl rfl rfl⟩
  · exact ⟨_, QueueFits.closeDown (h.congr rfl rfl rfl rfl rfl)⟩
  · rename_i f left hparse
    have hs : { s with input := left }.QueueFits cells := h.congr rfl rfl rfl rfl rfl
    exact hs.handle f hfree

/-- A coroutine is parked only when the queue is empty. -/
theorem QueueFits.receive (h : s.QueueFits cells) (co : Co) :
    ∃ cells', (s.receive co).QueueFits cells' := by
  unfold WsSession.receive
  split
  · exact ⟨cells, h⟩
  · cases hhead : s.frameQueueHead with
    | some a =>
        obtain ⟨node, hnode, cells', -, hpop⟩ := h.frameQueuePop hhead
        simp only [hnode]
        exact ⟨cells', hpop⟩
    | none =>
        have hempty : cells = [] := h.queue.head_eq_none_iff.mp hhead
        have hparked : { s with ref := some co }.QueueFits cells :=
          ⟨h.queue, h.len, h.le, h.owned, fun _ => hempty⟩
        simp only
        split
        · exact ⟨cells, h⟩
        · split
          · exact ⟨cells, hparked.congr rfl hhead.symm rfl rfl rfl⟩
          · exact ⟨cells, hparked.congr rfl hhead.symm rfl rfl rfl⟩

/-- **Every step keeps the fields in line with the list.** -/
theorem step_queueFits {s' : WsSession} {e : Event} (h : ∃ cells, s.QueueFits cells)
    (hstep : step s e = some s') : ∃ cells, s'.QueueFits cells := by
  obtain ⟨cells, h⟩ := h
  cases e with
  | accept bev =>
      rw [step, Option.ite_none_left_eq_some] at hstep
      obtain ⟨-, hstep⟩ := hstep
      cases hstep
      unfold accept
      split
      · exact ⟨cells, h.congr rfl rfl rfl rfl rfl⟩
      · exact ⟨cells, h⟩
  | read bytes =>
      obtain ⟨-, rfl⟩ := guard_taken hstep
      exact ⟨cells, h.congr rfl rfl rfl rfl rfl⟩
  | next granted node =>
      obtain ⟨⟨-, -, hfree⟩, rfl⟩ := guard_taken hstep
      refine h.readRound granted fun a ha => ?_
      rw [ha] at hfree
      simpa using hfree
  | event what =>
      obtain ⟨-, rfl⟩ := guard_taken hstep
      split
      · exact ⟨_, QueueFits.closeDown (h.congr rfl rfl rfl rfl rfl)⟩
      · exact ⟨cells, h⟩
  | receive co =>
      rw [step, Option.ite_none_left_eq_some] at hstep
      obtain ⟨-, hstep⟩ := hstep
      cases hstep
      exact h.receive co
  | ping payload =>
      cases hstep
      unfold ping
      split
      · exact ⟨cells, h.congr rfl rfl rfl rfl rfl⟩
      · exact ⟨cells, h⟩
  | pong payload =>
      cases hstep
      unfold ping
      split
      · exact ⟨cells, h.congr rfl rfl rfl rfl rfl⟩
      · exact ⟨cells, h⟩
  | close code reason =>
      cases hstep
      unfold close
      split
      · exact ⟨cells, h⟩
      · split
        · exact ⟨cells, h.congr rfl rfl rfl rfl rfl⟩
        · exact ⟨cells, h.congr rfl rfl rfl rfl rfl⟩
  | yield =>
      obtain ⟨-, rfl⟩ := guard_taken hstep
      exact ⟨cells, h.congr rfl rfl rfl rfl rfl⟩
  | finish =>
      obtain ⟨-, rfl⟩ := guard_taken hstep
      exact ⟨_, h.cleanedUp.congr rfl rfl rfl rfl rfl⟩

end Queue

/-! ## Control frames -/

/-- The payload has at most 125 bytes, and so its length is written in one. -/
def Legal (c : ControlFrame) : Prop :=
  c.payload.length ≤ 125 ∧ websocketCreateFrame c.opcode c.payload true
    = (0x80 ||| (c.opcode &&& 0x0F)) :: UInt8.ofNat c.payload.length :: c.payload

/-- All control frames that were written are legal. -/
def LegalControls (s : WsSession) : Prop := ∀ c ∈ s.controls, Legal c

/-- A ping or close frame that is answered has at most 125 bytes of payload. -/
def AnswerFits (s : WsSession) : WsParse → Prop
  | .frame f _ =>
      s.wsBev → (f.opcode = 9 ∧ s.wsState = .opened) ∨ f.opcode = 8 → f.payload.length ≤ 125
  | _ => True

instance (s : WsSession) : ∀ p : WsParse, Decidable (s.AnswerFits p)
  | .more => isTrue trivial
  | .failed _ => isTrue trivial
  | .frame f _ => inferInstanceAs (Decidable
      (s.wsBev → (f.opcode = 9 ∧ s.wsState = .opened) ∨ f.opcode = 8 → f.payload.length ≤ 125))

/-- What is answered fits, and a reason that is sent has at most 123 bytes. -/
def WithinLimits (s : WsSession) : Event → Prop
  | .next granted _ =>
      s.AnswerFits (websocketParse (fun n => granted && decide (n < 2 ^ 63)) s.input)
  | .close code reason =>
      s.isWebsocket ∧ s.wsState ≠ .closed ∧ s.wsBev → 1000 ≤ code.toInt32 ∧ code.toInt32 ≤ 4999 →
        reason.length ≤ 123
  | _ => True

instance (s : WsSession) : ∀ e : Event, Decidable (s.WithinLimits e)
  | .accept _ => isTrue trivial
  | .read _ => isTrue trivial
  | .next granted _ => inferInstanceAs (Decidable
      (s.AnswerFits (websocketParse (fun n => granted && decide (n < 2 ^ 63)) s.input)))
  | .event _ => isTrue trivial
  | .receive _ => isTrue trivial
  | .ping _ => isTrue trivial
  | .pong _ => isTrue trivial
  | .close code reason => inferInstanceAs (Decidable (s.isWebsocket ∧ s.wsState ≠ .closed ∧ s.wsBev →
      1000 ≤ code.toInt32 ∧ code.toInt32 ≤ 4999 → reason.length ≤ 123))
  | .yield => isTrue trivial
  | .finish => isTrue trivial

section Controls

variable {s : WsSession}

theorem legal_iff {c : ControlFrame} : Legal c ↔ c.payload.length ≤ 125 := by
  refine ⟨fun h => h.1, fun h => ⟨h, ?_⟩⟩
  rw [websocketCreateFrame]
  simp only [if_true, if_pos (show c.payload.length < 126 by omega)]
  rfl

/-- One more frame. -/
theorem legalControls_emit (h : s.LegalControls) {opcode : UInt8} {payload : List UInt8} {s' : WsSession}
    (hs' : s'.controls = s.controls ++ [⟨opcode, payload⟩]) :
    s'.LegalControls ↔ payload.length ≤ 125 := by
  unfold LegalControls
  rw [hs', List.forall_mem_append, List.forall_mem_singleton, legal_iff]
  exact and_iff_right h

/-- No more frame. -/
theorem legalControls_same (h : s.LegalControls) {s' : WsSession} (hs' : s'.controls = s.controls) :
    s'.LegalControls := by
  unfold LegalControls
  rwa [hs']

@[simp] theorem controls_connectionCleanup (s : WsSession) :
    s.connectionCleanup.controls = s.controls := by
  unfold WsSession.connectionCleanup
  split <;> rfl

@[simp] theorem controls_closeDown (s : WsSession) : s.closeDown.controls = s.controls := by
  unfold WsSession.closeDown
  split
  · rfl
  · rw [controls_connectionCleanup]

@[simp] theorem controls_frameQueuePush (s : WsSession) (f : WsFrame) (node : Option ℕ) :
    (s.frameQueuePush f node).controls = s.controls := by
  unfold WsSession.frameQueuePush
  split
  · rfl
  · split <;> rfl

@[simp] theorem controls_receive (s : WsSession) (co : Co) : (s.receive co).controls = s.controls := by
  unfold WsSession.receive
  split
  · rfl
  · split
    · split <;> rfl
    · split
      · rfl
      · split <;> rfl

/-- `websocket_ping` and `websocket_pong` write legal frames only. -/
theorem legalControls_ping (h : s.LegalControls) (opcode : UInt8) (payload : List UInt8) :
    (s.ping opcode payload).LegalControls := by
  unfold WsSession.ping
  split
  · rename_i hopen
    exact (legalControls_emit h rfl).mpr hopen.2.2.2
  · exact h

/-- Pings and close frames are answered. -/
theorem legalControls_handle (h : s.LegalControls) (f : WsFrame) (node : Option ℕ) :
    (s.handle f node).LegalControls ↔
      (s.wsBev → (f.opcode = 9 ∧ s.wsState = .opened) ∨ f.opcode = 8 → f.payload.length ≤ 125) := by
  unfold WsSession.handle
  by_cases h9 : f.opcode = 9
  · rw [if_pos h9]
    by_cases hopen : s.wsBev = true ∧ s.wsState = .opened
    · rw [if_pos hopen, legalControls_emit h rfl]
      simp [h9, hopen]
    · rw [if_neg hopen]
      refine iff_of_true h fun hbev hcases => ?_
      rcases hcases with ⟨-, hstate⟩ | h8
      · exact absurd ⟨hbev, hstate⟩ hopen
      · rw [h9] at h8
        cases h8
  · rw [if_neg h9]
    by_cases h8 : f.opcode = 8
    · rw [if_neg (by rw [h8]; decide), if_pos h8]
      by_cases hbev : s.wsBev = true
      · simp only [hbev, if_true]
        rw [legalControls_emit h (controls_closeDown _)]
        simp [h8]
      · simp only [hbev]
        refine iff_of_true (legalControls_same h (controls_closeDown _)) fun hbev' => ?_
        cases hbev'
    · rw [if_neg h8]
      have hsame : (s.wsBev → (f.opcode = 9 ∧ s.wsState = .opened) ∨ f.opcode = 8 →
          f.payload.length ≤ 125) := fun _ hcases => by simp [h9, h8] at hcases
      refine iff_of_true ?_ hsame
      split
      · exact h
      · split
        · split
          · exact h
          · exact legalControls_same h (controls_frameQueuePush _ _ _)
        · exact h

theorem legalControls_close (h : s.LegalControls) (code : Int64) (reason : List UInt8) :
    (s.close code reason).LegalControls ↔ s.WithinLimits (.close code reason) := by
  unfold WsSession.close WithinLimits
  by_cases hclosed : s.isWebsocket = false ∨ s.wsState = .closed
  · rw [if_pos hclosed]
    refine iff_of_true h fun hopen => ?_
    rcases hclosed with hno | hstate
    · rw [hno] at hopen
      cases hopen.1
    · exact absurd hstate hopen.2.1
  · rw [if_neg hclosed]
    rw [not_or, Bool.not_eq_false] at hclosed
    by_cases hbev : s.wsBev = true
    · rw [if_pos hbev, legalControls_emit h rfl]
      unfold closePayload
      simp only
      split
      · rename_i hcode
        simp [hclosed, hbev, hcode]
        omega
      · rename_i hcode
        simp [hcode]
    · rw [if_neg hbev]
      exact iff_of_true h fun hopen => absurd hopen.2.2 hbev

/-- **A step keeps the frames legal exactly if it is within the limits.** -/
theorem step_legalControls {s' : WsSession} {e : Event} (h : s.LegalControls)
    (hstep : step s e = some s') : s'.LegalControls ↔ s.WithinLimits e := by
  cases e with
  | accept bev =>
      rw [step, Option.ite_none_left_eq_some] at hstep
      obtain ⟨-, hstep⟩ := hstep
      cases hstep
      refine iff_of_true (legalControls_same h ?_) trivial
      unfold accept
      split <;> rfl
  | read bytes =>
      obtain ⟨-, rfl⟩ := guard_taken hstep
      exact iff_of_true h trivial
  | next granted node =>
      obtain ⟨-, rfl⟩ := guard_taken hstep
      show (s.readRound granted node).LegalControls ↔ s.AnswerFits _
      unfold WsSession.readRound
      cases websocketParse (fun n => granted && decide (n < 2 ^ 63)) s.input with
      | more => exact iff_of_true h trivial
      | failed left => exact iff_of_true (legalControls_same h (controls_closeDown _)) trivial
      | frame f left => exact legalControls_handle (s := { s with input := left }) h f node
  | event what =>
      obtain ⟨-, rfl⟩ := guard_taken hstep
      refine iff_of_true (legalControls_same h ?_) trivial
      split
      · exact controls_closeDown _
      · rfl
  | receive co =>
      rw [step, Option.ite_none_left_eq_some] at hstep
      obtain ⟨-, hstep⟩ := hstep
      cases hstep
      exact iff_of_true (legalControls_same h (controls_receive s co)) trivial
  | ping payload =>
      cases hstep
      exact iff_of_true (legalControls_ping h 9 payload) trivial
  | pong payload =>
      cases hstep
      exact iff_of_true (legalControls_ping h 0xA payload) trivial
  | close code reason =>
      cases hstep
      exact legalControls_close h code reason
  | yield =>
      obtain ⟨-, rfl⟩ := guard_taken hstep
      exact iff_of_true h trivial
  | finish =>
      obtain ⟨-, rfl⟩ := guard_taken hstep
      exact iff_of_true (legalControls_same h (controls_connectionCleanup s)) trivial

end Controls

end WsSession

open WsSession

/-- **The queue in every state**: its length is that of the list from its head and at most 64,
its tail is the last node (none if and only if the list is empty), and no coroutine is parked
while a frame is queued. -/
theorem ws_queue_invariant {es : List WsSession.Event} {s : WsSession}
    (hrun : run WsSession.step created es = some s) :
    ∃ cells, s.QueueFits cells ∧ (s.frameQueueTail = none ↔ cells = []) := by
  obtain ⟨cells, h⟩ := run_keeps (P := fun s => ∃ cells, s.QueueFits cells)
    (fun s e s' h hstep => step_queueFits h hstep) ⟨[], created_queueFits⟩ hrun
  exact ⟨cells, h, h.queue.tail_eq_none_iff⟩

/-- Two frames are queued in one read, and received. -/
def twoQueued : List WsSession.Event :=
  [.accept true, .read [129, 1, 104, 130, 1, 7], .next true (some 16), .next true (some 48), .next true none,
    .receive 1, .receive 1, .receive 1]

theorem ws_queue_invariant_two : ∃ s : WsSession,
    run WsSession.step created twoQueued = some s ∧ s.ref = some 1 ∧
      ∃ cells, s.QueueFits cells ∧ (s.frameQueueTail = none ↔ cells = []) := by
  have hrun : run WsSession.step created twoQueued = some _ := rfl
  exact ⟨_, hrun, rfl, ws_queue_invariant hrun⟩

/-- **Control frames are legal in every state of a run exactly as long as** the pings and
close frames that are answered are, and `websocket_close` is given no reason longer than 123
bytes with a valid code. -/
theorem control_frames_legal {es : List WsSession.Event} {s : WsSession}
    (hrun : run WsSession.step created es = some s) :
    Always WsSession.step LegalControls created es ↔ Meets WsSession.step WithinLimits created es :=
  always_iff (P := fun _ => True) (fun _ _ _ _ h hstep => ⟨fun _ => trivial, step_legalControls h hstep⟩)
    trivial (fun _ hc => by simp [created] at hc) hrun

/-- A ping is answered, and the server closes with a short reason. -/
def legalRun : List WsSession.Event :=
  [.accept true, .read [137, 1, 7], .next true none, .close 1000 [98, 121, 101]]

theorem control_frames_legal_short : ∃ s : WsSession, run WsSession.step created legalRun = some s ∧
    s.controls = [⟨10, [7]⟩, ⟨8, [3, 232, 98, 121, 101]⟩] ∧
      Always WsSession.step LegalControls created legalRun := by
  have hrun : run WsSession.step created legalRun = some _ := rfl
  exact ⟨_, hrun, by decide, (control_frames_legal hrun).mpr (by decide)⟩

/-- A reason of 125 bytes makes a payload of 127 bytes, and a length of three bytes. -/
theorem close_frame_too_long : ∃ s : WsSession,
    run WsSession.step created [.accept true, .close 1000 (List.replicate 125 97)] = some s ∧
      s.controls = [⟨8, [3, 232] ++ List.replicate 125 97⟩] ∧
      websocketCreateFrame 8 ([3, 232] ++ List.replicate 125 97) true
        = [136, 126, 0, 127] ++ ([3, 232] ++ List.replicate 125 97) ∧ ¬s.LegalControls := by
  refine ⟨_, rfl, by decide +kernel, by decide +kernel, fun h => ?_⟩
  have hlegal := h ⟨8, [3, 232] ++ List.replicate 125 97⟩ (by decide +kernel)
  exact absurd hlegal.1 (by decide +kernel)

end LuaFan
