/-
# The sending side of the connectors (`modules/fan/connector/tcp.lua`, `fifo.lua`)

`send` blocks its coroutine until the message is out: one coroutine is sending
(`send_running`), the others wait in `_sender_queue`.  When the connection is ready,
`_onsendready` lets the first of the queue begin and then resumes the one that is
done.  A resumed sender hands its message to the connection before any user code runs,
so the two are one step.

* `sends_serialised`: what the connection has been given is a prefix of the messages
  in the order of the calls, and at most one sender is in progress.
* `close_resumes_senders`: `close` leaves no sender behind **if and only if** none is
  in progress (tcp), none is queued (fifo).
-/
import LuaFan.Lib.Machine
import LuaFan.Lua.Value

namespace LuaFan

open Machine

/-! ## The code that both connectors share -/

/-- The fields that the sending side uses; `port` is what a message is handed to.
`inProgress` are the coroutines suspended after they handed over their message, and
`accepted` the messages in the order of the calls. -/
structure Sender (P : Type) where
  disconnected : Bool
  writable : Bool
  simulateSendBlock : Bool
  sendRunning : Option Co
  senderQueue : List (Co × List UInt8)
  port : P
  inProgress : List Co
  accepted : List (List UInt8)

namespace Sender

variable {P : Type}

/-- A new connector. -/
def new (port : P) : Sender P := ⟨false, true, true, none, [], port, [], []⟩

/-- Is the coroutine suspended in `send`? -/
def suspended (s : Sender P) (co : Co) : Bool :=
  s.senderQueue.any (fun w => w.1 == co) || s.inProgress.contains co

/-- `send` from where the sender has its turn. -/
def transmit (hand : P → List UInt8 → P) (s : Sender P) (co : Co) (buf : List UInt8) : Sender P :=
  if s.simulateSendBlock then
    { s with
      sendRunning := some co
      port := hand s.port buf
      inProgress := co :: s.inProgress }
  else { s with port := hand s.port buf }

/-- `send` on an open connection. -/
def send (hand : P → List UInt8 → P) (s : Sender P) (co : Co) (buf : List UInt8) : Sender P :=
  if s.sendRunning.isSome then
    { s with
      senderQueue := s.senderQueue ++ [(co, buf)]
      accepted := s.accepted ++ [buf] }
  else transmit hand { s with accepted := s.accepted ++ [buf] } co buf

/-- The first sender of the queue is resumed. -/
def resumeQueued (hand : P → List UInt8 → P) (s : Sender P) : Sender P :=
  match s.senderQueue with
  | w :: rest => transmit hand { s with senderQueue := rest } w.1 w.2
  | [] => s

/-- The part of `_onsendready` for the sender in progress. -/
def finish (hand : P → List UInt8 → P) (s : Sender P) : Sender P :=
  match s.sendRunning with
  | some co =>
      let s := resumeQueued hand { s with sendRunning := none }
      { s with inProgress := s.inProgress.erase co }
  | none => s

/-- The part of `close` that both connectors share. -/
def shut (s : Sender P) : Sender P := { s with disconnected := true, writable := false }

end Sender

/-! ## tcp -/

namespace TcpSend

/-- The connection: the bytes it has been given. -/
abbrev State := Sender (List UInt8)

def new : State := Sender.new []

/-- `self.conn:send(buf)`. -/
def hand (wire buf : List UInt8) : List UInt8 := wire ++ buf

/-- A coroutine sends, the connection is ready for more, or the connection is closed; a
disconnect calls `close`. -/
inductive Event where
  | send (co : Co) (buf : List UInt8)
  | sendready
  | close

def step (s : State) : Event → Option State
  | .send co buf =>
      if s.suspended co then none
      else if s.disconnected ∨ s.writable = false ∨ buf = [] then some s
      else some (s.send hand co buf)
  | .sendready => if s.writable then some (s.finish hand) else none
  | .close => some s.shut

end TcpSend

/-! ## fifo -/

namespace FifoSend

/-- `MAX_LINE_SIZE`. -/
def maxLineSize : ℕ := 8192

/-- What is waiting to be written, and what has been written. -/
structure Pipe where
  outputQueue : List (List UInt8)
  wire : List UInt8

abbrev State := Sender Pipe

def new : State := Sender.new ⟨[], []⟩

/-- The pieces of a message. -/
def pieces (buf : List UInt8) : List (List UInt8) :=
  if maxLineSize < buf.length then
    (List.range (buf.length / maxLineSize + 1)).map fun i =>
      (buf.drop (i * maxLineSize)).take maxLineSize
  else [buf]

/-- A message goes into the output queue. -/
def hand (p : Pipe) (buf : List UInt8) : Pipe := { p with outputQueue := p.outputQueue ++ pieces buf }

/-- `sent` bytes of the first piece have been written; a number that is not positive
stands for none. -/
def wrote (p : Pipe) (buf : List UInt8) (rest : List (List UInt8)) (sent : ℤ) : Pipe :=
  if 0 < sent then
    { outputQueue := if sent < buf.length then buf.drop sent.toNat :: rest else rest
      wire := p.wire ++ buf.take sent.toNat }
  else p

/-- A coroutine sends, the pipe can be written (and a write would take `sent` bytes),
or the connection is closed; a disconnect calls `close`. -/
inductive Event where
  | send (co : Co) (buf : List UInt8)
  | sendready (sent : ℤ)
  | close

/-- `close`: the sender in progress is resumed. -/
def close (s : State) : State :=
  match s.sendRunning with
  | some co => { s.shut with sendRunning := none, inProgress := s.inProgress.erase co }
  | none => s.shut

def step (s : State) : Event → Option State
  | .send co buf =>
      if s.suspended co then none
      else if s.disconnected ∨ s.writable = false then some s
      else some (s.send hand co buf)
  | .sendready sent =>
      if s.writable then
        match s.port.outputQueue with
        | buf :: rest =>
            if sent ≤ buf.length then some { s with port := wrote s.port buf rest sent } else none
        | [] => some (s.finish hand)
      else none
  | .close => some (close s)

end FifoSend

/-! ## The senders take turns -/

namespace Sender

variable {P : Type} {out : P → List UInt8} {hand : P → List UInt8 → P} {s : Sender P}

/-- What the port has been given, then what is queued, are the messages in the order of
the calls; nobody is queued while nobody is sending; and `send_running` is the only
sender in progress. -/
structure Serial (out : P → List UInt8) (s : Sender P) : Prop where
  blocking : s.simulateSendBlock = true
  bytes : s.accepted.flatten = out s.port ++ (s.senderQueue.map Prod.snd).flatten
  idle : s.writable = true → s.sendRunning = none → s.senderQueue = []
  progress : s.inProgress = s.sendRunning.toList

theorem serial_new (port : P) (h : out port = []) : Serial out (new port) where
  blocking := rfl
  bytes := by simp [new, h]
  idle := fun _ _ => rfl
  progress := rfl

/-- A call of `send` keeps the order. -/
theorem Serial.send (hhand : ∀ p buf, out (hand p buf) = out p ++ buf) (h : Serial out s)
    (hw : s.writable = true) (co : Co) (buf : List UInt8) : Serial out (s.send hand co buf) := by
  unfold Sender.send
  split
  · rename_i hrunning
    refine ⟨h.blocking, ?_, ?_, h.progress⟩
    · simp only [List.flatten_append, List.map_append, h.bytes, List.append_assoc]
      simp
    · intro _ hnone
      rw [hnone] at hrunning
      cases hrunning
  · rename_i hrunning
    have hnone : s.sendRunning = none := by simpa using hrunning
    have hqueue := h.idle hw hnone
    rw [transmit, if_pos h.blocking]
    refine ⟨h.blocking, ?_, ?_, ?_⟩
    · simp only [List.flatten_append, h.bytes, hqueue, hhand]
      simp
    · intro _ hsome
      cases hsome
    · rw [h.progress, hnone]
      rfl

/-- The next sender begins before the last one goes on. -/
theorem Serial.finish (hhand : ∀ p buf, out (hand p buf) = out p ++ buf) (h : Serial out s) :
    Serial out (s.finish hand) := by
  unfold Sender.finish
  split
  · rename_i co hco
    have hprogress : s.inProgress = [co] := by rw [h.progress, hco]; rfl
    unfold resumeQueued
    cases hq : s.senderQueue with
    | nil =>
        have hbytes := h.bytes
        rw [hq] at hbytes
        exact ⟨h.blocking, hbytes, fun _ _ => rfl, by simp [hprogress]⟩
    | cons w rest =>
        have hbytes := h.bytes
        simp only [hq, List.map_cons, List.flatten_cons] at hbytes
        simp only [transmit, if_pos h.blocking]
        refine ⟨h.blocking, ?_, ?_, ?_⟩
        · simp only [hhand, hbytes, List.append_assoc]
        · intro _ hsome
          cases hsome
        · -- the old sender leaves, the new one stays, even if it is the same coroutine
          rw [hprogress]
          by_cases hsame : w.1 = co
          · simp [hsame]
          · rw [List.erase_cons_tail (by simpa using hsame)]
            simp
  · exact h

theorem Serial.shut (h : Serial out s) : Serial out s.shut :=
  ⟨h.blocking, h.bytes, (fun hw => nomatch hw), h.progress⟩

/-- What has been handed over is a prefix of the messages. -/
theorem Serial.isPrefix (h : Serial out s) : out s.port <+: s.accepted.flatten :=
  ⟨_, h.bytes.symm⟩

theorem Serial.length_le (h : Serial out s) : s.inProgress.length ≤ 1 := by
  rw [h.progress]
  cases s.sendRunning <;> simp

end Sender

namespace TcpSend

theorem step_serial {s s' : State} {e : Event} (h : s.Serial id) (hstep : step s e = some s') :
    s'.Serial id := by
  cases e with
  | send co buf =>
      simp only [step] at hstep
      split at hstep
      · cases hstep
      · split at hstep
        · cases hstep
          exact h
        · rename_i hguard
          simp only [not_or] at hguard
          cases hstep
          exact h.send (fun _ _ => rfl) (by simpa using hguard.2.1) co buf
  | sendready =>
      simp only [step] at hstep
      split at hstep
      · rename_i hw
        cases hstep
        exact h.finish fun _ _ => rfl
      · cases hstep
  | close =>
      cases hstep
      exact h.shut

theorem run_serial {es : List Event} {s : State} (hrun : run step new es = some s) :
    s.Serial id :=
  run_keeps (fun _ _ _ h hstep => step_serial h hstep) (Sender.serial_new [] rfl) hrun

end TcpSend

namespace FifoSend

/-- What has been written and what is waiting to be. -/
def Pipe.bytes (p : Pipe) : List UInt8 := p.wire ++ p.outputQueue.flatten

/-- The pieces are the message. -/
theorem flatten_pieces (buf : List UInt8) : (pieces buf).flatten = buf := by
  unfold pieces
  split
  · rw [flatten_slices]
    apply List.take_of_length_le
    have := Nat.lt_div_mul_add (a := buf.length) (b := maxLineSize) (by decide)
    rw [Nat.succ_mul]
    omega
  · simp

theorem bytes_hand (p : Pipe) (buf : List UInt8) : (hand p buf).bytes = p.bytes ++ buf := by
  simp [hand, Pipe.bytes, flatten_pieces]

/-- A write moves bytes from the queue to the wire. -/
theorem bytes_wrote {p : Pipe} {buf : List UInt8} {rest : List (List UInt8)} {sent : ℤ}
    (hq : p.outputQueue = buf :: rest) (hle : sent ≤ buf.length) :
    (wrote p buf rest sent).bytes = p.bytes := by
  unfold wrote
  split
  · split
    · simp only [Pipe.bytes, hq, List.flatten_cons, List.append_assoc]
      rw [← List.append_assoc (buf.take sent.toNat), List.take_append_drop]
    · have hall : sent.toNat = buf.length := by omega
      simp [Pipe.bytes, hq, hall]
  · rfl

theorem step_serial {s s' : State} {e : Event} (h : s.Serial Pipe.bytes)
    (hstep : step s e = some s') : s'.Serial Pipe.bytes := by
  cases e with
  | send co buf =>
      simp only [step] at hstep
      split at hstep
      · cases hstep
      · split at hstep
        · cases hstep
          exact h
        · rename_i hguard
          simp only [not_or] at hguard
          cases hstep
          exact h.send bytes_hand (by simpa using hguard.2) co buf
  | sendready sent =>
      simp only [step] at hstep
      split at hstep
      · rename_i hw
        split at hstep
        · rename_i buf rest hq
          split at hstep
          · rename_i hle
            cases hstep
            refine ⟨h.blocking, ?_, h.idle, h.progress⟩
            rw [bytes_wrote hq hle]
            exact h.bytes
          · cases hstep
        · cases hstep
          exact h.finish bytes_hand
      · cases hstep
  | close =>
      cases hstep
      unfold close
      split
      · rename_i co hco
        refine ⟨h.blocking, h.bytes, (fun hw => nomatch hw), ?_⟩
        simp only [h.progress, hco]
        simp
      · exact h.shut

theorem run_serial {es : List Event} {s : State} (hrun : run step new es = some s) :
    s.Serial Pipe.bytes :=
  run_keeps (fun _ _ _ h hstep => step_serial h hstep) (Sender.serial_new ⟨[], []⟩ rfl) hrun

end FifoSend

/-- **Concurrent sends are serialised**: for both connectors and any calls of `send` by
any coroutines, what the connection has been given is a prefix of the messages in the
order of the calls, and at most one sender is in progress. -/
theorem sends_serialised :
    (∀ (es : List TcpSend.Event) (s : TcpSend.State), run TcpSend.step TcpSend.new es = some s →
      s.port <+: s.accepted.flatten ∧ s.inProgress.length ≤ 1) ∧
    ∀ (es : List FifoSend.Event) (s : FifoSend.State), run FifoSend.step FifoSend.new es = some s →
      s.port.wire <+: s.accepted.flatten ∧ s.inProgress.length ≤ 1 := by
  constructor
  · intro es s hrun
    have h := TcpSend.run_serial hrun
    exact ⟨h.isPrefix, h.length_le⟩
  · intro es s hrun
    have h := FifoSend.run_serial hrun
    exact ⟨(List.prefix_append _ _).trans h.isPrefix, h.length_le⟩

/-- Two coroutines send, and the second waits for its turn; a pipe takes the messages
in parts. -/
theorem sends_serialised_two_senders :
    (∃ s : TcpSend.State,
      run TcpSend.step TcpSend.new [.send 1 [10, 11], .send 2 [20], .sendready, .send 1 [12]]
        = some s ∧
      s.port = [10, 11, 20] ∧ s.port <+: s.accepted.flatten ∧ s.inProgress.length ≤ 1) ∧
    ∃ s : FifoSend.State,
      run FifoSend.step FifoSend.new [.send 1 [10, 11], .send 2 [20], .sendready 1, .sendready (-1)]
        = some s ∧
      s.port.wire = [10] ∧ s.port.wire <+: s.accepted.flatten ∧ s.inProgress.length ≤ 1 :=
  ⟨⟨_, rfl, rfl, sends_serialised.1 [.send 1 [10, 11], .send 2 [20], .sendready, .send 1 [12]] _ rfl⟩,
    ⟨_, rfl, rfl, sends_serialised.2
      [.send 1 [10, 11], .send 2 [20], .sendready 1, .sendready (-1)] _ rfl⟩⟩

/-! ## Senders left behind -/

/-- No coroutine is suspended in `send`. -/
def Sender.AllResumed {P : Type} (s : Sender P) : Prop :=
  s.sendRunning = none ∧ s.senderQueue = [] ∧ s.inProgress = []

/-- Once the connection is shut, a step does not change who is suspended. -/
theorem TcpSend.step_shut {s s' : State} {e : Event} (hs : s.disconnected = true ∧ s.writable = false)
    (hstep : step s e = some s') :
    (s'.disconnected = true ∧ s'.writable = false) ∧ (s'.AllResumed ↔ s.AllResumed) := by
  cases e with
  | send co buf =>
      simp only [step] at hstep
      split at hstep
      · cases hstep
      · rw [if_pos (Or.inl hs.1)] at hstep
        cases hstep
        exact ⟨hs, Iff.rfl⟩
  | sendready =>
      simp [step, hs.2] at hstep
  | close =>
      cases hstep
      exact ⟨⟨rfl, rfl⟩, Iff.rfl⟩

theorem FifoSend.step_shut {s s' : State} {e : Event}
    (hs : s.disconnected = true ∧ s.writable = false ∧ s.sendRunning = none)
    (hstep : step s e = some s') :
    (s'.disconnected = true ∧ s'.writable = false ∧ s'.sendRunning = none) ∧
      (s'.AllResumed ↔ s.AllResumed) := by
  cases e with
  | send co buf =>
      simp only [step] at hstep
      split at hstep
      · cases hstep
      · rw [if_pos (Or.inl hs.1)] at hstep
        cases hstep
        exact ⟨hs, Iff.rfl⟩
  | sendready sent =>
      simp [step, hs.2.1] at hstep
  | close =>
      cases hstep
      simp only [close, hs.2.2]
      exact ⟨⟨rfl, rfl, hs.2.2⟩, Iff.rfl⟩

/-- **`close` and the senders**: in every state reached after a `close`, no coroutine is
suspended in `send` if and only if, when it was closed, no sender was in progress (tcp),
no sender was queued behind another one (fifo). -/
theorem close_resumes_senders (es es' : List TcpSend.Event) (fs fs' : List FifoSend.Event) :
    (∀ s s₁ s₂ : TcpSend.State,
      run TcpSend.step TcpSend.new es = some s → s.writable = true →
      TcpSend.step s .close = some s₁ → run TcpSend.step s₁ es' = some s₂ →
      (s₂.AllResumed ↔ s.sendRunning = none)) ∧
    ∀ s s₁ s₂ : FifoSend.State,
      run FifoSend.step FifoSend.new fs = some s → s.writable = true →
      FifoSend.step s .close = some s₁ → run FifoSend.step s₁ fs' = some s₂ →
      (s₂.AllResumed ↔ s.senderQueue = []) := by
  constructor
  · intro s s₁ s₂ hrun hw hclose hrest
    have h := TcpSend.run_serial hrun
    cases hclose
    have hsame := run_keeps
      (P := fun s' => (s'.disconnected = true ∧ s'.writable = false) ∧
        (s'.AllResumed ↔ s.shut.AllResumed))
      (fun s₃ e s₄ h₃ hstep => ⟨(TcpSend.step_shut h₃.1 hstep).1,
        (TcpSend.step_shut h₃.1 hstep).2.trans h₃.2⟩)
      ⟨⟨rfl, rfl⟩, Iff.rfl⟩ hrest
    rw [hsame.2]
    constructor
    · exact fun hall => hall.1
    · intro hnone
      exact ⟨hnone, h.idle hw hnone, by rw [Sender.shut, h.progress, hnone]; rfl⟩
  · intro s s₁ s₂ hrun hw hclose hrest
    have h := FifoSend.run_serial hrun
    cases hclose
    have hclosed : (FifoSend.close s).sendRunning = none ∧ (FifoSend.close s).disconnected = true ∧
        (FifoSend.close s).writable = false ∧ (FifoSend.close s).senderQueue = s.senderQueue ∧
        (FifoSend.close s).inProgress = [] := by
      unfold FifoSend.close
      split
      · rename_i co hco
        exact ⟨rfl, rfl, rfl, rfl, by simp [h.progress, hco]⟩
      · rename_i hnone
        exact ⟨hnone, rfl, rfl, rfl, by rw [Sender.shut, h.progress, hnone]; rfl⟩
    obtain ⟨hnone, hdisc, hshut, hqueue, hprogress⟩ := hclosed
    have hsame := run_keeps
      (P := fun s' => (s'.disconnected = true ∧ s'.writable = false ∧ s'.sendRunning = none) ∧
        (s'.AllResumed ↔ (FifoSend.close s).AllResumed))
      (fun s₃ e s₄ h₃ hstep => ⟨(FifoSend.step_shut h₃.1 hstep).1,
        (FifoSend.step_shut h₃.1 hstep).2.trans h₃.2⟩)
      ⟨⟨hdisc, hshut, hnone⟩, Iff.rfl⟩ hrest
    rw [hsame.2]
    constructor
    · exact fun hall => hqueue ▸ hall.2.1
    · intro hnil
      exact ⟨hnone, hqueue.trans hnil, hprogress⟩

/-- Closed with nobody sending (tcp), with one sender in progress (fifo): nobody is left
behind. -/
theorem close_resumes_senders_alone :
    (∃ s₂ : TcpSend.State,
      run TcpSend.step TcpSend.new [.send 1 [10], .sendready, .close] = some s₂ ∧ s₂.AllResumed) ∧
    ∃ s₂ : FifoSend.State,
      run FifoSend.step FifoSend.new [.send 1 [10], .close] = some s₂ ∧ s₂.AllResumed :=
  ⟨⟨_, rfl, ((close_resumes_senders [.send 1 [10], .sendready] [] [] []).1 _ _ _ rfl rfl rfl rfl).mpr rfl⟩,
    ⟨_, rfl, ((close_resumes_senders [] [] [.send 1 [10]] []).2 _ _ _ rfl rfl rfl rfl).mpr rfl⟩⟩

/-- A sender in progress stays suspended when a tcp connection is closed, and a queued
one when a fifo connection is closed. -/
theorem close_leaves_senders_parked :
    (∃ s : TcpSend.State, run TcpSend.step TcpSend.new [.send 1 [10], .close] = some s ∧
      s.inProgress = [1] ∧ ¬ s.AllResumed) ∧
    ∃ s : FifoSend.State, run FifoSend.step FifoSend.new [.send 1 [10], .send 2 [20], .close] = some s ∧
      s.senderQueue = [(2, [20])] ∧ ¬ s.AllResumed := by
  constructor
  · refine ⟨_, rfl, rfl, ?_⟩
    rintro ⟨hnone, -⟩
    exact absurd hnone (by decide)
  · refine ⟨_, rfl, rfl, ?_⟩
    rintro ⟨-, hempty, -⟩
    exact absurd hempty (by decide)

end LuaFan
