/-
# Emptying the output queue of a fifo (`modules/fan/connector/fifo.lua`)

`send` cuts a message into pieces, and each `_onsendready` writes the first of them or a
part of it.  `luafan_fifo_send` answers 0 for a piece without bytes, which then stays where
it is.

* `fifo_send_drains`: whatever the writes take, as long as each takes something, all messages
  get out and their senders go on, **exactly if** no message is empty and none is longer than
  a piece and a multiple of its size.
-/
import LuaFan.Connector.Send

namespace LuaFan

open Machine

section Frame

variable {P : Type} (hand : P → List UInt8 → P) (s : Sender P)

@[simp] theorem Sender.accepted_transmit (co : Co) (buf : List UInt8) :
    (s.transmit hand co buf).accepted = s.accepted := by
  unfold Sender.transmit
  split <;> rfl

@[simp] theorem Sender.writable_transmit (co : Co) (buf : List UInt8) :
    (s.transmit hand co buf).writable = s.writable := by
  unfold Sender.transmit
  split <;> rfl

/-- Nothing is taken on, and the connection stays as open as it is. -/
theorem Sender.finish_frame :
    (s.finish hand).accepted = s.accepted ∧ (s.finish hand).writable = s.writable := by
  unfold Sender.finish Sender.resumeQueued
  split
  · split
    · exact ⟨Sender.accepted_transmit hand _ _ _, Sender.writable_transmit hand _ _ _⟩
    · exact ⟨rfl, rfl⟩
  · exact ⟨rfl, rfl⟩

end Frame

namespace FifoSend

/-- How many bytes the write at a time takes of a piece: some, if there are any. -/
structure Progress (accept : ℕ → List UInt8 → ℤ) : Prop where
  nil : ∀ i, accept i [] = 0
  pos : ∀ i buf, buf ≠ [] → 1 ≤ accept i buf
  le : ∀ i buf, accept i buf ≤ buf.length

/-- The pipe can be written `n` times from time `i` on. -/
def drive (accept : ℕ → List UInt8 → ℤ) : ℕ → ℕ → State → Option State
  | _, 0, s => some s
  | i, n + 1, s =>
      (step s (.sendready (accept i (s.port.outputQueue.headD [])))).bind (drive accept (i + 1) n)

/-- The pieces of the message are as they should be. -/
structure Cut (buf : List UInt8) : Prop where
  nonempty : ∀ p ∈ pieces buf, p ≠ []
  length_le : ∀ p ∈ pieces buf, p.length ≤ maxLineSize
  flatten : (pieces buf).flatten = buf

/-- Everything gets out: after finitely many times nothing waits to be written, the bytes
written are those of the messages, and every sender has been resumed. -/
def Drains (s : State) : Prop :=
  ∀ accept, Progress accept → ∃ n s', drive accept 0 n s = some s' ∧ s'.port.outputQueue = [] ∧
    s'.port.wire = s.accepted.flatten ∧ s'.AllResumed

/-- No piece of the message is empty. -/
def Divides (buf : List UInt8) : Prop :=
  buf ≠ [] ∧ (maxLineSize < buf.length → ¬maxLineSize ∣ buf.length)

instance (buf : List UInt8) : Decidable (Divides buf) := inferInstanceAs (Decidable (_ ∧ _))

/-! ## Pieces -/

theorem length_le_of_mem_pieces {buf p : List UInt8} (h : p ∈ pieces buf) : p.length ≤ maxLineSize := by
  unfold pieces at h
  split at h
  · obtain ⟨i, -, rfl⟩ := List.mem_map.mp h
    exact List.length_take_le _ _
  · rename_i hle
    rw [List.mem_singleton.mp h]
    exact not_lt.mp hle

/-- **Exactly these messages are cut into pieces that are not empty.** -/
theorem cut_iff (buf : List UInt8) : Cut buf ↔ Divides buf := by
  have hsize : 0 < maxLineSize := by decide
  constructor
  · intro h
    refine ⟨?_, fun hlong hdvd => ?_⟩
    · rintro rfl
      exact h.nonempty [] (by decide) rfl
    · -- the last piece begins at the end of the message
      refine h.nonempty ((buf.drop (buf.length / maxLineSize * maxLineSize)).take maxLineSize) ?_ ?_
      · rw [pieces, if_pos hlong]
        exact List.mem_map.mpr ⟨_, by simp, rfl⟩
      · rw [Nat.div_mul_cancel hdvd, List.drop_length, List.take_nil]
  · rintro ⟨hne, hdvd⟩
    refine ⟨fun p hp => ?_, fun p hp => length_le_of_mem_pieces hp, flatten_pieces buf⟩
    unfold pieces at hp
    split at hp
    · rename_i hlong
      obtain ⟨i, hi, rfl⟩ := List.mem_map.mp hp
      have hlt : i * maxLineSize < buf.length := by
        have hle : i * maxLineSize ≤ buf.length / maxLineSize * maxLineSize :=
          Nat.mul_le_mul_right _ (Nat.le_of_lt_succ (List.mem_range.mp hi))
        have hmul := Nat.div_mul_le_self buf.length maxLineSize
        have hnot : buf.length / maxLineSize * maxLineSize ≠ buf.length := fun heq =>
          hdvd hlong ⟨_, by rw [Nat.mul_comm]; exact heq.symm⟩
        omega
      intro hnil
      have hlen := congrArg List.length hnil
      simp only [List.length_take, List.length_drop, List.length_nil] at hlen
      omega
    · rwa [List.mem_singleton.mp hp]

/-! ## What is waiting -/

/-- No piece that waits to be written is empty, and no message that waits is cut into empty
pieces. -/
structure Moving (s : State) : Prop where
  queued : ∀ p ∈ s.port.outputQueue, p ≠ []
  waiting : ∀ w ∈ s.senderQueue, Divides w.2

section Moving

variable {s : State}

/-- A message is handed over. -/
theorem Moving.transmit (h : Moving s) {buf : List UInt8} (hbuf : Divides buf) (co : Co) :
    Moving (s.transmit hand co buf) := by
  have hcut := (cut_iff buf).mpr hbuf
  have hqueued : ∀ p ∈ s.port.outputQueue ++ pieces buf, p ≠ [] := fun p hp =>
    (List.mem_append.mp hp).elim (h.queued p) (hcut.nonempty p)
  unfold Sender.transmit
  split
  · exact ⟨hqueued, h.waiting⟩
  · exact ⟨hqueued, h.waiting⟩

theorem Moving.finish (h : Moving s) : Moving (s.finish hand) := by
  unfold Sender.finish
  split
  · have hs : Moving { s with sendRunning := none } := ⟨h.queued, h.waiting⟩
    have hresumed : Moving (Sender.resumeQueued hand { s with sendRunning := none }) := by
      unfold Sender.resumeQueued
      split
      · rename_i w rest hq
        have hw := List.forall_mem_cons.mp (hq ▸ hs.waiting : ∀ v ∈ w :: rest, Divides v.2)
        have hrest : Moving { s with sendRunning := none, senderQueue := rest } := ⟨h.queued, hw.2⟩
        exact hrest.transmit hw.1 w.1
      · exact hs
    exact ⟨hresumed.queued, hresumed.waiting⟩
  · exact h

theorem Moving.wrote (h : Moving s) {buf : List UInt8} {rest : List (List UInt8)}
    (hq : s.port.outputQueue = buf :: rest) {sent : ℤ} :
    Moving { s with port := wrote s.port buf rest sent } := by
  have hqueued := h.queued
  rw [hq, List.forall_mem_cons] at hqueued
  refine ⟨?_, h.waiting⟩
  show ∀ p ∈ (FifoSend.wrote s.port buf rest sent).outputQueue, p ≠ []
  unfold FifoSend.wrote
  split
  · simp only
    split
    · rename_i hpos hlt
      refine List.forall_mem_cons.mpr ⟨fun hnil => ?_, hqueued.2⟩
      have hlen := congrArg List.length hnil
      simp only [List.length_drop, List.length_nil] at hlen
      omega
    · exact hqueued.2
  · exact h.queued

/-- The messages taken on only grow, so what is waiting now was waiting before or is new. -/
theorem step_moving {s' : State} {e : Event} (hstep : step s e = some s') :
    (∃ more, s'.accepted = s.accepted ++ more) ∧
      (Moving s → (∀ buf ∈ s'.accepted, Divides buf) → Moving s') := by
  cases e with
  | send co buf =>
      simp only [step] at hstep
      split at hstep
      · cases hstep
      · split at hstep
        · cases hstep
          exact ⟨⟨[], by simp⟩, fun h _ => h⟩
        · cases hstep
          unfold Sender.send
          split
          · refine ⟨⟨[buf], rfl⟩, fun h hall => ⟨h.queued, fun w hw => ?_⟩⟩
            rcases List.mem_append.mp hw with hw | hw
            · exact h.waiting w hw
            · rw [List.mem_singleton.mp hw]
              exact hall buf (by simp)
          · have hs : ∀ all, Moving s → Moving { s with accepted := all } := fun _ h =>
              ⟨h.queued, h.waiting⟩
            refine ⟨⟨[buf], Sender.accepted_transmit hand _ co buf⟩, fun h hall => ?_⟩
            rw [Sender.accepted_transmit] at hall
            exact (hs _ h).transmit (hall buf (by simp)) co
  | sendready sent =>
      simp only [step] at hstep
      split at hstep
      · split at hstep
        · rename_i buf rest hq
          split at hstep
          · cases hstep
            exact ⟨⟨[], by simp⟩, fun h _ => h.wrote hq⟩
          · cases hstep
        · cases hstep
          exact ⟨⟨[], by simp [Sender.finish_frame]⟩, fun h _ => h.finish⟩
      · cases hstep
  | close =>
      cases hstep
      unfold close
      split
      · exact ⟨⟨[], by simp [Sender.shut]⟩, fun h _ => ⟨h.queued, h.waiting⟩⟩
      · exact ⟨⟨[], by simp [Sender.shut]⟩, fun h _ => ⟨h.queued, h.waiting⟩⟩

end Moving

/-! ## Progress -/

/-- A connection that is open, with nothing in the way. -/
structure Ready (s : State) : Prop where
  serial : s.Serial Pipe.bytes
  writable : s.writable = true
  moving : Moving s

/-- What is left to be done: bytes to be written, and senders to be resumed. -/
def pending (s : State) : ℕ :=
  s.port.outputQueue.flatten.length + (s.senderQueue.map Prod.snd).flatten.length + s.senderQueue.length +
    if s.sendRunning.isSome then 1 else 0

section Driving

variable {s : State}

/-- The first sender of the queue begins, and the one in progress is resumed. -/
theorem Ready.pending_finish (h : Ready s) (hq : s.port.outputQueue = []) (hrun : s.sendRunning ≠ none) :
    pending (s.finish hand) < pending s := by
  obtain ⟨co, hco⟩ := Option.ne_none_iff_exists'.mp hrun
  unfold Sender.finish
  simp only [hco, Sender.resumeQueued]
  cases hqueue : s.senderQueue with
  | nil => simp [pending, hq, hqueue, hco]
  | cons w rest =>
      simp only [Sender.transmit, h.serial.blocking, if_true, pending, hand, hq, hqueue, hco, List.nil_append,
        flatten_pieces, List.map_cons, List.flatten_cons, List.length_append, List.length_cons,
        List.flatten_nil, List.length_nil, Option.isSome_some]
      omega

/-- **Each time the pipe can be written, something gets done**, until all is done. -/
theorem Ready.sendready (h : Ready s) {accept : ℕ → List UInt8 → ℤ} (haccept : Progress accept) (i : ℕ)
    (hleft : s.port.outputQueue ≠ [] ∨ s.sendRunning ≠ none) :
    ∃ s', step s (.sendready (accept i (s.port.outputQueue.headD []))) = some s' ∧ Ready s' ∧
      s'.accepted = s.accepted ∧ pending s' < pending s := by
  cases hq : s.port.outputQueue with
  | nil =>
      have hstep : step s (.sendready (accept i (([] : List (List UInt8)).headD []))) = some (s.finish hand) := by
        simp only [step, h.writable, hq, if_true]
      have hframe := Sender.finish_frame hand s
      exact ⟨_, hstep, ⟨step_serial h.serial hstep, hframe.2.trans h.writable, h.moving.finish⟩, hframe.1,
        h.pending_finish hq (hleft.resolve_left fun hne => hne hq)⟩
  | cons buf rest =>
      have hne : buf ≠ [] := h.moving.queued buf (by rw [hq]; exact List.mem_cons_self)
      have hpos := haccept.pos i buf hne
      have hle := haccept.le i buf
      have hstep : step s (.sendready (accept i ((buf :: rest).headD [])))
          = some { s with port := wrote s.port buf rest (accept i buf) } := by
        simp only [step, h.writable, hq, if_true, List.headD_cons, hle]
      refine ⟨_, hstep, ⟨step_serial h.serial hstep, h.writable, h.moving.wrote hq⟩, rfl, ?_⟩
      have hbytes := congrArg List.length (bytes_wrote hq hle)
      have hwire : (wrote s.port buf rest (accept i buf)).wire.length
          = s.port.wire.length + (accept i buf).toNat := by
        rw [FifoSend.wrote, if_pos (by omega)]
        simp only [List.length_append, List.length_take]
        omega
      simp only [Pipe.bytes, List.length_append] at hbytes
      simp only [pending]
      omega

/-- **All gets done.** -/
theorem Ready.drains {accept : ℕ → List UInt8 → ℤ} (haccept : Progress accept) {s : State} (h : Ready s)
    (i : ℕ) : ∃ n s', drive accept i n s = some s' ∧ Ready s' ∧ s'.accepted = s.accepted ∧
      s'.port.outputQueue = [] ∧ s'.sendRunning = none := by
  induction hk : pending s using Nat.strong_induction_on generalizing s i with
  | _ k ih =>
      subst hk
      by_cases hleft : s.port.outputQueue ≠ [] ∨ s.sendRunning ≠ none
      · obtain ⟨s₁, hstep, h₁, haccepted, hlt⟩ := h.sendready haccept i hleft
        obtain ⟨n, s', hdrive, h', haccepted', hdone⟩ := ih (pending s₁) hlt h₁ (i + 1) rfl
        refine ⟨n + 1, s', ?_, h', haccepted'.trans haccepted, hdone⟩
        rw [drive, hstep]
        exact hdrive
      · rw [not_or, not_not, not_not] at hleft
        exact ⟨0, s, rfl, h, rfl, hleft⟩

/-- With nothing left to be done, the bytes written are those of the messages. -/
theorem Ready.done (h : Ready s) (hq : s.port.outputQueue = []) (hrun : s.sendRunning = none) :
    s.port.wire = s.accepted.flatten ∧ s.AllResumed := by
  have hqueue := h.serial.idle h.writable hrun
  have hbytes := h.serial.bytes
  have hprogress := h.serial.progress
  simp only [Pipe.bytes, hq, hqueue, List.map_nil, List.flatten_nil, List.append_nil] at hbytes
  rw [hrun] at hprogress
  exact ⟨hbytes.symm, hrun, hqueue, hprogress⟩

end Driving

/-- The messages of an open connection are on their way, if none of them is cut into empty
pieces. -/
theorem run_moving {es : List Event} {s : State} (hrun : run step new es = some s)
    (hall : ∀ buf ∈ s.accepted, Divides buf) : Moving s := by
  refine run_keeps (P := fun s : State => (∀ buf ∈ s.accepted, Divides buf) → Moving s) ?_ ?_ hrun hall
  · intro s e s' h hstep hall
    obtain ⟨⟨more, haccepted⟩, hmoving⟩ := step_moving hstep
    refine hmoving (h fun buf hbuf => hall buf ?_) hall
    rw [haccepted]
    exact List.mem_append_left _ hbuf
  · exact fun _ => ⟨by simp [new, Sender.new], by simp [new, Sender.new]⟩

end FifoSend

open FifoSend

/-- **Sending through a fifo**: for every run of a connection that is still open, all its
messages are cut as they should be and all of them get out, however the writes go, exactly if
none is empty and none longer than a piece is a multiple of its size. -/
theorem fifo_send_drains {es : List FifoSend.Event} {s : FifoSend.State}
    (hrun : run FifoSend.step FifoSend.new es = some s) (hopen : s.writable = true) :
    (∀ buf ∈ s.accepted, Cut buf) ∧ Drains s ↔ ∀ buf ∈ s.accepted, Divides buf := by
  constructor
  · exact fun h buf hbuf => (cut_iff buf).mp (h.1 buf hbuf)
  · intro hall
    refine ⟨fun buf hbuf => (cut_iff buf).mpr (hall buf hbuf), fun accept haccept => ?_⟩
    have hready : Ready s := ⟨run_serial hrun, hopen, run_moving hrun hall⟩
    obtain ⟨n, s', hdrive, hready', haccepted, hq, hrun'⟩ := hready.drains haccept 0
    obtain ⟨hwire, hresumed⟩ := hready'.done hq hrun'
    exact ⟨n, s', hdrive, hq, hwire.trans (congrArg List.flatten haccepted), hresumed⟩

theorem fifo_send_drains_two : ∃ s : FifoSend.State,
    run FifoSend.step FifoSend.new [.send 1 [10, 11], .send 2 [20]] = some s ∧ s.writable = true ∧
      Drains s := by
  have hrun : run FifoSend.step FifoSend.new [.send 1 [10, 11], .send 2 [20]] = some _ := rfl
  exact ⟨_, hrun, rfl, ((fifo_send_drains hrun rfl).mpr (by decide)).2⟩

/-- A message of two full pieces is cut into these and an empty one. -/
theorem pieces_of_length {buf : List UInt8} (h : buf.length = 16384) :
    pieces buf = [buf.take 8192, buf.drop 8192, []] := by
  have hrange : List.range (16384 / 8192 + 1) = [0, 1, 2] := by decide
  have hlast : buf.drop (2 * 8192) = [] := List.drop_eq_nil_iff.mpr (by omega)
  have hmid : (buf.drop (1 * 8192)).take 8192 = buf.drop 8192 :=
    List.take_of_length_le (by rw [List.length_drop]; omega)
  unfold pieces maxLineSize
  rw [if_pos (by omega), h, hrange, List.map_cons, List.map_cons, List.map_cons, List.map_nil, hlast, hmid]
  rfl

/-- It leaves the empty piece behind: the pipe can be written again and again, and the sender
is never resumed. -/
theorem stuck_of_length {buf : List UInt8} (h : buf.length = 16384) :
    ∃ s : FifoSend.State,
      run FifoSend.step FifoSend.new [.send 1 buf, .sendready 8192, .sendready 8192] = some s ∧
      s.port.outputQueue = [[]] ∧ s.port.wire = buf ∧ s.inProgress = [1] ∧
      ∀ n, run FifoSend.step s (List.replicate n (.sendready 0)) = some s := by
  have hsend : FifoSend.step FifoSend.new (.send 1 buf)
      = some ⟨false, true, true, some 1, [], ⟨[buf.take 8192, buf.drop 8192, []], []⟩, [1], [buf]⟩ := by
    rw [← pieces_of_length h]
    rfl
  refine ⟨⟨false, true, true, some 1, [], ⟨[[]], buf⟩, [1], [buf]⟩, ?_, rfl, rfl, rfl, fun n => ?_⟩
  · rw [Machine.run, hsend]
    have htake : (buf.take 8192).length = 8192 := by rw [List.length_take]; omega
    have hdrop : (buf.drop 8192).length = 8192 := by rw [List.length_drop]; omega
    have hwire : (buf.take 8192).take 8192 ++ (buf.drop 8192).take 8192 = buf := by
      rw [List.take_of_length_le htake.le, List.take_of_length_le hdrop.le, List.take_append_drop]
    simpa [Machine.run, FifoSend.step, FifoSend.wrote, htake, hdrop] using hwire
  · induction n with
    | zero => rfl
    | succ n ih => exact ih

/-- So 16384 bytes are written, and their sender waits for ever. -/
theorem fifo_send_stuck : ∃ s : FifoSend.State,
    run FifoSend.step FifoSend.new [.send 1 (List.replicate 16384 7), .sendready 8192, .sendready 8192]
        = some s ∧
      s.port.outputQueue = [[]] ∧ s.port.wire = List.replicate 16384 7 ∧ s.inProgress = [1] ∧
      ∀ n, run FifoSend.step s (List.replicate n (.sendready 0)) = some s :=
  stuck_of_length List.length_replicate

end LuaFan
