/-
# Receiving and the disconnect (`modules/fan/connector/tcp.lua`, `fifo.lua`, `popen.lua`)

The receiving side of the three connectors, with the disconnect.  `receive(expect)`
returns the stream when `expect` bytes are buffered, parks its coroutine otherwise, and
returns nil once the connector is disconnected.

`receive_delivers`: as long as no `receive` parks while another one is parked, data is
delivered before the disconnect is reported **if and only if no `receive` is called on
a disconnected connector that still has enough bytes**; `receive` looks at the flag
before it looks at the stream.
-/
import LuaFan.Lib.Machine
import LuaFan.Lua.Value

namespace LuaFan

open Machine

/-! ## The code -/

inductive Connector where
  | tcp
  | fifo
  | popen
  deriving DecidableEq

/-- What a `receive(expect)` returned, and what was buffered at that moment. -/
structure Reception where
  co : Co
  expect : ℕ
  input : Bool
  available : ℕ
  disconnected : Bool
  deriving DecidableEq

/-- The fields that the receiving side uses, with the unread bytes of the stream.
`suspended` are the coroutines parked in `receive`, with what they expect, and `results`
what `receive` has returned, the newest first. -/
structure Receiver where
  buffered : List UInt8
  receiving : Option Co
  receivingExpect : ℕ
  disconnected : Bool
  suspended : List (Co × ℕ)
  results : List Reception

namespace Receiver

/-- A new connector. -/
def new : Receiver := ⟨[], none, 0, false, [], []⟩

/-- A `receive` returns: the stream if `input`, nil otherwise. -/
def returns (r : Receiver) (co : Co) (expect : ℕ) (input : Bool) : Receiver :=
  { r with
    results := ⟨co, expect, input, r.buffered.length, r.disconnected⟩ :: r.results }

/-- `apt_mt:receive(expect)`, up to its `coroutine.yield`. -/
def receive (r : Receiver) (co : Co) (expect : ℕ) : Receiver :=
  if r.disconnected then r.returns co expect false
  else if expect ≤ r.buffered.length then r.returns co expect true
  else
    { r with
      receivingExpect := expect
      receiving := some co
      suspended := (co, expect) :: r.suspended }

/-- The parked coroutine is resumed; what it expected is known to it. -/
def resume (r : Receiver) (co : Co) (input : Bool) : Receiver :=
  match r.suspended.find? fun w => w.1 == co with
  | some w => { r with suspended := r.suspended.erase w }.returns co w.2 input
  | none => r

/-- `onread`: the chunk is added to the stream, and `_onread` wakes the receiver when its
expectation is met. -/
def onread (r : Receiver) (buf : List UInt8) : Receiver :=
  let r := { r with buffered := r.buffered ++ buf }
  match r.receiving with
  | some co =>
      if r.receivingExpect ≤ r.buffered.length then
        { r with receiving := none, receivingExpect := 0 }.resume co true
      else r
  | none => r

/-- `close` of tcp and fifo, `_ondisconnected` of popen, which leaves
`receiving_expect`. -/
def disconnect (k : Connector) (r : Receiver) : Receiver :=
  let r := { r with disconnected := true }
  match r.receiving with
  | some co =>
      { r with
        receiving := none
        receivingExpect := if k = Connector.popen then r.receivingExpect else 0 }.resume co false
  | none => r

/-- A chunk arrives, the peer disconnects, a coroutine calls `receive` (with 1 for a
missing argument), or user code takes bytes from the stream. -/
inductive Event where
  | onread (buf : List UInt8)
  | disconnect
  | receive (co : Co) (expect : Option ℕ)
  | take (n : ℕ)

def step (k : Connector) (r : Receiver) : Event → Option Receiver
  | .onread buf => some (r.onread buf)
  | .disconnect => some (r.disconnect k)
  | .receive co expect =>
      if r.suspended.any fun w => w.1 == co then none else some (r.receive co (expect.getD 1))
  | .take n =>
      if n ≤ r.buffered.length then some { r with buffered := r.buffered.drop n } else none

/-! ## What is delivered -/

/-- A result as it should be: the stream when enough is buffered, and nil only when the
peer has disconnected and too little is. -/
def Fair (x : Reception) : Prop :=
  (x.expect ≤ x.available → x.input = true) ∧
    (x.input = false → x.disconnected = true ∧ x.available < x.expect)

/-- Everything was delivered that could be: every result is fair, and a coroutine is
parked only while too little is buffered and the peer is there. -/
def Delivers (r : Receiver) : Prop :=
  (∀ x ∈ r.results, Fair x) ∧
    ∀ w ∈ r.suspended, r.buffered.length < w.2 ∧ r.disconnected = false

/-- No `receive` parks while another one is parked. -/
def Alone (r : Receiver) : Event → Prop
  | .receive _ expect =>
      r.receiving ≠ none → r.disconnected = true ∨ expect.getD 1 ≤ r.buffered.length
  | _ => True

/-- No `receive` is called on a disconnected connector that has enough bytes. -/
def InTime (r : Receiver) : Event → Prop
  | .receive _ expect => r.disconnected = true → r.buffered.length < expect.getD 1
  | _ => True

instance (r : Receiver) (e : Event) : Decidable (r.Alone e) := by
  unfold Alone
  split <;> infer_instance

instance (r : Receiver) (e : Event) : Decidable (r.InTime e) := by
  unfold InTime
  split <;> infer_instance

/-- The parked coroutine is the one in `receiving`, and it has reason to wait. -/
structure Parked (r : Receiver) : Prop where
  suspended : r.suspended = r.receiving.toList.map fun co => (co, r.receivingExpect)
  waits : r.receiving ≠ none → r.disconnected = false ∧ r.buffered.length < r.receivingExpect

variable {k : Connector} {r r' : Receiver}

/-- Resuming the parked coroutine. -/
theorem Parked.resume_eq (h : r.Parked) {co : Co} (hco : r.receiving = some co) (r₁ : Receiver)
    (hsus : r₁.suspended = r.suspended) (input : Bool) :
    r₁.resume co input = { r₁ with suspended := [] }.returns co r.receivingExpect input := by
  have hone : r.suspended = [(co, r.receivingExpect)] := by rw [h.suspended, hco]; rfl
  rw [resume, hsus, hone]
  simp

/-- The ways of `onread`. -/
theorem onread_cases (h : r.Parked) (buf : List UInt8) :
    r.onread buf = { r with buffered := r.buffered ++ buf } ∧
        (r.receiving ≠ none → (r.buffered ++ buf).length < r.receivingExpect) ∨
      ∃ co, r.receiving = some co ∧ r.receivingExpect ≤ (r.buffered ++ buf).length ∧
        r.onread buf = returns ⟨r.buffered ++ buf, none, 0, r.disconnected, [], r.results⟩ co
          r.receivingExpect true := by
  cases hco : r.receiving with
  | none =>
      left
      simp [onread, hco]
  | some co =>
      by_cases hle : r.receivingExpect ≤ (r.buffered ++ buf).length
      · refine Or.inr ⟨co, rfl, hle, ?_⟩
        simp only [onread, hco, if_pos hle]
        exact h.resume_eq hco
          ⟨r.buffered ++ buf, none, 0, r.disconnected, r.suspended, r.results⟩ rfl true
      · refine Or.inl ⟨?_, fun _ => by omega⟩
        simp only [onread, hco, if_neg hle]

/-- The ways of `disconnect`. -/
theorem disconnect_cases (h : r.Parked) :
    (r.receiving = none ∧ r.disconnect k = { r with disconnected := true }) ∨
      ∃ co e, r.receiving = some co ∧
        r.disconnect k = returns ⟨r.buffered, none, e, true, [], r.results⟩ co
          r.receivingExpect false := by
  cases hco : r.receiving with
  | none =>
      left
      simp [disconnect, hco]
  | some co =>
      refine Or.inr ⟨co, if k = Connector.popen then r.receivingExpect else 0, rfl, ?_⟩
      simp only [disconnect, hco]
      exact h.resume_eq hco ⟨r.buffered, none, _, true, r.suspended, r.results⟩ rfl false

/-- The ways of `receive`. -/
theorem receive_cases (r : Receiver) (co : Co) (expect : ℕ) :
    (r.disconnected = true ∧ r.receive co expect = r.returns co expect false) ∨
      (r.disconnected = false ∧ expect ≤ r.buffered.length ∧
        r.receive co expect = r.returns co expect true) ∨
      (r.disconnected = false ∧ r.buffered.length < expect ∧
        r.receive co expect = { r with
          receivingExpect := expect
          receiving := some co
          suspended := (co, expect) :: r.suspended }) := by
  unfold receive
  cases hd : r.disconnected with
  | true => simp
  | false =>
      by_cases hle : expect ≤ r.buffered.length
      · simp [hle]
      · right
        right
        simp [hle]
        omega

theorem step_parked {e : Event} (h : r.Parked) (hok : r.Alone e) (hstep : step k r e = some r') :
    r'.Parked := by
  cases e with
  | onread buf =>
      cases hstep
      rcases onread_cases h buf with ⟨heq, hlt⟩ | ⟨co, -, -, heq⟩
      · rw [heq]
        exact ⟨h.suspended, fun hne => ⟨(h.waits hne).1, hlt hne⟩⟩
      · rw [heq]
        exact ⟨rfl, fun hne => absurd rfl hne⟩
  | disconnect =>
      cases hstep
      rcases disconnect_cases (k := k) h with ⟨hnone, heq⟩ | ⟨co, e, -, heq⟩
      · rw [heq]
        exact ⟨h.suspended, fun hne => absurd hnone hne⟩
      · rw [heq]
        exact ⟨rfl, fun hne => absurd rfl hne⟩
  | receive co expect =>
      simp only [step] at hstep
      split at hstep
      · cases hstep
      · cases hstep
        rcases receive_cases r co (expect.getD 1) with ⟨-, heq⟩ | ⟨-, -, heq⟩ | ⟨hd, hlt, heq⟩
        · rw [heq]
          exact ⟨h.suspended, h.waits⟩
        · rw [heq]
          exact ⟨h.suspended, h.waits⟩
        · -- it parks, so nobody else was parked
          have hnone : r.receiving = none := by
            by_contra hne
            rcases hok hne with hd' | hle
            · rw [hd] at hd'
              cases hd'
            · omega
          rw [heq]
          refine ⟨?_, fun _ => ⟨hd, hlt⟩⟩
          rw [h.suspended, hnone]
          rfl
  | take n =>
      simp only [step] at hstep
      split at hstep
      · cases hstep
        refine ⟨h.suspended, fun hne => ⟨(h.waits hne).1, ?_⟩⟩
        have := (h.waits hne).2
        simp only [List.length_drop]
        omega
      · cases hstep

/-- A step keeps the results, adds at most one, and the new one is fair unless it comes
from a late `receive`. -/
theorem step_results {e : Event} (h : r.Parked) (hstep : step k r e = some r') :
    (r'.results = r.results ∧ r.InTime e) ∨
      ∃ x, r'.results = x :: r.results ∧ (Fair x ↔ r.InTime e) := by
  cases e with
  | onread buf =>
      cases hstep
      rcases onread_cases h buf with ⟨heq, -⟩ | ⟨co, -, hle, heq⟩
      · exact Or.inl ⟨by rw [heq], trivial⟩
      · rw [heq]
        exact Or.inr ⟨_, rfl, fun _ => trivial, fun _ => ⟨fun _ => rfl, fun h => nomatch h⟩⟩
  | disconnect =>
      cases hstep
      rcases disconnect_cases (k := k) h with ⟨-, heq⟩ | ⟨co, e, hco, heq⟩
      · exact Or.inl ⟨by rw [heq], trivial⟩
      · rw [heq]
        have hlt := (h.waits (by rw [hco]; simp)).2
        refine Or.inr ⟨_, rfl, fun _ => trivial, fun _ => ⟨fun hle => ?_, fun _ => ⟨rfl, hlt⟩⟩⟩
        simp only at hle
        omega
  | receive co expect =>
      simp only [step] at hstep
      split at hstep
      · cases hstep
      · cases hstep
        rcases receive_cases r co (expect.getD 1) with ⟨hd, heq⟩ | ⟨hd, hle, heq⟩ | ⟨hd, -, heq⟩
        · rw [heq]
          refine Or.inr ⟨_, rfl, ?_⟩
          constructor
          · intro hfair _
            exact (hfair.2 rfl).2
          · intro hin
            have hlt := hin hd
            refine ⟨fun hle => ?_, fun _ => ⟨hd, hlt⟩⟩
            simp only at hle
            omega
        · rw [heq]
          refine Or.inr ⟨_, rfl, fun _ hd' => ?_, fun _ => ⟨fun _ => rfl, fun h => nomatch h⟩⟩
          rw [hd] at hd'
          cases hd'
        · refine Or.inl ⟨by rw [heq], fun hd' => ?_⟩
          rw [hd] at hd'
          cases hd'
  | take n =>
      simp only [step] at hstep
      split at hstep
      · cases hstep
        exact Or.inl ⟨rfl, trivial⟩
      · cases hstep

/-- All results stay fair in a step exactly if it is no late `receive`. -/
theorem step_fair {e : Event} (h : r.Parked) (hstep : step k r e = some r') :
    (∀ x ∈ r'.results, Fair x) ↔ (∀ x ∈ r.results, Fair x) ∧ r.InTime e := by
  rcases step_results h hstep with ⟨heq, hin⟩ | ⟨x, heq, hfair⟩
  · rw [heq]
    exact (and_iff_left hin).symm
  · rw [heq, List.forall_mem_cons, hfair, and_comm]

end Receiver

/-- **Data before the disconnect**: for the three connectors, as long as no `receive`
parks while another one is parked, every `receive(expect)` returns the stream when
enough is buffered, and nil only after the disconnect with too little buffered, if and
only if none is called on a disconnected connector that has enough. -/
theorem receive_delivers (k : Connector) {es : List Receiver.Event} {r : Receiver}
    (halone : Meets (Receiver.step k) Receiver.Alone Receiver.new es)
    (hrun : run (Receiver.step k) Receiver.new es = some r) :
    r.Delivers ↔ Meets (Receiver.step k) Receiver.InTime Receiver.new es := by
  have hnew : Receiver.new.Parked := ⟨rfl, fun hne => absurd rfl hne⟩
  obtain ⟨hparked, hiff⟩ := run_iff (Q := fun r : Receiver => ∀ x ∈ r.results, Receiver.Fair x)
    (fun r e r' h hok hstep => ⟨Receiver.step_parked h hok hstep, Receiver.step_fair h hstep⟩)
    hnew halone hrun
  have hwait : ∀ w ∈ r.suspended, r.buffered.length < w.2 ∧ r.disconnected = false := by
    intro w hw
    rw [hparked.suspended] at hw
    obtain ⟨co, hco, rfl⟩ := List.mem_map.mp hw
    have hne : r.receiving ≠ none := by
      intro hnone
      rw [hnone] at hco
      cases hco
    exact ⟨(hparked.waits hne).2, (hparked.waits hne).1⟩
  rw [Receiver.Delivers]
  constructor
  · rintro ⟨hfair, -⟩
    exact (hiff.mp hfair).2
  · intro hin
    exact ⟨hiff.mpr ⟨fun x hx => (nomatch hx), hin⟩, hwait⟩

/-- A parked receiver gets its two bytes, and after the disconnect another one gets
nil. -/
def parkedEvents : List Receiver.Event :=
  [.receive 1 (some 2), .onread [10], .onread [11], .take 2, .disconnect, .receive 1 none]

theorem receive_delivers_parked : ∃ r : Receiver,
    run (Receiver.step .popen) Receiver.new parkedEvents = some r ∧ r.results.length = 2 ∧
      r.Delivers := by
  have halone : Meets (Receiver.step .popen) Receiver.Alone Receiver.new parkedEvents := by decide
  exact ⟨_, rfl, rfl, (receive_delivers .popen halone rfl).mpr (by decide)⟩

/-- Two bytes arrive and then the disconnect, while nobody receives. -/
def unreadEvents : List Receiver.Event := [.onread [10, 11], .disconnect, .receive 1 none]

theorem unread_lost (k : Connector) : ∃ r : Receiver,
    run (Receiver.step k) Receiver.new unreadEvents = some r ∧
      r.results = [⟨1, 1, false, 2, true⟩] ∧ ¬ r.Delivers := by
  refine ⟨_, rfl, rfl, ?_⟩
  rintro ⟨hfair, -⟩
  have hok := (hfair ⟨1, 1, false, 2, true⟩ (List.mem_singleton.mpr rfl)).1 (by decide)
  exact absurd hok (by decide)

/-- The next `receive` returns nil, on each connector. -/
theorem receive_loses_buffered_bytes :
    (∃ r : Receiver, run (Receiver.step .tcp) Receiver.new unreadEvents = some r ∧
      r.results = [⟨1, 1, false, 2, true⟩] ∧ ¬ r.Delivers) ∧
    (∃ r : Receiver, run (Receiver.step .fifo) Receiver.new unreadEvents = some r ∧
      r.results = [⟨1, 1, false, 2, true⟩] ∧ ¬ r.Delivers) ∧
    (∃ r : Receiver, run (Receiver.step .popen) Receiver.new unreadEvents = some r ∧
      r.results = [⟨1, 1, false, 2, true⟩] ∧ ¬ r.Delivers) :=
  ⟨unread_lost .tcp, unread_lost .fifo, unread_lost .popen⟩

end LuaFan
