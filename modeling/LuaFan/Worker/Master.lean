/-
# The master of the workers (`modules/fan/worker/init.lua`)

A call of the master first waits until all slaves have connected (`wait_all_slaves`).  Then it
takes the slave with the fewest jobs (`findbest`), or waits until `_assign` hands it one; it
sends its task under a key of the slave's own count and waits in `task_map` for the reply.
The receive loop of each slave hands out the replies and tells the load balance (`telldone`).

Every place where a coroutine is resumed is a state of its own: while the loop has
resumed a caller and has not come back to `telldone` (`telling`), or `onaccept` has added a
slave and not yet looked whether it is the last one (`accepting`), other callers may call.
The slaves are connected through fifos: a master with another URL has no slaves to wait for,
and never binds.

* `load_balance_invariant`: **the job counts are those of the unanswered calls, as long as no
  call fails** and no slave that has gone is the least loaded one when a call is made.
-/
import LuaFan.Lib.Machine
import LuaFan.Objectbuf.Decode

namespace LuaFan

open Machine

/-! ## The code -/

/-- What `task_map` has under a key: the coroutine that waits for the reply, or a reply
that came before the caller's `send` returned. -/
inductive Task where
  | waiting (co : Co)
  | reply (values : List LuaValue)

/-- The fields of `apt` that the master uses.  `disconnected` is the connector's, and
`looping` tells that the receive loop has not ended or died. -/
structure Slave where
  jobcount : ℤ
  taskIndex : ℕ
  taskMap : ℕ → Option Task
  disconnected : Bool
  looping : Bool

/-- The slave that `onaccept` sets up. -/
def Slave.accepted : Slave := ⟨0, 1, fun _ => none, false, true⟩

/-- A call that has a slave: its coroutine, the slave and the key of the task. -/
structure Call where
  co : Co
  slave : ℕ
  taskKey : ℕ
  deriving DecidableEq

/-- The limit of jobs and the number of processes (`#slave_pids`); whether the server is
bound, and `_wait_all_slaves_running`; the slaves `0, …, count - 1`; the callers that wait for
all slaves (`gathering`), or for one (`yielding`), the calls inside `slave:send` and the reply
whose caller has been resumed.  The last fields are histories: the calls made, those that got
a slave, those that have neither been answered nor failed, the slaves that were handed out and
whether they had gone, the replies that came, and what the calls returned. -/
structure Master where
  maxJobCount : ℕ
  slaveCount : ℕ
  bound : Bool
  waitingAll : Option Co
  accepting : Bool
  slaves : ℕ → Slave
  count : ℕ
  gathering : List Co
  yielding : List Co
  sending : List Call
  telling : Option Call
  called : List Co
  started : List Call
  unsettled : List Call
  handed : List (ℕ × Bool)
  replies : List (Call × List LuaValue)
  returned : List (Call × Option (List LuaValue))

namespace Master

/-- `new`. -/
def new (slaveCount maxJobCount : ℕ) : Master :=
  ⟨maxJobCount, slaveCount, false, none, false, fun _ => Slave.accepted, 0, [], [], [], none, [], [], [], [],
    [], []⟩

/-- A slave changes. -/
def setSlave (s : Master) (i : ℕ) (slave : Slave) : Master :=
  { s with slaves := Function.update s.slaves i slave }

/-- A call returns. -/
def finish (s : Master) (call : Call) (result : Option (List LuaValue)) : Master :=
  { s with returned := s.returned ++ [(call, result)] }

/-- A call has been answered, or has failed. -/
def settle (s : Master) (call : Call) : Master := { s with unsettled := s.unsettled.erase call }

/-- `slave:send` returns: it has failed, or the caller looks whether the reply is there. -/
def sent (s : Master) (call : Call) (ok : Bool) : Master :=
  let slave := s.slaves call.slave
  let s := { s with sending := s.sending.erase call }
  if ok then
    match slave.taskMap call.taskKey with
    | some (.reply values) =>
        (s.setSlave call.slave
          { slave with taskMap := Function.update slave.taskMap call.taskKey none }).finish call
          (some values)
    | _ =>
        s.setSlave call.slave
          { slave with
            taskMap := Function.update slave.taskMap call.taskKey (some (.waiting call.co)) }
  else (s.settle call).finish call none

/-- The coroutine has got the slave: the end of `findbest` and the call up to `slave:send`. -/
def enlist (s : Master) (co : Co) (i : ℕ) : Master :=
  let slave := s.slaves i
  let call : Call := ⟨co, i, slave.taskIndex⟩
  { s.setSlave i { slave with jobcount := slave.jobcount + 1, taskIndex := slave.taskIndex + 1 } with
    sending := s.sending ++ [call]
    started := s.started ++ [call]
    unsettled := s.unsettled ++ [call]
    handed := s.handed ++ [(i, slave.disconnected)] }

/-- And up to where `slave:send` yields: a connector that is disconnected sends nothing, and
does not yield. -/
def startCall (s : Master) (co : Co) (i : ℕ) : Master :=
  if (s.slaves i).disconnected then (s.enlist co i).sent ⟨co, i, (s.slaves i).taskIndex⟩ false
  else s.enlist co i

/-- `_assign`. -/
def assign (s : Master) (i : ℕ) : Master :=
  match s.yielding with
  | co :: rest => { s with yielding := rest }.startCall co i
  | [] => s

/-- `add`, with what `onaccept` does before it. -/
def add (s : Master) : Master :=
  { s.setSlave s.count Slave.accepted with count := s.count + 1, accepting := true }.assign s.count

/-- After `table.sort` a slave can be the first if no other one has fewer jobs. -/
def IsBest (s : Master) (best : ℕ) : Prop :=
  best < s.count ∧ ∀ i < s.count, (s.slaves best).jobcount ≤ (s.slaves i).jobcount

instance (s : Master) (best : ℕ) : Decidable (s.IsBest best) := inferInstanceAs (Decidable (_ ∧ _))

/-- `findbest` up to where the caller waits, or has the slave. -/
def findbest (s : Master) (co : Co) (best : ℕ) : Option Master :=
  if s.count = 0 then some { s with yielding := s.yielding ++ [co] }
  else if s.IsBest best then
    if (s.maxJobCount : ℤ) ≤ (s.slaves best).jobcount then
      some { s with yielding := s.yielding ++ [co] }
    else some (s.startCall co best)
  else none

/-- `wait_all_slaves`, when slaves are missing: the server is bound, and the caller waits. -/
def waitAllSlaves (s : Master) (co : Co) : Master :=
  { s with bound := true, waitingAll := some co, gathering := s.gathering ++ [co] }

/-- A call of the master, up to where the caller waits or has the slave. -/
def call (s : Master) (co : Co) (best : ℕ) : Option Master :=
  let s := { s with called := s.called ++ [co] }
  if s.count = s.slaveCount then s.findbest co best else some (s.waitAllSlaves co)

/-- `onaccept` goes on after `add`: if all slaves have connected, the caller that waits for
them is resumed. -/
def accepted (s : Master) (best : ℕ) : Option Master :=
  let s := { s with accepting := false }
  if s.count = s.slaveCount then
    match s.waitingAll with
    | some co => { s with waitingAll := none, gathering := s.gathering.erase co }.findbest co best
    | none => some s
  else some s

/-- `telldone`. -/
def telldone (s : Master) (i : ℕ) : Master :=
  let slave := s.slaves i
  (s.setSlave i { slave with jobcount := slave.jobcount - 1 }).assign i

/-- The receive loop handles the reply to a task.  A task whose function raised or does
not exist is answered with the empty string, which `decode` makes false; the loop dies
when it indexes it. -/
def reply (s : Master) (call : Call) : Option (List LuaValue) → Master
  | none => s.setSlave call.slave { s.slaves call.slave with looping := false }
  | some values =>
      let slave := s.slaves call.slave
      let s := { s with telling := some call, replies := s.replies ++ [(call, values)] }
      match slave.taskMap call.taskKey with
      | some (.waiting _) =>
          (s.setSlave call.slave
            { slave with taskMap := Function.update slave.taskMap call.taskKey none }).finish call
            (some values)
      | _ =>
          s.setSlave call.slave
            { slave with
              taskMap := Function.update slave.taskMap call.taskKey (some (.reply values)) }

example : objectbufDecode [] .missing = .ok ([], .boolean false) := rfl

/-- The receive loop comes to `telldone`. -/
def told (s : Master) (call : Call) : Master :=
  ({ s with telling := none }.settle call).telldone call.slave

/-- The calls that wait for a reply of a slave. -/
def waits (s : Master) (call : Call) : Bool :=
  match (s.slaves call.slave).taskMap call.taskKey with
  | some (.waiting co) => co == call.co
  | _ => false

/-- Is there a reply of the slave that no caller has fetched?  At a disconnect
`coroutine.status` raises an error at such a reply. -/
def hasStored (s : Master) (i : ℕ) : Bool :=
  s.sending.any fun call => call.slave == i &&
    match (s.slaves i).taskMap call.taskKey with
    | some (.reply _) => true
    | _ => false

/-- The calls that wait for a slave. -/
def waiting (s : Master) (i : ℕ) : List Call :=
  s.unsettled.filter fun call => call.slave = i ∧ s.waits call

/-- The callers that the loop of a slave resumes when the slave has gone, in the order of
`pairs`: all that wait, unless the loop dies on its way, at a stored reply or because a
caller that it resumed raised an error. -/
def ResumedAtEnd (s : Master) (i : ℕ) (resumed : List Call) (raised : Bool) : Prop :=
  ((s.slaves i).looping = false → resumed = []) ∧
    (resumed.Nodup ∧ ∀ call ∈ resumed, call ∈ s.waiting i) ∧
    ((s.slaves i).looping = true → raised = false → s.hasStored i = false →
      resumed.Perm (s.waiting i))

instance (s : Master) (i : ℕ) (resumed : List Call) (raised : Bool) :
    Decidable (s.ResumedAtEnd i resumed raised) := inferInstanceAs (Decidable (_ ∧ _))

/-- A call that fails because its slave has gone. -/
def fail (s : Master) (call : Call) : Master := (s.settle call).finish call none

/-- The call whose message the connector of a slave is sending; the later ones are queued
behind it. -/
def inProgress (s : Master) (i : ℕ) : Option Call := s.sending.find? fun call => call.slave == i

/-- The slave has gone: its loop ends, and then the connector resumes the caller in progress. -/
def disconnect (s : Master) (i : ℕ) (resumed : List Call) : Master :=
  let s := resumed.foldl fail (s.setSlave i { s.slaves i with disconnected := true, looping := false })
  match s.inProgress i with
  | some call => s.sent call false
  | none => s

/-- A slave connects, `onaccept` goes on, or a slave disconnects; a coroutine calls the
master; its `slave:send` returns; a reply comes, and the loop that has handed it out comes to
`telldone`. -/
inductive Event where
  | accept
  | accepted (best : ℕ)
  | call (co : Co) (best : ℕ)
  | sent (call : Call) (ok : Bool)
  | reply (call : Call) (results : Option (List LuaValue))
  | telldone
  | disconnect (i : ℕ) (resumed : List Call) (raised : Bool)

/-- Is the coroutine inside a call?  The caller of the reply that is being handed out is not,
unless it is still in `slave:send`. -/
def busy (s : Master) (co : Co) : Bool :=
  s.gathering.contains co || s.yielding.contains co || s.sending.any (fun call => call.co == co) ||
    s.unsettled.any fun call => call.co == co && s.telling ≠ some call

/-- The event loop can call a callback. -/
def Idle (s : Master) : Prop := s.telling = none ∧ s.accepting = false

instance (s : Master) : Decidable s.Idle := inferInstanceAs (Decidable (_ ∧ _))

def step (s : Master) : Event → Option Master
  | .accept => if s.bound ∧ s.Idle then some s.add else none
  | .accepted best => if s.accepting then s.accepted best else none
  | .call co best => if s.busy co then none else s.call co best
  | .sent call ok =>
      if call ∈ s.sending ∧ s.telling ≠ some call ∧
          (ok = true → (s.slaves call.slave).disconnected = false) then some (s.sent call ok)
      else none
  | .reply call results =>
      -- a slave answers a task that it was sent, once
      if call ∈ s.unsettled ∧ s.Idle ∧ (s.slaves call.slave).looping then some (s.reply call results)
      else none
  | .telldone =>
      match s.telling with
      | some call => some (s.told call)
      | none => none
  | .disconnect i resumed raised =>
      if i < s.count ∧ s.Idle ∧ (s.slaves i).disconnected = false ∧ s.ResumedAtEnd i resumed raised then
        some (s.disconnect i resumed)
      else none

/-! ## What the callers do -/

/-- Every slave has as many jobs as it may have. -/
def Full (s : Master) : Prop := ∀ i < s.count, (s.maxJobCount : ℤ) ≤ (s.slaves i).jobcount

instance (s : Master) : Decidable s.Full :=
  inferInstanceAs (Decidable (∀ i < s.count, (s.maxJobCount : ℤ) ≤ (s.slaves i).jobcount))

/-- A caller waits if all slaves are full, else it has the best one. -/
theorem findbest_cases {s s' : Master} {co : Co} {best : ℕ} (h : s.findbest co best = some s') :
    (s.Full ∧ s' = { s with yielding := s.yielding ++ [co] }) ∨
      (s.IsBest best ∧ (s.slaves best).jobcount < s.maxJobCount ∧ s' = s.startCall co best) := by
  unfold findbest at h
  split_ifs at h with hzero hbest hfull
  · refine Or.inl ⟨fun i hi => absurd hi ?_, (Option.some.inj h).symm⟩
    rw [hzero]
    exact Nat.not_lt_zero i
  · exact Or.inl ⟨fun i hi => hfull.trans (hbest.2 i hi), (Option.some.inj h).symm⟩
  · exact Or.inr ⟨hbest, not_le.mp hfull, (Option.some.inj h).symm⟩

theorem call_cases {s s' : Master} {co : Co} {best : ℕ} (h : s.call co best = some s') :
    (s.count = s.slaveCount ∧ { s with called := s.called ++ [co] }.findbest co best = some s') ∨
      (s.count ≠ s.slaveCount ∧ s' = { s with called := s.called ++ [co] }.waitAllSlaves co) := by
  simp only [call] at h
  split at h
  · rename_i hall
    exact Or.inl ⟨hall, h⟩
  · rename_i hmissing
    exact Or.inr ⟨hmissing, (Option.some.inj h).symm⟩

theorem accepted_cases {s s' : Master} {best : ℕ} (h : s.accepted best = some s') :
    (∃ co, s.count = s.slaveCount ∧ s.waitingAll = some co ∧
      { s with accepting := false, waitingAll := none, gathering := s.gathering.erase co }.findbest co best
        = some s') ∨
      ((s.count = s.slaveCount → s.waitingAll = none) ∧ s' = { s with accepting := false }) := by
  simp only [accepted] at h
  split at h
  · rename_i hall
    split at h
    · rename_i co hco
      exact Or.inl ⟨co, hall, hco, h⟩
    · rename_i hnobody
      exact Or.inr ⟨fun _ => hnobody, (Option.some.inj h).symm⟩
  · rename_i hmissing
    exact Or.inr ⟨fun hall => absurd hall hmissing, (Option.some.inj h).symm⟩

/-! ## The load balance -/

/-- The calls of a slave that have neither been answered nor failed. -/
def jobs (s : Master) (i : ℕ) : ℕ := s.unsettled.countP fun call => call.slave = i

/-- The count of each slave is that of its unsettled calls and within its bounds, and no
slave was handed to a caller after it had gone. -/
structure Balanced (s : Master) : Prop where
  bounded : ∀ i < s.count, 0 ≤ (s.slaves i).jobcount ∧ (s.slaves i).jobcount ≤ s.maxJobCount
  counted : ∀ i < s.count, (s.slaves i).jobcount = s.jobs i
  connected : ∀ h ∈ s.handed, h.2 = false

/-- No slave that has gone is among the least loaded ones, or all are full. -/
def GoneAreBusier (s : Master) : Prop :=
  ∀ i < s.count, (s.slaves i).disconnected = true →
    (s.slaves i).jobcount < s.maxJobCount → ∃ j < s.count, (s.slaves j).jobcount < (s.slaves i).jobcount

instance (s : Master) : Decidable s.GoneAreBusier :=
  inferInstanceAs (Decidable (∀ i < s.count, (s.slaves i).disconnected = true →
    (s.slaves i).jobcount < s.maxJobCount → ∃ j < s.count, (s.slaves j).jobcount < (s.slaves i).jobcount))

/-- No slave that has gone is among the least loaded ones when a caller takes one; no `send`
fails for a call that has not been answered; and when a slave goes, no call waits for it. -/
def Unfailing (s : Master) : Event → Prop
  | .call _ _ => s.count = s.slaveCount → s.GoneAreBusier
  | .accepted _ => s.count = s.slaveCount → s.waitingAll ≠ none → s.GoneAreBusier
  | .sent call ok => ok = false → call ∉ s.unsettled
  | .disconnect i _ _ =>
      ((s.slaves i).looping = true → s.waiting i = []) ∧ ∀ call ∈ s.inProgress i, call ∉ s.unsettled
  | _ => True

instance (s : Master) : ∀ e : Event, Decidable (s.Unfailing e)
  | .accept => isTrue trivial
  | .accepted _ => inferInstanceAs (Decidable
      (s.count = s.slaveCount → s.waitingAll ≠ none → s.GoneAreBusier))
  | .call _ _ => inferInstanceAs (Decidable (s.count = s.slaveCount → s.GoneAreBusier))
  | .sent call ok => inferInstanceAs (Decidable (ok = false → call ∉ s.unsettled))
  | .reply _ _ => isTrue trivial
  | .telldone => isTrue trivial
  | .disconnect i _ _ => inferInstanceAs (Decidable
      (((s.slaves i).looping = true → s.waiting i = []) ∧ ∀ call ∈ s.inProgress i, call ∉ s.unsettled))

/-- What every step keeps: the load balance, and that the calls are those of known slaves
and a reply is being told for an unsettled call of a slave that is there. -/
structure Steady (s : Master) : Prop extends s.Balanced where
  known : ∀ call ∈ s.unsettled, call.slave < s.count
  told : ∀ call, s.telling = some call →
    call ∈ s.unsettled ∧ (s.slaves call.slave).disconnected = false
  ended : ∀ i, (s.slaves i).disconnected = true → (s.slaves i).looping = false
  positive : 1 ≤ s.maxJobCount

theorem setSlave_slaves (s : Master) (i : ℕ) (slave : Slave) (j : ℕ) :
    (s.setSlave i slave).slaves j = if j = i then slave else s.slaves j :=
  Function.update_apply s.slaves i slave j

/-- A field that is not written to is what it was for every slave. -/
theorem setSlave_field {α : Type} (f : Slave → α) (s : Master) (i : ℕ) {slave : Slave}
    (h : f slave = f (s.slaves i)) (j : ℕ) : f ((s.setSlave i slave).slaves j) = f (s.slaves j) := by
  rw [setSlave_slaves]
  split_ifs with hji
  · rw [hji, h]
  · rfl

theorem startCall_connected {s : Master} {i : ℕ} (h : (s.slaves i).disconnected = false) (co : Co) :
    s.startCall co i = s.enlist co i := by
  rw [startCall, h]
  exact if_neg Bool.false_ne_true

theorem enlist_slaves (s : Master) (co : Co) (i j : ℕ) :
    (s.enlist co i).slaves j =
      if j = i then
        { s.slaves i with
          jobcount := (s.slaves i).jobcount + 1
          taskIndex := (s.slaves i).taskIndex + 1 }
      else s.slaves j :=
  Function.update_apply s.slaves i _ j

variable {s : Master}

/-- A slave with fewer jobs than the limit gets one more. -/
theorem Steady.startCall (h : s.Steady) {i : ℕ} (hi : i < s.count)
    (hconn : (s.slaves i).disconnected = false) (hless : (s.slaves i).jobcount < s.maxJobCount)
    (co : Co) : (s.startCall co i).Steady := by
  rw [startCall_connected hconn]
  refine ⟨⟨?_, ?_, ?_⟩, ?_, ?_, ?_, h.positive⟩
  · intro j hj
    have hb := h.bounded j hj
    rw [enlist_slaves]
    split_ifs with hji
    · subst hji
      show 0 ≤ (s.slaves j).jobcount + 1 ∧ (s.slaves j).jobcount + 1 ≤ s.maxJobCount
      omega
    · exact hb
  · intro j hj
    have hc := h.counted j hj
    have hjobs : (s.enlist co i).jobs j = s.jobs j + if i = j then 1 else 0 := by
      simp [Master.enlist, jobs, List.countP_append, List.countP_singleton]
    rw [enlist_slaves, hjobs]
    split_ifs with hji hij hij
    · subst hji
      show (s.slaves j).jobcount + 1 = _
      rw [hc]
      rfl
    · exact absurd hji.symm hij
    · exact absurd hij.symm hji
    · exact hc
  · intro p hp
    simp only [Master.enlist, List.mem_append, List.mem_singleton] at hp
    rcases hp with hp | rfl
    · exact h.connected p hp
    · exact hconn
  · intro call hcall
    simp only [Master.enlist, List.mem_append, List.mem_singleton] at hcall
    rcases hcall with hcall | rfl
    · exact h.known call hcall
    · exact hi
  · intro call hcall
    obtain ⟨hmem, hthere⟩ := h.told call hcall
    refine ⟨List.mem_append_left _ hmem, ?_⟩
    rw [enlist_slaves]
    split_ifs
    · exact hconn
    · exact hthere
  · intro j
    rw [enlist_slaves]
    split_ifs with hji
    · exact h.ended i
    · exact h.ended j

/-- What `_assign` hands out. -/
theorem Steady.assign (h : s.Steady) {i : ℕ} (hi : i < s.count)
    (hconn : (s.slaves i).disconnected = false) (hless : (s.slaves i).jobcount < s.maxJobCount) :
    (s.assign i).Steady := by
  unfold Master.assign
  split
  · rename_i co rest _
    have hs : Steady { s with yielding := rest } :=
      ⟨⟨h.bounded, h.counted, h.connected⟩, h.known, h.told, h.ended, h.positive⟩
    exact hs.startCall hi hconn hless co
  · exact h

theorem Steady.add (h : s.Steady) : s.add.Steady := by
  have hnone : s.jobs s.count = 0 := by
    rw [jobs, List.countP_eq_zero]
    intro call hcall heq
    have hknown := h.known call hcall
    have heq : call.slave = s.count := by simpa using heq
    omega
  have hs : Steady { s.setSlave s.count Slave.accepted with count := s.count + 1, accepting := true } := by
    refine ⟨⟨?_, ?_, h.connected⟩, fun call hcall => Nat.lt_succ_of_lt (h.known call hcall), ?_, ?_,
      h.positive⟩
    · intro i hi
      show 0 ≤ ((s.setSlave s.count Slave.accepted).slaves i).jobcount ∧ _
      rw [setSlave_slaves]
      split_ifs with hic
      · exact ⟨le_rfl, Int.natCast_nonneg _⟩
      · exact h.bounded i (Nat.lt_of_le_of_ne (Nat.le_of_lt_succ hi) hic)
    · intro i hi
      show ((s.setSlave s.count Slave.accepted).slaves i).jobcount = s.jobs i
      rw [setSlave_slaves]
      split_ifs with hic
      · rw [hic, hnone]
        rfl
      · exact h.counted i (Nat.lt_of_le_of_ne (Nat.le_of_lt_succ hi) hic)
    · intro call hcall
      obtain ⟨hmem, hthere⟩ := h.told call hcall
      refine ⟨hmem, ?_⟩
      show ((s.setSlave s.count Slave.accepted).slaves call.slave).disconnected = false
      rw [setSlave_slaves, if_neg (h.known call hmem).ne]
      exact hthere
    · intro i
      show ((s.setSlave s.count Slave.accepted).slaves i).disconnected = true → _
      rw [setSlave_slaves]
      split_ifs with hic
      · decide
      · exact h.ended i
  have hnew : (s.setSlave s.count Slave.accepted).slaves s.count = Slave.accepted := by
    rw [setSlave_slaves, if_pos rfl]
  apply hs.assign (Nat.lt_succ_self _)
  · show ((s.setSlave s.count Slave.accepted).slaves s.count).disconnected = false
    rw [hnew]
    rfl
  · show ((s.setSlave s.count Slave.accepted).slaves s.count).jobcount < s.maxJobCount
    rw [hnew]
    have hpos := h.positive
    show (0 : ℤ) < s.maxJobCount
    omega

theorem Steady.findbest (h : s.Steady) {co : Co} {best : ℕ} {s' : Master}
    (hok : s.GoneAreBusier) (hfind : s.findbest co best = some s') : s'.Steady := by
  obtain ⟨-, rfl⟩ | ⟨hbest, hless, rfl⟩ := findbest_cases hfind
  · exact ⟨⟨h.bounded, h.counted, h.connected⟩, h.known, h.told, h.ended, h.positive⟩
  · apply h.startCall hbest.1 _ hless
    -- a slave that has gone would have more jobs than another one
    by_contra hgone
    obtain ⟨j, hj, hfewer⟩ := hok best hbest.1 (by simpa using hgone) hless
    have hle := hbest.2 j hj
    omega

/-- A slave may change in what the load balance does not look at, and may go while no
reply is being told. -/
theorem Steady.setSlave (h : s.Steady) (i : ℕ) (slave : Slave)
    (hjobs : slave.jobcount = (s.slaves i).jobcount)
    (hconn : slave.disconnected = (s.slaves i).disconnected ∨ s.telling = none)
    (hended : slave.disconnected = true → slave.looping = false) : (s.setSlave i slave).Steady := by
  have hsame : ∀ j, ((s.setSlave i slave).slaves j).jobcount = (s.slaves j).jobcount :=
    setSlave_field Slave.jobcount s i hjobs
  refine ⟨⟨?_, ?_, h.connected⟩, h.known, ?_, ?_, h.positive⟩
  · intro j hj
    rw [hsame j]
    exact h.bounded j hj
  · intro j hj
    rw [hsame j]
    exact h.counted j hj
  · intro call hcall
    obtain ⟨hmem, hthere⟩ := h.told call hcall
    refine ⟨hmem, ?_⟩
    rw [setSlave_slaves]
    split_ifs with hji
    · rcases hconn with hconn | hnone
      · rw [hconn, ← hji]
        exact hthere
      · rw [show (s.setSlave i slave).telling = s.telling from rfl, hnone] at hcall
        cases hcall
    · exact hthere
  · intro j
    rw [setSlave_slaves]
    split_ifs
    · exact hended
    · exact h.ended j

/-- The bookkeeping of sends, replies and results is not looked at. -/
theorem Steady.books (h : s.Steady) (sending : List Call) (replies : List (Call × List LuaValue))
    (returned : List (Call × Option (List LuaValue))) :
    Steady { s with sending := sending, replies := replies, returned := returned } :=
  ⟨⟨h.bounded, h.counted, h.connected⟩, h.known, h.told, h.ended, h.positive⟩

theorem Steady.finish (h : s.Steady) (call : Call) (result : Option (List LuaValue)) :
    (s.finish call result).Steady :=
  h.books s.sending s.replies _

theorem Steady.sent (h : s.Steady) {call : Call} {ok : Bool} (hok : ok = false → call ∉ s.unsettled) :
    (s.sent call ok).Steady := by
  have hs := h.books (s.sending.erase call) s.replies s.returned
  unfold Master.sent
  rcases ok with _ | _
  · have hnone : s.unsettled.erase call = s.unsettled := List.erase_of_not_mem (hok rfl)
    simp only [Bool.false_eq_true, if_false, settle, Master.finish, hnone]
    exact h.books _ _ _
  · simp only [if_true]
    split
    · apply Steady.finish
      exact hs.setSlave call.slave _ rfl (Or.inl rfl) (h.ended call.slave)
    · exact hs.setSlave call.slave _ rfl (Or.inl rfl) (h.ended call.slave)

/-- A reply to an unsettled call, of a slave whose loop runs. -/
theorem Steady.reply (h : s.Steady) {call : Call} (hcall : call ∈ s.unsettled)
    (hloop : (s.slaves call.slave).looping = true)
    (results : Option (List LuaValue)) : (s.reply call results).Steady := by
  have hthere : (s.slaves call.slave).disconnected = false := by
    by_contra hgone
    have hended := h.ended call.slave (by simpa using hgone)
    rw [hended] at hloop
    cases hloop
  rcases results with _ | values
  · exact h.setSlave call.slave _ rfl (Or.inl rfl) fun _ => rfl
  · have hs : Steady { s with telling := some call, replies := s.replies ++ [(call, values)] } := by
      refine ⟨⟨h.bounded, h.counted, h.connected⟩, h.known, ?_, h.ended, h.positive⟩
      intro call' hcall'
      obtain rfl := Option.some.inj hcall'
      exact ⟨hcall, hthere⟩
    simp only [Master.reply]
    split
    · apply Steady.finish
      exact hs.setSlave call.slave _ rfl (Or.inl rfl) (h.ended call.slave)
    · exact hs.setSlave call.slave _ rfl (Or.inl rfl) (h.ended call.slave)

/-- One job less, one unsettled call less. -/
theorem Steady.tell (h : s.Steady) {call : Call} (htell : s.telling = some call) :
    (s.told call).Steady := by
  obtain ⟨hmem, hthere⟩ := h.told call htell
  have hknown := h.known call hmem
  have hpos : 0 < s.jobs call.slave := List.countP_pos_iff.mpr ⟨call, hmem, by simp⟩
  have hjobs : ∀ j, (s.unsettled.erase call).countP (fun c => c.slave = j)
      = s.jobs j - if call.slave = j then 1 else 0 := by
    intro j
    rw [List.countP_erase]
    simp [hmem, jobs]
  have hcounted := h.counted call.slave hknown
  have hbounded := h.bounded call.slave hknown
  have hs : Steady (({ s with telling := none }.settle call).setSlave call.slave
      { s.slaves call.slave with jobcount := (s.slaves call.slave).jobcount - 1 }) := by
    refine ⟨⟨?_, ?_, h.connected⟩, ?_, (fun _ hnone => nomatch hnone), ?_, h.positive⟩
    · intro j hj
      rw [setSlave_slaves]
      split_ifs with hji
      · show 0 ≤ (s.slaves call.slave).jobcount - 1 ∧
          (s.slaves call.slave).jobcount - 1 ≤ s.maxJobCount
        omega
      · exact h.bounded j hj
    · intro j hj
      show _ = (((s.unsettled.erase call).countP fun c => c.slave = j : ℕ) : ℤ)
      rw [setSlave_slaves, hjobs]
      split_ifs with hji hij hij
      · show (s.slaves call.slave).jobcount - 1 = _
        rw [hji]
        omega
      · exact absurd hji.symm hij
      · exact absurd hij.symm hji
      · exact h.counted j hj
    · intro c hc
      exact h.known c (List.mem_of_mem_erase hc)
    · intro j
      rw [setSlave_slaves]
      split_ifs
      · exact h.ended call.slave
      · exact h.ended j
  have hslave : (({ s with telling := none }.settle call).setSlave call.slave
      { s.slaves call.slave with jobcount := (s.slaves call.slave).jobcount - 1 }).slaves call.slave
      = { s.slaves call.slave with jobcount := (s.slaves call.slave).jobcount - 1 } := by
    rw [setSlave_slaves, if_pos rfl]
  apply hs.assign hknown
  · rw [hslave]
    exact hthere
  · rw [hslave]
    show (s.slaves call.slave).jobcount - 1 < s.maxJobCount
    omega

/-- A slave goes while no call waits for it, or is being sent to it. -/
theorem Steady.disconnect (h : s.Steady) {i : ℕ} {resumed : List Call} {raised : Bool}
    (hnone : s.telling = none) (hend : s.ResumedAtEnd i resumed raised)
    (hok : s.Unfailing (.disconnect i resumed raised)) : (s.disconnect i resumed).Steady := by
  have hnobody : resumed = [] := by
    rcases hloop : (s.slaves i).looping with _ | _
    · exact hend.1 hloop
    · rw [List.eq_nil_iff_forall_not_mem]
      intro call hcall
      have hwait := hend.2.1.2 call hcall
      rw [hok.1 hloop] at hwait
      cases hwait
  subst hnobody
  have hs : Steady (s.setSlave i { s.slaves i with disconnected := true, looping := false }) :=
    h.setSlave i _ rfl (Or.inr hnone) fun _ => rfl
  rw [Master.disconnect, List.foldl_nil]
  split
  · rename_i call hcall
    exact hs.sent fun _ => hok.2 call hcall
  · exact hs

/-- A call of the master. -/
theorem Steady.call (h : s.Steady) {co : Co} {best : ℕ} {s' : Master}
    (hok : s.count = s.slaveCount → s.GoneAreBusier) (hcall : s.call co best = some s') : s'.Steady := by
  have hs : Steady { s with called := s.called ++ [co] } :=
    ⟨⟨h.bounded, h.counted, h.connected⟩, h.known, h.told, h.ended, h.positive⟩
  obtain ⟨hall, hfind⟩ | ⟨-, rfl⟩ := call_cases hcall
  · exact hs.findbest (hok hall) hfind
  · exact ⟨⟨h.bounded, h.counted, h.connected⟩, h.known, h.told, h.ended, h.positive⟩

/-- `onaccept` goes on. -/
theorem Steady.accepted (h : s.Steady) {best : ℕ} {s' : Master}
    (hok : s.count = s.slaveCount → s.waitingAll ≠ none → s.GoneAreBusier)
    (haccepted : s.accepted best = some s') : s'.Steady := by
  obtain ⟨co, hall, hco, hfind⟩ | ⟨-, rfl⟩ := accepted_cases haccepted
  · have hs : Steady { s with
        accepting := false, waitingAll := none, gathering := s.gathering.erase co } :=
      ⟨⟨h.bounded, h.counted, h.connected⟩, h.known, h.told, h.ended, h.positive⟩
    have hgone : s.GoneAreBusier := by
      apply hok hall
      rw [hco]
      exact Option.some_ne_none co
    exact hs.findbest hgone hfind
  · exact ⟨⟨h.bounded, h.counted, h.connected⟩, h.known, h.told, h.ended, h.positive⟩

end Master

/-- Two calls for one slave with a limit of one: the first waits until the slave has
connected, the second for the slave, which it gets when the first has been answered; its reply
comes before its `send` returns.  The first caller calls again before `telldone`. -/
def twoCalls : List Master.Event :=
  [.call 1 0, .accept, .accepted 0, .sent ⟨1, 0, 1⟩ true, .call 2 0,
    .reply ⟨1, 0, 1⟩ (some [.boolean true]), .call 1 0, .telldone, .reply ⟨2, 0, 2⟩ (some []), .telldone,
    .sent ⟨2, 0, 2⟩ true]

end LuaFan
