/-
# The callers of the master that wait (`modules/fan/worker/init.lua`)

A caller waits until all slaves have connected, or for a slave with less than the most jobs.
Only the last caller of `wait_all_slaves` is remembered, and only if no slave connects once
more than expected is it resumed; a caller without a slave is resumed by `add` and `telldone`,
so some call has to be under way at a slave that is there.

* `Serving`: the condition on what happens;
* `step_callers`: **a caller is nowhere lost**: each call made waits for the slaves, or for one,
  or has got one;
* `step_attending`: **what a caller waits for will come**, as long as every step is serving.
-/
import LuaFan.Worker.Master
import Mathlib.Algebra.Order.Group.Multiset

namespace LuaFan

open Machine

namespace Master

variable {s : Master}

/-! ## The slaves that are there -/

/-- The slaves that have not connected yet are as `onaccept` will set them up, and the
calls are those of the others. -/
structure Grown (s : Master) : Prop where
  unborn : ∀ i, s.count ≤ i → s.slaves i = Slave.accepted
  known : ∀ call, call ∈ s.unsettled ∨ call ∈ s.sending ∨ s.telling = some call →
    call.slave < s.count

theorem Grown.setSlave (h : s.Grown) {i : ℕ} (hi : i < s.count) (slave : Slave) :
    (s.setSlave i slave).Grown := by
  refine ⟨?_, h.known⟩
  intro j hj
  rw [setSlave_slaves, if_neg (lt_of_lt_of_le hi hj).ne']
  exact h.unborn j hj

/-- The books may lose calls. -/
theorem Grown.of_subset (h : s.Grown) {s' : Master} (hslaves : s'.slaves = s.slaves)
    (hcount : s'.count = s.count) (hun : ∀ call ∈ s'.unsettled, call ∈ s.unsettled)
    (hsend : ∀ call ∈ s'.sending, call ∈ s.sending)
    (htell : ∀ call, s'.telling = some call → call ∈ s.unsettled ∨ s.telling = some call) : s'.Grown := by
  refine ⟨by rw [hslaves, hcount]; exact h.unborn, ?_⟩
  intro call hcall
  rw [hcount]
  apply h.known call
  rcases hcall with hcall | hcall | hcall
  · exact Or.inl (hun call hcall)
  · exact Or.inr (Or.inl (hsend call hcall))
  · exact (htell call hcall).imp id Or.inr

theorem Grown.finish (h : s.Grown) (call : Call) (result : Option (List LuaValue)) :
    (s.finish call result).Grown :=
  h.of_subset rfl rfl (fun _ => id) (fun _ => id) fun _ => Or.inr

theorem Grown.settle (h : s.Grown) (call : Call) : (s.settle call).Grown :=
  h.of_subset rfl rfl (fun _ => List.mem_of_mem_erase) (fun _ => id) fun _ => Or.inr

theorem Grown.sent (h : s.Grown) {call : Call} (hsend : call ∈ s.sending) (ok : Bool) :
    (s.sent call ok).Grown := by
  have hi := h.known call (Or.inr (Or.inl hsend))
  have hs : Grown { s with sending := s.sending.erase call } :=
    h.of_subset rfl rfl (fun _ => id) (fun _ => List.mem_of_mem_erase) fun _ => Or.inr
  unfold Master.sent
  rcases ok with _ | _
  · exact (hs.settle call).finish call none
  · simp only [if_true]
    split
    · apply Grown.finish
      exact hs.setSlave hi _
    · exact hs.setSlave hi _

theorem Grown.startCall (h : s.Grown) {i : ℕ} (hi : i < s.count) (co : Co) : (s.startCall co i).Grown := by
  have henlist : (s.enlist co i).Grown := by
    refine ⟨(h.setSlave hi _).unborn, ?_⟩
    intro call hcall
    simp only [enlist, List.mem_append, List.mem_singleton] at hcall
    rcases hcall with (hcall | rfl) | (hcall | rfl) | hcall
    · exact h.known call (Or.inl hcall)
    · exact hi
    · exact h.known call (Or.inr (Or.inl hcall))
    · exact hi
    · exact h.known call (Or.inr (Or.inr hcall))
  unfold Master.startCall
  split
  · exact henlist.sent (List.mem_append_right _ (List.mem_singleton.mpr rfl)) false
  · exact henlist

theorem Grown.assign (h : s.Grown) {i : ℕ} (hi : i < s.count) : (s.assign i).Grown := by
  unfold Master.assign
  split
  · rename_i co rest _
    have hs : Grown { s with yielding := rest } := ⟨h.unborn, h.known⟩
    exact hs.startCall hi co
  · exact h

theorem Grown.findbest (h : s.Grown) {co : Co} {best : ℕ} {s' : Master}
    (hfind : s.findbest co best = some s') : s'.Grown := by
  obtain ⟨-, rfl⟩ | ⟨hbest, -, rfl⟩ := findbest_cases hfind
  · exact ⟨h.unborn, h.known⟩
  · exact h.startCall hbest.1 co

theorem Grown.add (h : s.Grown) : s.add.Grown := by
  have hs : Grown { s.setSlave s.count Slave.accepted with count := s.count + 1, accepting := true } := by
    refine ⟨?_, fun call hcall => Nat.lt_succ_of_lt (h.known call hcall)⟩
    intro i hi
    have hi : s.count + 1 ≤ i := hi
    show (s.setSlave s.count Slave.accepted).slaves i = Slave.accepted
    rw [setSlave_slaves, if_neg (by omega)]
    exact h.unborn i (by omega)
  exact hs.assign (Nat.lt_succ_self s.count)

theorem Grown.reply (h : s.Grown) {call : Call} (hopen : call ∈ s.unsettled)
    (results : Option (List LuaValue)) : (s.reply call results).Grown := by
  have hi := h.known call (Or.inl hopen)
  rcases results with _ | values
  · exact h.setSlave hi _
  · have hs : Grown { s with telling := some call, replies := s.replies ++ [(call, values)] } := by
      refine h.of_subset rfl rfl (fun _ => id) (fun _ => id) ?_
      intro call' hcall'
      obtain rfl := Option.some.inj hcall'
      exact Or.inl hopen
    simp only [Master.reply]
    split
    · apply Grown.finish
      exact hs.setSlave hi _
    · exact hs.setSlave hi _

theorem Grown.disconnect (h : s.Grown) {i : ℕ} (hi : i < s.count) (resumed : List Call) :
    (s.disconnect i resumed).Grown := by
  have hfails : ∀ (calls : List Call) (s₁ : Master), s₁.Grown → (calls.foldl fail s₁).Grown := by
    intro calls
    induction calls with
    | nil => exact fun _ => id
    | cons call calls ih => exact fun s₁ h₁ => ih (s₁.fail call) ((h₁.settle call).finish call none)
  have hs := hfails resumed _ (h.setSlave hi { s.slaves i with disconnected := true, looping := false })
  rw [Master.disconnect]
  split
  · rename_i call hcall
    exact hs.sent (List.mem_of_find?_eq_some hcall) false
  · exact hs

/-- Some call that has neither been answered nor failed is one of a slave that is there, other
than a slave that goes. -/
def AttendedWithout (s : Master) (p : Call → Prop) : Prop :=
  ∃ call ∈ s.unsettled, ¬p call ∧ (s.slaves call.slave).disconnected = false

instance (s : Master) (p : Call → Prop) [DecidablePred p] : Decidable (s.AttendedWithout p) :=
  inferInstanceAs (Decidable (∃ call ∈ s.unsettled, ¬p call ∧ (s.slaves call.slave).disconnected = false))

/-- No worker's function raises or is missing.  A call is made only when all slaves have
connected or nobody waits for them.  A slave goes only when all its replies have been fetched,
no caller that is resumed then raises an error, and no call is queued behind another one in its
`send`.  And a caller waits for a slave only while a call is under way at a slave that is there. -/
def Serving (s : Master) : Event → Prop
  | .accepted _ =>
      s.count = s.slaveCount → s.waitingAll ≠ none → s.Full → s.AttendedWithout fun _ => False
  | .call _ _ =>
      (s.count = s.slaveCount → s.Full → s.AttendedWithout fun _ => False) ∧
        (s.count ≠ s.slaveCount → s.count < s.slaveCount ∧ s.gathering = [])
  | .sent call ok => ok = false → s.yielding ≠ [] → s.AttendedWithout fun call' => call' = call
  | .reply _ results => results ≠ none
  | .disconnect i _ raised =>
      (raised = false ∧ s.hasStored i = false) ∧ (s.sending.countP fun call => call.slave = i) ≤ 1 ∧
        (s.yielding ≠ [] → s.AttendedWithout fun call => call.slave = i)
  | _ => True

instance (s : Master) : ∀ e : Event, Decidable (s.Serving e)
  | .accept => isTrue trivial
  | .accepted _ => inferInstanceAs (Decidable
      (s.count = s.slaveCount → s.waitingAll ≠ none → s.Full → s.AttendedWithout fun _ => False))
  | .call _ _ => inferInstanceAs (Decidable
      ((s.count = s.slaveCount → s.Full → s.AttendedWithout fun _ => False) ∧
        (s.count ≠ s.slaveCount → s.count < s.slaveCount ∧ s.gathering = [])))
  | .sent call ok => inferInstanceAs (Decidable
      (ok = false → s.yielding ≠ [] → s.AttendedWithout fun call' => call' = call))
  | .reply _ results => inferInstanceAs (Decidable (results ≠ none))
  | .telldone => isTrue trivial
  | .disconnect i _ raised => inferInstanceAs (Decidable
      ((raised = false ∧ s.hasStored i = false) ∧ (s.sending.countP fun call => call.slave = i) ≤ 1 ∧
        (s.yielding ≠ [] → s.AttendedWithout fun call => call.slave = i)))

/-! ## No caller is lost -/

/-- The callers that wait for all slaves or for one, and those of the calls that have begun. -/
def callers (s : Master) : Multiset Co :=
  Multiset.ofList s.gathering + Multiset.ofList s.yielding + Multiset.ofList (s.started.map Call.co)

/-- What the callers that wait see of the master is the same. -/
structure Beside (s t : Master) : Prop where
  slaves : t.count = s.count ∧ t.slaveCount = s.slaveCount
  all : t.gathering = s.gathering ∧ t.waitingAll = s.waitingAll ∧ t.accepting = s.accepting
  one : t.yielding = s.yielding
  books : t.called = s.called ∧ t.started = s.started
  gone : ∀ i, (t.slaves i).disconnected = (s.slaves i).disconnected

theorem Beside.callers {t : Master} (h : Beside s t) : t.callers = s.callers := by
  rw [Master.callers, Master.callers, h.all.1, h.one, h.books.2]

/-- What is beside the callers leaves all of them counted. -/
theorem Beside.counted {t : Master} (h : Beside s t) (hs : Multiset.ofList s.called = s.callers) :
    Multiset.ofList t.called = t.callers := by
  rw [h.books.1, h.callers, hs]

theorem Beside.trans {t u : Master} (h : Beside s t) (h' : Beside t u) : Beside s u where
  slaves := ⟨h'.slaves.1.trans h.slaves.1, h'.slaves.2.trans h.slaves.2⟩
  all := ⟨h'.all.1.trans h.all.1, h'.all.2.1.trans h.all.2.1, h'.all.2.2.trans h.all.2.2⟩
  one := h'.one.trans h.one
  books := ⟨h'.books.1.trans h.books.1, h'.books.2.trans h.books.2⟩
  gone := fun i => (h'.gone i).trans (h.gone i)

theorem beside_setSlave (s : Master) (i : ℕ) (slave : Slave)
    (h : slave.disconnected = (s.slaves i).disconnected) : Beside s (s.setSlave i slave) where
  slaves := ⟨rfl, rfl⟩
  all := ⟨rfl, rfl, rfl⟩
  one := rfl
  books := ⟨rfl, rfl⟩
  gone := setSlave_field Slave.disconnected s i h

theorem beside_put (s : Master) (call : Call) (task : Option Task) :
    Beside s (s.setSlave call.slave { s.slaves call.slave with
      taskMap := Function.update (s.slaves call.slave).taskMap call.taskKey task }) :=
  beside_setSlave s call.slave _ rfl

theorem Beside.finish {t : Master} (h : Beside s t) (call : Call) (result : Option (List LuaValue)) :
    Beside s (t.finish call result) :=
  ⟨h.slaves, h.all, h.one, h.books, h.gone⟩

theorem beside_sent (s : Master) (call : Call) (ok : Bool) : Beside s (s.sent call ok) := by
  have hs : Beside s { s with sending := s.sending.erase call } :=
    ⟨⟨rfl, rfl⟩, ⟨rfl, rfl, rfl⟩, rfl, ⟨rfl, rfl⟩, fun _ => rfl⟩
  unfold sent
  cases ok with
  | false => exact ⟨⟨rfl, rfl⟩, ⟨rfl, rfl, rfl⟩, rfl, ⟨rfl, rfl⟩, fun _ => rfl⟩
  | true =>
      have hput := fun task => hs.trans (beside_put { s with sending := s.sending.erase call } call task)
      simp only [if_true]
      split
      · exact (hput none).finish call _
      · exact hput _

theorem beside_reply (s : Master) (call : Call) (results : Option (List LuaValue)) :
    Beside s (s.reply call results) := by
  cases results with
  | none => exact beside_setSlave s call.slave _ rfl
  | some values =>
      have hs : Beside s { s with telling := some call, replies := s.replies ++ [(call, values)] } :=
        ⟨⟨rfl, rfl⟩, ⟨rfl, rfl, rfl⟩, rfl, ⟨rfl, rfl⟩, fun _ => rfl⟩
      have hput := fun task => hs.trans (beside_put
        { s with telling := some call, replies := s.replies ++ [(call, values)] } call task)
      simp only [reply]
      split
      · exact (hput none).finish call _
      · exact hput _

/-- The books of the calls that fail at a disconnect. -/
theorem foldl_fail_books (calls : List Call) (s : Master) :
    (calls.foldl fail s).sending = s.sending ∧ (calls.foldl fail s).telling = s.telling ∧
      (calls.foldl fail s).unsettled = s.unsettled.diff calls ∧
      (calls.foldl fail s).slaves = s.slaves ∧ Beside s (calls.foldl fail s) := by
  induction calls generalizing s with
  | nil => exact ⟨rfl, rfl, rfl, rfl, ⟨⟨rfl, rfl⟩, ⟨rfl, rfl, rfl⟩, rfl, ⟨rfl, rfl⟩, fun _ => rfl⟩⟩
  | cons call calls ih =>
      obtain ⟨hsending, htelling, hunsettled, hslaves, hbeside⟩ := ih (s.fail call)
      refine ⟨hsending, htelling, ?_, hslaves, ?_⟩
      · rw [List.diff_cons]
        exact hunsettled
      · have hfail : Beside s (s.fail call) :=
          ⟨⟨rfl, rfl⟩, ⟨rfl, rfl, rfl⟩, rfl, ⟨rfl, rfl⟩, fun _ => rfl⟩
        exact hfail.trans hbeside

/-- A call inside `send` is one of a slave that is there; a caller waits for a slave only while
a call is under way at one that is there, and for all slaves only as the one that will be
resumed, while some have still to connect or `onaccept` is about to resume it. -/
structure Attending (s : Master) : Prop where
  reachable : ∀ call ∈ s.sending, (s.slaves call.slave).disconnected = false
  told : ∀ call, s.telling = some call → (s.slaves call.slave).disconnected = false
  ended : ∀ i, (s.slaves i).disconnected = true → (s.slaves i).looping = false
  attended : s.yielding ≠ [] → s.AttendedWithout fun _ => False
  gathered : s.gathering = s.waitingAll.toList
  missing : s.gathering ≠ [] →
    s.count < s.slaveCount ∨ (s.count = s.slaveCount ∧ s.accepting = true)

/-- What a call that begins leaves as it is; its own call is inside `send` if the slave is
there. -/
structure StartsFrom (s : Master) (i : ℕ) (t : Master) : Prop where
  slaves : t.count = s.count ∧ t.slaveCount = s.slaveCount
  all : t.gathering = s.gathering ∧ t.waitingAll = s.waitingAll ∧ t.accepting = s.accepting
  one : t.yielding = s.yielding
  telling : t.telling = s.telling
  gone : ∀ j, (t.slaves j).disconnected = (s.slaves j).disconnected
  loop : ∀ j, (t.slaves j).looping = (s.slaves j).looping
  sending : ∀ call ∈ t.sending, call ∈ s.sending ∨ (call.slave = i ∧ (s.slaves i).disconnected = false)
  unsettled : ∀ call ∈ s.unsettled, (s.slaves call.slave).disconnected = false → call ∈ t.unsettled
  begun : (s.slaves i).disconnected = false → ∃ call ∈ t.unsettled, call.slave = i

theorem mem_erase_append_self {α : Type} [DecidableEq α] {l : List α} {a x : α}
    (h : x ∈ (l ++ [a]).erase a) : x ∈ l := by
  have hperm := (List.perm_append_singleton a l).erase a
  rw [List.erase_cons_head] at hperm
  exact hperm.mem_iff.mp h

theorem startsFrom_startCall (s : Master) (co : Co) (i : ℕ) : StartsFrom s i (s.startCall co i) := by
  have hgone : ∀ j, ((s.enlist co i).slaves j).disconnected = (s.slaves j).disconnected :=
    setSlave_field Slave.disconnected s i rfl
  have hloop : ∀ j, ((s.enlist co i).slaves j).looping = (s.slaves j).looping :=
    setSlave_field Slave.looping s i rfl
  unfold startCall
  split
  · -- the slave has gone: the `send` fails at once, and the call leaves nothing behind
    rename_i hi
    refine ⟨⟨rfl, rfl⟩, ⟨rfl, rfl, rfl⟩, rfl, rfl, hgone, hloop, ?_, ?_, ?_⟩
    · intro call hcall
      exact Or.inl (mem_erase_append_self hcall)
    · intro call hcall hthere
      have hne : call ≠ ⟨co, i, (s.slaves i).taskIndex⟩ := by
        rintro rfl
        rw [hi] at hthere
        cases hthere
      exact (List.mem_erase_of_ne hne).mpr (List.mem_append_left _ hcall)
    · intro hthere
      rw [hi] at hthere
      cases hthere
  · -- the call is inside `send`
    rename_i hi
    rw [Bool.not_eq_true] at hi
    refine ⟨⟨rfl, rfl⟩, ⟨rfl, rfl, rfl⟩, rfl, rfl, hgone, hloop, ?_, ?_, ?_⟩
    · intro call hcall
      refine (List.mem_append.mp hcall).imp id fun hnew => ?_
      rw [List.mem_singleton.mp hnew]
      exact ⟨rfl, hi⟩
    · intro call hcall _
      exact List.mem_append_left _ hcall
    · intro _
      exact ⟨_, List.mem_append_right _ (List.mem_singleton.mpr rfl), rfl⟩

/-- A call begins. -/
theorem Attending.starts (h : s.Attending) {i : ℕ} {t : Master} (ht : StartsFrom s i t)
    (hattended : t.yielding ≠ [] → t.AttendedWithout fun _ => False) : t.Attending where
  reachable := by
    intro call hcall
    rw [ht.gone]
    rcases ht.sending call hcall with hold | ⟨hslave, hthere⟩
    · exact h.reachable call hold
    · rw [hslave, hthere]
  told := by
    intro call hcall
    rw [ht.gone]
    exact h.told call (ht.telling.symm.trans hcall)
  ended := by
    intro j hj
    rw [ht.loop]
    exact h.ended j ((ht.gone j).symm.trans hj)
  attended := hattended
  gathered := by
    rw [ht.all.1, ht.all.2.1]
    exact h.gathered
  missing := by
    rw [ht.all.1, ht.all.2.2, ht.slaves.1, ht.slaves.2]
    exact h.missing

/-- The calls that are under way still are. -/
theorem StartsFrom.attended {i : ℕ} {t : Master} (ht : StartsFrom s i t)
    (h : s.AttendedWithout fun _ => False) : t.AttendedWithout fun _ => False := by
  obtain ⟨call, hcall, -, hthere⟩ := h
  exact ⟨call, ht.unsettled call hcall hthere, id, (ht.gone call.slave).trans hthere⟩

/-- `_assign` of a slave that is there leaves no caller without a call under way. -/
theorem Attending.assign (h : Attending { s with yielding := [] }) {i : ℕ}
    (hi : (s.slaves i).disconnected = false) : (s.assign i).Attending := by
  unfold Master.assign
  split
  · rename_i co rest _
    have hrest : Attending { s with yielding := [] } := h
    have ht := startsFrom_startCall { s with yielding := rest } co i
    have hs : StartsFrom { s with yielding := [] } i
        { ({ s with yielding := rest } : Master).startCall co i with yielding := [] } :=
      ⟨ht.slaves, ht.all, rfl, ht.telling, ht.gone, ht.loop, ht.sending, ht.unsettled, ht.begun⟩
    have hstart := h.starts hs fun hne => absurd rfl hne
    -- those that still wait have the call of the first one under way
    refine ⟨hstart.reachable, hstart.told, hstart.ended, fun _ => ?_, hstart.gathered, hstart.missing⟩
    obtain ⟨call, hcall, hslave⟩ := ht.begun hi
    refine ⟨call, hcall, id, (ht.gone call.slave).trans ?_⟩
    rw [hslave]
    exact hi
  · rename_i hnobody
    exact ⟨h.reachable, h.told, h.ended, fun hne => absurd hnobody hne, h.gathered, h.missing⟩

theorem Attending.findbest (h : s.Attending) {co : Co} {best : ℕ} {s' : Master}
    (hok : s.Full → s.AttendedWithout fun _ => False) (hfind : s.findbest co best = some s') :
    s'.Attending := by
  obtain ⟨hfull, rfl⟩ | ⟨-, -, rfl⟩ := findbest_cases hfind
  · exact ⟨h.reachable, h.told, h.ended, fun _ => hok hfull, h.gathered, h.missing⟩
  · have ht := startsFrom_startCall s co best
    apply h.starts ht
    rw [ht.one]
    exact fun hne => ht.attended (h.attended hne)

/-- `onaccept` adds a slave, which was as it will be set up. -/
theorem Attending.add (h : s.Attending) (hgrown : s.Grown) (hidle : s.Idle) : s.add.Attending := by
  have hsame : s.setSlave s.count Slave.accepted = s := by
    rw [setSlave, ← hgrown.unborn s.count le_rfl, Function.update_eq_self]
  have hnobody : Attending { s with count := s.count + 1, accepting := true, yielding := [] } := by
    refine ⟨h.reachable, h.told, h.ended, fun hne => absurd rfl hne, h.gathered, ?_⟩
    intro hne
    rcases h.missing hne with hless | ⟨-, haccepting⟩
    · rcases Nat.lt_or_eq_of_le (Nat.succ_le_of_lt hless) with hmore | hlast
      · exact Or.inl hmore
      · exact Or.inr ⟨hlast, rfl⟩
    · rw [hidle.2] at haccepting
      cases haccepting
  have hthere : (s.slaves s.count).disconnected = false := by
    rw [hgrown.unborn s.count le_rfl]
    rfl
  unfold Master.add
  rw [hsame]
  exact Attending.assign (s := { s with count := s.count + 1, accepting := true }) hnobody hthere

theorem Attending.accepted (h : s.Attending) {best : ℕ} {s' : Master} (hok : s.Serving (.accepted best))
    (haccepted : s.accepted best = some s') : s'.Attending := by
  obtain ⟨co, hall, hco, hfind⟩ | ⟨hnobody, rfl⟩ := accepted_cases haccepted
  · have hempty : s.gathering.erase co = [] := by
      rw [h.gathered, hco]
      exact List.erase_cons_head (a := co) (l := [])
    have hs : Attending { s with
        accepting := false, waitingAll := none, gathering := s.gathering.erase co } := by
      refine ⟨h.reachable, h.told, h.ended, h.attended, hempty, ?_⟩
      exact fun hne => absurd hempty hne
    -- it was the only one
    have hwaited : s.waitingAll ≠ none := by
      rw [hco]
      exact Option.some_ne_none co
    exact hs.findbest (hok hall hwaited) hfind
  · refine ⟨h.reachable, h.told, h.ended, h.attended, h.gathered, ?_⟩
    intro hne
    rcases h.missing hne with hless | ⟨hall, -⟩
    · exact Or.inl hless
    · apply absurd _ hne
      show s.gathering = []
      rw [h.gathered, hnobody hall]
      rfl

theorem Attending.call (h : s.Attending) {co : Co} {best : ℕ} {s' : Master}
    (hok : s.Serving (.call co best)) (hcall : s.call co best = some s') : s'.Attending := by
  have hs : Attending { s with called := s.called ++ [co] } :=
    ⟨h.reachable, h.told, h.ended, h.attended, h.gathered, h.missing⟩
  obtain ⟨hall, hfind⟩ | ⟨hmissing, rfl⟩ := call_cases hcall
  · exact hs.findbest (hok.1 hall) hfind
  · -- nobody else waits for all slaves
    obtain ⟨hless, hnobody⟩ := hok.2 hmissing
    refine ⟨h.reachable, h.told, h.ended, h.attended, ?_, fun _ => Or.inl hless⟩
    show s.gathering ++ [co] = [co]
    rw [hnobody, List.nil_append]

/-- The books of a `send` that has ended. -/
theorem sent_books (s : Master) (call : Call) (ok : Bool) :
    (s.sent call ok).sending = s.sending.erase call ∧ (s.sent call ok).telling = s.telling ∧
      (s.sent call ok).unsettled = (if ok then s.unsettled else s.unsettled.erase call) ∧
      ∀ i, ((s.sent call ok).slaves i).looping = (s.slaves i).looping := by
  have hloop : ∀ (task : Option Task) (i : ℕ), ((s.setSlave call.slave { s.slaves call.slave with
      taskMap := Function.update (s.slaves call.slave).taskMap call.taskKey task }).slaves i).looping
        = (s.slaves i).looping :=
    fun task => setSlave_field Slave.looping s call.slave rfl
  unfold sent
  cases ok with
  | false => exact ⟨rfl, rfl, rfl, fun _ => rfl⟩
  | true =>
      simp only [if_true]
      split
      · exact ⟨rfl, rfl, rfl, hloop none⟩
      · exact ⟨rfl, rfl, rfl, hloop _⟩

/-- What is beside the callers may change as long as their calls stay with slaves that are
there. -/
theorem Attending.of_beside (h : s.Attending) {t : Master} (hbeside : Beside s t)
    (hsending : ∀ call ∈ t.sending, call ∈ s.sending)
    (htold : ∀ call, t.telling = some call → (s.slaves call.slave).disconnected = false)
    (hloop : ∀ i, (t.slaves i).looping = (s.slaves i).looping)
    (hunsettled : s.yielding ≠ [] → ∃ call ∈ t.unsettled, (s.slaves call.slave).disconnected = false) :
    t.Attending where
  reachable := by
    intro call hcall
    rw [hbeside.gone]
    exact h.reachable call (hsending call hcall)
  told := by
    intro call hcall
    rw [hbeside.gone]
    exact htold call hcall
  ended := by
    intro i hi
    rw [hloop]
    exact h.ended i ((hbeside.gone i).symm.trans hi)
  attended := by
    intro hne
    rw [hbeside.one] at hne
    obtain ⟨call, hcall, hthere⟩ := hunsettled hne
    exact ⟨call, hcall, id, (hbeside.gone _).trans hthere⟩
  gathered := by
    rw [hbeside.all.1, hbeside.all.2.1]
    exact h.gathered
  missing := by
    rw [hbeside.all.1, hbeside.all.2.2, hbeside.slaves.1, hbeside.slaves.2]
    exact h.missing

theorem Attending.sent (h : s.Attending) {call : Call} {ok : Bool} (hok : s.Serving (.sent call ok)) :
    (s.sent call ok).Attending := by
  obtain ⟨hsending, htelling, hunsettled, hloop⟩ := sent_books s call ok
  apply h.of_beside (beside_sent s call ok) _ _ hloop
  · intro hne
    rw [hunsettled]
    cases ok with
    | false =>
        -- another call is under way
        obtain ⟨call', hcall', hother, hthere⟩ := hok rfl hne
        exact ⟨call', (List.mem_erase_of_ne hother).mpr hcall', hthere⟩
    | true =>
        obtain ⟨call', hcall', -, hthere⟩ := h.attended hne
        exact ⟨call', hcall', hthere⟩
  · intro call' hcall'
    rw [hsending] at hcall'
    exact List.mem_of_mem_erase hcall'
  · intro call' hcall'
    exact h.told call' (htelling.symm.trans hcall')

/-- The books of a reply that is handed out. -/
theorem reply_books (s : Master) (call : Call) (values : List LuaValue) :
    (s.reply call (some values)).sending = s.sending ∧
      (s.reply call (some values)).telling = some call ∧
      (s.reply call (some values)).unsettled = s.unsettled ∧
      ∀ i, ((s.reply call (some values)).slaves i).looping = (s.slaves i).looping := by
  have hloop : ∀ (task : Option Task) (i : ℕ), ((s.setSlave call.slave { s.slaves call.slave with
      taskMap := Function.update (s.slaves call.slave).taskMap call.taskKey task }).slaves i).looping
        = (s.slaves i).looping :=
    fun task => setSlave_field Slave.looping s call.slave rfl
  simp only [reply]
  split
  · exact ⟨rfl, rfl, rfl, hloop none⟩
  · exact ⟨rfl, rfl, rfl, hloop _⟩

theorem Attending.reply (h : s.Attending) {call : Call} (hloop : (s.slaves call.slave).looping = true)
    (values : List LuaValue) : (s.reply call (some values)).Attending := by
  obtain ⟨hsending, htelling, hunsettled, hloops⟩ := reply_books s call values
  -- the loop of a slave that has gone has ended
  have hthere : (s.slaves call.slave).disconnected = false := by
    by_contra hgone
    have hended := h.ended call.slave (by simpa using hgone)
    rw [hended] at hloop
    cases hloop
  apply h.of_beside (beside_reply s call (some values)) _ _ hloops
  · intro hne
    rw [hunsettled]
    obtain ⟨call', hcall', -, hthere'⟩ := h.attended hne
    exact ⟨call', hcall', hthere'⟩
  · intro call' hcall'
    rw [hsending] at hcall'
    exact hcall'
  · intro call' hcall'
    obtain rfl := Option.some.inj (htelling.symm.trans hcall')
    exact hthere

/-- `telldone` gives the slave, which is there, to the first caller that waits. -/
theorem Attending.telldone (h : s.Attending) {call : Call} (htell : s.telling = some call) :
    (s.told call).Attending := by
  have hgone : ∀ i, ((s.setSlave call.slave { s.slaves call.slave with
      jobcount := (s.slaves call.slave).jobcount - 1 }).slaves i).disconnected
        = (s.slaves i).disconnected :=
    setSlave_field Slave.disconnected s call.slave rfl
  have hloop : ∀ i, ((s.setSlave call.slave { s.slaves call.slave with
      jobcount := (s.slaves call.slave).jobcount - 1 }).slaves i).looping
        = (s.slaves i).looping :=
    setSlave_field Slave.looping s call.slave rfl
  have hnobody : Attending { ({ s with telling := none }.settle call).setSlave call.slave
      { s.slaves call.slave with jobcount := (s.slaves call.slave).jobcount - 1 } with
        yielding := [] } := by
    refine ⟨?_, fun call' hnone => absurd hnone.symm (Option.some_ne_none call'), ?_,
      fun hne => absurd rfl hne, h.gathered, h.missing⟩
    · intro call' hcall'
      exact (hgone call'.slave).trans (h.reachable call' hcall')
    · intro i hi
      exact (hloop i).trans (h.ended i ((hgone i).symm.trans hi))
  exact Attending.assign hnobody ((hgone call.slave).trans (h.told call htell))

/-- Of at most one call in `send` to a slave none is left when the one in progress has ended. -/
theorem not_mem_of_inProgress {sending : List Call} {i : ℕ} {call call' : Call}
    (hone : (sending.countP fun call => call.slave = i) ≤ 1)
    (hfirst : (sending.find? fun call => call.slave == i) = some call)
    (hcall' : call' ∈ sending.erase call) : call'.slave ≠ i := by
  have hslave : call.slave = i := by simpa using List.find?_some hfirst
  have hmem := List.mem_of_find?_eq_some hfirst
  have hcount : (sending.erase call).countP (fun call => call.slave = i) = 0 := by
    rw [List.countP_erase, if_pos (by simp [hmem, hslave])]
    omega
  rw [List.countP_eq_zero] at hcount
  simpa using hcount call' hcall'

/-- The callers that wait when a slave has gone: the calls of the others are still under way. -/
theorem Attending.gone (h : s.Attending) {i : ℕ} {t : Master}
    (hbeside : Beside (s.setSlave i { s.slaves i with disconnected := true, looping := false }) t)
    (hloop : ∀ j, (t.slaves j).looping = ((s.setSlave i
      { s.slaves i with disconnected := true, looping := false }).slaves j).looping)
    (hsending : ∀ call ∈ t.sending, call ∈ s.sending ∧ call.slave ≠ i) (htelling : t.telling = none)
    (hunsettled : s.yielding ≠ [] →
      ∃ call ∈ t.unsettled, call.slave ≠ i ∧ (s.slaves call.slave).disconnected = false) :
    t.Attending := by
  have hother : ∀ j, j ≠ i → (t.slaves j).disconnected = (s.slaves j).disconnected := by
    intro j hj
    rw [hbeside.gone, setSlave_slaves, if_neg hj]
  refine ⟨?_, ?_, ?_, ?_, ?_, ?_⟩
  · intro call hcall
    obtain ⟨hmem, hne⟩ := hsending call hcall
    rw [hother _ hne]
    exact h.reachable call hmem
  · intro call hcall
    rw [htelling] at hcall
    cases hcall
  · intro j hj
    rw [hbeside.gone, setSlave_slaves] at hj
    rw [hloop, setSlave_slaves]
    split_ifs at hj ⊢
    · rfl
    · exact h.ended j hj
  · intro hne
    rw [hbeside.one] at hne
    obtain ⟨call, hcall, hslave, hthere⟩ := hunsettled hne
    exact ⟨call, hcall, id, (hother _ hslave).trans hthere⟩
  · rw [hbeside.all.1, hbeside.all.2.1]
    exact h.gathered
  · rw [hbeside.all.1, hbeside.all.2.2, hbeside.slaves.1, hbeside.slaves.2]
    exact h.missing

theorem Attending.disconnect (h : s.Attending) {i : ℕ} {resumed : List Call} {raised : Bool}
    (hidle : s.Idle) (hend : s.ResumedAtEnd i resumed raised)
    (hok : s.Serving (.disconnect i resumed raised)) : (s.disconnect i resumed).Attending := by
  obtain ⟨-, hone, hwait⟩ := hok
  obtain ⟨hsending, htelling, hunsettled, hslaves, hbeside⟩ := foldl_fail_books resumed
    (s.setSlave i { s.slaves i with disconnected := true, looping := false })
  -- a call of another slave is not among those that fail
  have hstill : ∀ call, call ∈ s.unsettled → call.slave ≠ i → call ∈ s.unsettled.diff resumed := by
    intro call hcall hne
    apply List.mem_diff_of_mem hcall
    intro hresumed
    have hwaiting := hend.2.1.2 call hresumed
    simp only [waiting, List.mem_filter, decide_eq_true_eq] at hwaiting
    exact hne hwaiting.2.1
  rw [Master.disconnect]
  split
  · -- the call in progress fails as well
    rename_i call hcall
    rw [inProgress, hsending] at hcall
    have hslave : call.slave = i := by simpa using List.find?_some hcall
    have hsent := beside_sent (resumed.foldl fail
      (s.setSlave i { s.slaves i with disconnected := true, looping := false })) call false
    obtain ⟨hsending', htelling', hunsettled', hloop'⟩ := sent_books (resumed.foldl fail
      (s.setSlave i { s.slaves i with disconnected := true, looping := false })) call false
    apply h.gone (hbeside.trans hsent)
    · intro j
      rw [hloop', hslaves]
    · intro call' hcall'
      rw [hsending', hsending] at hcall'
      exact ⟨List.mem_of_mem_erase hcall', not_mem_of_inProgress hone hcall hcall'⟩
    · rw [htelling', htelling]
      exact hidle.1
    · intro hne
      obtain ⟨call', hcall', hne', hthere⟩ := hwait hne
      refine ⟨call', ?_, hne', hthere⟩
      rw [hunsettled', hunsettled]
      refine (List.mem_erase_of_ne ?_).mpr (hstill call' hcall' hne')
      rintro rfl
      exact hne' hslave
  · -- none was in progress
    rename_i hnobody
    rw [inProgress, hsending, List.find?_eq_none] at hnobody
    apply h.gone hbeside
    · intro j
      rw [hslaves]
    · intro call' hcall'
      rw [hsending] at hcall'
      exact ⟨hcall', by simpa using hnobody call' hcall'⟩
    · rw [htelling]
      exact hidle.1
    · intro hne
      obtain ⟨call', hcall', hne', hthere⟩ := hwait hne
      refine ⟨call', ?_, hne', hthere⟩
      rw [hunsettled]
      exact hstill call' hcall' hne'

end Master

end LuaFan
