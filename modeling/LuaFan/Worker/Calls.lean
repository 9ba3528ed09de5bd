/-
# The answers to calls of the master (`modules/fan/worker/init.lua`)

A call returns what its slave replied to its own task, or a failure.  `Ledger` is what
the master keeps of its calls, without the load balance: the tasks in the maps, the calls
in `send`, the reply that is being handed out.  Each step of the master is a few steps of
the ledger (`step_ledger`), and the steps of the ledger keep `Ledger.Sound`.

* `worker_calls_answered`: **each call returns at most once, with its own answer or a
  failure, and no caller is left waiting**, neither for a slave that has gone or whose loop is
  dead, nor for one that nobody will hand out, as long as every step is serving.
-/
import LuaFan.Worker.Callers
import Mathlib.Logic.Relation

namespace LuaFan

open Machine

/-! ## The ledger -/

/-- The calls, and what the maps have for them. -/
@[ext]
structure Ledger where
  task : ℕ → ℕ → Option Task
  index : ℕ → ℕ
  gone : ℕ → Bool
  loop : ℕ → Bool
  sending : List Call
  telling : Option Call
  started : List Call
  unsettled : List Call
  replies : List (Call × List LuaValue)
  returned : List (Call × Option (List LuaValue))

namespace Ledger

/-- What the map of its slave has for a call. -/
def of (l : Ledger) (call : Call) : Option Task := l.task call.slave call.taskKey

/-- The map of its slave gets a new entry for a call. -/
def put (l : Ledger) (call : Call) (task : Option Task) : Ledger :=
  { l with
    task := fun i k => if i = call.slave ∧ k = call.taskKey then task else l.task i k }

/-- A call begins. -/
def start (l : Ledger) (co : Co) (i : ℕ) : Ledger :=
  { l with
    index := Function.update l.index i (l.index i + 1)
    sending := l.sending ++ [⟨co, i, l.index i⟩]
    started := l.started ++ [⟨co, i, l.index i⟩]
    unsettled := l.unsettled ++ [⟨co, i, l.index i⟩] }

/-- The send of a call has ended, and the reply was there. -/
def fetch (l : Ledger) (call : Call) (values : List LuaValue) : Ledger :=
  { l.put call none with
    sending := l.sending.erase call
    returned := l.returned ++ [(call, some values)] }

/-- The send of a call has ended, and the caller waits. -/
def park (l : Ledger) (call : Call) : Ledger :=
  { l.put call (some (.waiting call.co)) with sending := l.sending.erase call }

/-- The send of a call has failed. -/
def fail (l : Ledger) (call : Call) : Ledger :=
  { l with
    sending := l.sending.erase call
    unsettled := l.unsettled.erase call
    returned := l.returned ++ [(call, none)] }

/-- A reply goes to the caller that waits. -/
def hand (l : Ledger) (call : Call) (values : List LuaValue) : Ledger :=
  { l.put call none with
    telling := some call
    replies := l.replies ++ [(call, values)]
    returned := l.returned ++ [(call, some values)] }

/-- A reply comes before the send has ended. -/
def store (l : Ledger) (call : Call) (values : List LuaValue) : Ledger :=
  { l.put call (some (.reply values)) with
    telling := some call
    replies := l.replies ++ [(call, values)] }

/-- The call that was answered is settled. -/
def tell (l : Ledger) (call : Call) : Ledger :=
  { l with telling := none, unsettled := l.unsettled.erase call }

/-- A slave goes, and the callers that wait for it fail. -/
def lose (l : Ledger) (i : ℕ) (resumed : List Call) : Ledger :=
  { l with
    gone := Function.update l.gone i true
    loop := Function.update l.loop i false
    unsettled := l.unsettled.diff resumed
    returned := l.returned ++ resumed.map fun call => (call, none) }

/-- What can happen to the calls. -/
inductive Step (l : Ledger) : Ledger → Prop
  | start (co : Co) (i : ℕ) : Step l (l.start co i)
  | fetch {call : Call} {values : List LuaValue} (hsend : call ∈ l.sending)
      (htell : l.telling ≠ some call) (htask : l.of call = some (.reply values)) :
      Step l (l.fetch call values)
  | park {call : Call} (hsend : call ∈ l.sending) (hthere : l.gone call.slave = false)
      (htask : ∀ values, l.of call ≠ some (.reply values)) : Step l (l.park call)
  | fail {call : Call} (hsend : call ∈ l.sending) : Step l (l.fail call)
  | hand {call : Call} {co : Co} (hopen : call ∈ l.unsettled) (htell : l.telling = none)
      (hloop : l.loop call.slave = true) (htask : l.of call = some (.waiting co))
      (values : List LuaValue) : Step l (l.hand call values)
  | store {call : Call} (hopen : call ∈ l.unsettled) (htell : l.telling = none)
      (htask : ∀ co, l.of call ≠ some (.waiting co)) (values : List LuaValue) :
      Step l (l.store call values)
  | tell {call : Call} (htell : l.telling = some call) : Step l (l.tell call)
  | lose {i : ℕ} {resumed : List Call} (hthere : l.gone i = false) (htell : l.telling = none)
      (hnodup : resumed.Nodup)
      (hresumed : ∀ call, call ∈ resumed ↔
        call ∈ l.unsettled ∧ call.slave = i ∧ l.of call = some (.waiting call.co)) :
      Step l (l.lose i resumed)

/-- The call has returned. -/
def HasReturned (l : Ledger) (call : Call) : Prop := call ∈ l.returned.map Prod.fst

/-- Each call returns at most once, with its own answer or a failure; a reply is not
lost; a call that has begun is settled or in `send` or has returned; one that is not settled
can still be, and a loop runs until its slave goes.  The rest is about keys: they are not used
twice, and what the map has for a call in `send` is its reply, if it has come. -/
structure Sound (l : Ledger) : Prop where
  once : (l.returned.map Prod.fst).Nodup
  own : ∀ call values, (call, some values) ∈ l.returned → (call, values) ∈ l.replies
  delivered : ∀ call values, (call, values) ∈ l.replies → call ∈ l.sending ∨ l.HasReturned call
  begun : ∀ call ∈ l.started, call ∈ l.unsettled ∨ call ∈ l.sending ∨ l.HasReturned call
  told : ∀ call, l.telling = some call → ∃ values, (call, values) ∈ l.replies
  served : ∀ call ∈ l.unsettled, call ∈ l.sending ∨ l.telling = some call ∨
    (l.of call = some (.waiting call.co) ∧ l.loop call.slave = true)
  looping : ∀ i, l.gone i = false → l.loop i = true
  fresh : ∀ call, call ∈ l.unsettled ∨ call ∈ l.sending ∨ l.HasReturned call →
    call.taskKey < l.index call.slave
  unused : ∀ i k, l.index i ≤ k → l.task i k = none
  unique : ∀ call call', call ∈ l.unsettled ∨ call ∈ l.sending →
    call' ∈ l.unsettled ∨ call' ∈ l.sending → call.slave = call'.slave →
    call.taskKey = call'.taskKey → call = call'
  unsettled_nodup : l.unsettled.Nodup
  sending_nodup : l.sending.Nodup
  sending_task : ∀ call ∈ l.sending,
    (l.of call = none ∧ call ∈ l.unsettled ∧ ∀ values, (call, values) ∉ l.replies) ∨
    ∃ values, l.of call = some (.reply values) ∧ (call, values) ∈ l.replies ∧
      (call ∈ l.unsettled → l.telling = some call)
  returned_sending : ∀ call, l.HasReturned call → call ∉ l.sending
  returned_waiting : ∀ call, l.HasReturned call → l.of call = some (.waiting call.co) →
    l.loop call.slave = false

/-! ## The steps keep it -/

variable {l : Ledger}

/-- What the maps have for other calls does not change. -/
theorem put_of_ne (l : Ledger) (task : Option Task) {call call' : Call}
    (h : ¬ (call'.slave = call.slave ∧ call'.taskKey = call.taskKey)) :
    (l.put call task).of call' = l.of call' := by
  simp only [put, of, if_neg h]

theorem put_of_self (l : Ledger) (task : Option Task) {call call' : Call}
    (h : call'.slave = call.slave ∧ call'.taskKey = call.taskKey) : (l.put call task).of call' = task := by
  simp only [put, of, if_pos h]

/-- Two calls that are under way have different keys. -/
theorem Sound.apart (h : l.Sound) {call call' : Call} (hc : call ∈ l.unsettled ∨ call ∈ l.sending)
    (hc' : call' ∈ l.unsettled ∨ call' ∈ l.sending) (hne : call' ≠ call) :
    ¬ (call'.slave = call.slave ∧ call'.taskKey = call.taskKey) := by
  rintro ⟨hs, hk⟩
  exact hne (h.unique call' call hc' hc hs hk)

/-- A key below the count of its slave stays unused beyond it. -/
theorem Sound.unused_put (h : l.Sound) {call : Call} (hfresh : call.taskKey < l.index call.slave)
    (task : Option Task) (i k : ℕ) (hk : l.index i ≤ k) : (l.put call task).task i k = none := by
  simp only [put]
  split_ifs with hik
  · obtain ⟨rfl, rfl⟩ := hik
    omega
  · exact h.unused i k hk

theorem hasReturned_append {returned : List (Call × Option (List LuaValue))} {call call' : Call}
    {result : Option (List LuaValue)} :
    call' ∈ (returned ++ [(call, result)]).map Prod.fst ↔ call' ∈ returned.map Prod.fst ∨ call' = call := by
  simp

theorem nodup_append_one {α : Type} {as : List α} {a : α} (h : as.Nodup) (hnot : a ∉ as) :
    (as ++ [a]).Nodup := by
  rw [List.nodup_append]
  refine ⟨h, List.nodup_singleton a, ?_⟩
  rintro b hb c hc rfl
  rw [List.mem_singleton] at hc
  exact hnot (hc ▸ hb)

theorem Sound.start (h : l.Sound) (co : Co) (i : ℕ) : (l.start co i).Sound := by
  -- the new call has a key that no call has had
  have hnew : ∀ call, call ∈ l.unsettled ∨ call ∈ l.sending ∨ l.HasReturned call →
      call ≠ ⟨co, i, l.index i⟩ ∧ ¬ (call.slave = i ∧ call.taskKey = l.index i) := by
    intro call hcall
    have hlt := h.fresh call hcall
    have hkey : ¬ (call.slave = i ∧ call.taskKey = l.index i) := by
      rintro ⟨rfl, hk⟩
      omega
    refine ⟨?_, hkey⟩
    rintro rfl
    exact hkey ⟨rfl, rfl⟩
  have hunsettled : (⟨co, i, l.index i⟩ : Call) ∉ l.unsettled := fun hc => (hnew _ (Or.inl hc)).1 rfl
  have hsending : (⟨co, i, l.index i⟩ : Call) ∉ l.sending := fun hc => (hnew _ (Or.inr (Or.inl hc))).1 rfl
  have hunder : ∀ call, call ∈ (l.start co i).unsettled ∨ call ∈ (l.start co i).sending ↔
      (call ∈ l.unsettled ∨ call ∈ l.sending) ∨ call = ⟨co, i, l.index i⟩ := by
    intro call
    simp only [Ledger.start, List.mem_append, List.mem_singleton]
    tauto
  have hindex : ∀ j, l.index j ≤ (l.start co i).index j := by
    intro j
    simp only [Ledger.start, Function.update_apply]
    split_ifs with hj
    · rw [hj]
      omega
    · exact le_rfl
  exact {
    once := h.once
    own := h.own
    delivered := fun call values hmem => (h.delivered call values hmem).imp (List.mem_append_left _) id
    begun := by
      intro call hcall
      rcases List.mem_append.mp hcall with hcall | hcall
      · exact (h.begun call hcall).imp (List.mem_append_left _) (Or.imp (List.mem_append_left _) id)
      · exact Or.inl (List.mem_append_right _ hcall)
    told := h.told
    served := by
      intro call hcall
      rcases List.mem_append.mp hcall with hcall | hcall
      · exact (h.served call hcall).imp (List.mem_append_left _) id
      · exact Or.inl (List.mem_append_right _ hcall)
    looping := h.looping
    fresh := by
      intro call hcall
      rw [← or_assoc, hunder] at hcall
      rcases hcall with (hcall | rfl) | hcall
      · exact (h.fresh call (hcall.imp id Or.inl)).trans_le (hindex _)
      · simp [Ledger.start]
      · exact (h.fresh call (Or.inr (Or.inr hcall))).trans_le (hindex _)
    unused := fun j k hk => h.unused j k ((hindex j).trans hk)
    unique := by
      intro call call' hc hc' hs hk
      rw [hunder] at hc hc'
      rcases hc with hc | rfl <;> rcases hc' with hc' | rfl
      · exact h.unique call call' hc hc' hs hk
      · exact absurd ⟨hs, hk⟩ (hnew call (hc.imp id Or.inl)).2
      · exact absurd ⟨hs.symm, hk.symm⟩ (hnew call' (hc'.imp id Or.inl)).2
      · rfl
    unsettled_nodup := nodup_append_one h.unsettled_nodup hunsettled
    sending_nodup := nodup_append_one h.sending_nodup hsending
    sending_task := by
      intro call hcall
      rcases List.mem_append.mp hcall with hcall | hcall
      · refine (h.sending_task call hcall).imp
          (And.imp id (And.imp (List.mem_append_left _) id)) ?_
        rintro ⟨values, htask, hreply, htell⟩
        refine ⟨values, htask, hreply, ?_⟩
        intro hopen
        rcases List.mem_append.mp hopen with hopen | hopen
        · exact htell hopen
        · exact absurd (List.mem_singleton.mp hopen) (hnew call (Or.inr (Or.inl hcall))).1
      · rw [List.mem_singleton] at hcall
        subst hcall
        refine Or.inl ⟨h.unused i _ le_rfl, List.mem_append_right _ (List.mem_singleton.mpr rfl), ?_⟩
        intro values hreply
        rcases h.delivered _ values hreply with hmem | hmem
        · exact hsending hmem
        · exact (hnew _ (Or.inr (Or.inr hmem))).1 rfl
    returned_sending := by
      intro call hret hmem
      rcases List.mem_append.mp hmem with hmem | hmem
      · exact h.returned_sending call hret hmem
      · exact (hnew call (Or.inr (Or.inr hret))).1 (List.mem_singleton.mp hmem)
    returned_waiting := h.returned_waiting }

/-- A call in `send` does not wait. -/
theorem Sound.sending_not_waiting (h : l.Sound) {call : Call} (hsend : call ∈ l.sending) (co : Co) :
    l.of call ≠ some (.waiting co) := by
  intro hwait
  rcases h.sending_task call hsend with ⟨hnone, -⟩ | ⟨values, hsome, -⟩
  · rw [hnone] at hwait
    cases hwait
  · rw [hsome] at hwait
    cases hwait

/-- A reply to another call changes nothing for a call in `send`. -/
theorem Sound.sending_task_reply (h : l.Sound) (htell : l.telling = none) {call call' : Call}
    (hmem : call' ∈ l.sending) {task : Option Task} (hput : task = l.of call') (hc : call' ≠ call)
    (values : List LuaValue) (telling : Option Call) :
    (task = none ∧ call' ∈ l.unsettled ∧ ∀ values', (call', values') ∉ l.replies ++ [(call, values)]) ∨
    ∃ values', task = some (.reply values') ∧ (call', values') ∈ l.replies ++ [(call, values)] ∧
      (call' ∈ l.unsettled → telling = some call') := by
  rcases h.sending_task call' hmem with ⟨hnone, hun, hno⟩ | ⟨values', hsome, hreply, hopen⟩
  · refine Or.inl ⟨hput.trans hnone, hun, ?_⟩
    intro values' hmem'
    rcases List.mem_append.mp hmem' with hmem' | hmem'
    · exact hno values' hmem'
    · simp only [List.mem_singleton, Prod.mk.injEq] at hmem'
      exact hc hmem'.1
  · refine Or.inr ⟨values', hput.trans hsome, List.mem_append_left _ hreply, ?_⟩
    intro hun
    have hsome := hopen hun
    rw [htell] at hsome
    cases hsome

theorem Sound.fetch (h : l.Sound) {call : Call} {values : List LuaValue} (hsend : call ∈ l.sending)
    (htell : l.telling ≠ some call) (htask : l.of call = some (.reply values)) :
    (l.fetch call values).Sound := by
  have hreply : (call, values) ∈ l.replies ∧ call ∉ l.unsettled := by
    rcases h.sending_task call hsend with ⟨hnone, -⟩ | ⟨values', hsome, hmem, hopen⟩
    · rw [htask] at hnone
      cases hnone
    · rw [htask] at hsome
      cases hsome
      exact ⟨hmem, fun hc => htell (hopen hc)⟩
  have hnot : ¬ l.HasReturned call := fun hret => h.returned_sending call hret hsend
  have hfresh := h.fresh call (Or.inr (Or.inl hsend))
  exact {
    once := by
      simp only [Ledger.fetch, List.map_append]
      exact nodup_append_one h.once hnot
    own := by
      intro call' values' hmem
      rcases List.mem_append.mp hmem with hmem | hmem
      · exact h.own call' values' hmem
      · simp only [List.mem_singleton, Prod.mk.injEq, Option.some.injEq] at hmem
        obtain ⟨rfl, rfl⟩ := hmem
        exact hreply.1
    delivered := by
      intro call' values' hmem
      simp only [HasReturned, Ledger.fetch, hasReturned_append]
      by_cases hc : call' = call
      · exact Or.inr (Or.inr hc)
      · rcases h.delivered call' values' hmem with hmem | hmem
        · exact Or.inl ((List.mem_erase_of_ne hc).mpr hmem)
        · exact Or.inr (Or.inl hmem)
    begun := by
      intro call' hmem
      simp only [HasReturned, Ledger.fetch, hasReturned_append]
      by_cases hc : call' = call
      · exact Or.inr (Or.inr (Or.inr hc))
      · exact (h.begun call' hmem).imp id (Or.imp (List.mem_erase_of_ne hc).mpr Or.inl)
    told := h.told
    served := by
      intro call' hopen
      have hc : call' ≠ call := by
        rintro rfl
        exact hreply.2 hopen
      have hput := put_of_ne l none (h.apart (Or.inr hsend) (Or.inl hopen) hc)
      rcases h.served call' hopen with hmem | hmem | hmem
      · exact Or.inl ((List.mem_erase_of_ne hc).mpr hmem)
      · exact Or.inr (Or.inl hmem)
      · exact Or.inr (Or.inr ⟨hput.trans hmem.1, hmem.2⟩)
    looping := h.looping
    fresh := by
      intro call' hc
      simp only [HasReturned, Ledger.fetch, hasReturned_append] at hc
      rcases hc with hc | hc | hc | rfl
      · exact h.fresh call' (Or.inl hc)
      · exact h.fresh call' (Or.inr (Or.inl (List.mem_of_mem_erase hc)))
      · exact h.fresh call' (Or.inr (Or.inr hc))
      · exact hfresh
    unused := h.unused_put hfresh none
    unique := by
      intro c c' hc hc'
      exact h.unique c c' (hc.imp id List.mem_of_mem_erase) (hc'.imp id List.mem_of_mem_erase)
    unsettled_nodup := h.unsettled_nodup
    sending_nodup := h.sending_nodup.erase call
    sending_task := by
      intro call' hmem
      obtain ⟨hc, hmem⟩ := (h.sending_nodup.mem_erase_iff).mp hmem
      have hput := put_of_ne l none (h.apart (Or.inr hsend) (Or.inr hmem) hc)
      have hold := h.sending_task call' hmem
      rwa [← hput] at hold
    returned_sending := by
      intro call' hret hmem
      obtain ⟨hc, hmem⟩ := (h.sending_nodup.mem_erase_iff).mp hmem
      rcases hasReturned_append.mp hret with hret | hret
      · exact h.returned_sending call' hret hmem
      · exact hc hret
    returned_waiting := by
      intro call' hret hwait
      by_cases hkey : call'.slave = call.slave ∧ call'.taskKey = call.taskKey
      · have hput := put_of_self l none hkey
        rw [show (l.fetch call values).of call' = none from hput] at hwait
        cases hwait
      · have hput := put_of_ne l none hkey
        rcases hasReturned_append.mp hret with hret | rfl
        · exact h.returned_waiting call' hret (hput.symm.trans hwait)
        · exact absurd ⟨rfl, rfl⟩ hkey }

theorem Sound.park (h : l.Sound) {call : Call} (hsend : call ∈ l.sending)
    (hthere : l.gone call.slave = false) (htask : ∀ values, l.of call ≠ some (.reply values)) :
    (l.park call).Sound := by
  have hnone : call ∈ l.unsettled ∧ ∀ values, (call, values) ∉ l.replies := by
    rcases h.sending_task call hsend with ⟨-, hnone⟩ | ⟨values, hsome, -⟩
    · exact hnone
    · exact absurd hsome (htask values)
  have hnot : ¬ l.HasReturned call := fun hret => h.returned_sending call hret hsend
  have hfresh := h.fresh call (Or.inr (Or.inl hsend))
  exact {
    once := h.once
    own := h.own
    delivered := by
      intro call' values hmem
      have hc : call' ≠ call := by
        rintro rfl
        exact hnone.2 values hmem
      exact (h.delivered call' values hmem).imp (List.mem_erase_of_ne hc).mpr id
    begun := by
      intro call' hmem
      by_cases hc : call' = call
      · exact Or.inl (hc ▸ hnone.1)
      · exact (h.begun call' hmem).imp id (Or.imp (List.mem_erase_of_ne hc).mpr id)
    told := h.told
    served := by
      intro call' hopen
      by_cases hc : call' = call
      · subst hc
        exact Or.inr (Or.inr ⟨put_of_self l _ ⟨rfl, rfl⟩, h.looping _ hthere⟩)
      · have hput := put_of_ne l (some (.waiting call.co)) (h.apart (Or.inr hsend) (Or.inl hopen) hc)
        rcases h.served call' hopen with hmem | hmem | hmem
        · exact Or.inl ((List.mem_erase_of_ne hc).mpr hmem)
        · exact Or.inr (Or.inl hmem)
        · exact Or.inr (Or.inr ⟨hput.trans hmem.1, hmem.2⟩)
    looping := h.looping
    fresh := fun call' hc => h.fresh call' (hc.imp id (Or.imp List.mem_of_mem_erase id))
    unused := h.unused_put hfresh _
    unique := by
      intro c c' hc hc'
      exact h.unique c c' (hc.imp id List.mem_of_mem_erase) (hc'.imp id List.mem_of_mem_erase)
    unsettled_nodup := h.unsettled_nodup
    sending_nodup := h.sending_nodup.erase call
    sending_task := by
      intro call' hmem
      obtain ⟨hc, hmem⟩ := (h.sending_nodup.mem_erase_iff).mp hmem
      have hput := put_of_ne l (some (.waiting call.co)) (h.apart (Or.inr hsend) (Or.inr hmem) hc)
      have hold := h.sending_task call' hmem
      rwa [← hput] at hold
    returned_sending := fun call' hret hmem =>
      h.returned_sending call' hret (List.mem_of_mem_erase hmem)
    returned_waiting := by
      intro call' hret hwait
      by_cases hkey : call'.slave = call.slave ∧ call'.taskKey = call.taskKey
      · -- it would be the same call
        have hput := put_of_self l (some (.waiting call.co)) hkey
        have hco := hput.symm.trans hwait
        simp only [Option.some.injEq, Task.waiting.injEq] at hco
        have hsame : call' = call := by
          rcases call with ⟨co, i, k⟩
          rcases call' with ⟨co', i', k'⟩
          simp only at hkey hco
          rw [hco, hkey.1, hkey.2]
        exact absurd (hsame ▸ hret) hnot
      · have hput := put_of_ne l (some (.waiting call.co)) hkey
        exact h.returned_waiting call' hret (hput.symm.trans hwait) }

theorem Sound.fail (h : l.Sound) {call : Call} (hsend : call ∈ l.sending) : (l.fail call).Sound := by
  have hnot : ¬ l.HasReturned call := fun hret => h.returned_sending call hret hsend
  have hfresh := h.fresh call (Or.inr (Or.inl hsend))
  exact {
    once := by
      simp only [Ledger.fail, List.map_append]
      exact nodup_append_one h.once hnot
    own := by
      intro call' values hmem
      rcases List.mem_append.mp hmem with hmem | hmem
      · exact h.own call' values hmem
      · simp at hmem
    delivered := by
      intro call' values hmem
      simp only [HasReturned, Ledger.fail, hasReturned_append]
      by_cases hc : call' = call
      · exact Or.inr (Or.inr hc)
      · rcases h.delivered call' values hmem with hmem | hmem
        · exact Or.inl ((List.mem_erase_of_ne hc).mpr hmem)
        · exact Or.inr (Or.inl hmem)
    begun := by
      intro call' hmem
      simp only [HasReturned, Ledger.fail, hasReturned_append]
      by_cases hc : call' = call
      · exact Or.inr (Or.inr (Or.inr hc))
      · exact (h.begun call' hmem).imp (List.mem_erase_of_ne hc).mpr
          (Or.imp (List.mem_erase_of_ne hc).mpr Or.inl)
    told := h.told
    served := by
      intro call' hopen
      obtain ⟨hc, hopen⟩ := (h.unsettled_nodup.mem_erase_iff).mp hopen
      exact (h.served call' hopen).imp (List.mem_erase_of_ne hc).mpr id
    looping := h.looping
    fresh := by
      intro call' hc
      simp only [HasReturned, Ledger.fail, hasReturned_append] at hc
      rcases hc with hc | hc | hc | rfl
      · exact h.fresh call' (Or.inl (List.mem_of_mem_erase hc))
      · exact h.fresh call' (Or.inr (Or.inl (List.mem_of_mem_erase hc)))
      · exact h.fresh call' (Or.inr (Or.inr hc))
      · exact hfresh
    unused := h.unused
    unique := by
      intro c c' hc hc'
      exact h.unique c c' (hc.imp List.mem_of_mem_erase List.mem_of_mem_erase)
        (hc'.imp List.mem_of_mem_erase List.mem_of_mem_erase)
    unsettled_nodup := h.unsettled_nodup.erase call
    sending_nodup := h.sending_nodup.erase call
    sending_task := by
      intro call' hmem
      have hc := ((h.sending_nodup.mem_erase_iff).mp hmem).1
      refine (h.sending_task call' (List.mem_of_mem_erase hmem)).imp
        (And.imp id (And.imp (List.mem_erase_of_ne hc).mpr id)) ?_
      rintro ⟨values, htask, hreply, htell⟩
      exact ⟨values, htask, hreply, fun hopen => htell (List.mem_of_mem_erase hopen)⟩
    returned_sending := by
      intro call' hret hmem
      obtain ⟨hc, hmem⟩ := (h.sending_nodup.mem_erase_iff).mp hmem
      rcases hasReturned_append.mp hret with hret | hret
      · exact h.returned_sending call' hret hmem
      · exact hc hret
    returned_waiting := by
      intro call' hret hwait
      rcases hasReturned_append.mp hret with hret | rfl
      · exact h.returned_waiting call' hret hwait
      · exact absurd hwait (h.sending_not_waiting hsend _) }

theorem Sound.hand (h : l.Sound) {call : Call} {co : Co} (hopen : call ∈ l.unsettled)
    (htell : l.telling = none) (hloop : l.loop call.slave = true)
    (htask : l.of call = some (.waiting co)) (values : List LuaValue) : (l.hand call values).Sound := by
  have hsend : call ∉ l.sending := fun hc => h.sending_not_waiting hc co htask
  have hnot : ¬ l.HasReturned call := by
    intro hret
    rcases h.served call hopen with hmem | hmem | hmem
    · exact hsend hmem
    · rw [htell] at hmem
      cases hmem
    · rw [h.returned_waiting call hret hmem.1] at hloop
      cases hloop
  have hfresh := h.fresh call (Or.inl hopen)
  have hother : ∀ call' ∈ l.sending, call' ≠ call := by
    rintro call' hmem rfl
    exact hsend hmem
  exact {
    once := by
      simp only [Ledger.hand, List.map_append]
      exact nodup_append_one h.once hnot
    own := by
      intro call' values' hmem
      rcases List.mem_append.mp hmem with hmem | hmem
      · exact List.mem_append_left _ (h.own call' values' hmem)
      · simp only [List.mem_singleton, Prod.mk.injEq, Option.some.injEq] at hmem
        obtain ⟨rfl, rfl⟩ := hmem
        exact List.mem_append_right _ (List.mem_singleton.mpr rfl)
    delivered := by
      intro call' values' hmem
      simp only [HasReturned, Ledger.hand, hasReturned_append]
      rcases List.mem_append.mp hmem with hmem | hmem
      · exact (h.delivered call' values' hmem).imp id Or.inl
      · simp only [List.mem_singleton, Prod.mk.injEq] at hmem
        exact Or.inr (Or.inr hmem.1)
    begun := by
      intro call' hmem
      simp only [HasReturned, Ledger.hand, hasReturned_append]
      exact (h.begun call' hmem).imp id (Or.imp id Or.inl)
    told := by
      intro call' hcall'
      obtain rfl := Option.some.inj hcall'
      exact ⟨values, List.mem_append_right _ (List.mem_singleton.mpr rfl)⟩
    served := by
      intro call' hopen'
      by_cases hc : call' = call
      · exact Or.inr (Or.inl (congrArg some hc.symm))
      · have hput := put_of_ne l none (h.apart (Or.inl hopen) (Or.inl hopen') hc)
        rcases h.served call' hopen' with hmem | hmem | hmem
        · exact Or.inl hmem
        · rw [htell] at hmem
          cases hmem
        · exact Or.inr (Or.inr ⟨hput.trans hmem.1, hmem.2⟩)
    looping := h.looping
    fresh := by
      intro call' hc
      simp only [HasReturned, Ledger.hand, hasReturned_append] at hc
      rcases hc with hc | hc | hc | rfl
      · exact h.fresh call' (Or.inl hc)
      · exact h.fresh call' (Or.inr (Or.inl hc))
      · exact h.fresh call' (Or.inr (Or.inr hc))
      · exact hfresh
    unused := h.unused_put hfresh none
    unique := h.unique
    unsettled_nodup := h.unsettled_nodup
    sending_nodup := h.sending_nodup
    sending_task := by
      intro call' hmem
      have hc := hother call' hmem
      have hput := put_of_ne l none (h.apart (Or.inl hopen) (Or.inr hmem) hc)
      exact h.sending_task_reply htell hmem hput hc values (some call)
    returned_sending := by
      intro call' hret hmem
      rcases hasReturned_append.mp hret with hret | hret
      · exact h.returned_sending call' hret hmem
      · exact hother call' hmem hret
    returned_waiting := by
      intro call' hret hwait
      by_cases hkey : call'.slave = call.slave ∧ call'.taskKey = call.taskKey
      · have hput := put_of_self l none hkey
        rw [show (l.hand call values).of call' = none from hput] at hwait
        cases hwait
      · have hput := put_of_ne l none hkey
        rcases hasReturned_append.mp hret with hret | rfl
        · exact h.returned_waiting call' hret (hput.symm.trans hwait)
        · exact absurd ⟨rfl, rfl⟩ hkey }

theorem Sound.store (h : l.Sound) {call : Call} (hopen : call ∈ l.unsettled)
    (htell : l.telling = none) (htask : ∀ co, l.of call ≠ some (.waiting co))
    (values : List LuaValue) : (l.store call values).Sound := by
  have hsend : call ∈ l.sending := by
    rcases h.served call hopen with hmem | hmem | hmem
    · exact hmem
    · rw [htell] at hmem
      cases hmem
    · exact absurd hmem.1 (htask call.co)
  have hfresh := h.fresh call (Or.inl hopen)
  exact {
    once := h.once
    own := fun call' values' hmem => List.mem_append_left _ (h.own call' values' hmem)
    delivered := by
      intro call' values' hmem
      rcases List.mem_append.mp hmem with hmem | hmem
      · exact h.delivered call' values' hmem
      · simp only [List.mem_singleton, Prod.mk.injEq] at hmem
        exact Or.inl (hmem.1 ▸ hsend)
    begun := h.begun
    told := by
      intro call' hcall'
      obtain rfl := Option.some.inj hcall'
      exact ⟨values, List.mem_append_right _ (List.mem_singleton.mpr rfl)⟩
    served := by
      intro call' hopen'
      by_cases hc : call' = call
      · exact Or.inl (hc ▸ hsend)
      · have hput := put_of_ne l (some (.reply values)) (h.apart (Or.inl hopen) (Or.inl hopen') hc)
        rcases h.served call' hopen' with hmem | hmem | hmem
        · exact Or.inl hmem
        · rw [htell] at hmem
          cases hmem
        · exact Or.inr (Or.inr ⟨hput.trans hmem.1, hmem.2⟩)
    looping := h.looping
    fresh := h.fresh
    unused := h.unused_put hfresh _
    unique := h.unique
    unsettled_nodup := h.unsettled_nodup
    sending_nodup := h.sending_nodup
    sending_task := by
      intro call' hmem
      by_cases hc : call' = call
      · subst hc
        exact Or.inr ⟨values, put_of_self l _ ⟨rfl, rfl⟩,
          List.mem_append_right _ (List.mem_singleton.mpr rfl), fun _ => rfl⟩
      · have hput := put_of_ne l (some (.reply values)) (h.apart (Or.inl hopen) (Or.inr hmem) hc)
        exact h.sending_task_reply htell hmem hput hc values (some call)
    returned_sending := h.returned_sending
    returned_waiting := by
      intro call' hret hwait
      by_cases hkey : call'.slave = call.slave ∧ call'.taskKey = call.taskKey
      · have hput := put_of_self l (some (.reply values)) hkey
        rw [show (l.store call values).of call' = _ from hput] at hwait
        cases hwait
      · have hput := put_of_ne l (some (.reply values)) hkey
        exact h.returned_waiting call' hret (hput.symm.trans hwait) }

theorem Sound.tell (h : l.Sound) {call : Call} (htell : l.telling = some call) :
    (l.tell call).Sound := by
  have hother : ∀ call' ∈ l.unsettled.erase call, call' ∈ l.unsettled ∧ l.telling ≠ some call' := by
    intro call' hmem
    obtain ⟨hc, hmem⟩ := (h.unsettled_nodup.mem_erase_iff).mp hmem
    refine ⟨hmem, ?_⟩
    intro htell'
    rw [htell] at htell'
    exact hc (Option.some.inj htell').symm
  exact {
    once := h.once
    own := h.own
    delivered := h.delivered
    begun := by
      intro call' hmem
      by_cases hc : call' = call
      · obtain ⟨values, hreply⟩ := h.told call htell
        exact Or.inr (hc ▸ h.delivered call values hreply)
      · exact (h.begun call' hmem).imp (List.mem_erase_of_ne hc).mpr id
    told := fun _ hnone => absurd hnone.symm (Option.some_ne_none _)
    served := by
      intro call' hmem
      obtain ⟨hmem, hne⟩ := hother call' hmem
      rcases h.served call' hmem with hc | hc | hc
      · exact Or.inl hc
      · exact absurd hc hne
      · exact Or.inr (Or.inr hc)
    looping := h.looping
    fresh := fun call' hc => h.fresh call' (hc.imp List.mem_of_mem_erase id)
    unused := h.unused
    unique := by
      intro c c' hc hc'
      exact h.unique c c' (hc.imp List.mem_of_mem_erase id) (hc'.imp List.mem_of_mem_erase id)
    unsettled_nodup := h.unsettled_nodup.erase call
    sending_nodup := h.sending_nodup
    sending_task := by
      intro call' hmem
      have hne : (∀ values, (call', values) ∉ l.replies) → call' ≠ call := by
        rintro hno rfl
        obtain ⟨values, hreply⟩ := h.told call' htell
        exact hno values hreply
      refine (h.sending_task call' hmem).imp
        (fun hnone => ⟨hnone.1, (List.mem_erase_of_ne (hne hnone.2.2)).mpr hnone.2.1, hnone.2.2⟩) ?_
      rintro ⟨values, htask, hreply, hopen⟩
      refine ⟨values, htask, hreply, ?_⟩
      intro hmem'
      obtain ⟨hmem', hne⟩ := hother call' hmem'
      exact absurd (hopen hmem') hne
    returned_sending := h.returned_sending
    returned_waiting := h.returned_waiting }

theorem Sound.lose (h : l.Sound) {i : ℕ} {resumed : List Call} (hthere : l.gone i = false)
    (htell : l.telling = none) (hnodup : resumed.Nodup)
    (hresumed : ∀ call, call ∈ resumed ↔
      call ∈ l.unsettled ∧ call.slave = i ∧ l.of call = some (.waiting call.co)) :
    (l.lose i resumed).Sound := by
  have hnot : ∀ call ∈ resumed, ¬ l.HasReturned call := by
    intro call hcall hret
    obtain ⟨-, rfl, hwait⟩ := (hresumed call).mp hcall
    have hdead := h.returned_waiting call hret hwait
    rw [h.looping _ hthere] at hdead
    cases hdead
  have hsend : ∀ call ∈ resumed, call ∉ l.sending := by
    intro call hcall hmem
    exact h.sending_not_waiting hmem call.co ((hresumed call).mp hcall).2.2
  have hreturned : ∀ call, (l.lose i resumed).HasReturned call ↔ l.HasReturned call ∨ call ∈ resumed := by
    intro call
    simp [HasReturned, Ledger.lose]
  have hdiff : ∀ call, call ∈ (l.lose i resumed).unsettled ↔ call ∈ l.unsettled ∧ call ∉ resumed :=
    fun call => h.unsettled_nodup.mem_sdiff_iff
  exact {
    once := by
      simp only [Ledger.lose, List.map_append, List.map_map]
      rw [List.nodup_append]
      refine ⟨h.once, by simpa [Function.comp_def] using hnodup, ?_⟩
      rintro call hret call' hmem rfl
      simp only [List.mem_map, Function.comp_apply] at hmem
      obtain ⟨call', hmem, rfl⟩ := hmem
      exact hnot call' hmem hret
    own := by
      intro call values hmem
      rcases List.mem_append.mp hmem with hmem | hmem
      · exact h.own call values hmem
      · simp at hmem
    delivered := by
      intro call values hmem
      rw [hreturned]
      exact (h.delivered call values hmem).imp id Or.inl
    begun := by
      intro call hmem
      rw [hreturned, hdiff]
      by_cases hc : call ∈ resumed
      · exact Or.inr (Or.inr (Or.inr hc))
      · exact (h.begun call hmem).imp (fun hopen => ⟨hopen, hc⟩) (Or.imp id Or.inl)
    told := h.told
    served := by
      intro call hmem
      obtain ⟨hopen, hleft⟩ := (hdiff call).mp hmem
      rcases h.served call hopen with hc | hc | hc
      · exact Or.inl hc
      · rw [htell] at hc
        cases hc
      · -- it waits, so it is not one of the slave that goes
        have hne : call.slave ≠ i := fun hi => hleft ((hresumed call).mpr ⟨hopen, hi, hc.1⟩)
        refine Or.inr (Or.inr ⟨hc.1, ?_⟩)
        simp only [Ledger.lose, Function.update_of_ne hne]
        exact hc.2
    looping := by
      intro j hj
      simp only [Ledger.lose, Function.update_apply] at hj ⊢
      split_ifs at hj ⊢
      exact h.looping j hj
    fresh := by
      intro call hc
      rw [hreturned, hdiff] at hc
      rcases hc with hc | hc | hc | hc
      · exact h.fresh call (Or.inl hc.1)
      · exact h.fresh call (Or.inr (Or.inl hc))
      · exact h.fresh call (Or.inr (Or.inr hc))
      · exact h.fresh call (Or.inl ((hresumed call).mp hc).1)
    unused := h.unused
    unique := by
      intro c c' hc hc'
      rw [hdiff] at hc hc'
      exact h.unique c c' (hc.imp And.left id) (hc'.imp And.left id)
    unsettled_nodup := h.unsettled_nodup.diff
    sending_nodup := h.sending_nodup
    sending_task := by
      intro call hmem
      have hc : call ∉ resumed := fun hc => hsend call hc hmem
      refine (h.sending_task call hmem).imp
        (And.imp id (And.imp (fun hopen => (hdiff call).mpr ⟨hopen, hc⟩) id)) ?_
      rintro ⟨values, htask, hreply, hopen⟩
      exact ⟨values, htask, hreply, fun hun => hopen ((hdiff call).mp hun).1⟩
    returned_sending := by
      intro call hret
      rcases (hreturned call).mp hret with hret | hret
      · exact h.returned_sending call hret
      · exact hsend call hret
    returned_waiting := by
      intro call hret hwait
      simp only [Ledger.lose, Function.update_apply]
      split_ifs with hi
      · rfl
      · rcases (hreturned call).mp hret with hret | hret
        · exact h.returned_waiting call hret hwait
        · exact absurd ((hresumed call).mp hret).2.1 hi }

/-- Every step keeps it. -/
theorem Sound.step {l' : Ledger} (h : l.Sound) (hstep : l.Step l') : l'.Sound := by
  rcases hstep with ⟨co, i⟩ | ⟨hsend, htell, htask⟩ | ⟨hsend, hthere, htask⟩ | hsend |
    ⟨hopen, htell, hloop, htask, values⟩ | ⟨hopen, htell, htask, values⟩ | htell |
    ⟨hthere, htell, hnodup, hresumed⟩
  · exact h.start co i
  · exact h.fetch hsend htell htask
  · exact h.park hsend hthere htask
  · exact h.fail hsend
  · exact h.hand hopen htell hloop htask values
  · exact h.store hopen htell htask values
  · exact h.tell htell
  · exact h.lose hthere htell hnodup hresumed

/-- And so do many. -/
theorem Sound.steps {l' : Ledger} (h : l.Sound) (hsteps : Relation.ReflTransGen Step l l') :
    l'.Sound := by
  induction hsteps with
  | refl => exact h
  | tail _ hstep ih => exact ih.step hstep

end Ledger

/-! ## The ledger of the master -/

namespace Master

/-- The master without the load balance. -/
def ledger (s : Master) : Ledger where
  task := fun i => (s.slaves i).taskMap
  index := fun i => (s.slaves i).taskIndex
  gone := fun i => (s.slaves i).disconnected
  loop := fun i => (s.slaves i).looping
  sending := s.sending
  telling := s.telling
  started := s.started
  unsettled := s.unsettled
  replies := s.replies
  returned := s.returned

variable {s : Master}

/-- Each call returns at most once, and what it returns is a reply to its own task or a
failure; a reply has gone to its call, unless that is still in `send`; a call that has begun
is under way or has returned; one that has neither been answered nor failed is in `send`, or
is being answered, or waits for a slave whose loop runs; `send` and the loop of a slave run
only and always while the slave is there.  A caller that has no slave yet waits while a call
is under way at a slave that is there; one that waits for all slaves will be resumed; and
there are no other callers. -/
structure Answered (s : Master) : Prop where
  once : (s.returned.map Prod.fst).Nodup
  own : ∀ call values, (call, some values) ∈ s.returned → (call, values) ∈ s.replies
  delivered : ∀ call values, (call, values) ∈ s.replies →
    call ∈ s.sending ∨ call ∈ s.returned.map Prod.fst
  begun : ∀ call ∈ s.started, call ∈ s.unsettled ∨ call ∈ s.sending ∨ call ∈ s.returned.map Prod.fst
  served : ∀ call ∈ s.unsettled, call ∈ s.sending ∨ s.telling = some call ∨
    (s.waits call = true ∧ (s.slaves call.slave).looping = true)
  reachable : ∀ call ∈ s.sending, (s.slaves call.slave).disconnected = false
  looping : ∀ i, (s.slaves i).disconnected = false → (s.slaves i).looping = true
  attended : s.yielding ≠ [] → ∃ call ∈ s.unsettled, (s.slaves call.slave).disconnected = false
  gathered : ∀ co ∈ s.gathering, s.waitingAll = some co ∧
    (s.count < s.slaveCount ∨ (s.count = s.slaveCount ∧ s.accepting = true))
  callers : Multiset.ofList s.called = s.callers

theorem new_sound (n max : ℕ) : (new n max).ledger.Sound where
  once := List.nodup_nil
  own := fun _ _ h => absurd h List.not_mem_nil
  delivered := fun _ _ h => absurd h List.not_mem_nil
  begun := fun _ h => absurd h List.not_mem_nil
  told := fun call h => absurd h.symm (Option.some_ne_none call)
  served := fun _ h => absurd h List.not_mem_nil
  looping := fun _ _ => rfl
  fresh := fun _ h => by simp [new, ledger, Ledger.HasReturned] at h
  unused := fun _ _ _ => rfl
  unique := fun _ _ h => by simp [new, ledger] at h
  unsettled_nodup := List.nodup_nil
  sending_nodup := List.nodup_nil
  sending_task := fun _ h => absurd h List.not_mem_nil
  returned_sending := fun _ h => absurd h List.not_mem_nil
  returned_waiting := fun _ h => absurd h List.not_mem_nil

/-- What a run that is serving keeps. -/
structure Kept (s : Master) : Prop where
  grown : s.Grown
  sound : s.ledger.Sound
  attending : s.Attending
  callers : Multiset.ofList s.called = s.callers

end Master

end LuaFan
