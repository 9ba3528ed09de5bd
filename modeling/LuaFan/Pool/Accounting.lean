/-
# What the pools guarantee

* `pool_no_lost_wakeup`: a coroutine waits only while there is neither an idle
  resource nor capacity, **as long as no resource is rejected while somebody waits**;
  a rejection returns capacity without waking anybody.
* `pool_accounting`: capacity, idle resources and resources with borrowers add up to
  the size of the pool **if and only if no call inside `pop` has raised** (nor
  `onunbind` in the `push` of `safe`).
* `pool_exclusive`: the resources made and not rejected are each in one place, there are never
  more of them than the size of the pool, and blocked coroutines are served in order, each with
  the resource that is put back.
-/
import LuaFan.Pool.FanPool
import LuaFan.Pool.MariadbPool

namespace LuaFan

open Lending Machine

/-! ## Nobody waits in vain -/

namespace FanPool

variable {cb : Callbacks}

/-- No resource is rejected while a coroutine waits. -/
def RejectsOnlyUnawaited (cb : Callbacks) (s : State) (e : Event) : Prop :=
  rejects cb s e → s.yielding = []

instance (cb : Callbacks) (s : State) (e : Event) : Decidable (RejectsOnlyUnawaited cb s e) :=
  inferInstanceAs (Decidable (_ → _))

theorem step_noLostWakeup (hnew : cb.onnew = true) {s s' : State} {e : Event}
    (h : s.NoLostWakeup) (hok : RejectsOnlyUnawaited cb s e) (hstep : step cb s e = some s') :
    s'.NoLostWakeup := by
  refine step_keeps ?_ ?_ ?_ ?_ h hstep
  · intro s s' hidle hcount hyield _ _ h
    rw [Desk.NoLostWakeup, hidle, hcount, hyield]
    exact h
  · intro s co safe h
    rw [pop, if_pos hnew]
    exact Desk.noLostWakeup_popWith (popItem_gives cb) h co safe
  · intro s item h
    exact Desk.noLostWakeup_putBack (popItem_gives cb) h item
  · intro hrej s₁ _ hyield hwait
    exact absurd (hyield.trans (hok hrej)) hwait

end FanPool

/-- **No lost wakeup**: if some coroutine is queued in `pop`, there is no idle resource
and no capacity. -/
theorem pool_no_lost_wakeup {cb : FanPool.Callbacks} (hnew : cb.onnew = true) {size : ℕ}
    {es : List FanPool.Event} {s : FanPool.State}
    (hmeets : Meets (FanPool.step cb) (FanPool.RejectsOnlyUnawaited cb) (FanPool.new size) es)
    (hrun : run (FanPool.step cb) (FanPool.new size) es = some s) :
    s.yielding ≠ [] → s.idle = [] ∧ s.count = 0 := by
  refine run_invariant (P := Desk.NoLostWakeup) ?_ ?_ hmeets hrun
  · intro s e s' h hok hstep
    exact FanPool.step_noLostWakeup hnew h hok hstep
  · intro hwait
    exact absurd rfl hwait

/-- A pool of one, with `onnew` and `onunbind`. -/
def exampleCallbacks : FanPool.Callbacks := ⟨true, false, true⟩

/-- Coroutine 1 borrows the resource, coroutines 2 and 3 wait, and 1 gives it to 2. -/
def queuedEvents : List FanPool.Event :=
  [.pop 1 false, .done 1 (some (.table 7)), .pop 2 false, .pop 3 true,
    .push 1 (.table 7) (.table 7), .done 1 (some (.table 7))]

theorem pool_no_lost_wakeup_queued : ∃ s : FanPool.State,
    run (FanPool.step exampleCallbacks) (FanPool.new 1) queuedEvents = some s ∧
      s.yielding = [(3, true)] ∧ s.idle = [] ∧ s.count = 0 := by
  have hmeets : Meets (FanPool.step exampleCallbacks)
      (FanPool.RejectsOnlyUnawaited exampleCallbacks) (FanPool.new 1) queuedEvents := by decide
  exact ⟨_, rfl, rfl, pool_no_lost_wakeup rfl hmeets rfl (by decide)⟩

/-- The resource is rejected while coroutine 2 waits: capacity comes back, and nobody is
woken. -/
theorem rejected_resource_wakes_nobody : ∃ s : FanPool.State,
    run (FanPool.step exampleCallbacks) (FanPool.new 1) [.pop 1 false, .done 1 (some (.table 7)),
      .pop 2 false, .push 1 (.table 7) (.table 7), .done 1 (some .nil)] = some s ∧
    s.yielding = [(2, false)] ∧ s.count = 1 :=
  ⟨_, rfl, rfl, rfl⟩

/-! ## The capacity adds up -/

/-- The slots of a pool whose steps may cost some: what is left is what was there, less
the steps that cost one. -/
theorem Desk.Lawful.balanced_iff {F M ε : Type} {slot : F → Co → Slot Co LuaValue}
    {step : Desk F M → ε → Option (Desk F M)} {proper : Desk F M → ε → Prop}
    {made gone : Desk F M → ε → Multiset LuaValue} {leaks : Desk F M → ε → Bool}
    {returned : Desk F M → ε → Option LuaValue}
    (hlawful : Desk.Lawful slot step proper made gone leaks returned) {size : ℕ} {memo : M} {es : List ε}
    {s : Desk F M} (hmeets : Meets step proper (Desk.new size memo) es)
    (hrun : run step (Desk.new size memo) es = some s) :
    s.count + s.idle.length + s.held = size ↔
      Meets step (fun s e => leaks s e = false) (Desk.new size memo) es := by
  -- the slots are never more than at first, and a step that costs one makes them fewer
  have hone : ∀ s e s', (s.slots slot).card ≤ size → proper s e → step s e = some s' →
      (s'.slots slot).card ≤ size ∧
        ((s'.slots slot).card = size ↔ (s.slots slot).card = size ∧ leaks s e = false) := by
    intro s e s' hle hproper hs
    have hcard := (hlawful.effect s e s' hproper hs).card
    refine ⟨by omega, ?_⟩
    rcases hleak : leaks s e with _ | _
    · simp [hcard, hleak]
    · rw [hleak, Bool.toNat_true] at hcard
      simp
      omega
  have hnew : ((Desk.new size memo : Desk F M).slots slot).card = size := by simp
  have hiff := (run_iff (P := fun s : Desk F M => (s.slots slot).card ≤ size)
    (Q := fun s => (s.slots slot).card = size) hone hnew.le hmeets hrun).2
  rw [Desk.card_slots s] at hiff
  rw [hiff]
  exact and_iff_right hnew

/-- **Capacity accounting**: the capacity left, the idle resources and those with
borrowers add up to the size of the pool if and only if no step of the run let a call
raise inside `pop` (for fan.pool, nor `onunbind` in the `push` of `safe`). -/
theorem pool_accounting (size : ℕ) :
    (∀ (cb : FanPool.Callbacks) (es : List FanPool.Event) (s : FanPool.State),
      Meets (FanPool.step cb) (FanPool.Proper cb) (FanPool.new size) es →
      run (FanPool.step cb) (FanPool.new size) es = some s →
      (s.count + s.idle.length + s.held = size ↔
        Meets (FanPool.step cb) (fun s e => FanPool.leaks s e = false) (FanPool.new size) es)) ∧
    ∀ (es : List MariadbPool.Event) (s : MariadbPool.State),
      Meets MariadbPool.step MariadbPool.Proper (MariadbPool.new size) es →
      run MariadbPool.step (MariadbPool.new size) es = some s →
      (s.count + s.idle.length + s.held = size ↔
        Meets MariadbPool.step (fun s e => MariadbPool.leaks s e = false) (MariadbPool.new size) es) := by
  constructor
  · intro cb es s hmeets hrun
    exact (FanPool.lawful cb).balanced_iff hmeets hrun
  · intro es s hmeets hrun
    exact MariadbPool.lawful.balanced_iff hmeets hrun

/-- `onunbind` raises in a `push`, and the resource stays with its borrower. -/
theorem pool_accounting_failed_push : ∃ s : FanPool.State,
    run (FanPool.step exampleCallbacks) (FanPool.new 1) [.pop 1 false, .done 1 (some (.table 7)),
      .push 1 (.table 7) (.table 7), .done 1 none] = some s ∧
    s.count + s.idle.length + s.held = 1 := by
  refine ⟨_, rfl, ((pool_accounting 1).1 exampleCallbacks [.pop 1 false, .done 1 (some (.table 7)),
    .push 1 (.table 7) (.table 7), .done 1 none] _ ?_ rfl).mpr ?_⟩
  · decide
  · decide

/-- `onnew` raises, and the only slot of the pool is gone; in the same way for a
connection that fails. -/
theorem failed_pop_loses_capacity :
    (∃ s : FanPool.State,
      run (FanPool.step exampleCallbacks) (FanPool.new 1) [.pop 1 false, .done 1 none] = some s ∧
        s.count + s.idle.length + s.held = 0) ∧
    ∃ s : MariadbPool.State,
      run MariadbPool.step (MariadbPool.new 1) [.pop 1 false, .done 1 none] = some s ∧
        s.count + s.idle.length + s.held = 0 :=
  ⟨⟨_, rfl, rfl⟩, ⟨_, rfl, rfl⟩⟩

/-! ## Exclusive, bounded, in order -/

/-- Of the resources made, each that is not gone is in one place, which is the idle list or a
borrower; there are at most `size` of them; and the blocked coroutines are served in order. -/
structure Exclusive {F M : Type} (slot : F → Co → Slot Co LuaValue) (size : ℕ)
    (made gone : Multiset LuaValue) (s : Desk F M) : Prop where
  conserved : made = Multiset.ofList s.idle + (s.lent slot).map Prod.snd + gone
  one_place : (Multiset.ofList s.idle + (s.lent slot).map Prod.snd).Nodup
  bounded : s.idle.length + (s.lent slot).card ≤ size
  in_order : s.blocked = s.served ++ s.yielding.map Prod.fst

theorem items_new {F M : Type} (slot : F → Co → Slot Co LuaValue) (size : ℕ) (memo : M) :
    items ((Desk.new size memo : Desk F M).slots slot) = 0 := by
  rw [Desk.slots_new]
  apply Multiset.eq_zero_of_forall_notMem
  intro r hr
  obtain ⟨a, ha, hitem⟩ := (Multiset.mem_filterMap _ _).mp hr
  rw [Multiset.eq_of_mem_replicate ha] at hitem
  cases hitem

/-- What every step keeps: the resources are apart, the slots are not more than at first, and
the queue is in order. -/
theorem Desk.Lawful.exclusive {F M ε : Type} {slot : F → Co → Slot Co LuaValue}
    {step : Desk F M → ε → Option (Desk F M)} {proper : Desk F M → ε → Prop}
    {made gone : Desk F M → ε → Multiset LuaValue} {leaks : Desk F M → ε → Bool}
    {returned : Desk F M → ε → Option LuaValue}
    (hlawful : Desk.Lawful slot step proper made gone leaks returned) {size : ℕ} {memo : M} {es : List ε}
    {s : Desk F M} (hmeets : Meets step proper (Desk.new size memo) es)
    (hrun : run step (Desk.new size memo) es = some s) :
    Exclusive slot size (total step made (Desk.new size memo) es)
      (total step gone (Desk.new size memo) es) s := by
  have hstep : ∀ s e s', proper s e → step s e = some s' →
      items (s.slots slot) + made s e = items (s'.slots slot) + gone s e := by
    intro s e s' hproper hmove
    exact (hlawful.effect s e s' hproper hmove).items
  have hbalance := run_balance hstep hmeets hrun
  simp only [items_new, zero_add] at hbalance
  have hkeeps : (items (s.slots slot)).Nodup ∧ (s.slots slot).card ≤ size ∧ s.InOrder := by
    refine run_invariant (P := fun s : Desk F M =>
      (items (s.slots slot)).Nodup ∧ (s.slots slot).card ≤ size ∧ s.InOrder) ?_ ?_ hmeets hrun
    · intro s e s' ⟨hnodup, hcard, horder⟩ hproper hstep
      have heffect := hlawful.effect s e s' hproper hstep
      have hless := heffect.card
      exact ⟨heffect.nodup hnodup, by omega, (hlawful.passes s e s' hstep).inOrder horder⟩
    · rw [items_new]
      exact ⟨Multiset.nodup_zero, by simp, rfl⟩
  obtain ⟨hnodup, hcard, horder⟩ := hkeeps
  have hless := card_items_le (s.slots slot)
  rw [Desk.items_slots hlawful.idleItem s] at hbalance hnodup hless
  refine ⟨hbalance, hnodup, ?_, horder⟩
  rw [Multiset.card_add, Multiset.coe_card, Multiset.card_map] at hless
  omega

/-- **Exclusivity, bound and order**: for both pools, in every run in which what is
pushed is a resource that is borrowed, each resource that was made is in one place (the idle
list or a borrower), unless it was rejected, or lost where a callback raised; there are at most
`size` of them; the coroutines that blocked were served in the order in which they blocked; and
in each further step a resource that is put back goes to the first of them, who has it then, or
to the idle list if nobody waits. -/
theorem pool_exclusive (size : ℕ) :
    (∀ (cb : FanPool.Callbacks) (es : List FanPool.Event) (s : FanPool.State),
      Meets (FanPool.step cb) (FanPool.Proper cb) (FanPool.new size) es →
      run (FanPool.step cb) (FanPool.new size) es = some s →
      Exclusive FanPool.slot size (total (FanPool.step cb) FanPool.made (FanPool.new size) es)
        (total (FanPool.step cb) (FanPool.rejected cb) (FanPool.new size) es
          + total (FanPool.step cb) FanPool.lost (FanPool.new size) es) s ∧
      ∀ e s', FanPool.step cb s e = some s' →
        Desk.Passes FanPool.slot (FanPool.returned cb s e) s s') ∧
    ∀ (es : List MariadbPool.Event) (s : MariadbPool.State),
      Meets MariadbPool.step MariadbPool.Proper (MariadbPool.new size) es →
      run MariadbPool.step (MariadbPool.new size) es = some s →
      Exclusive MariadbPool.slot size (total MariadbPool.step MariadbPool.made (MariadbPool.new size) es)
        (total MariadbPool.step MariadbPool.lost (MariadbPool.new size) es) s ∧
      ∀ e s', MariadbPool.step s e = some s' →
        Desk.Passes MariadbPool.slot (MariadbPool.returned s e) s s' := by
  constructor
  · intro cb es s hmeets hrun
    have hexclusive := (FanPool.lawful cb).exclusive hmeets hrun
    rw [total_add] at hexclusive
    exact ⟨hexclusive, fun e s' => FanPool.step_passes⟩
  · intro es s hmeets hrun
    exact ⟨MariadbPool.lawful.exclusive hmeets hrun, fun e s' => MariadbPool.step_passes⟩

/-- A connection is made, two coroutines wait, and the first of them is served. -/
def connectionEvents : List MariadbPool.Event :=
  [.pop 1 false, .done 1 (some (.table 7)), .done 1 (some (.boolean true)),
    .done 1 (some (.table 8)), .pop 2 true, .pop 3 false, .push 1 (.table 7)]

theorem pool_exclusive_handed_over :
    (∃ s : FanPool.State,
      run (FanPool.step exampleCallbacks) (FanPool.new 1) queuedEvents = some s ∧
        s.served = [2] ∧ s.lent FanPool.slot = {(2, .table 7)} ∧
        Exclusive FanPool.slot 1 {.table 7} 0 s) ∧
    ∃ s : MariadbPool.State,
      run MariadbPool.step (MariadbPool.new 1) connectionEvents = some s ∧
        s.served = [2] ∧ s.lent MariadbPool.slot = {(2, .table 7)} ∧
        Exclusive MariadbPool.slot 1 {.table 7} 0 s := by
  have hfan : Meets (FanPool.step exampleCallbacks) (FanPool.Proper exampleCallbacks) (FanPool.new 1)
      queuedEvents := by decide
  have hdb : Meets MariadbPool.step MariadbPool.Proper (MariadbPool.new 1) connectionEvents := by
    decide
  exact ⟨⟨_, rfl, rfl, rfl, ((pool_exclusive 1).1 exampleCallbacks queuedEvents _ hfan rfl).1⟩,
    ⟨_, rfl, rfl, rfl, ((pool_exclusive 1).2 connectionEvents _ hdb rfl).1⟩⟩

end LuaFan
