/-
# What the two resource pools share (`modules/fan/pool.lua`, `modules/mariadb/pool.lua`)

Both pools lend resources to coroutines: `pop` takes the newest idle resource, makes
a new one while there is capacity, or parks the coroutine; `push` hands the resource
to the first parked coroutine or puts it back on the idle list.

Between the calls of user code (callbacks, the function given to `safe`) a pool runs
without interruption, and `coroutine.resume` goes on in the parked coroutine at once.
So a step is what happens from one such call to the next.  The calls that have not
returned are kept as frames, the newest of a coroutine first; while one is running,
its coroutine may call the pool again, and other coroutines may run.

A state also records what user code holds and, as histories, which coroutines blocked
and which of them were served.  `Effect` is what a step may do to the slots, and `Passes`
what it may do to the queue.
-/
import LuaFan.Lib.Lending
import LuaFan.Lua.Value

namespace LuaFan

open Lending

/-- A pool and its users: `F` are the frames, `M` what else the pool remembers.  A
parked coroutine is in `pop`, which may have been called by `safe`. -/
structure Desk (F M : Type) where
  idle : List LuaValue
  count : ℕ
  yielding : List (Co × Bool)
  memo : M
  frames : List (Co × F)
  hands : List (Co × LuaValue)
  blocked : List Co
  served : List Co

namespace Desk

variable {F M : Type}

/-- A new pool with room for `size` resources. -/
def new (size : ℕ) (memo : M) : Desk F M := ⟨[], size, [], memo, [], [], [], []⟩

/-- Is the coroutine suspended in `pop`? -/
def parked (d : Desk F M) (co : Co) : Bool := d.yielding.any fun w => w.1 == co

/-- The innermost call of a coroutine that has not returned. -/
def top (d : Desk F M) (co : Co) : Option F := (d.frames.find? fun f => f.1 == co).map Prod.snd

/-- A call of user code begins. -/
def enter (d : Desk F M) (co : Co) (f : F) : Desk F M := { d with frames := (co, f) :: d.frames }

/-- The innermost call of a coroutine has returned. -/
def leave (d : Desk F M) (co : Co) : Desk F M :=
  { d with frames := d.frames.eraseP fun f => f.1 == co }

/-- A resource comes into the hands of user code. -/
def lend (d : Desk F M) (co : Co) (item : LuaValue) : Desk F M :=
  { d with hands := (co, item) :: d.hands }

/-- User code gives a resource back. -/
def takeBack (d : Desk F M) (item : LuaValue) : Desk F M :=
  { d with hands := d.hands.eraseP fun h => h.2 == item }

/-- The coroutine is put into the queue and yields. -/
def park (d : Desk F M) (co : Co) (safe : Bool) : Desk F M :=
  { d with yielding := d.yielding ++ [(co, safe)], blocked := d.blocked ++ [co] }

/-- How `pop` finds a resource: `got` goes on with one, `make` is the call that makes
one, if the pool can. -/
def popWith (make : Option F) (got : Desk F M → Co → LuaValue → Bool → Desk F M) (d : Desk F M)
    (co : Co) (safe : Bool) : Desk F M :=
  match d.idle.getLast?, make with
  | some item, _ => got { d with idle := d.idle.dropLast } co item safe
  | none, some f =>
      if 0 < d.count then { d with count := d.count - 1 }.enter co f else d.park co safe
  | none, none => d.park co safe

/-- How `push` ends: the first coroutine in the queue is resumed with the resource,
or the resource becomes idle. -/
def putBack (got : Desk F M → Co → LuaValue → Bool → Desk F M) (d : Desk F M) (item : LuaValue) :
    Desk F M :=
  match d.yielding with
  | w :: rest => got { d with yielding := rest, served := d.served ++ [w.1] } w.1 item w.2
  | [] => { d with idle := d.idle ++ [item] }

/-! ## Slots -/

/-- The slots of a pool, if `slot` tells what each frame stands for. -/
def slots (slot : F → Co → Slot Co LuaValue) (d : Desk F M) : Multiset (Slot Co LuaValue) :=
  Multiset.replicate d.count Slot.free + Multiset.ofList (d.idle.map Slot.idle)
    + Multiset.ofList (d.frames.map fun f => slot f.2 f.1)
    + Multiset.ofList (d.hands.map fun h => Slot.out h.1 h.2)

/-- The borrowers with their resources. -/
def lent (slot : F → Co → Slot Co LuaValue) (d : Desk F M) : Multiset (Co × LuaValue) :=
  Lending.lent (d.slots slot)

/-- The resources with borrowers, and the slots that are being filled for one. -/
def held (d : Desk F M) : ℕ := d.frames.length + d.hands.length

section Slots

variable {slot : F → Co → Slot Co LuaValue} {d : Desk F M} {co : Co} {f : F} {item : LuaValue}

theorem card_slots (d : Desk F M) : (d.slots slot).card = d.count + d.idle.length + d.held := by
  simp [slots, held, Nat.add_assoc]

@[simp] theorem slots_new (size : ℕ) (memo : M) :
    (new size memo : Desk F M).slots slot = Multiset.replicate size .free := by
  simp [slots, new]

@[simp] theorem slots_enter : (d.enter co f).slots slot = slot f co ::ₘ d.slots slot := by
  simp [slots, enter, ← Multiset.cons_coe, Multiset.add_cons, Multiset.cons_add]

@[simp] theorem slots_lend : (d.lend co item).slots slot = .out co item ::ₘ d.slots slot := by
  simp [slots, lend, ← Multiset.cons_coe, Multiset.add_cons]

@[simp] theorem slots_park (safe : Bool) : (d.park co safe).slots slot = d.slots slot := rfl

theorem slots_leave (slot : F → Co → Slot Co LuaValue) (h : d.top co = some f) :
    d.slots slot = slot f co ::ₘ (d.leave co).slots slot := by
  obtain ⟨p, hp, rfl⟩ := Option.map_eq_some_iff.mp h
  have hco : p.1 = co := by simpa using List.find?_some hp
  have := coe_map_eraseP (fun f : Co × F => slot f.2 f.1) hp
  rw [slots, this, leave, slots, hco]
  simp only [Multiset.add_cons, Multiset.cons_add]

theorem slots_takeBack (slot : F → Co → Slot Co LuaValue) (h : item ∈ d.hands.map Prod.snd) :
    ∃ b, d.slots slot = .out b item ::ₘ (d.takeBack item).slots slot := by
  obtain ⟨q, hq, hitem⟩ := List.mem_map.mp h
  obtain ⟨p, hp⟩ : ∃ p, d.hands.find? (fun h => h.2 == item) = some p := by
    apply Option.isSome_iff_exists.mp
    rw [List.find?_isSome]
    exact ⟨q, hq, by simp [hitem]⟩
  have hitem : p.2 = item := by simpa using List.find?_some hp
  have := coe_map_eraseP (fun h : Co × LuaValue => (Slot.out h.1 h.2 : Slot Co LuaValue)) hp
  refine ⟨p.1, ?_⟩
  rw [slots, this, takeBack, slots, hitem]
  simp only [Multiset.add_cons]

theorem slots_idle {l : List LuaValue} (h : d.idle = l ++ [item]) :
    d.slots slot = .idle item ::ₘ { d with idle := l }.slots slot := by
  simp only [slots, h, List.map_append, List.map_cons, List.map_nil, ← Multiset.coe_add,
    Multiset.coe_singleton, ← Multiset.singleton_add]
  ac_rfl

theorem slots_addIdle :
    { d with idle := d.idle ++ [item] }.slots slot = .idle item ::ₘ d.slots slot := by
  rw [slots_idle (d := { d with idle := d.idle ++ [item] }) rfl]

theorem slots_free {n : ℕ} (h : d.count = n + 1) :
    d.slots slot = .free ::ₘ { d with count := n }.slots slot := by
  simp [slots, h, Multiset.replicate_succ, Multiset.cons_add]

/-- **A resource is idle or lent**, if no frame stands for an idle slot. -/
theorem items_slots (hslot : ∀ f co, (slot f co).idleItem = none) (d : Desk F M) :
    items (d.slots slot) = Multiset.ofList d.idle + (d.lent slot).map Prod.snd := by
  have hframes : ∀ l : List (Co × F), (l.map fun f => slot f.2 f.1).filterMap Slot.idleItem = [] := by
    intro l
    rw [List.filterMap_map]
    exact List.filterMap_eq_nil_iff.mpr fun f _ => hslot f.2 f.1
  have hhands : ∀ l : List (Co × LuaValue),
      (l.map fun h => (Slot.out h.1 h.2 : Slot Co LuaValue)).filterMap Slot.idleItem = [] := by
    intro l
    rw [List.filterMap_map]
    exact List.filterMap_eq_nil_iff.mpr fun h _ => rfl
  have hfree : ∀ n : ℕ, (List.replicate n (Slot.free : Slot Co LuaValue)).filterMap Slot.idleItem = [] :=
    fun n => List.filterMap_eq_nil_iff.mpr fun a ha => by rw [List.eq_of_mem_replicate ha]; rfl
  have hidle : ∀ l : List LuaValue, (l.map (Slot.idle : _ → Slot Co LuaValue)).filterMap Slot.idleItem = l := by
    intro l
    rw [List.filterMap_map]
    exact List.filterMap_some
  rw [items_eq, lent, idles, slots]
  simp only [Multiset.filterMap_add, ← Multiset.coe_replicate, Multiset.filterMap_coe, hframes, hhands, hfree,
    hidle, Multiset.coe_nil, zero_add, add_zero]

end Slots

/-! ## What `pop` and `push` do to the slots and to the queue -/

/-- What a coroutine does with the resource it got: it has it, which fills one more slot,
and leaves the pool as it is. -/
structure Gives (slot : F → Co → Slot Co LuaValue)
    (got : Desk F M → Co → LuaValue → Bool → Desk F M) : Prop where
  slots : ∀ d co item safe, (got d co item safe).slots slot = .out co item ::ₘ d.slots slot
  idle : ∀ d co item safe, (got d co item safe).idle = d.idle
  count : ∀ d co item safe, (got d co item safe).count = d.count
  yielding : ∀ d co item safe, (got d co item safe).yielding = d.yielding
  blocked : ∀ d co item safe, (got d co item safe).blocked = d.blocked
  served : ∀ d co item safe, (got d co item safe).served = d.served

/-- The blocked coroutines were served in order, and the others wait in order. -/
def InOrder (d : Desk F M) : Prop := d.blocked = d.served ++ d.yielding.map Prod.fst

/-- Somebody waits only while nothing is idle and there is no capacity. -/
def NoLostWakeup (d : Desk F M) : Prop := d.yielding ≠ [] → d.idle = [] ∧ d.count = 0

variable {slot : F → Co → Slot Co LuaValue} {got : Desk F M → Co → LuaValue → Bool → Desk F M}

/-- The three ways of `pop`. -/
theorem popWith_cases (make : Option F) (got : Desk F M → Co → LuaValue → Bool → Desk F M)
    (d : Desk F M) (co : Co) (safe : Bool) :
    (∃ l item, d.idle = l ++ [item] ∧ popWith make got d co safe = got { d with idle := l } co item safe) ∨
    (∃ f n, make = some f ∧ d.count = n + 1 ∧ d.idle = [] ∧
      popWith make got d co safe = { d with count := n }.enter co f) ∨
    (d.idle = [] ∧ (make = none ∨ d.count = 0) ∧ popWith make got d co safe = d.park co safe) := by
  unfold popWith
  cases hlast : d.idle.getLast? with
  | some item =>
      refine Or.inl ⟨d.idle.dropLast, item, ?_, rfl⟩
      exact (List.dropLast_append_getLast? item hlast).symm
  | none =>
      have hidle := List.getLast?_eq_none_iff.mp hlast
      cases make with
      | none => exact Or.inr (Or.inr ⟨hidle, Or.inl rfl, rfl⟩)
      | some f =>
          by_cases hcount : 0 < d.count
          · refine Or.inr (Or.inl ⟨f, d.count - 1, rfl, by omega, hidle, ?_⟩)
            simp only [if_pos hcount]
          · refine Or.inr (Or.inr ⟨hidle, Or.inr (by omega), ?_⟩)
            simp only [if_neg hcount]

/-- `pop` moves one slot. -/
theorem move_popWith (hgot : Gives slot got) {make : Option F}
    (hmake : ∀ f ∈ make, ∀ co, (slot f co).item = none) (d : Desk F M) (co : Co) (safe : Bool) :
    Move 0 0 (d.slots slot) ((popWith make got d co safe).slots slot) := by
  rcases popWith_cases make got d co safe with
    ⟨l, item, hidle, h⟩ | ⟨f, n, hf, hcount, -, h⟩ | ⟨-, -, h⟩
  · rw [h, hgot.slots, slots_idle hidle]
    exact Move.keep _ rfl
  · rw [h, slots_enter, slots_free hcount]
    exact Move.keep _ (hmake f hf co)
  · rw [h, slots_park]
    exact Move.stay _

/-- `push` fills one slot with the resource. -/
theorem slots_putBack (hgot : Gives slot got) (d : Desk F M) (item : LuaValue) :
    ∃ a : Slot Co LuaValue, a.item = some item ∧
      (putBack got d item).slots slot = a ::ₘ d.slots slot := by
  unfold putBack
  split
  · rename_i w rest _
    exact ⟨.out w.1 item, rfl, hgot.slots { d with yielding := rest, served := d.served ++ [w.1] } w.1 item w.2⟩
  · exact ⟨.idle item, rfl, slots_addIdle⟩

/-- What a step does to the queue, if `returned` is the resource that it puts back: the
first coroutine in the queue is served, and has the resource, or the resource becomes idle if
nobody waits.  Where no resource is put back nobody is served, and a coroutine may be parked. -/
structure Passes (slot : F → Co → Slot Co LuaValue) (returned : Option LuaValue) (s s' : Desk F M) :
    Prop where
  parks : returned = none → s'.served = s.served ∧
    ((s'.yielding = s.yielding ∧ s'.blocked = s.blocked) ∨
      ∃ co safe, s'.yielding = s.yielding ++ [(co, safe)] ∧ s'.blocked = s.blocked ++ [co])
  serves : ∀ item w rest, returned = some item → s.yielding = w :: rest →
    s'.served = s.served ++ [w.1] ∧ s'.yielding = rest ∧ s'.blocked = s.blocked ∧
      (w.1, item) ∈ s'.lent slot
  keeps : ∀ item, returned = some item → s.yielding = [] →
    s'.served = s.served ∧ s'.yielding = [] ∧ s'.blocked = s.blocked ∧ s'.idle = s.idle ++ [item]

/-- The queue is left as it is. -/
theorem passes_same {s s' : Desk F M} (hserved : s'.served = s.served) (hyielding : s'.yielding = s.yielding)
    (hblocked : s'.blocked = s.blocked) : Passes slot none s s' where
  parks := fun _ => ⟨hserved, Or.inl ⟨hyielding, hblocked⟩⟩
  serves := fun _ _ _ h => absurd h.symm (Option.some_ne_none _)
  keeps := fun _ h => absurd h.symm (Option.some_ne_none _)

/-- Only the queue and the idle list before the step matter. -/
theorem Passes.of_queue {returned : Option LuaValue} {s s₀ s' : Desk F M} (h : Passes slot returned s s')
    (hserved : s.served = s₀.served) (hyielding : s.yielding = s₀.yielding)
    (hblocked : s.blocked = s₀.blocked) (hidle : s.idle = s₀.idle) : Passes slot returned s₀ s' where
  parks := by
    rw [← hserved, ← hyielding, ← hblocked]
    exact h.parks
  serves := by
    rw [← hserved, ← hyielding, ← hblocked]
    exact h.serves
  keeps := by
    rw [← hserved, ← hyielding, ← hblocked, ← hidle]
    exact h.keeps

/-- A coroutine that gets a resource leaves the queue as it is. -/
theorem Gives.passes (hgot : Gives slot got) (d : Desk F M) (co : Co) (item : LuaValue) (safe : Bool) :
    Passes slot none d (got d co item safe) :=
  passes_same (hgot.served d co item safe) (hgot.yielding d co item safe) (hgot.blocked d co item safe)

theorem passes_popWith (hgot : Gives slot got) (make : Option F) (d : Desk F M) (co : Co) (safe : Bool) :
    Passes slot none d (popWith make got d co safe) := by
  rcases popWith_cases make got d co safe with
    ⟨l, item, -, heq⟩ | ⟨f, n, -, -, -, heq⟩ | ⟨-, -, heq⟩
  · rw [heq]
    have hgives := hgot.passes { d with idle := l } co item safe
    exact ⟨hgives.parks, hgives.serves, fun _ h => absurd h.symm (Option.some_ne_none _)⟩
  · rw [heq]
    exact passes_same rfl rfl rfl
  · rw [heq]
    exact ⟨fun _ => ⟨rfl, Or.inr ⟨co, safe, rfl, rfl⟩⟩, fun _ _ _ h => absurd h.symm (Option.some_ne_none _),
      fun _ h => absurd h.symm (Option.some_ne_none _)⟩

theorem passes_putBack (hgot : Gives slot got) (d : Desk F M) (item : LuaValue) :
    Passes slot (some item) d (putBack got d item) where
  parks := fun h => absurd h (Option.some_ne_none item)
  serves := by
    intro item' w rest hitem hw
    cases hitem
    simp only [putBack, hw]
    refine ⟨hgot.served _ _ _ _, hgot.yielding _ _ _ _, hgot.blocked _ _ _ _, mem_lent ?_⟩
    rw [hgot.slots]
    exact Multiset.mem_cons_self _ _
  keeps := by
    intro item' hitem hw
    cases hitem
    have heq : putBack got d item = { d with idle := d.idle ++ [item] } := by
      simp only [putBack, hw]
    rw [heq]
    exact ⟨rfl, hw, rfl, rfl⟩

/-- **The blocked coroutines are served in order.** -/
theorem Passes.inOrder {returned : Option LuaValue} {s s' : Desk F M} (hpass : Passes slot returned s s')
    (h : s.InOrder) : s'.InOrder := by
  unfold InOrder at h ⊢
  cases returned with
  | none =>
      obtain ⟨hserved, ⟨hyielding, hblocked⟩ | ⟨co, safe, hyielding, hblocked⟩⟩ := hpass.parks rfl
      · rw [hserved, hyielding, hblocked, h]
      · rw [hserved, hyielding, hblocked, h, List.map_append, List.append_assoc]
        rfl
  | some item =>
      cases hw : s.yielding with
      | nil =>
          obtain ⟨hserved, hyielding, hblocked, -⟩ := hpass.keeps item rfl hw
          rw [hserved, hyielding, hblocked, h, hw]
      | cons w rest =>
          obtain ⟨hserved, hyielding, hblocked, -⟩ := hpass.serves item w rest rfl hw
          rw [hserved, hyielding, hblocked, h, hw, List.map_cons, List.append_assoc]
          rfl

/-- What a step does to the slots: one is lost, and the resource in it, if the step leaks;
else one moves. -/
def Effect (slot : F → Co → Slot Co LuaValue) (made gone : Multiset LuaValue) (leak : Bool)
    (s s' : Desk F M) : Prop :=
  if leak = true then made = 0 ∧ ∃ a, s.slots slot = a ::ₘ s'.slots slot ∧ gone = items {a}
  else Move made gone (s.slots slot) (s'.slots slot)

theorem effect_of_move {made gone gone' : Multiset LuaValue} {s s' : Desk F M}
    (h : Move made gone (s.slots slot) (s'.slots slot)) (hgone : gone = gone') :
    Effect slot made gone' false s s' := by
  rw [← hgone]
  exact h

theorem effect_of_leak {gone : Multiset LuaValue} {a : Slot Co LuaValue} {s s' : Desk F M}
    (h : s.slots slot = a ::ₘ s'.slots slot) (hgone : gone = items {a}) :
    Effect slot 0 gone true s s' :=
  ⟨rfl, a, h, hgone⟩

section Effect

variable {made gone : Multiset LuaValue} {leak : Bool} {s s' : Desk F M}

theorem Effect.card (h : Effect slot made gone leak s s') :
    (s.slots slot).card = (s'.slots slot).card + leak.toNat := by
  unfold Effect at h
  split at h
  · rename_i hleak
    obtain ⟨-, a, ha, -⟩ := h
    rw [ha, hleak, Multiset.card_cons]
    rfl
  · rename_i hleak
    rw [Bool.not_eq_true] at hleak
    rw [h.card_eq, hleak]
    rfl

/-- **What is idle or lent is what was, and what was made, less what is gone.** -/
theorem Effect.items (h : Effect slot made gone leak s s') :
    items (s.slots slot) + made = items (s'.slots slot) + gone := by
  unfold Effect at h
  split at h
  · obtain ⟨rfl, a, ha, rfl⟩ := h
    rw [ha, add_zero]
    exact items_add_cons a _
  · exact h.items_eq

theorem Effect.nodup (h : Effect slot made gone leak s s') (hs : (Lending.items (s.slots slot)).Nodup) :
    (Lending.items (s'.slots slot)).Nodup := by
  unfold Effect at h
  split at h
  · obtain ⟨-, a, ha, -⟩ := h
    rw [ha, items_add_cons] at hs
    exact (Multiset.nodup_add.mp hs).1
  · exact h.nodup hs

end Effect

/-- The steps of a pool: each has its effect on the slots if it is proper, and does its part
to the queue; and no frame stands for an idle slot. -/
structure Lawful {ε : Type} (slot : F → Co → Slot Co LuaValue)
    (step : Desk F M → ε → Option (Desk F M)) (proper : Desk F M → ε → Prop)
    (made gone : Desk F M → ε → Multiset LuaValue) (leaks : Desk F M → ε → Bool)
    (returned : Desk F M → ε → Option LuaValue) : Prop where
  effect : ∀ s e s', proper s e → step s e = some s' → Effect slot (made s e) (gone s e) (leaks s e) s s'
  passes : ∀ s e s', step s e = some s' → Passes slot (returned s e) s s'
  idleItem : ∀ f co, (slot f co).idleItem = none

theorem noLostWakeup_popWith (hgot : Gives slot got) {f : F} {d : Desk F M} (h : d.NoLostWakeup)
    (co : Co) (safe : Bool) : (popWith (some f) got d co safe).NoLostWakeup := by
  intro hwait
  rcases popWith_cases (some f) got d co safe with
    ⟨l, item, hidle, heq⟩ | ⟨f, n, -, hcount, -, heq⟩ | ⟨hidle, hcount, heq⟩
  · -- a coroutine waits, so nothing can have been idle
    rw [heq, hgot.yielding] at hwait
    rw [(h hwait).1] at hidle
    simp at hidle
  · rw [heq] at hwait
    have := (h hwait).2
    omega
  · rw [heq]
    exact ⟨hidle, hcount.resolve_left (by simp)⟩

theorem noLostWakeup_putBack (hgot : Gives slot got) {d : Desk F M} (h : d.NoLostWakeup)
    (item : LuaValue) : (putBack got d item).NoLostWakeup := by
  intro hwait
  unfold putBack at hwait ⊢
  split at hwait
  · rename_i w rest hw
    rw [hgot.idle, hgot.count]
    exact h (by rw [hw]; simp)
  · rename_i hw
    exact absurd hw hwait

end Desk

end LuaFan
