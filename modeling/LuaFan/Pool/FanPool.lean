/-
# The resource pool (`modules/fan/pool.lua`)

The pool with its three callbacks.  `onnew` makes a resource, `onbind` turns it into
what `pop` returns, and `onunbind` turns that back into the resource, or rejects it
with nil.

`step_effect` says what every step does to the slots: it moves one, unless a callback raises
in `pop`, or `onunbind` raises in a `push` made by `safe`: then the slot is gone.
`step_passes` says what it does to the queue.
-/
import LuaFan.Lib.Machine
import LuaFan.Pool.Desk

namespace LuaFan

open Lending

namespace FanPool

/-! ## The code -/

/-- Which callbacks the pool has. -/
structure Callbacks where
  onnew : Bool
  onbind : Bool
  onunbind : Bool

/-- A call of user code: a callback or the function given to `safe`.  The flag tells
whether `pop` or `push` was called by `safe`; `item` is the resource behind `ctx`. -/
inductive Frame where
  | onnew (safe : Bool)
  | onbind (item : LuaValue) (safe : Bool)
  | func (ctx item : LuaValue)
  | onunbind (ctx item : LuaValue) (safe : Bool)
  deriving DecidableEq

abbrev State := Desk Frame Unit

/-- `new`. -/
def new (size : ℕ) : State := Desk.new size ()

/-- `pop` returns, to `safe` or to user code. -/
def popReturn (s : State) (co : Co) (ctx item : LuaValue) (safe : Bool) : State :=
  if safe then s.enter co (.func ctx item) else s.lend co item

/-- The end of `pop`: the resource is bound. -/
def popItem (cb : Callbacks) (s : State) (co : Co) (item : LuaValue) (safe : Bool) : State :=
  if cb.onbind then s.enter co (.onbind item safe) else popReturn s co item item safe

/-- `pop`. -/
def pop (cb : Callbacks) (s : State) (co : Co) (safe : Bool) : State :=
  Desk.popWith (if cb.onnew then some (.onnew safe) else none) (popItem cb) s co safe

/-- The rest of `push`, once the resource is unbound. -/
def pushItem (cb : Callbacks) (s : State) (item : LuaValue) : State :=
  if item = .nil then { s with count := s.count + 1 } else Desk.putBack (popItem cb) s item

/-- `push`. -/
def push (cb : Callbacks) (s : State) (co : Co) (ctx item : LuaValue) (safe : Bool) : State :=
  if cb.onunbind then s.enter co (.onunbind ctx item safe) else pushItem cb s ctx

/-- A call of user code ends with a result, or by raising an error. -/
def ended (cb : Callbacks) (s : State) (co : Co) : Frame → Option LuaValue → State
  | .onnew safe, some item => popItem cb s co item safe
  | .onnew _, none => s
  | .onbind item safe, some ctx => popReturn s co ctx item safe
  | .onbind _ _, none => s
  | .func ctx item, _ => push cb s co ctx item true
  | .onunbind _ _ _, some item => pushItem cb s item
  -- the error goes to the caller of `push`, who still has the resource, or past `safe`
  | .onunbind _ item safe, none => if safe then s else s.lend co item

/-- What a coroutine that is not parked can do: call `pop` or `safe`, call `push`, or
return from its innermost call (`none`: with an error). -/
inductive Event where
  | pop (co : Co) (safe : Bool)
  | push (co : Co) (ctx item : LuaValue)
  | done (co : Co) (result : Option LuaValue)

def step (cb : Callbacks) (s : State) : Event → Option State
  | .pop co safe => if s.parked co then none else some (pop cb s co safe)
  | .push co ctx item =>
      if s.parked co then none else some (push cb (s.takeBack item) co ctx item false)
  | .done co result =>
      if s.parked co then none
      else (s.top co).map fun f => ended cb (s.leave co) co f result

/-! ## Slots -/

/-- What a frame stands for. -/
def slot : Frame → Co → Slot Co LuaValue
  | .onnew _, co => .making co
  | .onbind item _, co => .out co item
  | .func _ item, co => .out co item
  | .onunbind _ item _, co => .out co item

/-- The users keep to the rules: what is pushed is a resource in somebody's hands,
`onnew` makes a resource that is in no slot, and a resource comes back from its
context as itself or as nil. -/
def Proper (cb : Callbacks) (s : State) : Event → Prop
  | .pop _ _ => True
  | .push _ ctx item => item ∈ s.hands.map Prod.snd ∧ (cb.onunbind = false → ctx = item ∨ ctx = .nil)
  | .done co result =>
      match s.top co, result with
      | some (.onnew _), some item => item ∉ items (s.slots slot)
      | some (.onunbind _ item _), some v => v = item ∨ v = .nil
      | some (.func ctx item), _ => cb.onunbind = false → ctx = item ∨ ctx = .nil
      | _, _ => True

instance (cb : Callbacks) (s : State) (e : Event) : Decidable (Proper cb s e) := by
  unfold Proper
  split
  · infer_instance
  · infer_instance
  · split <;> infer_instance

/-- A callback raises where the pool does not put things back. -/
def leaks (s : State) : Event → Bool
  | .done co none =>
      match s.top co with
      | some (.onnew _) => true
      | some (.onbind _ _) => true
      | some (.onunbind _ _ safe) => safe
      | _ => false
  | _ => false

/-- Does the event reject a resource? -/
def rejects (cb : Callbacks) (s : State) : Event → Prop
  | .push _ ctx _ => cb.onunbind = false ∧ ctx = .nil
  | .done co result =>
      match s.top co with
      | some (.onunbind _ _ _) => result = some .nil
      | some (.func ctx _) => cb.onunbind = false ∧ ctx = .nil
      | _ => False
  | _ => False

instance (cb : Callbacks) (s : State) (e : Event) : Decidable (rejects cb s e) := by
  unfold rejects
  split
  · infer_instance
  · split <;> infer_instance
  · infer_instance

/-- The resource that an event is about, which somebody has before it. -/
def about (s : State) : Event → Multiset LuaValue
  | .push _ _ item => {item}
  | .done co _ => (s.top co).elim 0 fun f => items {slot f co}
  | .pop _ _ => 0

/-- The resource that `onnew` has made. -/
def made (s : State) : Event → Multiset LuaValue
  | .done co result =>
      match s.top co, result with
      | some (.onnew _), some item => {item}
      | _, _ => 0
  | _ => 0

/-- The resource that is rejected. -/
def rejected (cb : Callbacks) (s : State) (e : Event) : Multiset LuaValue :=
  if rejects cb s e then about s e else 0

/-- The resource that is lost because a callback raises. -/
def lost (s : State) (e : Event) : Multiset LuaValue := if leaks s e then about s e else 0

/-- What `push` puts back of an unbound resource. -/
def kept (item : LuaValue) : Option LuaValue := if item = .nil then none else some item

/-- The resource that a step puts back. -/
def returned (cb : Callbacks) (s : State) : Event → Option LuaValue
  | .push _ ctx _ => if cb.onunbind then none else kept ctx
  | .done co result =>
      match s.top co, result with
      | some (.func ctx _), _ => if cb.onunbind then none else kept ctx
      | some (.onunbind _ _ _), some item => kept item
      | _, _ => none
  | .pop _ _ => none

variable {cb : Callbacks}

theorem slots_popReturn (s : State) (co : Co) (ctx item : LuaValue) (safe : Bool) :
    (popReturn s co ctx item safe).slots slot = .out co item ::ₘ s.slots slot := by
  unfold popReturn
  split
  · exact Desk.slots_enter
  · exact Desk.slots_lend

/-- A coroutine that got a resource leaves the pool as it is. -/
theorem popItem_gives (cb : Callbacks) : Desk.Gives slot (popItem cb) where
  slots := by
    intro s co item safe
    unfold popItem
    split
    · exact Desk.slots_enter
    · exact slots_popReturn s co item item safe
  idle := by
    intro s co item safe
    unfold popItem popReturn
    split_ifs <;> rfl
  count := by
    intro s co item safe
    unfold popItem popReturn
    split_ifs <;> rfl
  yielding := by
    intro s co item safe
    unfold popItem popReturn
    split_ifs <;> rfl
  blocked := by
    intro s co item safe
    unfold popItem popReturn
    split_ifs <;> rfl
  served := by
    intro s co item safe
    unfold popItem popReturn
    split_ifs <;> rfl

theorem move_pop (cb : Callbacks) (s : State) (co : Co) (safe : Bool) :
    Move 0 0 (s.slots slot) ((pop cb s co safe).slots slot) := by
  refine Desk.move_popWith (popItem_gives cb) ?_ s co safe
  intro f hf co
  split at hf
  · cases hf
    rfl
  · cases hf

/-- What comes back fills a slot again, or frees it. -/
theorem move_pushItem (cb : Callbacks) (s : State) {a : Slot Co LuaValue} {item v : LuaValue}
    (ha : a.item = some item) (hv : v = item ∨ v = .nil) :
    Move 0 (if v = .nil then items {a} else 0) (a ::ₘ s.slots slot) ((pushItem cb s v).slots slot) := by
  unfold pushItem
  by_cases hnil : v = .nil
  · rw [if_pos hnil, if_pos hnil, Desk.slots_free (d := { s with count := s.count + 1 }) rfl]
    exact Move.empty _ rfl
  · rw [if_neg hnil, if_neg hnil]
    obtain rfl := hv.resolve_right hnil
    obtain ⟨b, hb, hslots⟩ := Desk.slots_putBack (popItem_gives cb) s v
    rw [hslots]
    exact Move.keep _ (hb.trans ha.symm)

theorem move_push (s : State) (co : Co) {a : Slot Co LuaValue} {ctx item : LuaValue} (safe : Bool)
    (ha : a.item = some item) (hctx : cb.onunbind = false → ctx = item ∨ ctx = .nil) :
    Move 0 (if cb.onunbind = false ∧ ctx = .nil then items {a} else 0) (a ::ₘ s.slots slot)
      ((push cb s co ctx item safe).slots slot) := by
  unfold push
  by_cases hcb : cb.onunbind = true
  · rw [if_pos hcb, if_neg (by simp [hcb]), Desk.slots_enter]
    exact Move.keep _ ha.symm
  · rw [if_neg hcb]
    rw [Bool.not_eq_true] at hcb
    simpa [hcb] using move_pushItem cb s ha (hctx hcb)

/-- **What a step does to the slots.** -/
theorem step_effect {s s' : State} {e : Event} (hproper : Proper cb s e)
    (hstep : step cb s e = some s') :
    Desk.Effect slot (made s e) (rejected cb s e + lost s e) (leaks s e) s s' := by
  cases e with
  | pop co safe =>
      rw [step, Option.ite_none_left_eq_some] at hstep
      obtain ⟨-, hstep⟩ := hstep
      cases hstep
      exact Desk.effect_of_move (move_pop cb s co safe) rfl
  | push co ctx item =>
      rw [step, Option.ite_none_left_eq_some] at hstep
      obtain ⟨-, hstep⟩ := hstep
      cases hstep
      obtain ⟨hmem, hctx⟩ := hproper
      obtain ⟨b, hb⟩ := Desk.slots_takeBack slot hmem
      have hmove := move_push (a := Slot.out b item) (s.takeBack item) co false rfl hctx
      rw [← hb] at hmove
      exact Desk.effect_of_move hmove (add_zero _).symm
  | done co result =>
      rw [step, Option.ite_none_left_eq_some] at hstep
      obtain ⟨-, hstep⟩ := hstep
      obtain ⟨f, hf, rfl⟩ := Option.map_eq_some_iff.mp hstep
      have hleave := Desk.slots_leave slot hf
      have habout : about s (.done co result) = items {slot f co} := by simp only [about, hf, Option.elim]
      simp only [Proper, hf] at hproper
      cases f with
      | onnew safe =>
          cases result with
          | none =>
              simp only [made, rejected, rejects, lost, leaks, habout, hf, if_true, if_false]
              exact Desk.effect_of_leak hleave (zero_add _)
          | some item =>
              simp only [made, rejected, rejects, lost, leaks, habout, hf, if_false]
              refine Desk.effect_of_move ?_ (add_zero _).symm
              rw [ended, (popItem_gives cb).slots, hleave]
              rw [hleave, items_cons] at hproper
              exact Move.fill _ rfl rfl hproper
      | onbind item safe =>
          cases result with
          | none =>
              simp only [made, rejected, rejects, lost, leaks, habout, hf, if_true, if_false]
              exact Desk.effect_of_leak hleave (zero_add _)
          | some ctx =>
              simp only [made, rejected, rejects, lost, leaks, habout, hf, if_false]
              refine Desk.effect_of_move ?_ (add_zero _).symm
              rw [ended, slots_popReturn, hleave]
              exact Move.keep _ rfl
      | func ctx item =>
          have hmove := move_push (a := Slot.out co item) (s.leave co) co true rfl hproper
          rw [← show s.slots slot = Slot.out co item ::ₘ (s.leave co).slots slot from hleave] at hmove
          cases result with
          | none =>
              simp only [made, rejected, rejects, lost, leaks, habout, hf]
              exact Desk.effect_of_move hmove (add_zero _).symm
          | some _ =>
              simp only [made, rejected, rejects, lost, leaks, habout, hf]
              exact Desk.effect_of_move hmove (add_zero _).symm
      | onunbind ctx item safe =>
          cases result with
          | none =>
              simp only [made, rejected, rejects, lost, leaks, habout, hf]
              cases safe with
              | true => exact Desk.effect_of_leak hleave (by simp)
              | false =>
                  have hmove : Move 0 0 (s.slots slot)
                      ((ended cb (s.leave co) co (.onunbind ctx item false) none).slots slot) := by
                    rw [ended, if_neg Bool.false_ne_true, Desk.slots_lend, hleave]
                    exact Move.keep _ rfl
                  exact Desk.effect_of_move hmove (by simp)
          | some v =>
              simp only [made, rejected, rejects, lost, leaks, habout, hf]
              have hmove := move_pushItem cb (a := Slot.out co item) (s.leave co) rfl hproper
              rw [← show s.slots slot = Slot.out co item ::ₘ (s.leave co).slots slot from hleave] at hmove
              refine Desk.effect_of_move hmove ?_
              simp [slot]

/-! ## The queue -/

/-- What every step that only deals with frames, hands and the two ways of lending
keeps. -/
theorem pushItem_keeps {P : State → Prop} {s : State} {item : LuaValue}
    (hfree : item = .nil → P { s with count := s.count + 1 })
    (hput : P (Desk.putBack (popItem cb) s item)) : P (pushItem cb s item) := by
  unfold pushItem
  split
  · rename_i hnil
    exact hfree hnil
  · exact hput

/-- The property depends on the pool only, not on frames and hands. -/
def OfPool (P : State → Prop) : Prop :=
  ∀ s s' : State, s'.idle = s.idle → s'.count = s.count → s'.yielding = s.yielding →
    s'.blocked = s.blocked → s'.served = s.served → P s → P s'

theorem OfPool.popItem {P : State → Prop} (hP : OfPool P) {s : State} (h : P s) (co : Co)
    (item : LuaValue) (safe : Bool) : P (popItem cb s co item safe) :=
  hP s _ ((popItem_gives cb).idle s co item safe) ((popItem_gives cb).count s co item safe)
    ((popItem_gives cb).yielding s co item safe) ((popItem_gives cb).blocked s co item safe)
    ((popItem_gives cb).served s co item safe) h

/-- **What every step keeps**, if lending and taking back keep it, and freeing a slot
where a resource is rejected. -/
theorem step_keeps {P : State → Prop} (hP : OfPool P)
    (hpop : ∀ s co safe, P s → P (pop cb s co safe))
    (hput : ∀ s item, P s → P (Desk.putBack (FanPool.popItem cb) s item)) {s s' : State} {e : Event}
    (hfree : rejects cb s e → ∀ s₁ : State, P s₁ → s₁.yielding = s.yielding →
      P { s₁ with count := s₁.count + 1 })
    (h : P s) (hstep : step cb s e = some s') : P s' := by
  have hpush : ∀ (s₁ : State) co ctx item safe, s₁.yielding = s.yielding → P s₁ →
      (cb.onunbind = false ∧ ctx = .nil → rejects cb s e) → P (push cb s₁ co ctx item safe) := by
    intro s₁ co ctx item safe hy h₁ hrej
    unfold push
    split
    · exact hP s₁ _ rfl rfl rfl rfl rfl h₁
    · rename_i hcb
      refine pushItem_keeps ?_ (hput s₁ ctx h₁)
      intro hnil
      exact hfree (hrej ⟨by simpa using hcb, hnil⟩) s₁ h₁ hy
  cases e with
  | pop co safe =>
      simp only [step] at hstep
      split at hstep
      · cases hstep
      · cases hstep
        exact hpop s co safe h
  | push co ctx item =>
      simp only [step] at hstep
      split at hstep
      · cases hstep
      · cases hstep
        exact hpush (s.takeBack item) co ctx item false rfl (hP s _ rfl rfl rfl rfl rfl h) id
  | done co result =>
      simp only [step] at hstep
      split at hstep
      · cases hstep
      · obtain ⟨f, hf, rfl⟩ := Option.map_eq_some_iff.mp hstep
        have hleave : P (s.leave co) := hP s _ rfl rfl rfl rfl rfl h
        simp only [rejects, hf] at hfree hpush
        cases f with
        | onnew safe =>
            cases result with
            | none => exact hleave
            | some item => exact hP.popItem hleave co item safe
        | onbind item safe =>
            cases result with
            | none => exact hleave
            | some ctx => cases safe <;> exact hP (s.leave co) _ rfl rfl rfl rfl rfl hleave
        | func ctx item =>
            cases result <;> exact hpush (s.leave co) co ctx item true rfl hleave id
        | onunbind ctx item safe =>
            cases result with
            | none => cases safe <;> exact hP (s.leave co) _ rfl rfl rfl rfl rfl hleave
            | some v =>
                refine pushItem_keeps ?_ (hput (s.leave co) v hleave)
                rintro rfl
                exact hfree rfl (s.leave co) hleave rfl

/-- **What a step does to the queue.** -/
theorem step_passes {s s' : State} {e : Event} (hstep : step cb s e = some s') :
    Desk.Passes slot (returned cb s e) s s' := by
  -- the rest of `push`, from a state with the same queue
  have hput : ∀ (s₁ : State) (item : LuaValue),
      Desk.Passes slot (kept item) s₁ (pushItem cb s₁ item) := by
    intro s₁ item
    unfold pushItem kept
    split
    · exact Desk.passes_same rfl rfl rfl
    · exact Desk.passes_putBack (popItem_gives cb) s₁ item
  have hpush : ∀ (s₁ : State) co ctx item safe,
      Desk.Passes slot (if cb.onunbind then none else kept ctx) s₁ (push cb s₁ co ctx item safe) := by
    intro s₁ co ctx item safe
    unfold push
    split
    · exact Desk.passes_same rfl rfl rfl
    · exact hput s₁ ctx
  cases e with
  | pop co safe =>
      rw [step, Option.ite_none_left_eq_some] at hstep
      obtain ⟨-, hstep⟩ := hstep
      cases hstep
      exact Desk.passes_popWith (popItem_gives cb) _ s co safe
  | push co ctx item =>
      rw [step, Option.ite_none_left_eq_some] at hstep
      obtain ⟨-, hstep⟩ := hstep
      cases hstep
      exact (hpush (s.takeBack item) co ctx item false).of_queue rfl rfl rfl rfl
  | done co result =>
      rw [step, Option.ite_none_left_eq_some] at hstep
      obtain ⟨-, hstep⟩ := hstep
      obtain ⟨f, hf, rfl⟩ := Option.map_eq_some_iff.mp hstep
      simp only [returned, hf]
      refine Desk.Passes.of_queue (s := s.leave co) ?_ rfl rfl rfl rfl
      cases f with
      | onnew safe =>
          cases result with
          | none => exact Desk.passes_same rfl rfl rfl
          | some item => exact (popItem_gives cb).passes (s.leave co) co item safe
      | onbind item safe =>
          cases result with
          | none => exact Desk.passes_same rfl rfl rfl
          | some ctx => cases safe <;> exact Desk.passes_same rfl rfl rfl
      | func ctx item => cases result <;> exact hpush (s.leave co) co ctx item true
      | onunbind ctx item safe =>
          cases result with
          | none => cases safe <;> exact Desk.passes_same rfl rfl rfl
          | some v => exact hput (s.leave co) v

/-- **The pool lends lawfully.** -/
theorem lawful (cb : Callbacks) : Desk.Lawful slot (step cb) (Proper cb) made
    (fun s e => rejected cb s e + lost s e) leaks (returned cb) where
  effect := fun _ _ _ => step_effect
  passes := fun _ _ _ => step_passes
  idleItem := fun f _ => by cases f <;> rfl

end FanPool

end LuaFan
