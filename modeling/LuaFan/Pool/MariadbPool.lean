/-
# The connection pool (`modules/mariadb/pool.lua`)

The same pool for database connections.  A connection is made by `mariadb.connect`
and `setcharset`; the context of a connection is made by `orm.new` when it is first
lent, and remembered.  `push` finds the connection in the metatable of the context.

`step_effect` says what every step does to the slots: it moves one, unless one of the three
calls of `pop` raises: then the slot is gone.  `step_passes` says what it does to the queue.
-/
import LuaFan.Lib.Machine
import LuaFan.Pool.Desk

namespace LuaFan

open Lending

namespace MariadbPool

/-! ## The code -/

/-- The contexts made so far, and the number of the next one. -/
structure Memo where
  map : List (LuaValue × LuaValue)
  index : ℕ

/-- A call that may yield or raise: the three calls of `pop`, or the function given to
`safe`.  The flag tells whether `pop` was called by `safe`; `conn` is the connection
of `ctx`. -/
inductive Frame where
  | connect (safe : Bool)
  | setcharset (conn : LuaValue) (safe : Bool)
  | ormNew (conn : LuaValue) (safe : Bool)
  | func (ctx conn : LuaValue)
  deriving DecidableEq

abbrev State := Desk Frame Memo

/-- `new`. -/
def new (size : ℕ) : State := Desk.new size ⟨[], 0⟩

/-- `self.map[conn]`. -/
def Memo.get (m : Memo) (conn : LuaValue) : Option LuaValue :=
  (m.map.find? fun e => e.1 == conn).map Prod.snd

/-- `pop` returns, to `safe` or to user code. -/
def popReturn (s : State) (co : Co) (ctx conn : LuaValue) (safe : Bool) : State :=
  if safe then s.enter co (.func ctx conn) else s.lend co conn

/-- The end of `pop`: the context of the connection. -/
def popConn (s : State) (co : Co) (conn : LuaValue) (safe : Bool) : State :=
  match s.memo.get conn with
  | some ctx => popReturn s co ctx conn safe
  | none => { s with memo := { s.memo with index := s.memo.index + 1 } }.enter co (.ormNew conn safe)

/-- `pop`. -/
def pop (s : State) (co : Co) (safe : Bool) : State :=
  Desk.popWith (some (.connect safe)) popConn s co safe

/-- `push`. -/
def push (s : State) (conn : LuaValue) : State := Desk.putBack popConn s conn

/-- A call ends with a result, or by raising an error. -/
def ended (s : State) (co : Co) : Frame → Option LuaValue → State
  | .connect safe, some conn => s.enter co (.setcharset conn safe)
  | .connect _, none => s
  | .setcharset conn safe, some _ => popConn s co conn safe
  | .setcharset _ _, none => s
  | .ormNew conn safe, some ctx =>
      popReturn { s with memo := { s.memo with map := (conn, ctx) :: s.memo.map } } co ctx conn safe
  | .ormNew _ _, none => s
  | .func _ conn, _ => push s conn

/-- What a coroutine that is not parked can do: call `pop` or `safe`, push a context
with its connection, or return from its innermost call (`none`: with an error). -/
inductive Event where
  | pop (co : Co) (safe : Bool)
  | push (co : Co) (conn : LuaValue)
  | done (co : Co) (result : Option LuaValue)

def step (s : State) : Event → Option State
  | .pop co safe => if s.parked co then none else some (pop s co safe)
  | .push co conn => if s.parked co then none else some (push (s.takeBack conn) conn)
  | .done co result =>
      if s.parked co then none else (s.top co).map fun f => ended (s.leave co) co f result

/-! ## Slots -/

/-- What a frame stands for. -/
def slot : Frame → Co → Slot Co LuaValue
  | .connect _, co => .making co
  | .setcharset conn _, co => .out co conn
  | .ormNew conn _, co => .out co conn
  | .func _ conn, co => .out co conn

/-- The users keep to the rules: what is pushed is the context of a connection in
somebody's hands, and `mariadb.connect` makes a connection that is in no slot. -/
def Proper (s : State) : Event → Prop
  | .pop _ _ => True
  | .push _ conn => conn ∈ s.hands.map Prod.snd
  | .done co result =>
      match s.top co, result with
      | some (.connect _), some conn => conn ∉ items (s.slots slot)
      | _, _ => True

def decidableProperDone (s : State) : (top : Option Frame) → (result : Option LuaValue) →
    Decidable (match top, result with
      | some (.connect _), some conn => conn ∉ items (s.slots slot)
      | _, _ => True)
  | some (.connect _), some _ => instDecidableNot
  | some (.connect _), none => isTrue trivial
  | some (.setcharset ..), _ => isTrue trivial
  | some (.ormNew ..), _ => isTrue trivial
  | some (.func ..), _ => isTrue trivial
  | none, _ => isTrue trivial

instance (s : State) : (e : Event) → Decidable (Proper s e)
  | .pop .. => isTrue trivial
  | .push _ conn => inferInstanceAs (Decidable (conn ∈ s.hands.map Prod.snd))
  | .done co result => decidableProperDone s (s.top co) result

/-- One of the calls of `pop` raises. -/
def leaks (s : State) : Event → Bool
  | .done co none =>
      match s.top co with
      | some (.connect _) => true
      | some (.setcharset _ _) => true
      | some (.ormNew _ _) => true
      | _ => false
  | _ => false

/-- The connection that `mariadb.connect` has made. -/
def made (s : State) : Event → Multiset LuaValue
  | .done co result =>
      match s.top co, result with
      | some (.connect _), some conn => {conn}
      | _, _ => 0
  | _ => 0

/-- The connection that is lost because a call raises. -/
def lost (s : State) : Event → Multiset LuaValue
  | .done co result =>
      if leaks s (.done co result) then (s.top co).elim 0 fun f => items {slot f co} else 0
  | _ => 0

/-- The connection that a step puts back. -/
def returned (s : State) : Event → Option LuaValue
  | .push _ conn => some conn
  | .done co _ =>
      match s.top co with
      | some (.func _ conn) => some conn
      | _ => none
  | .pop _ _ => none

theorem slots_popReturn (s : State) (co : Co) (ctx conn : LuaValue) (safe : Bool) :
    (popReturn s co ctx conn safe).slots slot = .out co conn ::ₘ s.slots slot := by
  unfold popReturn
  split
  · exact Desk.slots_enter
  · exact Desk.slots_lend

/-- The ways of `popConn`. -/
theorem popConn_cases (s : State) (co : Co) (conn : LuaValue) (safe : Bool) :
    (∃ ctx, popConn s co conn safe = s.enter co (.func ctx conn)) ∨
    popConn s co conn safe = s.lend co conn ∨
    popConn s co conn safe
      = { s with memo := { s.memo with index := s.memo.index + 1 } }.enter co (.ormNew conn safe) := by
  unfold popConn popReturn
  split
  · split
    · exact Or.inl ⟨_, rfl⟩
    · exact Or.inr (Or.inl rfl)
  · exact Or.inr (Or.inr rfl)

/-- A coroutine that got a connection leaves the pool as it is. -/
theorem popConn_gives : Desk.Gives slot popConn where
  slots := by
    intro s co conn safe
    rcases popConn_cases s co conn safe with ⟨ctx, h⟩ | h | h
    · rw [h]
      exact Desk.slots_enter
    · rw [h]
      exact Desk.slots_lend
    · rw [h]
      exact Desk.slots_enter
  idle := by
    intro s co conn safe
    rcases popConn_cases s co conn safe with ⟨ctx, h⟩ | h | h <;> rw [h] <;> rfl
  count := by
    intro s co conn safe
    rcases popConn_cases s co conn safe with ⟨ctx, h⟩ | h | h <;> rw [h] <;> rfl
  yielding := by
    intro s co conn safe
    rcases popConn_cases s co conn safe with ⟨ctx, h⟩ | h | h <;> rw [h] <;> rfl
  blocked := by
    intro s co conn safe
    rcases popConn_cases s co conn safe with ⟨ctx, h⟩ | h | h <;> rw [h] <;> rfl
  served := by
    intro s co conn safe
    rcases popConn_cases s co conn safe with ⟨ctx, h⟩ | h | h <;> rw [h] <;> rfl

theorem move_pop (s : State) (co : Co) (safe : Bool) :
    Move 0 0 (s.slots slot) ((pop s co safe).slots slot) := by
  refine Desk.move_popWith popConn_gives ?_ s co safe
  intro f hf co
  cases hf
  rfl

/-- **What a step does to the slots.** -/
theorem step_effect {s s' : State} {e : Event} (hproper : Proper s e) (hstep : step s e = some s') :
    Desk.Effect slot (made s e) (lost s e) (leaks s e) s s' := by
  cases e with
  | pop co safe =>
      rw [step, Option.ite_none_left_eq_some] at hstep
      obtain ⟨-, hstep⟩ := hstep
      cases hstep
      exact Desk.effect_of_move (move_pop s co safe) rfl
  | push co conn =>
      rw [step, Option.ite_none_left_eq_some] at hstep
      obtain ⟨-, hstep⟩ := hstep
      cases hstep
      obtain ⟨b, hb⟩ := Desk.slots_takeBack slot hproper
      obtain ⟨a, ha, hslots⟩ := Desk.slots_putBack popConn_gives (s.takeBack conn) conn
      refine Desk.effect_of_move ?_ rfl
      rw [push, hslots, hb]
      exact Move.keep _ ha
  | done co result =>
      rw [step, Option.ite_none_left_eq_some] at hstep
      obtain ⟨-, hstep⟩ := hstep
      obtain ⟨f, hf, rfl⟩ := Option.map_eq_some_iff.mp hstep
      have hleave := Desk.slots_leave slot hf
      simp only [Proper, hf] at hproper
      simp only [lost, hf, Option.elim]
      cases f with
      | connect safe =>
          cases result with
          | none =>
              simp only [made, leaks, hf, if_true]
              exact Desk.effect_of_leak hleave rfl
          | some conn =>
              simp only [made, leaks, hf]
              refine Desk.effect_of_move ?_ rfl
              rw [ended, Desk.slots_enter, hleave]
              rw [hleave, items_cons] at hproper
              exact Move.fill _ rfl rfl hproper
      | setcharset conn safe =>
          cases result with
          | none =>
              simp only [made, leaks, hf, if_true]
              exact Desk.effect_of_leak hleave rfl
          | some _ =>
              simp only [made, leaks, hf]
              refine Desk.effect_of_move ?_ rfl
              rw [ended, popConn_gives.slots, hleave]
              exact Move.keep _ rfl
      | ormNew conn safe =>
          cases result with
          | none =>
              simp only [made, leaks, hf, if_true]
              exact Desk.effect_of_leak hleave rfl
          | some ctx =>
              simp only [made, leaks, hf]
              refine Desk.effect_of_move ?_ rfl
              rw [ended, slots_popReturn, hleave]
              exact Move.keep _ rfl
      | func ctx conn =>
          obtain ⟨a, ha, hslots⟩ := Desk.slots_putBack popConn_gives (s.leave co) conn
          have hmove : Move 0 0 (s.slots slot) ((push (s.leave co) conn).slots slot) := by
            rw [push, hslots, hleave]
            exact Move.keep _ ha
          cases result with
          | none =>
              simp only [made, leaks, hf]
              exact Desk.effect_of_move hmove rfl
          | some _ =>
              simp only [made, leaks, hf]
              exact Desk.effect_of_move hmove rfl

/-! ## The queue -/

/-- **What a step does to the queue.** -/
theorem step_passes {s s' : State} {e : Event} (hstep : step s e = some s') :
    Desk.Passes slot (returned s e) s s' := by
  cases e with
  | pop co safe =>
      rw [step, Option.ite_none_left_eq_some] at hstep
      obtain ⟨-, hstep⟩ := hstep
      cases hstep
      exact Desk.passes_popWith popConn_gives _ s co safe
  | push co conn =>
      rw [step, Option.ite_none_left_eq_some] at hstep
      obtain ⟨-, hstep⟩ := hstep
      cases hstep
      exact (Desk.passes_putBack popConn_gives (s.takeBack conn) conn).of_queue rfl rfl rfl rfl
  | done co result =>
      rw [step, Option.ite_none_left_eq_some] at hstep
      obtain ⟨-, hstep⟩ := hstep
      obtain ⟨f, hf, rfl⟩ := Option.map_eq_some_iff.mp hstep
      simp only [returned, hf]
      refine Desk.Passes.of_queue (s := s.leave co) ?_ rfl rfl rfl rfl
      cases f with
      | connect safe => cases result <;> exact Desk.passes_same rfl rfl rfl
      | setcharset conn safe =>
          cases result with
          | none => exact Desk.passes_same rfl rfl rfl
          | some _ => exact popConn_gives.passes (s.leave co) co conn safe
      | ormNew conn safe =>
          cases result with
          | none => exact Desk.passes_same rfl rfl rfl
          | some ctx => cases safe <;> exact Desk.passes_same rfl rfl rfl
      | func ctx conn => cases result <;> exact Desk.passes_putBack popConn_gives (s.leave co) conn

/-- **The pool lends lawfully.** -/
theorem lawful : Desk.Lawful slot step Proper made lost leaks returned where
  effect := fun _ _ _ => step_effect
  passes := fun _ _ _ => step_passes
  idleItem := fun f _ => by cases f <;> rfl

end MariadbPool

end LuaFan
