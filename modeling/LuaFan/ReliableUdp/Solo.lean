/-
# An endpoint by itself

`Solo` runs one endpoint of reliable UDP: messages are sent, packages are popped and
transmitted, timeouts are checked, and any datagram whatsoever can arrive.  It keeps
the indices that `send` has returned (`used`) and those that the send window has moved
off (`passed`), in order.

What an operation does to the fields of the sender is said once here; only the packages
of the chain that are no acknowledgements (`data`) take part in flow control.
-/
import LuaFan.ReliableUdp.Sender

namespace LuaFan.ReliableUdp

open Machine

namespace Endpoint

/-- The indices the send window moves off when `_onack` handles `buf`. -/
def passes (apt : Endpoint) (buf : List UInt8) : List ℕ :=
  match apt.outputPackagePartsMap buf with
  | none => []
  | some ref =>
      match (apt.maps ref).lookup buf with
      | none => []
      | some package =>
          if ((apt.maps ref).filter fun e => e.1 ≠ buf) = [] then
            Serial.trail nextWindow (insert package.outputIndex apt.sendWindowHoles).card
              (insert package.outputIndex apt.sendWindowHoles) apt.sendWindow
          else []

/-- A package is done with, and its map changes. -/
def finish (apt : Endpoint) (head : List UInt8) (ref : ℕ) (map : PartsMap) : Endpoint :=
  { apt.markSendCompleted head with maps := Function.update apt.maps ref map }

/-- The endpoint after the acknowledgement of a package of map `ref`. -/
def without (apt : Endpoint) (ref : ℕ) (buf : List UInt8) : Endpoint :=
  apt.finish buf ref ((apt.maps ref).filter fun e => e.1 ≠ buf)

/-- **What `_onack` can do**: nothing, if the head is not of interest; take the package
out of its map; and if that was the last one of the map, move the window. -/
theorem onack_cases (apt : Endpoint) (buf : List UInt8) :
    (apt.outputPackagePartsMap buf = none ∧ apt.onack buf = apt ∧ apt.passes buf = []) ∨
    ∃ ref, apt.outputPackagePartsMap buf = some ref ∧
      (((apt.maps ref).lookup buf = none ∧ apt.onack buf = apt.markSendCompleted buf ∧
          apt.passes buf = []) ∨
        ∃ package, (apt.maps ref).lookup buf = some package ∧
          ((((apt.maps ref).filter fun e => e.1 ≠ buf) ≠ [] ∧ apt.onack buf = apt.without ref buf ∧
              apt.passes buf = []) ∨
            (((apt.maps ref).filter fun e => e.1 ≠ buf) = [] ∧
              apt.onack buf = { (apt.without ref buf).applySendWindow package.outputIndex with
                sentLog := (apt.without ref buf).sentLog ++ [package.outputIndex] } ∧
              apt.passes buf = Serial.trail nextWindow
                (insert package.outputIndex apt.sendWindowHoles).card
                (insert package.outputIndex apt.sendWindowHoles) apt.sendWindow))) := by
  cases href : apt.outputPackagePartsMap buf with
  | none => exact Or.inl ⟨rfl, by simp only [onack, href], by simp only [passes, href]⟩
  | some ref =>
      right
      refine ⟨ref, rfl, ?_⟩
      cases hlookup : (apt.maps ref).lookup buf with
      | none => exact Or.inl ⟨rfl, by simp only [onack, href, hlookup],
          by simp only [passes, href, hlookup]⟩
      | some package =>
          right
          refine ⟨package, rfl, ?_⟩
          by_cases hempty : ((apt.maps ref).filter fun e => e.1 ≠ buf) = []
          · exact Or.inr ⟨hempty, by simp only [onack, href, hlookup, hempty, if_true, without, finish],
              by simp only [passes, href, hlookup, hempty, if_true]⟩
          · exact Or.inl ⟨hempty, by simp only [onack, href, hlookup, hempty, if_false, without, finish],
              by simp only [passes, href, hlookup, hempty, if_false]⟩

/-- The packages in the chain that are no acknowledgements. -/
def data (apt : Endpoint) : List Package := apt.outputChain.filter fun p => !p.ack

end Endpoint

/-! ## Runs -/

/-- An operation of the endpoint: `send`, `onsendready`, `onread` and
`_check_timeout`. -/
inductive Act where
  | send (buf : List UInt8)
  | ready
  | read (buf : List UInt8)
  | timeout (visits : List Endpoint.Visit)

structure Solo where
  apt : Endpoint
  used : List ℕ
  passed : List ℕ

namespace Solo

def init (cfg : Config) (first : ℕ) : Solo := ⟨initConn cfg first, [], []⟩

def step (cfg : Config) (s : Solo) : Act → Option Solo
  | .send buf => some
      { s with
        apt := s.apt.send cfg buf
        used := if buf.length > cfg.maxPayloadSize then s.used else s.used ++ [s.apt.outputIndex] }
  | .ready => some { s with apt := s.apt.sendReady cfg }
  | .read buf => some
      { s with
        apt := s.apt.connRead cfg buf
        passed := if buf.length = headSize then s.passed ++ s.apt.passes buf else s.passed }
  | .timeout visits => some { s with apt := s.apt.checkTimeout visits }

end Solo

/-! ## What the operations do to the sender -/

/-- What is queued, kept and waited for is the same. -/
structure SameBooks (apt apt' : Endpoint) : Prop where
  data : apt'.data = apt.data
  waitAck : apt'.outputWaitAck = apt.outputWaitAck
  waitCount : apt'.outputWaitCount = apt.outputWaitCount
  partsMap : apt'.outputPackagePartsMap = apt.outputPackagePartsMap
  maps : apt'.maps = apt.maps
  mapCount : apt'.mapCount = apt.mapCount

/-- The index and the send window are the same too. -/
structure SameFlow (apt apt' : Endpoint) : Prop extends SameBooks apt apt' where
  index : apt'.outputIndex = apt.outputIndex
  window : apt'.sendWindow = apt.sendWindow
  holes : apt'.sendWindowHoles = apt.sendWindowHoles

theorem SameFlow.refl (apt : Endpoint) : SameFlow apt apt :=
  ⟨⟨rfl, rfl, rfl, rfl, rfl, rfl⟩, rfl, rfl, rfl⟩

theorem SameFlow.trans {a b c : Endpoint} (h : SameFlow a b) (h' : SameFlow b c) : SameFlow a c :=
  ⟨⟨h'.data.trans h.data, h'.waitAck.trans h.waitAck, h'.waitCount.trans h.waitCount,
    h'.partsMap.trans h.partsMap, h'.maps.trans h.maps, h'.mapCount.trans h.mapCount⟩,
    h'.index.trans h.index, h'.window.trans h.window, h'.holes.trans h.holes⟩

section Operations

variable (cfg : Config) (apt : Endpoint)

/-- Queueing an acknowledgement. -/
theorem sameFlow_ack {p : Package} (hp : p.ack = true) (ref : ℕ) :
    SameFlow apt (apt.sendPackage p ref) := by
  rw [Endpoint.sendPackage, if_pos hp]
  refine ⟨⟨?_, rfl, rfl, rfl, rfl, rfl⟩, rfl, rfl, rfl⟩
  simp [Endpoint.data, Endpoint.push, hp]

theorem sameFlow_takePackage (w : ℕ) (h : Head) (body : List UInt8) :
    SameFlow apt (apt.takePackage cfg w h body) := by
  unfold Endpoint.takePackage Endpoint.storePart
  simp only
  split
  · exact SameFlow.refl apt
  · split
    · exact ⟨⟨rfl, rfl, rfl, rfl, rfl, rfl⟩, rfl, rfl, rfl⟩
    · split
      · exact SameFlow.refl apt
      · split
        · exact ⟨⟨rfl, rfl, rfl, rfl, rfl, rfl⟩, rfl, rfl, rfl⟩
        · exact ⟨⟨rfl, rfl, rfl, rfl, rfl, rfl⟩, rfl, rfl, rfl⟩

theorem sameFlow_onPackage (w : ℕ) (head body : List UInt8) :
    SameFlow apt (apt.onPackage cfg w head body) := by
  have hack : SameFlow apt (apt.acknowledge cfg w head) := by
    unfold Endpoint.acknowledge
    simp only
    split
    · exact sameFlow_ack apt rfl _
    · exact SameFlow.refl apt
  exact hack.trans (sameFlow_takePackage cfg _ w _ body)

theorem sameFlow_onControl (h : Head) (body : List UInt8) :
    SameFlow apt (apt.onControl h body).1 := by
  have hset : ∀ window sent, SameFlow apt { apt with recvWindow := window, windowSent := sent } :=
    fun _ _ => ⟨⟨rfl, rfl, rfl, rfl, rfl, rfl⟩, rfl, rfl, rfl⟩
  unfold Endpoint.onControl
  split
  · split
    · split
      · exact SameFlow.refl apt
      · split
        · exact hset _ _
        · exact SameFlow.refl apt
    · exact SameFlow.refl apt
  · split
    · exact hset _ _
    · exact SameFlow.refl apt

/-- **Only a datagram of the size of a head has to do with sending.** -/
theorem sameFlow_connRead {buf : List UInt8} (hlen : buf.length ≠ headSize) :
    SameFlow apt (apt.connRead cfg buf) := by
  have hwait : SameFlow apt { apt with waitingCount := cfg.waitingCount } :=
    ⟨⟨rfl, rfl, rfl, rfl, rfl, rfl⟩, rfl, rfl, rfl⟩
  refine hwait.trans ?_
  unfold Endpoint.connRead Endpoint.onread
  rw [if_neg hlen]
  simp only
  split
  · split
    · exact sameFlow_onControl _ _ _
    · split
      · split
        · exact ⟨⟨rfl, rfl, rfl, rfl, rfl, rfl⟩, rfl, rfl, rfl⟩
        · exact sameFlow_onPackage cfg _ _ _ _
      · exact SameFlow.refl _
  · exact SameFlow.refl _

theorem connRead_of_head {buf : List UInt8} (hlen : buf.length = headSize) :
    apt.connRead cfg buf = ({ apt with waitingCount := cfg.waitingCount }).onack buf := by
  rw [Endpoint.connRead, Endpoint.onread, if_pos hlen]

variable {cfg apt}

/-- A package is popped from some place of the chain. -/
theorem pop_split {p : Package} {chain : List Package} (h : apt.pop cfg = some (p, chain)) :
    ∃ l₁ l₂, apt.outputChain = l₁ ++ p :: l₂ ∧ chain = l₁ ++ l₂ := by
  unfold Endpoint.pop at h
  split at h
  · split at h
    · cases h
    · rename_i hchain
      cases h
      exact ⟨[], chain, hchain, rfl⟩
  · obtain ⟨q, hq, heq⟩ := Option.map_eq_some_iff.mp h
    cases heq
    obtain ⟨hel, l₁, l₂, hsplit, hbefore⟩ := List.find?_eq_some_iff_append.mp hq
    refine ⟨l₁, l₂, hsplit, ?_⟩
    rw [hsplit, List.eraseP_append_right _ (by simpa using hbefore), List.eraseP_cons_of_pos hel]

/-- The data in the chain before and after a package is popped. -/
theorem data_pop {p : Package} {chain : List Package} (h : apt.pop cfg = some (p, chain)) :
    (p.ack = true ∧ (chain.filter fun q => !q.ack) = apt.data) ∨
      (p.ack = false ∧ apt.data.Perm (p :: chain.filter fun q => !q.ack)) := by
  obtain ⟨l₁, l₂, hsplit, rfl⟩ := pop_split h
  unfold Endpoint.data
  rw [hsplit]
  cases hack : p.ack with
  | true =>
      left
      simp [hack]
  | false =>
      right
      refine ⟨rfl, ?_⟩
      simp only [List.filter_append, List.filter_cons, hack, Bool.not_false, if_true]
      exact List.perm_middle

end Operations

/-! ## Indices -/

/-- Where the endpoint stands: the next index, the send window and its holes. -/
def Endpoint.place (apt : Endpoint) : ℕ × ℕ × Finset ℕ :=
  (apt.outputIndex, apt.sendWindow, apt.sendWindowHoles)

section Place

variable (cfg : Config) (apt : Endpoint)

theorem unqueued_place : Unqueued Endpoint.place := fun _ _ _ _ _ _ _ _ _ => rfl

theorem place_markSendCompleted (head : List UInt8) :
    (apt.markSendCompleted head).place = apt.place :=
  unqueued_place.markSendCompleted apt head

/-- **Timeouts do not move the window**, nor do they use an index. -/
theorem place_checkTimeout (visits : List Endpoint.Visit) :
    (apt.checkTimeout visits).place = apt.place :=
  unqueued_place.checkTimeout apt visits

theorem place_without (ref : ℕ) (buf : List UInt8) : (apt.without ref buf).place = apt.place :=
  place_markSendCompleted apt buf

theorem outputIndex_onack (buf : List UInt8) : (apt.onack buf).outputIndex = apt.outputIndex := by
  rcases apt.onack_cases buf with ⟨-, heq, -⟩ | ⟨ref, -, ⟨-, heq, -⟩ | ⟨package, -, hlast⟩⟩
  · rw [heq]
  · rw [heq]
    exact congrArg Prod.fst (place_markSendCompleted apt buf)
  · rcases hlast with ⟨-, heq, -⟩ | ⟨-, heq, -⟩ <;> rw [heq] <;>
      exact congrArg Prod.fst (place_without apt ref buf)

theorem outputIndex_connRead (buf : List UInt8) :
    (apt.connRead cfg buf).outputIndex = apt.outputIndex := by
  by_cases hlen : buf.length = headSize
  · rw [connRead_of_head cfg apt hlen, outputIndex_onack]
  · exact (sameFlow_connRead cfg apt hlen).index

theorem place_send {buf : List UInt8} (hmax : buf.length ≤ cfg.maxPayloadSize) :
    (apt.send cfg buf).place =
      (Serial.next maxOutputIndex apt.outputIndex, apt.sendWindow, apt.sendWindowHoles) := by
  rw [Endpoint.send, if_neg (by omega), unqueued_place.queueAll]
  rfl

end Place

/-- The indices are handed out one after the other. -/
structure Numbered (first : ℕ) (s : Solo) : Prop where
  used : s.used = (List.range s.used.length).map (indexOf first)
  index : s.apt.outputIndex = indexOf first s.used.length

theorem numbered_init (cfg : Config) (first : ℕ) : Numbered first (Solo.init cfg first) :=
  ⟨rfl, rfl⟩

theorem step_numbered {cfg : Config} {first : ℕ} {s s' : Solo} {a : Act} (h : Numbered first s)
    (hstep : s.step cfg a = some s') : Numbered first s' := by
  cases a with
  | send buf =>
      cases hstep
      by_cases hmax : buf.length > cfg.maxPayloadSize
      · simp only [if_pos hmax]
        exact ⟨h.used, by rw [Endpoint.send, if_pos hmax]; exact h.index⟩
      · simp only [if_neg hmax]
        have hindex : (s.apt.send cfg buf).outputIndex = Serial.next maxOutputIndex s.apt.outputIndex :=
          congrArg Prod.fst (place_send cfg s.apt (by omega))
        refine ⟨?_, ?_⟩
        · simp only [List.length_append, List.length_singleton, List.range_succ, List.map_append,
            List.map_singleton]
          rw [← h.used, h.index]
        · simp only [List.length_append, List.length_singleton]
          rw [hindex, indexOf_succ, h.index]
  | ready =>
      cases hstep
      exact ⟨h.used, (congrArg Prod.fst (unqueued_place.sendReady cfg s.apt)).trans h.index⟩
  | read buf =>
      cases hstep
      exact ⟨h.used, (outputIndex_connRead cfg s.apt buf).trans h.index⟩
  | timeout visits =>
      cases hstep
      exact ⟨h.used, (congrArg Prod.fst (place_checkTimeout s.apt visits)).trans h.index⟩

end LuaFan.ReliableUdp
