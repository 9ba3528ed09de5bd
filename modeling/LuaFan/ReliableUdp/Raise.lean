/-
# Errors of `_onread`

`onreadIn` is `_onread` with every place where Lua can raise an error: a control
datagram without room for the window, `table.concat` over a hole, a connection that is
gone or refuses to send, and the lookups of `_onack`.  After an error the state is what
it was changed to before; the next datagram finds it so.

`onread_raises_iff`: **in every state that can be reached, whatever the peer has sent so
far, `_onread` raises nothing exactly for the harmless datagrams.**  The lookups of
`_onack` never fail (`Booked`).  Where nothing is raised, `onreadIn` is `onread`
(`onreadIn_eq`).
-/
import LuaFan.ReliableUdp.Windows

namespace LuaFan.ReliableUdp

open Machine

/-! ## The code -/

/-- `conn` at some time: is it set, does its `send` answer a number (and not nil), and
does its `send_req` return? -/
structure Conn where
  isOpen : Bool
  sends : Bool
  requests : Bool

/-- What a call of `_onread` finds outside of the endpoint: the connection and
`_pending_for_send`, both as `onsent` leaves them if it is set and runs, whether
`onread` is set, and what `#` answers for the items of a message, which can be any of
their borders. -/
structure Surroundings where
  conn : Conn
  pendingForSend : Bool
  onsent : Option (Conn × Bool)
  onread : Bool
  len : (ℕ → Option (List UInt8)) → ℕ
  len_border : ∀ items, items 65536 = none →
    (len items = 0 ∨ (items (len items)).isSome = true) ∧ items (len items + 1) = none

/-- `apt_mt:send_req`. -/
def sendReq (conn : Conn) (pendingForSend : Bool) : Option String :=
  if pendingForSend then none
  else if !conn.isOpen then some "attempt to index a nil value (field 'conn')"
  else if !conn.requests then some "Failed to request send ready notification"
  else none

namespace Endpoint

variable (cfg : Config) (env : Surroundings) (apt : Endpoint)

/-- `apt_mt:_send` of a control datagram. -/
def sendIn (buf : List UInt8) : Endpoint × Option String :=
  if !env.conn.isOpen then (apt, some "attempt to index a nil value (field 'conn')")
  else if !env.conn.sends then (apt, some "attempt to compare nil with number")
  else (apt.connSend buf, sendReq env.conn env.pendingForSend)

/-- `apt_mt:_onack`: an error where `package` is nil. -/
def onackIn (buf : List UInt8) : Endpoint × Option String :=
  match apt.outputPackagePartsMap buf with
  | none => (apt, none)
  | some ref =>
      match (apt.maps ref).lookup buf with
      | none =>
          (apt.markSendCompleted buf,
            if apt.maps ref = [] then some "attempt to index a nil value (local 'package')" else none)
      | some _ => (apt.onack buf, none)

/-- The acknowledgement completes a message, so that `onsent` runs. -/
def completes (buf : List UInt8) : Bool := (apt.onack buf).sentLog ≠ apt.sentLog

/-- `send_req` after `_onack`. -/
def reqAfterAck (buf : List UInt8) : Option String :=
  let r := if apt.completes buf then env.onsent.getD (env.conn, env.pendingForSend)
    else (env.conn, env.pendingForSend)
  sendReq r.1 r.2

/-- `table.concat(items)`, the length being `n`. -/
def concatItems (items : ℕ → Option (List UInt8)) (n : ℕ) : Except String (List UInt8) :=
  match (List.range n).find? fun i => (items (i + 1)).isNone with
  | some i => .error ("invalid value (at index " ++ toString (i + 1) ++ ") in table for 'concat'")
  | none => .ok ((List.range n).flatMap fun i => (items (i + 1)).getD [])

/-- The parts of the message of a package, with this one. -/
def itemsWith (h : Head) (body : List UInt8) : ℕ → Option (List UInt8) :=
  Function.update ((apt.incomingMap h.outputIndex).getD ⟨fun _ => none, h.count, false⟩).items
    h.packageIndex (some body)

/-- What `_onread` does with a part that it does not drop. -/
def storePartIn (window : ℕ) (h : Head) (body : List UInt8) : Endpoint × Option String :=
  let object := (apt.incomingMap h.outputIndex).getD ⟨fun _ => none, h.count, false⟩
  if object.done then (apt, none)
  else
    let items := apt.itemsWith h body
    let stored := { apt with
      incomingMap := Function.update apt.incomingMap h.outputIndex (some { object with items := items }) }
    if full items h.count then
      if env.onread then
        match concatItems items (env.len items) with
        | .error e => (stored.applyRecvWindow window h.outputIndex, some e)
        | .ok payload =>
            ({ apt.applyRecvWindow window h.outputIndex with
              incomingMap := Function.update apt.incomingMap h.outputIndex none
              readLog := apt.readLog ++ [(h.outputIndex, payload)] }, none)
      else
        ({ apt.applyRecvWindow window h.outputIndex with
          incomingMap := Function.update apt.incomingMap h.outputIndex none }, none)
    else (stored, none)

/-- A package is dropped outside the window, and cancels its message or is stored
inside. -/
def takePackageIn (window : ℕ) (h : Head) (body : List UInt8) : Endpoint × Option String :=
  if packageOutside cfg window h.outputIndex && !cfg.keepPackageOutsideWindow then (apt, none)
  else if h.count = 0 ∧ h.packageIndex = 0 then
    ({ apt with incomingMap := Function.update apt.incomingMap h.outputIndex none }.applyRecvWindow
      window h.outputIndex, none)
  else apt.storePartIn env window h body

/-- Is the package acknowledged? -/
def isAcknowledged (window : ℕ) (h : Head) : Bool :=
  !packageOutside cfg window h.outputIndex || !futurePackage window h.outputIndex

/-- What `_onread` does with a package, once the receive window is set. -/
def onPackageIn (window : ℕ) (head : List UInt8) (body : List UInt8) : Endpoint × Option String :=
  let acknowledged := apt.acknowledge cfg window head
  match if isAcknowledged cfg window (unpackHead head) then sendReq env.conn env.pendingForSend
    else none with
  | some e => (acknowledged, some e)
  | none => acknowledged.takePackageIn cfg env window (unpackHead head) body

/-- `apt_mt:_onread`, and the error it raises. -/
def onreadIn (buf : List UInt8) : Endpoint × Option String :=
  if buf.length = headSize then
    match apt.onackIn buf with
    | (apt', some e) => (apt', some e)
    | (apt', none) => (apt', apt.reqAfterAck env buf)
  else if buf.length > headSize then
    let head := buf.take headSize
    let body := buf.drop headSize
    let h := unpackHead head
    if h.outputIndex = windowCtrl then apt.onControl h body
    else if h.outputIndex < maxOutputIndex then
      match apt.recvWindow with
      | none => apt.sendIn env (windowCtrlReq apt.sendWindow)
      | some window => apt.onPackageIn cfg env window head body
    else (apt, none)
  else (apt, none)

end Endpoint

/-! ## Runs -/

/-- An endpoint over the life of a session: `cleanup` suspends it, the packages of a
suspended endpoint are put aside, and `getapt` takes it up again. -/
structure Session where
  apt : Endpoint
  suspendList : List Package

/-- What can happen to an endpoint; the connector raises its `_WAITING_COUNT` when a
datagram comes in, which can be any datagram whatsoever. -/
inductive Happening where
  | send (buf : List UInt8)
  | ready
  | timeout (visits : List Endpoint.Visit)
  | paired
  | read (env : Surroundings) (buf : List UInt8)
  | cleanup
  | archive
  | reuse

namespace Session

def init (cfg : Config) (first : ℕ) : Session := ⟨initConn cfg first, []⟩

def step (cfg : Config) (s : Session) : Happening → Option Session
  | .send buf => some { s with apt := s.apt.send cfg buf }
  | .ready => some { s with apt := s.apt.sendReady cfg }
  | .timeout visits => some { s with apt := s.apt.checkTimeout visits }
  | .paired => some { s with apt := { s.apt with waitingCount := cfg.waitingCount } }
  | .read env buf => some { s with apt := (s.apt.onreadIn cfg env buf).1 }
  | .cleanup => some { s with apt := { s.apt with recvWindow := none, suspended := true } }
  | .archive =>
      match s.apt.pop cfg with
      | none => some s
      | some (package, chain) => some
          ⟨{ s.apt with outputChain := chain }, s.suspendList ++ [package]⟩
  | .reuse => some
      ⟨{ s.suspendList.foldl Endpoint.push s.apt with suspended := false }, []⟩

end Session

/-! ## Harmless datagrams -/

section Harmless

variable (cfg : Config) (env : Surroundings) (apt : Endpoint) (buf : List UInt8)

/-- A control datagram that is to set the window and is too short to hold it. -/
def ShortWindow : Prop :=
  headSize < buf.length ∧ buf.length < headSize + 4 ∧
    unpackHead (buf.take headSize) = ⟨windowCtrl, 1, 1⟩ ∧ apt.recvWindow = none

/-- A datagram with a package, and the receive window at the time. -/
def IsPackage (window : Option ℕ) : Prop :=
  headSize < buf.length ∧ (unpackHead (buf.take headSize)).outputIndex < maxOutputIndex ∧
    apt.recvWindow = window

/-- The package that is taken in makes the count of its head full, with a hole below
the length of the items, and there is somebody to read the message. -/
def ReadsHole : Prop :=
  let h := unpackHead (buf.take headSize)
  let items := apt.itemsWith h (buf.drop headSize)
  env.onread = true ∧
    (∃ window, IsPackage apt buf (some window) ∧
      (packageOutside cfg window h.outputIndex = false ∨ cfg.keepPackageOutsideWindow = true)) ∧
    ¬(h.count = 0 ∧ h.packageIndex = 0) ∧ (∀ i < h.count, (items (i + 1)).isSome = true) ∧
    ∃ i < env.len items, items (i + 1) = none

/-- The connection does what the datagram asks of it: a request to send after an
acknowledgement that came in or that goes out, and the request for the window. -/
structure Connected : Prop where
  ack : buf.length = headSize → apt.reqAfterAck env buf = none
  unset : IsPackage apt buf none → env.conn.isOpen = true ∧ env.conn.sends = true ∧
    sendReq env.conn env.pendingForSend = none
  package : ∀ window, IsPackage apt buf (some window) →
    Endpoint.isAcknowledged cfg window (unpackHead (buf.take headSize)) = true →
    sendReq env.conn env.pendingForSend = none

/-- The datagram is no control datagram that is too short, completes no message with a
hole, and the connection does what it asks for. -/
structure IsHarmless : Prop where
  window : ¬ShortWindow apt buf
  whole : ¬ReadsHole cfg env apt buf
  connected : Connected cfg env apt buf

end Harmless

/-! ## The sender's books -/

/-- A head of interest is in the map it is filed under. -/
structure Booked (apt : Endpoint) : Prop where
  bound : ∀ head r, apt.outputPackagePartsMap head = some r → r < apt.mapCount
  listed : ∀ head r, apt.outputPackagePartsMap head = some r → head ∈ (apt.maps r).map Prod.fst

section Booked

variable {cfg : Config} {env : Surroundings} {apt apt' : Endpoint}

theorem Booked.of_same (h : Booked apt) (hmaps : apt'.maps = apt.maps)
    (hparts : apt'.outputPackagePartsMap = apt.outputPackagePartsMap)
    (hcount : apt'.mapCount = apt.mapCount) : Booked apt' := by
  constructor
  · rw [hparts, hcount]
    exact h.bound
  · rw [hparts, hmaps]
    exact h.listed

theorem Booked.markSendCompleted (h : Booked apt) (head : List UInt8) :
    Booked (apt.markSendCompleted head) := by
  constructor
  · intro h' r hr
    rw [mapCount_markSendCompleted]
    exact h.bound h' r (partsMap_markSendCompleted.mp hr).2
  · intro h' r hr
    rw [maps_markSendCompleted]
    exact h.listed h' r (partsMap_markSendCompleted.mp hr).2

/-- A map may lose the head that is no longer of interest. -/
theorem Booked.finish (h : Booked apt) {head : List UInt8} {ref : ℕ} {map : PartsMap}
    (hkeys : ∀ key ∈ (apt.maps ref).map Prod.fst, key ≠ head → key ∈ map.map Prod.fst) :
    Booked (apt.finish head ref map) := by
  constructor
  · intro h' r hr
    show r < (apt.markSendCompleted head).mapCount
    rw [mapCount_markSendCompleted]
    exact h.bound h' r (partsMap_markSendCompleted.mp hr).2
  · intro h' r hr
    obtain ⟨hne, hold⟩ := partsMap_markSendCompleted.mp hr
    have hmem := h.listed h' r hold
    show h' ∈ (Function.update apt.maps ref map r).map Prod.fst
    by_cases hr : r = ref
    · subst hr
      rw [Function.update_self]
      exact hkeys h' hmem hne
    · rw [Function.update_of_ne hr]
      exact hmem

theorem Booked.queueAll (h : Booked apt) {ps : List Package} (hack : ∀ p ∈ ps, p.ack = false) :
    Booked (apt.queueAll ps) := by
  rw [Endpoint.queueAll_eq apt hack]
  constructor
  · intro head r hr
    simp only at hr ⊢
    split at hr
    · cases hr
      omega
    · have := h.bound head r hr
      omega
  · intro head r hr
    simp only at hr ⊢
    split at hr
    · rename_i hmem
      cases hr
      rw [Function.update_self, List.map_map]
      exact hmem
    · have := h.bound head r hr
      rw [Function.update_of_ne (by omega)]
      exact h.listed head r hr

theorem Booked.send (h : Booked apt) (buf : List UInt8) : Booked (apt.send cfg buf) := by
  unfold Endpoint.send
  split
  · exact h
  · have hnext : Booked { apt with outputIndex := Serial.next maxOutputIndex apt.outputIndex } :=
      h.of_same rfl rfl rfl
    refine hnext.queueAll ?_
    intro p hp
    obtain ⟨i, hi⟩ := List.mem_iff_getElem?.mp hp
    exact (getElem?_messagePackages hi).2.2

theorem Booked.sendReady (h : Booked apt) : Booked (apt.sendReady cfg) := by
  unfold Endpoint.sendReady
  split
  · split
    · exact h
    · unfold Endpoint.transmit
      split
      · exact h.of_same rfl rfl rfl
      · split <;> exact h.of_same rfl rfl rfl
  · exact h.of_same rfl rfl rfl

/-- **What `_onack` looks up is there.** -/
theorem Booked.onackIn_eq (h : Booked apt) (buf : List UInt8) :
    apt.onackIn buf = (apt.onack buf, none) := by
  unfold Endpoint.onackIn
  cases href : apt.outputPackagePartsMap buf with
  | none => simp only [Endpoint.onack, href]
  | some ref =>
      cases hlookup : (apt.maps ref).lookup buf with
      | some package => simp only [hlookup]
      | none =>
          obtain ⟨e, he, hkey⟩ := List.mem_map.mp (h.listed buf ref href)
          have hne := List.lookup_eq_none_iff.mp hlookup e he
          simp [hkey] at hne

theorem Booked.onack (h : Booked apt) (buf : List UInt8) : Booked (apt.onack buf) := by
  have hwithout : ∀ ref, Booked (apt.without ref buf) := by
    intro ref
    refine h.finish ?_
    intro key hkey hne
    obtain ⟨e, he, rfl⟩ := List.mem_map.mp hkey
    exact List.mem_map_of_mem (List.mem_filter.mpr ⟨he, by simpa using hne⟩)
  rcases apt.onack_cases buf with ⟨-, heq, -⟩ | ⟨ref, -, ⟨-, heq, -⟩ | ⟨package, -, h'⟩⟩
  · rw [heq]
    exact h
  · rw [heq]
    exact h.markSendCompleted buf
  · rcases h' with ⟨-, heq, -⟩ | ⟨-, heq, -⟩
    · rw [heq]
      exact hwithout ref
    · rw [heq]
      exact (hwithout ref).of_same rfl rfl rfl

theorem Booked.visit (h : Booked apt) (v : Endpoint.Visit) :
    Booked (apt.visit v).1 ∧ ∀ p ∈ (apt.visit v).2, p.ack = false := by
  unfold Endpoint.visit
  split
  · exact ⟨h, by simp⟩
  · split
    · split
      · exact ⟨h, by simp⟩
      · split
        · exact ⟨h.markSendCompleted v.head, by simp⟩
        · split
          · split
            · exact ⟨h.of_same rfl rfl rfl, by simp⟩
            · refine ⟨h.finish ?_, by simp [cancelPackage]⟩
              intro key hkey _
              obtain ⟨e, he, rfl⟩ := List.mem_map.mp hkey
              exact List.mem_map.mpr ⟨_, List.mem_map_of_mem he, rfl⟩
          · exact ⟨h, by simp⟩
    · exact ⟨h, by simp⟩

theorem Booked.visitAll (visits : List Endpoint.Visit) :
    ∀ {apt : Endpoint}, Booked apt →
      Booked (apt.visitAll visits).1 ∧ ∀ p ∈ (apt.visitAll visits).2, p.ack = false := by
  induction visits with
  | nil =>
      intro apt h
      exact ⟨h, by simp [Endpoint.visitAll]⟩
  | cons v visits ih =>
      intro apt h
      obtain ⟨hv, hpv⟩ := h.visit v
      obtain ⟨hvs, hpvs⟩ := ih hv
      refine ⟨hvs, ?_⟩
      intro p hp
      rcases List.mem_append.mp hp with hp | hp
      · exact hpv p hp
      · exact hpvs p hp

theorem Booked.checkTimeout (h : Booked apt) (visits : List Endpoint.Visit) :
    Booked (apt.checkTimeout visits) := by
  have hfold : ∀ (ps : List Package) (apt : Endpoint), (∀ p ∈ ps, p.ack = false) → Booked apt →
      Booked (ps.foldl (fun apt p => apt.queueAll [p]) apt) := by
    intro ps
    induction ps with
    | nil =>
        intro apt _ h
        exact h
    | cons p ps ih =>
        intro apt hack h
        refine ih _ (fun q hq => hack q (List.mem_cons_of_mem p hq)) (h.queueAll ?_)
        intro q hq
        rw [List.mem_singleton.mp hq]
        exact hack p List.mem_cons_self
  obtain ⟨hv, hack⟩ := Booked.visitAll visits h
  exact hfold _ _ hack hv

end Booked

/-! ## What is stored of messages -/

/-- No message is marked as done, and places have 16 bits. -/
def Shelved (apt : Endpoint) : Prop :=
  ∀ i o, apt.incomingMap i = some o → o.done = false ∧ ∀ k, 65535 < k → o.items k = none

/-- The sender's books are the same. -/
def SameMaps (apt apt' : Endpoint) : Prop :=
  apt'.maps = apt.maps ∧ apt'.outputPackagePartsMap = apt.outputPackagePartsMap ∧
    apt'.mapCount = apt.mapCount

section Shelved

variable {cfg : Config} {env : Surroundings} {apt : Endpoint}

theorem Shelved.of_same {apt' : Endpoint} (h : Shelved apt)
    (hmap : apt'.incomingMap = apt.incomingMap) : Shelved apt' := by
  unfold Shelved
  rw [hmap]
  exact h

theorem Shelved.update (h : Shelved apt) {apt' : Endpoint} {i : ℕ} {o : Option Incoming}
    (hmap : apt'.incomingMap = Function.update apt.incomingMap i o)
    (ho : ∀ o', o = some o' → o'.done = false ∧ ∀ k, 65535 < k → o'.items k = none) :
    Shelved apt' := by
  intro j o' hj
  rw [hmap, Function.update_apply] at hj
  split at hj
  · exact ho o' hj
  · exact h j o' hj

/-- The object a part is put into. -/
theorem Shelved.object (h : Shelved apt) (head : Head) :
    ((apt.incomingMap head.outputIndex).getD ⟨fun _ => none, head.count, false⟩).done = false ∧
      ∀ k, 65535 < k →
        ((apt.incomingMap head.outputIndex).getD ⟨fun _ => none, head.count, false⟩).items k = none := by
  cases hmap : apt.incomingMap head.outputIndex with
  | none => exact ⟨rfl, fun _ _ => rfl⟩
  | some o => exact h _ o hmap

theorem Shelved.itemsWith (h : Shelved apt) {head : Head} (hplace : head.packageIndex ≤ 65535)
    (body : List UInt8) : ∀ k, 65535 < k → apt.itemsWith head body k = none := by
  intro k hk
  rw [Endpoint.itemsWith, Function.update_of_ne (by omega)]
  exact (h.object head).2 k hk

theorem incomingMap_onack (buf : List UInt8) : (apt.onack buf).incomingMap = apt.incomingMap := by
  have hmark : (apt.markSendCompleted buf).incomingMap = apt.incomingMap := by
    unfold Endpoint.markSendCompleted
    split <;> rfl
  rcases apt.onack_cases buf with ⟨-, heq, -⟩ | ⟨ref, -, ⟨-, heq, -⟩ | ⟨package, -, h'⟩⟩
  · rw [heq]
  · rw [heq, hmark]
  · rcases h' with ⟨-, heq, -⟩ | ⟨-, heq, -⟩
    · rw [heq]
      exact hmark
    · rw [heq]
      exact hmark

/-! What `_onread` does with a package keeps both. -/

theorem concatItems_cases (items : ℕ → Option (List UInt8)) (n : ℕ) :
    (∃ e, Endpoint.concatItems items n = .error e ∧ ∃ i < n, items (i + 1) = none) ∨
      (Endpoint.concatItems items n
          = .ok ((List.range n).flatMap fun i => (items (i + 1)).getD []) ∧
        ∀ i < n, (items (i + 1)).isSome = true) := by
  unfold Endpoint.concatItems
  cases hfind : (List.range n).find? fun i => (items (i + 1)).isNone with
  | some i =>
      left
      refine ⟨_, rfl, i, List.mem_range.mp (List.mem_of_find?_eq_some hfind), ?_⟩
      simpa using List.find?_some hfind
  | none =>
      right
      refine ⟨rfl, ?_⟩
      intro i hi
      have := List.find?_eq_none.mp hfind i (List.mem_range.mpr hi)
      simpa [Option.isSome_iff_ne_none] using this

/-- **What storing a part can do**: store it; and if the message is full, move the window
and read the message, or raise an error at a hole. -/
theorem storePartIn_cases (env : Surroundings) (h : Shelved apt) (window : ℕ) (head : Head) (body : List UInt8) :
    let object := (apt.incomingMap head.outputIndex).getD ⟨fun _ => none, head.count, false⟩
    let stored := { apt with
      incomingMap := Function.update apt.incomingMap head.outputIndex
        (some { object with items := apt.itemsWith head body }) }
    (¬(∀ i < head.count, (apt.itemsWith head body (i + 1)).isSome = true) ∧
        apt.storePartIn env window head body = (stored, none)) ∨
      (∀ i < head.count, (apt.itemsWith head body (i + 1)).isSome = true) ∧
        ((env.onread = true ∧ (∃ i < env.len (apt.itemsWith head body),
              apt.itemsWith head body (i + 1) = none) ∧
            ∃ e, apt.storePartIn env window head body
              = (stored.applyRecvWindow window head.outputIndex, some e)) ∨
          ¬(env.onread = true ∧ ∃ i < env.len (apt.itemsWith head body),
              apt.itemsWith head body (i + 1) = none) ∧
            ∃ log, apt.storePartIn env window head body
              = ({ apt.applyRecvWindow window head.outputIndex with
                  incomingMap := Function.update apt.incomingMap head.outputIndex none
                  readLog := log }, none)) := by
  intro object stored
  have hopen : ¬((apt.incomingMap head.outputIndex).getD ⟨fun _ => none, head.count, false⟩).done
      = true := by
    rw [(h.object head).1]
    exact Bool.false_ne_true
  unfold Endpoint.storePartIn
  simp only []
  rw [if_neg hopen]
  by_cases hfull : ∀ i < head.count, (apt.itemsWith head body (i + 1)).isSome = true
  · right
    refine ⟨hfull, ?_⟩
    rw [if_pos (full_iff.mpr hfull)]
    by_cases hread : env.onread = true
    · rw [if_pos hread]
      rcases concatItems_cases (apt.itemsWith head body) (env.len (apt.itemsWith head body)) with
        ⟨e, he, hhole⟩ | ⟨hok, hall⟩
      · left
        rw [he]
        exact ⟨hread, hhole, e, rfl⟩
      · right
        rw [hok]
        refine ⟨?_, _, rfl⟩
        rintro ⟨-, i, hi, hnone⟩
        have := hall i hi
        rw [hnone] at this
        cases this
    · right
      rw [if_neg hread]
      exact ⟨fun h => hread h.1, apt.readLog, rfl⟩
  · left
    rw [if_neg (fun hf => hfull (full_iff.mp hf))]
    exact ⟨hfull, rfl⟩

theorem storePartIn_error (h : Shelved apt) (window : ℕ) (head : Head) (body : List UInt8) :
    (apt.storePartIn env window head body).2 = none ↔
      ¬(env.onread = true ∧ (∀ i < head.count, (apt.itemsWith head body (i + 1)).isSome = true) ∧
        ∃ i < env.len (apt.itemsWith head body), apt.itemsWith head body (i + 1) = none) := by
  rcases storePartIn_cases env h window head body with
    ⟨hpart, heq⟩ | ⟨hfull, ⟨hread, hhole, e, heq⟩ | ⟨hnot, log, heq⟩⟩
  · rw [heq]
    exact ⟨fun _ hall => hpart hall.2.1, fun _ => rfl⟩
  · rw [heq]
    exact ⟨fun hnone => by simp at hnone, fun hnot => absurd ⟨hread, hfull, hhole⟩ hnot⟩
  · rw [heq]
    exact ⟨fun _ hall => hnot ⟨hall.1, hall.2.2⟩, fun _ => rfl⟩

theorem storePartIn_keeps (h : Shelved apt) (window : ℕ) {head : Head}
    (hplace : head.packageIndex ≤ 65535) (body : List UInt8) :
    Shelved (apt.storePartIn env window head body).1 ∧
      SameMaps apt (apt.storePartIn env window head body).1 := by
  have hitems := h.itemsWith hplace body
  have hobject := (h.object head).1
  rcases storePartIn_cases env h window head body with
    ⟨-, heq⟩ | ⟨-, ⟨-, -, e, heq⟩ | ⟨-, log, heq⟩⟩
  · rw [heq]
    refine ⟨h.update rfl ?_, rfl, rfl, rfl⟩
    rintro o ⟨⟩
    exact ⟨hobject, hitems⟩
  · rw [heq]
    refine ⟨h.update rfl ?_, rfl, rfl, rfl⟩
    rintro o ⟨⟩
    exact ⟨hobject, hitems⟩
  · rw [heq]
    refine ⟨h.update rfl ?_, rfl, rfl, rfl⟩
    rintro o ⟨⟩

theorem takePackageIn_keeps (cfg : Config) (env : Surroundings) (h : Shelved apt) (window : ℕ) {head : Head}
    (hplace : head.packageIndex ≤ 65535) (body : List UInt8) :
    Shelved (apt.takePackageIn cfg env window head body).1 ∧
      SameMaps apt (apt.takePackageIn cfg env window head body).1 := by
  unfold Endpoint.takePackageIn
  split
  · exact ⟨h, rfl, rfl, rfl⟩
  · split
    · refine ⟨h.update rfl ?_, rfl, rfl, rfl⟩
      rintro o ⟨⟩
    · exact storePartIn_keeps h window hplace body

theorem takePackageIn_error (h : Shelved apt) (window : ℕ) (head : Head) (body : List UInt8) :
    (apt.takePackageIn cfg env window head body).2 = none ↔
      ¬((packageOutside cfg window head.outputIndex = false ∨ cfg.keepPackageOutsideWindow = true) ∧
        ¬(head.count = 0 ∧ head.packageIndex = 0) ∧ env.onread = true ∧
        (∀ i < head.count, (apt.itemsWith head body (i + 1)).isSome = true) ∧
        ∃ i < env.len (apt.itemsWith head body), apt.itemsWith head body (i + 1) = none) := by
  unfold Endpoint.takePackageIn
  split
  · rename_i hout
    simp only [Bool.and_eq_true, Bool.not_eq_true'] at hout
    refine ⟨fun _ hall => ?_, fun _ => rfl⟩
    rcases hall.1 with hin | hkeep
    · rw [hout.1] at hin
      cases hin
    · rw [hout.2] at hkeep
      cases hkeep
  · rename_i hin
    have hin' : packageOutside cfg window head.outputIndex = false ∨
        cfg.keepPackageOutsideWindow = true := by
      cases hout : packageOutside cfg window head.outputIndex with
      | false => exact Or.inl rfl
      | true =>
          right
          simpa [hout] using hin
    split
    · rename_i hcancel
      exact ⟨fun _ hall => hall.2.1 hcancel, fun _ => rfl⟩
    · rename_i hnot
      rw [storePartIn_error h]
      exact not_congr ⟨fun hall => ⟨hin', hnot, hall⟩, fun hall => hall.2.2⟩

/-- Acknowledging a package changes neither the books nor what is stored. -/
theorem acknowledge_eq (cfg : Config) (apt : Endpoint) (window : ℕ) (head : List UInt8) :
    ∃ chain, apt.acknowledge cfg window head = { apt with outputChain := chain } := by
  unfold Endpoint.acknowledge
  dsimp only
  split
  · exact ⟨_, rfl⟩
  · exact ⟨apt.outputChain, rfl⟩

theorem onPackageIn_keeps (h : Shelved apt) (window : ℕ) (head body : List UInt8) :
    Shelved (apt.onPackageIn cfg env window head body).1 ∧
      SameMaps apt (apt.onPackageIn cfg env window head body).1 := by
  obtain ⟨chain, heq⟩ := acknowledge_eq cfg apt window head
  have hstored : Shelved { apt with outputChain := chain } := h.of_same rfl
  unfold Endpoint.onPackageIn
  simp only [heq]
  split
  · exact ⟨hstored, rfl, rfl, rfl⟩
  · obtain ⟨hkeeps, hsame⟩ := takePackageIn_keeps cfg env hstored window
      (packageIndex_unpackHead_le head) body
    exact ⟨hkeeps, hsame⟩

theorem onPackageIn_error (h : Shelved apt) (window : ℕ) (head body : List UInt8) :
    (apt.onPackageIn cfg env window head body).2 = none ↔
      (Endpoint.isAcknowledged cfg window (unpackHead head) = true →
        sendReq env.conn env.pendingForSend = none) ∧
      (apt.takePackageIn cfg env window (unpackHead head) body).2 = none := by
  obtain ⟨chain, heq⟩ := acknowledge_eq cfg apt window head
  have hstored : Shelved { apt with outputChain := chain } := h.of_same rfl
  have htake : ({ apt with outputChain := chain }.takePackageIn cfg env window (unpackHead head)
      body).2 = none ↔ (apt.takePackageIn cfg env window (unpackHead head) body).2 = none := by
    rw [takePackageIn_error hstored, takePackageIn_error h]
    rfl
  unfold Endpoint.onPackageIn
  simp only [heq]
  by_cases hack : Endpoint.isAcknowledged cfg window (unpackHead head) = true
  · rw [if_pos hack]
    cases hreq : sendReq env.conn env.pendingForSend with
    | some e => exact ⟨fun hnone => by simp at hnone, fun hall => by simpa using hall.1 hack⟩
    | none => exact ⟨fun hnone => ⟨fun _ => rfl, htake.mp hnone⟩, fun hall => htake.mpr hall.2⟩
  · rw [if_neg hack]
    exact ⟨fun hnone => ⟨fun h => absurd h hack, htake.mp hnone⟩, fun hall => htake.mpr hall.2⟩

theorem onControl_keeps (h : Shelved apt) (head : Head) (body : List UInt8) :
    Shelved (apt.onControl head body).1 ∧ SameMaps apt (apt.onControl head body).1 := by
  unfold Endpoint.onControl
  split
  · split
    · split
      · exact ⟨h, rfl, rfl, rfl⟩
      · split
        · exact ⟨h.of_same rfl, rfl, rfl, rfl⟩
        · exact ⟨h, rfl, rfl, rfl⟩
    · exact ⟨h, rfl, rfl, rfl⟩
  · split
    · exact ⟨h.of_same rfl, rfl, rfl, rfl⟩
    · exact ⟨h, rfl, rfl, rfl⟩

theorem onControl_error (head : Head) (body : List UInt8) :
    (apt.onControl head body).2 = none ↔
      ¬(head.count = 1 ∧ head.packageIndex = 1 ∧ apt.recvWindow = none ∧ body.length < 4) := by
  unfold Endpoint.onControl
  by_cases hset : head.count = 1 ∧ head.packageIndex = 1
  · rw [if_pos hset]
    cases hwindow : apt.recvWindow with
    | some w => simp
    | none =>
        by_cases hshort : body.length < 4
        · simp [hshort, hset]
        · simp only [Option.isNone_none, if_true, if_neg hshort]
          split <;> simp [hshort]
  · rw [if_neg hset]
    split <;> exact ⟨fun _ hall => hset ⟨hall.1, hall.2.1⟩, fun _ => rfl⟩

end Shelved

/-! ## Every datagram -/

section Datagrams

variable {cfg : Config} {env : Surroundings} {apt : Endpoint} {buf : List UInt8}

/-- A datagram of the size of a head. -/
theorem onreadIn_ack (h : Booked apt) (hlen : buf.length = headSize) :
    apt.onreadIn cfg env buf = (apt.onack buf, apt.reqAfterAck env buf) := by
  unfold Endpoint.onreadIn
  rw [if_pos hlen, h.onackIn_eq]

theorem onreadIn_long (hlen : headSize < buf.length) :
    apt.onreadIn cfg env buf =
      if (unpackHead (buf.take headSize)).outputIndex = windowCtrl then
        apt.onControl (unpackHead (buf.take headSize)) (buf.drop headSize)
      else if (unpackHead (buf.take headSize)).outputIndex < maxOutputIndex then
        match apt.recvWindow with
        | none => apt.sendIn env (windowCtrlReq apt.sendWindow)
        | some window => apt.onPackageIn cfg env window (buf.take headSize) (buf.drop headSize)
      else (apt, none) := by
  unfold Endpoint.onreadIn
  rw [if_neg (by omega), if_pos hlen]

theorem sendIn_error (d : List UInt8) :
    (apt.sendIn env d).2 = none ↔ env.conn.isOpen = true ∧ env.conn.sends = true ∧
      sendReq env.conn env.pendingForSend = none := by
  unfold Endpoint.sendIn
  cases env.conn.isOpen <;> cases env.conn.sends <;> simp

/-- **A datagram raises no error exactly if it is harmless.** -/
theorem onreadIn_error_iff (hb : Booked apt) (hs : Shelved apt) :
    (apt.onreadIn cfg env buf).2 = none ↔ IsHarmless cfg env apt buf := by
  have hctrl : ¬windowCtrl < maxOutputIndex := by decide
  rcases Nat.lt_trichotomy buf.length headSize with hlen | hlen | hlen
  · -- too short for a head
    have hnone : (apt.onreadIn cfg env buf).2 = none := by
      unfold Endpoint.onreadIn
      rw [if_neg (by omega), if_neg (by omega)]
    refine ⟨fun _ => ⟨?_, ?_, ?_, ?_, ?_⟩, fun _ => hnone⟩
    · rintro ⟨hlong, -⟩
      omega
    · rintro ⟨-, ⟨window, ⟨hlong, -⟩, -⟩, -⟩
      omega
    · intro heq
      omega
    · rintro ⟨hlong, -⟩
      omega
    · rintro window ⟨hlong, -⟩
      omega
  · rw [onreadIn_ack hb hlen]
    refine ⟨fun hnone => ⟨?_, ?_, fun _ => hnone, ?_, ?_⟩, fun h => h.connected.ack hlen⟩
    · rintro ⟨hlong, -⟩
      omega
    · rintro ⟨-, ⟨window, ⟨hlong, -⟩, -⟩, -⟩
      omega
    · rintro ⟨hlong, -⟩
      omega
    · rintro window ⟨hlong, -⟩
      omega
  · rw [onreadIn_long hlen]
    have hnotack : buf.length = headSize → apt.reqAfterAck env buf = none := fun heq => by omega
    obtain ⟨head, hhead⟩ : ∃ head, head = unpackHead (buf.take headSize) := ⟨_, rfl⟩
    rw [← hhead]
    by_cases hindex : head.outputIndex = windowCtrl
    · -- a control datagram
      have hnot : ∀ window, ¬IsPackage apt buf window := by
        rintro window ⟨-, hlt, -⟩
        rw [← hhead, hindex] at hlt
        exact hctrl hlt
      rw [if_pos hindex, onControl_error]
      constructor
      · intro hshort
        refine ⟨?_, ?_, hnotack, fun h => absurd h (hnot _), fun w h => absurd h (hnot _)⟩
        · rintro ⟨-, hlt, hfields, hwindow⟩
          rw [← hhead] at hfields
          apply hshort
          rw [hfields, List.length_drop]
          exact ⟨rfl, rfl, hwindow, by omega⟩
        · rintro ⟨-, ⟨window, hpackage, -⟩, -⟩
          exact hnot _ hpackage
      · rintro h ⟨hcount, hplace, hwindow, hlt⟩
        rw [List.length_drop] at hlt
        refine h.window ⟨hlen, by omega, ?_, hwindow⟩
        rw [← hhead]
        obtain ⟨i, c, p⟩ := head
        simp only at hindex hcount hplace
        rw [hindex, hcount, hplace]
    · have hnotshort : ¬ShortWindow apt buf := by
        rintro ⟨-, -, hfields, -⟩
        rw [← hhead] at hfields
        exact hindex (by rw [hfields])
      rw [if_neg hindex]
      by_cases hlt : head.outputIndex < maxOutputIndex
      · rw [if_pos hlt]
        cases hwindow : apt.recvWindow with
        | none =>
            -- the window is asked for
            have hpackage : IsPackage apt buf none := ⟨hlen, hhead ▸ hlt, hwindow⟩
            have hnot : ∀ w, ¬IsPackage apt buf (some w) := by
              rintro w ⟨-, -, hw⟩
              rw [hwindow] at hw
              cases hw
            rw [sendIn_error]
            refine ⟨fun hall => ⟨hnotshort, ?_, hnotack, fun _ => hall, fun w h => absurd h (hnot w)⟩,
              fun h => h.connected.unset hpackage⟩
            rintro ⟨-, ⟨w, hw, -⟩, -⟩
            exact hnot w hw
        | some window =>
            have hpackage : IsPackage apt buf (some window) := ⟨hlen, hhead ▸ hlt, hwindow⟩
            have honly : ∀ w, IsPackage apt buf (some w) → w = window := by
              rintro w ⟨-, -, hw⟩
              rw [hwindow] at hw
              exact (Option.some.inj hw).symm
            have hset : ¬IsPackage apt buf none := by
              rintro ⟨-, -, hw⟩
              rw [hwindow] at hw
              cases hw
            show (apt.onPackageIn cfg env window (buf.take headSize) (buf.drop headSize)).2 = none ↔ _
            rw [onPackageIn_error hs, takePackageIn_error hs, ← hhead]
            constructor
            · rintro ⟨hack, hwhole⟩
              refine ⟨hnotshort, ?_, hnotack, fun h => absurd h hset, ?_⟩
              · rintro ⟨hread, ⟨w, hw, hin⟩, hnot, hfull, hhole⟩
                obtain rfl := honly w hw
                rw [← hhead] at hin hnot hfull hhole
                exact hwhole ⟨hin, hnot, hread, hfull, hhole⟩
              · intro w hw hw'
                obtain rfl := honly w hw
                rw [← hhead] at hw'
                exact hack hw'
            · intro h
              refine ⟨fun hack => h.connected.package window hpackage (hhead ▸ hack), ?_⟩
              rintro ⟨hin, hnot, hread, hfull, hhole⟩
              apply h.whole
              unfold ReadsHole
              simp only [← hhead]
              exact ⟨hread, ⟨window, hpackage, hin⟩, hnot, hfull, hhole⟩
      · -- an index out of range
        have hnot : ∀ window, ¬IsPackage apt buf window := by
          rintro window ⟨-, hlt', -⟩
          rw [← hhead] at hlt'
          exact hlt hlt'
        rw [if_neg hlt]
        refine ⟨fun _ => ⟨hnotshort, ?_, hnotack, fun h => absurd h (hnot _),
          fun w h => absurd h (hnot _)⟩, fun _ => rfl⟩
        rintro ⟨-, ⟨window, hpackage, -⟩, -⟩
        exact hnot _ hpackage

theorem onreadIn_keeps (cfg : Config) (env : Surroundings) (buf : List UInt8) (hb : Booked apt)
    (hs : Shelved apt) :
    Booked (apt.onreadIn cfg env buf).1 ∧ Shelved (apt.onreadIn cfg env buf).1 := by
  have hkeeps : ∀ {apt' : Endpoint}, Shelved apt' ∧ SameMaps apt apt' → Booked apt' ∧ Shelved apt' :=
    fun h => ⟨hb.of_same h.2.1 h.2.2.1 h.2.2.2, h.1⟩
  by_cases hlen : buf.length = headSize
  · rw [onreadIn_ack hb hlen]
    exact ⟨hb.onack buf, hs.of_same (incomingMap_onack buf)⟩
  · by_cases hlong : headSize < buf.length
    · rw [onreadIn_long hlong]
      split
      · exact hkeeps (onControl_keeps hs _ _)
      · split
        · split
          · unfold Endpoint.sendIn
            split
            · exact ⟨hb, hs⟩
            · split
              · exact ⟨hb, hs⟩
              · exact ⟨hb.of_same rfl rfl rfl, hs.of_same rfl⟩
          · exact hkeeps (onPackageIn_keeps hs _ _ _)
        · exact ⟨hb, hs⟩
    · unfold Endpoint.onreadIn
      rw [if_neg hlen, if_neg hlong]
      exact ⟨hb, hs⟩

end Datagrams

/-! ## Without an error -/

section Quiet

variable {cfg : Config} {env : Surroundings} {apt : Endpoint} {buf : List UInt8}

/-- Where there is no hole, every border is the first one. -/
theorem flatMap_eq_tableConcat {items : ℕ → Option (List UInt8)}
    (hbound : ∀ k, 65535 < k → items k = none)
    (hall : ∀ i < env.len items, (items (i + 1)).isSome = true) :
    ((List.range (env.len items)).flatMap fun i => (items (i + 1)).getD [])
      = Endpoint.tableConcat items := by
  have hle : env.len items ≤ 65535 := by
    by_contra hlt
    have := hall 65535 (by omega)
    rw [hbound _ (by norm_num)] at this
    cases this
  have hnext := (env.len_border items (hbound _ (by norm_num))).2
  have hconcat := concatFrom_eq items
    ((List.range (env.len items)).map fun i => (items (i + 1)).getD []) 65535 1 (by simpa using hle)
    (fun t ht => by
      rw [List.length_map, List.length_range] at ht
      obtain ⟨b, hb⟩ := Option.isSome_iff_exists.mp (hall t ht)
      rw [Nat.add_comm, hb, List.getElem_map, List.getElem_range, hb]
      rfl)
    (by rw [List.length_map, List.length_range, Nat.add_comm]; exact hnext)
  rw [Endpoint.tableConcat, hconcat, List.flatMap_def]

theorem storePartIn_eq (h : Shelved apt) (hread : env.onread = true) {window : ℕ} {head : Head}
    (hplace : head.packageIndex ≤ 65535) {body : List UInt8}
    (hok : (apt.storePartIn env window head body).2 = none) :
    (apt.storePartIn env window head body).1 = apt.storePart window head body := by
  have hopen : ¬((apt.incomingMap head.outputIndex).getD ⟨fun _ => none, head.count, false⟩).done
      = true := by
    rw [(h.object head).1]
    exact Bool.false_ne_true
  have hitems : Function.update ((apt.incomingMap head.outputIndex).getD
      ⟨fun _ => none, head.count, false⟩).items head.packageIndex (some body)
      = apt.itemsWith head body := rfl
  unfold Endpoint.storePartIn at hok ⊢
  unfold Endpoint.storePart
  simp only [if_neg hopen, hitems] at hok ⊢
  by_cases hfull : Endpoint.full (apt.itemsWith head body) head.count = true
  · rw [if_pos hfull, if_pos hread] at hok ⊢
    rw [if_pos hfull]
    rcases concatItems_cases (apt.itemsWith head body) (env.len (apt.itemsWith head body)) with
      ⟨e, he, -⟩ | ⟨hconcat, hall⟩
    · rw [he] at hok
      cases hok
    · rw [hconcat, flatMap_eq_tableConcat (h.itemsWith hplace body) hall]
  · rw [if_neg hfull, if_neg hfull]

theorem takePackageIn_eq (h : Shelved apt) (hread : env.onread = true) {window : ℕ} {head : Head}
    (hplace : head.packageIndex ≤ 65535) {body : List UInt8}
    (hok : (apt.takePackageIn cfg env window head body).2 = none) :
    (apt.takePackageIn cfg env window head body).1 = apt.takePackage cfg window head body := by
  unfold Endpoint.takePackageIn at hok ⊢
  unfold Endpoint.takePackage
  by_cases hout : (packageOutside cfg window head.outputIndex && !cfg.keepPackageOutsideWindow) = true
  · rw [if_pos hout, if_pos hout]
  · by_cases hcancel : head.count = 0 ∧ head.packageIndex = 0
    · rw [if_neg hout, if_pos hcancel, if_neg hout, if_pos hcancel]
    · rw [if_neg hout, if_neg hcancel] at hok ⊢
      rw [if_neg hout, if_neg hcancel]
      exact storePartIn_eq h hread hplace hok

/-- **Where nothing is raised, `_onread` does what `onread` does.** -/
theorem onreadIn_eq (hb : Booked apt) (hs : Shelved apt) (hread : env.onread = true)
    (hok : (apt.onreadIn cfg env buf).2 = none) :
    (apt.onreadIn cfg env buf).1 = (apt.onread cfg buf).1 := by
  by_cases hlen : buf.length = headSize
  · rw [onreadIn_ack hb hlen, Endpoint.onread, if_pos hlen]
  · by_cases hlong : headSize < buf.length
    · rw [onreadIn_long hlong] at hok ⊢
      unfold Endpoint.onread
      rw [if_neg hlen, if_pos hlong]
      simp only
      by_cases hctrl : (unpackHead (buf.take headSize)).outputIndex = windowCtrl
      · rw [if_pos hctrl, if_pos hctrl]
      · by_cases hlt : (unpackHead (buf.take headSize)).outputIndex < maxOutputIndex
        · rw [if_neg hctrl, if_pos hlt] at hok ⊢
          rw [if_neg hctrl, if_pos hlt]
          cases hwindow : apt.recvWindow with
          | none =>
              rw [hwindow] at hok
              obtain ⟨hopen, hsends, -⟩ := (sendIn_error _).mp hok
              simp [Endpoint.sendIn, hopen, hsends]
          | some window =>
              rw [hwindow] at hok
              have htake := ((onPackageIn_error hs window _ _).mp hok).2
              obtain ⟨chain, heq⟩ := acknowledge_eq cfg apt window
                (buf.take headSize)
              have hstored : Shelved { apt with outputChain := chain } := hs.of_same rfl
              unfold Endpoint.onPackageIn Endpoint.onPackage at *
              simp only [heq] at hok ⊢
              split at hok
              · cases hok
              · exact takePackageIn_eq hstored hread (packageIndex_unpackHead_le _) hok
        · rw [if_neg hctrl, if_neg hlt, if_neg hctrl, if_neg hlt]
    · unfold Endpoint.onreadIn Endpoint.onread
      rw [if_neg hlen, if_neg hlong, if_neg hlen, if_neg (by omega)]

end Quiet

/-! ## Every run -/

/-- What the books and the messages are like in every state that is reached. -/
structure SessionInv (s : Session) : Prop where
  booked : Booked s.apt
  stored : Shelved s.apt

theorem sessionInv_init (cfg : Config) (first : ℕ) : SessionInv (Session.init cfg first) where
  booked := ⟨by simp [Session.init, initConn], by simp [Session.init, initConn]⟩
  stored := by
    intro i o h
    cases h

theorem unqueued_incomingMap : Unqueued Endpoint.incomingMap := fun _ _ _ _ _ _ _ _ _ => rfl

theorem step_sessionInv {cfg : Config} {s s' : Session} {e : Happening} (h : SessionInv s)
    (hstep : Session.step cfg s e = some s') : SessionInv s' := by
  cases e with
  | send buf =>
      cases hstep
      refine ⟨h.booked.send buf, h.stored.of_same ?_⟩
      unfold Endpoint.send
      split
      · rfl
      · exact unqueued_incomingMap.queueAll _ _
  | ready =>
      cases hstep
      exact ⟨h.booked.sendReady, h.stored.of_same (unqueued_incomingMap.sendReady cfg s.apt)⟩
  | timeout visits =>
      cases hstep
      exact ⟨h.booked.checkTimeout visits,
        h.stored.of_same (unqueued_incomingMap.checkTimeout s.apt visits)⟩
  | paired =>
      cases hstep
      exact ⟨h.booked.of_same rfl rfl rfl, h.stored.of_same rfl⟩
  | read env buf =>
      cases hstep
      obtain ⟨hb, hs⟩ := onreadIn_keeps cfg env buf h.booked h.stored
      exact ⟨hb, hs⟩
  | cleanup =>
      cases hstep
      exact ⟨h.booked.of_same rfl rfl rfl, h.stored.of_same rfl⟩
  | archive =>
      rw [Session.step] at hstep
      split at hstep
      · cases hstep
        exact h
      · cases hstep
        exact ⟨h.booked.of_same rfl rfl rfl, h.stored.of_same rfl⟩
  | reuse =>
      cases hstep
      have hpush : ∀ (ps : List Package) (apt : Endpoint),
          SessionInv ⟨apt, []⟩ → SessionInv ⟨ps.foldl Endpoint.push apt, []⟩ := by
        intro ps
        induction ps with
        | nil =>
            intro apt h
            exact h
        | cons p ps ih =>
            intro apt h
            exact ih _ ⟨h.booked.of_same rfl rfl rfl, h.stored.of_same rfl⟩
      obtain ⟨hb, hs⟩ := hpush s.suspendList s.apt ⟨h.booked, h.stored⟩
      exact ⟨hb.of_same rfl rfl rfl, hs.of_same rfl⟩

theorem run_sessionInv {cfg : Config} {first : ℕ} {es : List Happening} {s : Session}
    (hrun : run (Session.step cfg) (Session.init cfg first) es = some s) : SessionInv s :=
  run_keeps (fun _ _ _ h hstep => step_sessionInv h hstep) (sessionInv_init cfg first) hrun

/-- **In every state that can be reached, `_onread` raises nothing exactly for the
harmless datagrams.** -/
theorem onread_raises_iff (cfg : Config) (first : ℕ) (es : List Happening) (s : Session)
    (hrun : run (Session.step cfg) (Session.init cfg first) es = some s) (env : Surroundings)
    (buf : List UInt8) :
    (s.apt.onreadIn cfg env buf).2 = none ↔ IsHarmless cfg env s.apt buf :=
  onreadIn_error_iff (run_sessionInv hrun).booked (run_sessionInv hrun).stored

/-! ## A datagram too short for the window -/

/-- The first place from `i` on where there is no item before the next. -/
def firstBorder (items : ℕ → Option (List UInt8)) : ℕ → ℕ → ℕ
  | 0, i => i
  | fuel + 1, i => if (items (i + 1)).isSome then firstBorder items fuel (i + 1) else i

theorem firstBorder_border {items : ℕ → Option (List UInt8)} {fuel i : ℕ}
    (hpast : items (i + fuel + 1) = none) (hi : i = 0 ∨ (items i).isSome = true) :
    (firstBorder items fuel i = 0 ∨ (items (firstBorder items fuel i)).isSome = true) ∧
      items (firstBorder items fuel i + 1) = none := by
  induction fuel generalizing i with
  | zero => exact ⟨hi, hpast⟩
  | succ fuel ih =>
      unfold firstBorder
      split
      · rename_i hsome
        exact ih (by rw [← hpast]; congr 1; omega) (Or.inr hsome)
      · rename_i hnone
        exact ⟨hi, Option.not_isSome_iff_eq_none.mp hnone⟩

/-- The connection is open and sends, and somebody reads the messages. -/
def calm : Surroundings where
  conn := ⟨true, true, true⟩
  pendingForSend := false
  onsent := none
  onread := true
  len items := firstBorder items 65535 0
  len_border _ hpast := firstBorder_border hpast (Or.inl rfl)

/-- The window is set to 5, and the first of two parts of the message 5 has come. -/
def halfRead : List Happening :=
  [.read calm (packHead windowCtrl 1 1 ++ [5, 0, 0, 0]), .read calm (packHead 5 2 1 ++ [104])]

/-- The second part is harmless and completes the message. -/
theorem onread_raises_iff_part :
    ∃ s, run (Session.step Config.unset) (Session.init Config.unset 1) halfRead = some s ∧
      s.apt.recvWindow = some 5 ∧ (s.apt.incomingMap 5).isSome = true ∧
      (s.apt.onreadIn Config.unset calm (packHead 5 2 2 ++ [105])).1.readLog = [(5, [104, 105])] ∧
      IsHarmless Config.unset calm s.apt (packHead 5 2 2 ++ [105]) := by
  have hrun : run (Session.step Config.unset) (Session.init Config.unset 1) halfRead = some _ := rfl
  refine ⟨_, hrun, by decide, by decide, by decide, ?_⟩
  exact (onread_raises_iff Config.unset 1 halfRead _ hrun calm _).mp (by decide)

/-- **One byte where the window is expected makes `string.unpack` raise an error.** -/
theorem short_window_raises :
    ((initConn Config.unset 1).onreadIn Config.unset calm (packHead windowCtrl 1 1 ++ [0])).2
        = some "data string too short" ∧
      ¬∀ (cfg : Config) (first : ℕ) (es : List Happening) (s : Session),
        run (Session.step cfg) (Session.init cfg first) es = some s →
        ∀ (env : Surroundings) (buf : List UInt8), (s.apt.onreadIn cfg env buf).2 = none := by
  have hraises : ((initConn Config.unset 1).onreadIn Config.unset calm
      (packHead windowCtrl 1 1 ++ [0])).2 = some "data string too short" := by
    rfl
  refine ⟨hraises, fun hall => ?_⟩
  have hnone := hall Config.unset 1 [] (Session.init Config.unset 1) rfl calm
    (packHead windowCtrl 1 1 ++ [0])
  rw [show (Session.init Config.unset 1).apt = initConn Config.unset 1 from rfl, hraises] at hnone
  cases hnone

end LuaFan.ReliableUdp
