/-
# Endpoints of reliable UDP (`modules/fan/reliable_udp.lua`)

A message is cut into packages that fit a datagram, each with a head of 8 bytes: the
index of the message, the number of its packages and the place of the package.  The
head alone, sent back, is the acknowledgement.  The receive window says which messages
are still awaited, and is set once by a control datagram.

`Endpoint` is the state of one side, with what it has given to `conn:send` and to its
callbacks so far.  Clocks are left out: which packages have waited too long is part of
the call of `checkTimeout`.
-/
import LuaFan.Lib.Serial
import LuaFan.Stream.Ffi

namespace LuaFan.ReliableUdp

/-! ## Constants -/

def maxOutputIndex : ℕ := 0x0ffffff0

def maxOutputIndexHalf : ℕ := maxOutputIndex / 2

def windowCtrl : ℕ := 0x0ffffffe

def headSize : ℕ := 8

/-- The settings: `BODY_SIZE`, `UDP_WINDOW_SIZE`, `WAITING_COUNT`,
`NONE_PAIRED_WAITING_COUNT` and `config.keep_package_outside_window`. -/
structure Config where
  bodySize : ℕ
  windowSize : ℕ
  waitingCount : ℕ
  nonePairedWaitingCount : ℕ
  keepPackageOutsideWindow : Bool

/-- What the settings are without a configuration. -/
def Config.unset : Config := ⟨540, 10, 10, 1, false⟩

def Config.maxPayloadSize (cfg : Config) : ℕ := cfg.bodySize * 65535

/-! ## Heads -/

/-- `string.pack("<I4I2I2", output_index, count, package_index)`. -/
def packHead (outputIndex count packageIndex : ℕ) : List UInt8 :=
  leBytes 4 outputIndex ++ leBytes 2 count ++ leBytes 2 packageIndex

/-- The fields of a head. -/
structure Head where
  outputIndex : ℕ
  count : ℕ
  packageIndex : ℕ
deriving DecidableEq

/-- `string.unpack("<I4I2I2", head)`. -/
def unpackHead (head : List UInt8) : Head where
  outputIndex := ofLe (head.take 4)
  count := ofLe ((head.drop 4).take 2)
  packageIndex := ofLe ((head.drop 6).take 2)

/-- The datagram that sets the receive window of the peer. -/
def windowCtrlSet (window : ℕ) : List UInt8 := packHead windowCtrl 1 1 ++ leBytes 4 window

/-- The datagram that asks the peer for its window. -/
def windowCtrlReq (window : ℕ) : List UInt8 := packHead windowCtrl 1 2 ++ leBytes 4 window

/-! ## Packages -/

/-- What a package carries: its `body`, or a part of `buf`. -/
inductive Body where
  | body (bytes : List UInt8)
  | part (buf : List UInt8) (bodyBegin bodyEnd : ℕ)
deriving DecidableEq

/-- The bytes; a part is `string.sub(buf, body_begin, body_end)`. -/
def Body.bytes : Body → List UInt8
  | .body bytes => bytes
  | .part buf bodyBegin bodyEnd => (buf.drop (bodyBegin - 1)).take (bodyEnd + 1 - bodyBegin)

structure Package where
  head : List UInt8
  body : Body
  outputIndex : ℕ
  ack : Bool
  completed : Bool
  ignoreTimeoutCheck : Bool
deriving DecidableEq

/-- An acknowledgement; it has no body. -/
def ackPackage (head : List UInt8) (outputIndex : ℕ) : Package :=
  ⟨head, .body [], outputIndex, true, false, false⟩

/-- The package that tells the peer not to wait for a message. -/
def cancelPackage (outputIndex : ℕ) : Package :=
  ⟨packHead outputIndex 0 0, .body "N/A".toUTF8.toList, outputIndex, false, false, true⟩

/-- The number of packages of a message, less one. -/
def indexCount (cfg : Config) (buf : List UInt8) : ℕ :=
  if buf.length % cfg.bodySize = 0 then buf.length / cfg.bodySize - 1
  else buf.length / cfg.bodySize

/-- The packages of a message. -/
def messagePackages (cfg : Config) (outputIndex : ℕ) (buf : List UInt8) : List Package :=
  if buf.length > cfg.bodySize then
    (List.range (indexCount cfg buf + 1)).map fun i =>
      ⟨packHead outputIndex (indexCount cfg buf + 1) (i + 1),
        .part buf (i * cfg.bodySize + 1) (i * cfg.bodySize + cfg.bodySize), outputIndex, false, false,
        false⟩
  else [⟨packHead outputIndex 1 1, .body buf, outputIndex, false, false, false⟩]

/-! ## Endpoints -/

/-- The parts of a message that have arrived; nothing ever sets `done`. -/
structure Incoming where
  items : ℕ → Option (List UInt8)
  count : ℕ
  done : Bool

/-- A map of the packages of one message, by head. -/
abbrev PartsMap := List (List UInt8 × Package)

/-- The state of an endpoint.  All packages of a message share one map, so the maps are
numbered, and `outputPackagePartsMap` has the number.  The last three fields are what
was given to `conn:send`, to `onread` (with the index of the message) and to `onsent`
(the index). -/
structure Endpoint where
  outputIndex : ℕ
  sendWindow : ℕ
  sendWindowHoles : Finset ℕ
  outputChain : List Package
  outputWaitAck : Finset (List UInt8)
  outputWaitCount : ℤ
  outputPackagePartsMap : List UInt8 → Option ℕ
  maps : ℕ → PartsMap
  mapCount : ℕ
  waitingCount : ℕ
  windowSent : Bool
  suspended : Bool
  recvWindow : Option ℕ
  recvWindowHoles : Finset ℕ
  incomingMap : ℕ → Option Incoming
  wire : List (List UInt8)
  readLog : List (ℕ × List UInt8)
  sentLog : List ℕ

/-- `init_conn`; `outputIndex` is random, from 1 to `maxOutputIndex`. -/
def initConn (cfg : Config) (outputIndex : ℕ) : Endpoint where
  outputIndex := outputIndex
  sendWindow := outputIndex
  sendWindowHoles := ∅
  outputChain := []
  outputWaitAck := ∅
  outputWaitCount := 0
  outputPackagePartsMap := fun _ => none
  maps := fun _ => []
  mapCount := 0
  waitingCount := cfg.nonePairedWaitingCount
  windowSent := false
  suspended := false
  recvWindow := none
  recvWindowHoles := ∅
  incomingMap := fun _ => none
  wire := []
  readLog := []
  sentLog := []

/-! ## Windows -/

/-- The index after another, as the windows count. -/
def nextWindow (w : ℕ) : ℕ := if w + 1 = maxOutputIndex then 1 else w + 1

/-- How far an index is ahead of a window, by the arithmetic of the code. -/
def ahead (window outputIndex : ℕ) : ℕ :=
  if outputIndex ≥ window then outputIndex - window else outputIndex + maxOutputIndex - window

/-- How far an index is behind a window, by the arithmetic of the code. -/
def behind (window outputIndex : ℕ) : ℕ :=
  if outputIndex ≥ window then window + maxOutputIndex - outputIndex else window - outputIndex

def packageOutside (cfg : Config) (window outputIndex : ℕ) : Bool :=
  decide (ahead window outputIndex > cfg.windowSize)

def futurePackage (window outputIndex : ℕ) : Bool :=
  decide (ahead window outputIndex < maxOutputIndexHalf)

def oldPackage (window outputIndex : ℕ) : Bool :=
  decide (behind window outputIndex < maxOutputIndexHalf)

/-- The loop of `_apply_send_window` and `_apply_recv_window`. -/
def applyWindow (holes : Finset ℕ) (window outputIndex : ℕ) : Finset ℕ × ℕ :=
  Serial.slide nextWindow (insert outputIndex holes).card (insert outputIndex holes) window

/-! ## Sending -/

namespace Endpoint

variable (cfg : Config) (apt : Endpoint)

/-- The condition on which `chain_mt:pop` takes a package. -/
def eligible (package : Package) : Bool :=
  package.ack || apt.suspended || oldPackage apt.sendWindow package.outputIndex ||
    (!packageOutside cfg apt.sendWindow package.outputIndex &&
      decide (apt.outputWaitCount < apt.waitingCount))

/-- `chain_mt:pop`. -/
def pop : Option (Package × List Package) :=
  if cfg.keepPackageOutsideWindow then
    match apt.outputChain with
    | [] => none
    | package :: chain => some (package, chain)
  else
    (apt.outputChain.find? (apt.eligible cfg)).map fun package =>
      (package, apt.outputChain.eraseP (apt.eligible cfg))

/-- `chain_mt:push` on the chain. -/
def push (package : Package) : Endpoint := { apt with outputChain := apt.outputChain ++ [package] }

/-- `apt_mt:send_package`, with the number of the map; an acknowledgement has none. -/
def sendPackage (package : Package) (map : ℕ) : Endpoint :=
  if package.ack then apt.push package
  else
    { apt.push package with
      outputPackagePartsMap := Function.update apt.outputPackagePartsMap package.head (some map) }

/-- `conn:send`. -/
def connSend (buf : List UInt8) : Endpoint := { apt with wire := apt.wire ++ [buf] }

/-- `apt_mt:_send_package`. -/
def transmit (package : Package) : Endpoint :=
  if package.ack then apt.connSend package.head
  else if (apt.outputPackagePartsMap package.head).isSome then
    { apt with
      outputWaitCount :=
        if package.head ∈ apt.outputWaitAck then apt.outputWaitCount else apt.outputWaitCount + 1
      outputWaitAck := insert package.head apt.outputWaitAck
      wire := apt.wire ++ [package.head ++ package.body.bytes] }
  else apt

/-- A new map, and its packages queued. -/
def queueAll (packages : List Package) : Endpoint :=
  packages.foldl (fun apt' package => apt'.sendPackage package apt.mapCount)
    { apt with
      maps := Function.update apt.maps apt.mapCount (packages.map fun p => (p.head, p))
      mapCount := apt.mapCount + 1 }

/-- `apt_mt:send`. -/
def send (buf : List UInt8) : Endpoint :=
  if buf.length > cfg.maxPayloadSize then apt
  else
    { apt with outputIndex := Serial.next maxOutputIndex apt.outputIndex }.queueAll
      (messagePackages cfg apt.outputIndex buf)

/-- `onsendready` of the connector: the window first, then one package. -/
def sendReady : Endpoint :=
  if apt.windowSent then
    match apt.pop cfg with
    | none => apt
    | some (package, chain) => { apt with outputChain := chain }.transmit package
  else { apt with windowSent := true }.connSend (windowCtrlSet apt.sendWindow)

/-! ## Acknowledgements and timeouts -/

/-- `apt_mt:_mark_send_completed`. -/
def markSendCompleted (head : List UInt8) : Endpoint :=
  if (apt.outputPackagePartsMap head).isSome then
    { apt with
      outputPackagePartsMap := Function.update apt.outputPackagePartsMap head none
      outputWaitCount :=
        if head ∈ apt.outputWaitAck then apt.outputWaitCount - 1 else apt.outputWaitCount
      outputWaitAck := apt.outputWaitAck.erase head }
  else apt

/-- `apt_mt:_apply_send_window`. -/
def applySendWindow (outputIndex : ℕ) : Endpoint :=
  { apt with
    sendWindowHoles := (applyWindow apt.sendWindowHoles apt.sendWindow outputIndex).1
    sendWindow := (applyWindow apt.sendWindowHoles apt.sendWindow outputIndex).2 }

/-- `apt_mt:_onack`.  A head that is in `outputPackagePartsMap` is in its map. -/
def onack (buf : List UInt8) : Endpoint :=
  match apt.outputPackagePartsMap buf with
  | none => apt
  | some ref =>
      match (apt.maps ref).lookup buf with
      | none => apt.markSendCompleted buf
      | some package =>
          let map := (apt.maps ref).filter fun e => e.1 ≠ buf
          let apt := { apt.markSendCompleted buf with maps := Function.update apt.maps ref map }
          if map = [] then
            { apt.applySendWindow package.outputIndex with
              sentLog := apt.sentLog ++ [package.outputIndex] }
          else apt

/-- One round of the loop of `_check_timeout`: the head, whether it has waited too long
and the answer of `ontimeout` (true, if there is no such callback). -/
structure Visit where
  head : List UInt8
  expired : Bool
  resend : Bool

/-- The endpoint after one round, and the package it inserts into `newpackage_list`. -/
def visit (v : Visit) : Endpoint × List Package :=
  match apt.outputPackagePartsMap v.head with
  | none => (apt, [])
  | some ref =>
      if v.head ∈ apt.outputWaitAck then
        match (apt.maps ref).lookup v.head with
        | none => (apt, [])
        | some package =>
            if package.completed then (apt.markSendCompleted v.head, [])
            else if v.expired then
              if package.ignoreTimeoutCheck || v.resend then
                ({ apt.push package with
                    outputWaitCount := apt.outputWaitCount - 1
                    outputWaitAck := apt.outputWaitAck.erase v.head }, [])
              else
                ({ apt.markSendCompleted v.head with
                    maps := Function.update apt.maps ref
                      ((apt.maps ref).map fun e => (e.1, { e.2 with completed := true })) },
                  [cancelPackage package.outputIndex])
            else (apt, [])
      else (apt, [])

/-- The loop of `_check_timeout`, in the order of `pairs`. -/
def visitAll : Endpoint → List Visit → Endpoint × List Package
  | apt, [] => (apt, [])
  | apt, v :: vs =>
      let r := visitAll (apt.visit v).1 vs
      (r.1, (apt.visit v).2 ++ r.2)

/-- `apt_mt:_check_timeout`. -/
def checkTimeout (visits : List Visit) : Endpoint :=
  (apt.visitAll visits).2.foldl (fun apt package => apt.queueAll [package])
    (apt.visitAll visits).1

/-! ## Receiving -/

/-- `apt_mt:_apply_recv_window`. -/
def applyRecvWindow (window outputIndex : ℕ) : Endpoint :=
  { apt with
    recvWindowHoles := (applyWindow apt.recvWindowHoles window outputIndex).1
    recvWindow := some (applyWindow apt.recvWindowHoles window outputIndex).2 }

/-- The items from place `i` on, up to the first hole; a place has 16 bits. -/
def concatFrom (items : ℕ → Option (List UInt8)) : ℕ → ℕ → List UInt8
  | 0, _ => []
  | fuel + 1, i =>
      match items i with
      | none => []
      | some item => item ++ concatFrom items fuel (i + 1)

/-- `table.concat(items)`. -/
def tableConcat (items : ℕ → Option (List UInt8)) : List UInt8 := concatFrom items 65535 1

/-- All items up to `count` are there. -/
def full (items : ℕ → Option (List UInt8)) (count : ℕ) : Bool :=
  (List.range count).all fun i => (items (i + 1)).isSome

/-- What `_onread` does with a part that it does not drop.  That the index is in
`recvWindowHoles` is only reported, and the part is stored all the same. -/
def storePart (window : ℕ) (head : Head) (body : List UInt8) : Endpoint :=
  let object := (apt.incomingMap head.outputIndex).getD ⟨fun _ => none, head.count, false⟩
  if object.done then apt
  else
    let items := Function.update object.items head.packageIndex (some body)
    if full items head.count then
      { apt.applyRecvWindow window head.outputIndex with
        incomingMap := Function.update apt.incomingMap head.outputIndex none
        readLog := apt.readLog ++ [(head.outputIndex, tableConcat items)] }
    else
      { apt with
        incomingMap := Function.update apt.incomingMap head.outputIndex
          (some { object with items := items }) }

/-- The acknowledgement of a package; there is none for what is ahead of the window. -/
def acknowledge (window : ℕ) (head : List UInt8) : Endpoint :=
  let outputIndex := (unpackHead head).outputIndex
  if !packageOutside cfg window outputIndex || !futurePackage window outputIndex then
    apt.sendPackage (ackPackage head outputIndex) apt.mapCount
  else apt

/-- A package is dropped outside the window, and cancels its message or is stored
inside. -/
def takePackage (window : ℕ) (h : Head) (body : List UInt8) : Endpoint :=
  if packageOutside cfg window h.outputIndex && !cfg.keepPackageOutsideWindow then apt
  else if h.count = 0 ∧ h.packageIndex = 0 then
    { apt with incomingMap := Function.update apt.incomingMap h.outputIndex none }.applyRecvWindow
      window h.outputIndex
  else apt.storePart window h body

/-- What `_onread` does with a package, once the receive window is set. -/
def onPackage (window : ℕ) (head : List UInt8) (body : List UInt8) : Endpoint :=
  (apt.acknowledge cfg window head).takePackage cfg window (unpackHead head) body

/-- What `_onread` does with a control datagram, and the error it raises. -/
def onControl (h : Head) (body : List UInt8) : Endpoint × Option String :=
  if h.count = 1 ∧ h.packageIndex = 1 then
    if apt.recvWindow.isNone then
      if body.length < 4 then (apt, some "data string too short")
      else if ofLe (body.take 4) < maxOutputIndex then
        ({ apt with recvWindow := some (ofLe (body.take 4)) }, none)
      else (apt, none)
    else (apt, none)
  else if h.count = 1 ∧ h.packageIndex = 2 then ({ apt with windowSent := false }, none)
  else (apt, none)

/-- `apt_mt:_onread`, and the error it raises. -/
def onread (buf : List UInt8) : Endpoint × Option String :=
  if buf.length = headSize then (apt.onack buf, none)
  else if buf.length > headSize then
    let head := buf.take headSize
    let body := buf.drop headSize
    let h := unpackHead head
    if h.outputIndex = windowCtrl then apt.onControl h body
    else if h.outputIndex < maxOutputIndex then
      match apt.recvWindow with
      | none => (apt.connSend (windowCtrlReq apt.sendWindow), none)
      | some window => (apt.onPackage cfg window head body, none)
    else (apt, none)
  else (apt, none)

/-- `onread` of the connector. -/
def connRead (buf : List UInt8) : Endpoint :=
  ({ apt with waitingCount := cfg.waitingCount }.onread cfg buf).1

end Endpoint

end LuaFan.ReliableUdp
