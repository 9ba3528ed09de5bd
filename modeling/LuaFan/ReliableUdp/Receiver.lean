/-
# What the receiver delivers

The receiver has a message in one of three states: some of its packages are stored, it
was given to `onread`, or it is behind the receive window.  `ReceiverInv` says that what
is stored and delivered belongs to the messages, that **an acknowledged package is
stored or its message delivered**, and that the window has passed only messages that
were delivered (if none is cancelled).
-/
import LuaFan.ReliableUdp.Sender

namespace LuaFan.ReliableUdp

open Machine

/-! ## The invariant -/

section Defs

variable (cfg : Config) (first : ℕ) (allow : Prop) (payloads got : List (List UInt8))
  (apt : Endpoint)

/-- The message was given to `onread`. -/
def Delivered (k : ℕ) : Prop :=
  ∃ buf, payloads[k]? = some buf ∧ (indexOf first k, buf) ∈ apt.readLog

/-- A package of the message is stored. -/
def Stored (k i : ℕ) : Prop :=
  ∃ obj, apt.incomingMap (indexOf first k) = some obj ∧ (obj.items (i + 1)).isSome = true

/-- The head is that of a package the receiver got and has stored or delivered. -/
def Acked (head : List UInt8) : Prop :=
  allow ∨ ∃ k buf i p, IsPart cfg first payloads k buf i p ∧ head = p.head ∧ p.datagram ∈ got ∧
    (Stored first apt k i ∨ Delivered first payloads apt k)

/-- The stored packages are those of the message, and one is missing. -/
structure Collects (k : ℕ) (buf : List UInt8) (obj : Incoming) : Prop where
  payload : payloads[k]? = some buf
  done : obj.done = false
  items : ∀ t b, obj.items t = some b → ∃ i p, t = i + 1 ∧
    (messagePackages cfg (indexOf first k) buf)[i]? = some p ∧ b = p.body.bytes
  missing : ∃ i < (messagePackages cfg (indexOf first k) buf).length, obj.items (i + 1) = none

structure ReceiverInv : Prop where
  quiet : ∀ head, apt.outputPackagePartsMap head = none
  chain : ∀ p ∈ apt.outputChain, p.ack = true ∧ p.head.length = headSize ∧
    Acked cfg first allow payloads got apt p.head
  wire : ∀ d ∈ apt.wire, (d.length = headSize ∧ Acked cfg first allow payloads got apt d) ∨
    ∃ v, d = windowCtrlSet v ∨ d = windowCtrlReq v
  read : ∀ e ∈ apt.readLog, ∃ k, payloads[k]? = some e.2 ∧ e.1 = indexOf first k
  incoming : ∀ index obj, apt.incomingMap index = some obj →
    ∃ k buf, index = indexOf first k ∧ Collects cfg first payloads k buf obj
  window : ∀ w, apt.recvWindow = some w → first < maxOutputIndex ∧ ∃ j ≤ payloads.length,
    w = indexOf first j ∧ ∀ k < j, allow ∨ Delivered first payloads apt k
  holes : ∀ x ∈ apt.recvWindowHoles, ∃ k < payloads.length, x = indexOf first k ∧
    (allow ∨ Delivered first payloads apt k)
  unset : apt.recvWindow = none → apt.outputChain = [] ∧ apt.readLog = [] ∧
    ∀ d ∈ apt.wire, d.length ≠ headSize

end Defs

section Receiver

variable {cfg : Config} {first : ℕ} {allow : Prop} {payloads got : List (List UInt8)}
  {apt apt' : Endpoint}

/-! ## More messages, more datagrams -/

theorem Delivered.mono {k : ℕ} (payloads' : List (List UInt8))
    (h : Delivered first payloads apt k) : Delivered first (payloads ++ payloads') apt k := by
  obtain ⟨buf, hbuf, hmem⟩ := h
  exact ⟨buf, getElem?_append_of_some hbuf, hmem⟩

theorem Acked.mono {head : List UInt8} (payloads' got' : List (List UInt8))
    (h : Acked cfg first allow payloads got apt head) :
    Acked cfg first allow (payloads ++ payloads') (got ++ got') apt head := by
  rcases h with hallow | ⟨k, buf, i, p, hp, rfl, hgot, hstored⟩
  · exact Or.inl hallow
  · exact Or.inr ⟨k, buf, i, p, hp.mono, rfl, List.mem_append_left got' hgot,
      hstored.imp_right (Delivered.mono payloads')⟩

theorem ReceiverInv.mono (h : ReceiverInv cfg first allow payloads got apt)
    (payloads' got' : List (List UInt8)) :
    ReceiverInv cfg first allow (payloads ++ payloads') (got ++ got') apt where
  quiet := h.quiet
  chain p hp := ⟨(h.chain p hp).1, (h.chain p hp).2.1, (h.chain p hp).2.2.mono payloads' got'⟩
  wire d hd := (h.wire d hd).imp_left fun hacked => ⟨hacked.1, hacked.2.mono payloads' got'⟩
  read e he := by
    obtain ⟨k, hk, hindex⟩ := h.read e he
    exact ⟨k, getElem?_append_of_some hk, hindex⟩
  incoming index obj hobj := by
    obtain ⟨k, buf, hindex, hc⟩ := h.incoming index obj hobj
    exact ⟨k, buf, hindex, getElem?_append_of_some hc.payload, hc.done, hc.items, hc.missing⟩
  window w hw := by
    obtain ⟨hfirst, j, hj, heq, hpast⟩ := h.window w hw
    exact ⟨hfirst, j, by rw [List.length_append]; omega, heq, fun k hk =>
      (hpast k hk).imp_right (Delivered.mono payloads')⟩
  holes x hx := by
    obtain ⟨k, hk, heq, hsettled⟩ := h.holes x hx
    exact ⟨k, by rw [List.length_append]; omega, heq,
      hsettled.imp_right (Delivered.mono payloads')⟩
  unset := h.unset

/-- How many packages may be waited for is of no concern. -/
theorem ReceiverInv.paired (h : ReceiverInv cfg first allow payloads got apt) (count : ℕ) :
    ReceiverInv cfg first allow payloads got { apt with waitingCount := count } :=
  ⟨h.quiet, h.chain, h.wire, h.read, h.incoming, h.window, h.holes, h.unset⟩

/-! ## Sending acknowledgements -/

theorem ReceiverInv.push (h : ReceiverInv cfg first allow payloads got apt) {head : List UInt8}
    (hlen : head.length = headSize) (hacked : Acked cfg first allow payloads got apt head)
    (hset : apt.recvWindow ≠ none) (index : ℕ) :
    ReceiverInv cfg first allow payloads got (apt.push (ackPackage head index)) where
  quiet := h.quiet
  chain p hp := by
    rcases List.mem_append.mp hp with hp | hp
    · exact h.chain p hp
    · rw [List.mem_singleton.mp hp]
      exact ⟨rfl, hlen, hacked⟩
  wire := h.wire
  read := h.read
  incoming := h.incoming
  window := h.window
  holes := h.holes
  unset hunset := absurd hunset hset

/-- A control datagram is sent. -/
theorem ReceiverInv.control (h : ReceiverInv cfg first allow payloads got apt) {d : List UInt8}
    {v : ℕ} (hd : d = windowCtrlSet v ∨ d = windowCtrlReq v) :
    ReceiverInv cfg first allow payloads got (apt.connSend d) where
  quiet := h.quiet
  chain := h.chain
  wire d' hd' := by
    rcases List.mem_append.mp hd' with hd' | hd'
    · exact h.wire d' hd'
    · rw [List.mem_singleton.mp hd']
      exact Or.inr ⟨v, hd⟩
  read := h.read
  incoming := h.incoming
  window := h.window
  holes := h.holes
  unset hunset := by
    obtain ⟨hchain, hread, hwire⟩ := h.unset hunset
    refine ⟨hchain, hread, ?_⟩
    intro d' hd'
    rcases List.mem_append.mp hd' with hd' | hd'
    · exact hwire d' hd'
    · rw [List.mem_singleton.mp hd']
      rcases hd with rfl | rfl <;> simp [windowCtrlSet, windowCtrlReq]

theorem ReceiverInv.sendReady (h : ReceiverInv cfg first allow payloads got apt) :
    ReceiverInv cfg first allow payloads got (apt.sendReady cfg) := by
  unfold Endpoint.sendReady
  split
  · split
    · exact h
    · rename_i p chain hpop
      obtain ⟨hp, hchain⟩ := Endpoint.mem_of_pop hpop
      obtain ⟨hack, hlen, hacked⟩ := h.chain p hp
      rw [Endpoint.transmit, if_pos hack]
      refine ⟨h.quiet, fun q hq => h.chain q (hchain q hq), ?_, h.read, h.incoming, h.window,
        h.holes, ?_⟩
      · intro d hd
        rcases List.mem_append.mp hd with hd | hd
        · exact h.wire d hd
        · rw [List.mem_singleton.mp hd]
          exact Or.inl ⟨hlen, hacked⟩
      · -- nothing is queued before the window is set
        intro hunset
        have hnil := (h.unset hunset).1
        rw [hnil] at hp
        cases hp
  · have hsent : ReceiverInv cfg first allow payloads got { apt with windowSent := true } :=
      ⟨h.quiet, h.chain, h.wire, h.read, h.incoming, h.window, h.holes, h.unset⟩
    exact hsent.control (Or.inl rfl)

/-! ## Taking packages -/

/-- What is to be shown of a step that queues and sends nothing. -/
theorem ReceiverInv.replace (h : ReceiverInv cfg first allow payloads got apt)
    (hquiet : apt'.outputPackagePartsMap = apt.outputPackagePartsMap)
    (hchain : apt'.outputChain = apt.outputChain) (hwire : apt'.wire = apt.wire)
    (hacked : ∀ head, Acked cfg first allow payloads got apt head →
      Acked cfg first allow payloads got apt' head)
    (hread : ∀ e ∈ apt'.readLog, ∃ k, payloads[k]? = some e.2 ∧ e.1 = indexOf first k)
    (hincoming : ∀ index obj, apt'.incomingMap index = some obj →
      ∃ k buf, index = indexOf first k ∧ Collects cfg first payloads k buf obj)
    (hwindow : ∀ w, apt'.recvWindow = some w → first < maxOutputIndex ∧ ∃ j ≤ payloads.length,
      w = indexOf first j ∧ ∀ k < j, allow ∨ Delivered first payloads apt' k)
    (hholes : ∀ x ∈ apt'.recvWindowHoles, ∃ k < payloads.length, x = indexOf first k ∧
      (allow ∨ Delivered first payloads apt' k))
    (hset : apt'.recvWindow ≠ none) : ReceiverInv cfg first allow payloads got apt' where
  quiet head := by rw [hquiet, h.quiet]
  chain p hp := by
    rw [hchain] at hp
    obtain ⟨hack, hlen, hhead⟩ := h.chain p hp
    exact ⟨hack, hlen, hacked _ hhead⟩
  wire d hd := by
    rw [hwire] at hd
    exact (h.wire d hd).imp_left fun hd => ⟨hd.1, hacked d hd.2⟩
  read := hread
  incoming := hincoming
  window := hwindow
  holes := hholes
  unset hunset := absurd hunset hset

/-- Messages with the same index are the same. -/
theorem message_unique (hstarts : Starts first) (hn : payloads.length < maxOutputIndexHalf)
    {k k' : ℕ} {buf buf' : List UInt8} (hbuf : payloads[k]? = some buf)
    (hbuf' : payloads[k']? = some buf') (heq : indexOf first k = indexOf first k') :
    k = k' ∧ buf = buf' := by
  obtain ⟨hlt, -⟩ := List.getElem?_eq_some_iff.mp hbuf
  obtain ⟨hlt', -⟩ := List.getElem?_eq_some_iff.mp hbuf'
  obtain rfl := indexOf_inj hstarts (by omega) (by omega) heq
  rw [hbuf] at hbuf'
  cases hbuf'
  exact ⟨rfl, rfl⟩

/-- The window after a message has been settled. -/
theorem ReceiverInv.applyRecvWindow (h : ReceiverInv cfg first allow payloads got apt)
    (hstarts : Starts first) (hn : payloads.length < maxOutputIndexHalf) {w k : ℕ}
    (hw : apt.recvWindow = some w) (hk : k < payloads.length)
    (hsettled : allow ∨ Delivered first payloads apt' k)
    (hmono : ∀ k, Delivered first payloads apt k → Delivered first payloads apt' k) :
    first < maxOutputIndex ∧
      (∃ j ≤ payloads.length,
        (applyWindow apt.recvWindowHoles w (indexOf first k)).2 = indexOf first j ∧
          ∀ k < j, allow ∨ Delivered first payloads apt' k) ∧
      ∀ x ∈ (applyWindow apt.recvWindowHoles w (indexOf first k)).1,
        ∃ k < payloads.length, x = indexOf first k ∧ (allow ∨ Delivered first payloads apt' k) := by
  obtain ⟨hfirst, j, hj, rfl, hpast⟩ := h.window w hw
  obtain ⟨j', hj', hplace, hpast', -, hholes, -⟩ := applyWindow_spec hstarts hfirst hn hj hk
    (S := fun k => allow ∨ Delivered first payloads apt' k) hsettled
    (fun i hi => (hpast i hi).imp_right (hmono i)) (fun x hx => by
      obtain ⟨i, hi, heq, hsettled⟩ := h.holes x hx
      exact ⟨i, hi, heq, hsettled.imp_right (hmono i)⟩)
  exact ⟨hfirst, ⟨j', hj', hplace, hpast'⟩, hholes⟩

/-- A message is given to `onread`. -/
theorem ReceiverInv.deliver (h : ReceiverInv cfg first allow payloads got apt)
    (hstarts : Starts first) (hn : payloads.length < maxOutputIndexHalf) {w k : ℕ}
    {buf : List UInt8} (hw : apt.recvWindow = some w) (hbuf : payloads[k]? = some buf)
    (ha : apt' = { apt.applyRecvWindow w (indexOf first k) with
      incomingMap := Function.update apt.incomingMap (indexOf first k) none
      readLog := apt.readLog ++ [(indexOf first k, buf)] }) :
    ReceiverInv cfg first allow payloads got apt' ∧ Delivered first payloads apt' k := by
  obtain ⟨hlt, -⟩ := List.getElem?_eq_some_iff.mp hbuf
  have hlog : apt'.readLog = apt.readLog ++ [(indexOf first k, buf)] := by rw [ha]
  have hmap : apt'.incomingMap = Function.update apt.incomingMap (indexOf first k) none := by rw [ha]
  have hmono : ∀ k, Delivered first payloads apt k → Delivered first payloads apt' k := by
    rintro k ⟨buf, hbuf, hmem⟩
    exact ⟨buf, hbuf, by rw [hlog]; exact List.mem_append_left _ hmem⟩
  have hdelivered : Delivered first payloads apt' k := ⟨buf, hbuf, by rw [hlog]; simp⟩
  obtain ⟨hfirst, hwindow, hholes⟩ :=
    h.applyRecvWindow hstarts hn hw hlt (Or.inr hdelivered) hmono
  refine ⟨h.replace (by rw [ha]; rfl) (by rw [ha]; rfl) (by rw [ha]; rfl) ?_ ?_ ?_ ?_ ?_ ?_,
    hdelivered⟩
  · rintro head (hallow | ⟨k', buf', i, p, hp, rfl, hgot, hstored⟩)
    · exact Or.inl hallow
    · refine Or.inr ⟨k', buf', i, p, hp, rfl, hgot, ?_⟩
      rcases hstored with ⟨obj, hobj, hsome⟩ | hdel
      · by_cases hkk : indexOf first k' = indexOf first k
        · obtain ⟨rfl, rfl⟩ := message_unique hstarts hn hp.payload hbuf hkk
          exact Or.inr hdelivered
        · exact Or.inl ⟨obj, by rw [hmap, Function.update_of_ne hkk, hobj], hsome⟩
      · exact Or.inr (hmono k' hdel)
  · intro e he
    rw [hlog] at he
    rcases List.mem_append.mp he with he | he
    · exact h.read e he
    · rw [List.mem_singleton.mp he]
      exact ⟨k, hbuf, rfl⟩
  · intro index obj hobj
    rw [hmap, Function.update_apply] at hobj
    split at hobj
    · cases hobj
    · exact h.incoming index obj hobj
  · intro w' hw'
    rw [ha] at hw'
    cases hw'
    exact ⟨hfirst, hwindow⟩
  · have heq : apt'.recvWindowHoles = (applyWindow apt.recvWindowHoles w (indexOf first k)).1 := by
      rw [ha]
      rfl
    rw [heq]
    exact hholes
  · rw [ha]
    simp [Endpoint.applyRecvWindow]

/-- More of a message is stored. -/
theorem ReceiverInv.collect (h : ReceiverInv cfg first allow payloads got apt) {k : ℕ}
    {buf : List UInt8} {object : Incoming} (hset : apt.recvWindow ≠ none)
    (hc : Collects cfg first payloads k buf object)
    (hmore : ∀ obj, apt.incomingMap (indexOf first k) = some obj → ∀ t,
      (obj.items t).isSome = true → (object.items t).isSome = true)
    (ha : apt' = { apt with
      incomingMap := Function.update apt.incomingMap (indexOf first k) (some object) }) :
    ReceiverInv cfg first allow payloads got apt' := by
  have hmap : apt'.incomingMap
      = Function.update apt.incomingMap (indexOf first k) (some object) := by rw [ha]
  have hmono : ∀ k, Delivered first payloads apt k → Delivered first payloads apt' k := by
    rintro k ⟨buf, hbuf, hmem⟩
    exact ⟨buf, hbuf, by rw [ha]; exact hmem⟩
  refine h.replace (by rw [ha]) (by rw [ha]) (by rw [ha]) ?_ ?_ ?_ ?_ ?_ ?_
  · rintro head (hallow | ⟨k', buf', i, p, hp, rfl, hgot, hstored⟩)
    · exact Or.inl hallow
    · refine Or.inr ⟨k', buf', i, p, hp, rfl, hgot, ?_⟩
      rcases hstored with ⟨obj, hobj, hsome⟩ | hdel
      · left
        by_cases hkk : indexOf first k' = indexOf first k
        · rw [hkk] at hobj
          exact ⟨object, by rw [hmap, hkk, Function.update_self], hmore obj hobj _ hsome⟩
        · exact ⟨obj, by rw [hmap, Function.update_of_ne hkk, hobj], hsome⟩
      · exact Or.inr (hmono k' hdel)
  · intro e he
    rw [ha] at he
    exact h.read e he
  · intro index obj hobj
    rw [hmap, Function.update_apply] at hobj
    split at hobj
    · rename_i hindex
      cases hobj
      exact ⟨k, buf, hindex, hc⟩
    · exact h.incoming index obj hobj
  · intro w hw
    rw [ha] at hw
    obtain ⟨hfirst, j, hj, heq, hpast⟩ := h.window w hw
    exact ⟨hfirst, j, hj, heq, fun k hk => (hpast k hk).imp_right (hmono k)⟩
  · intro x hx
    rw [ha] at hx
    obtain ⟨k', hk', heq, hsettled⟩ := h.holes x hx
    exact ⟨k', hk', heq, hsettled.imp_right (hmono k')⟩
  · rw [ha]
    exact hset

/-- **A package is stored**, or its message is complete and delivered. -/
theorem ReceiverInv.storePart (h : ReceiverInv cfg first allow payloads got apt)
    (hstarts : Starts first) (hn : payloads.length < maxOutputIndexHalf)
    (hsmall : ∀ buf ∈ payloads, buf.length ≤ cfg.maxPayloadSize) {w k i : ℕ} {buf : List UInt8}
    {p : Package} (hw : apt.recvWindow = some w) (hp : IsPart cfg first payloads k buf i p)
    (ha : apt' = apt.storePart w ⟨indexOf first k,
      (messagePackages cfg (indexOf first k) buf).length, i + 1⟩ p.body.bytes) :
    ReceiverInv cfg first allow payloads got apt' ∧
      (Stored first apt' k i ∨ Delivered first payloads apt' k) := by
  have hlen := hsmall buf (List.mem_of_getElem? hp.payload)
  obtain ⟨object, hobject⟩ : ∃ object, object = (apt.incomingMap (indexOf first k)).getD
    ⟨fun _ => none, (messagePackages cfg (indexOf first k) buf).length, false⟩ := ⟨_, rfl⟩
  -- what is stored so far belongs to this message
  have hold : object.done = false ∧ ∀ t b, object.items t = some b → ∃ i p, t = i + 1 ∧
      (messagePackages cfg (indexOf first k) buf)[i]? = some p ∧ b = p.body.bytes := by
    cases hmap : apt.incomingMap (indexOf first k) with
    | none =>
        rw [hobject, hmap]
        simp
    | some obj =>
        obtain ⟨k', buf', heq, hc⟩ := h.incoming _ _ hmap
        obtain ⟨rfl, rfl⟩ := message_unique hstarts hn hp.payload hc.payload heq
        rw [hobject, hmap]
        exact ⟨hc.done, hc.items⟩
  have hitems : ∀ t b, Function.update object.items (i + 1) (some p.body.bytes) t = some b →
      ∃ i p, t = i + 1 ∧ (messagePackages cfg (indexOf first k) buf)[i]? = some p ∧
        b = p.body.bytes := by
    intro t b htb
    rw [Function.update_apply] at htb
    split at htb
    · rename_i ht
      cases htb
      exact ⟨i, p, ht, hp.package, rfl⟩
    · exact hold.2 t b htb
  rw [Endpoint.storePart, ← hobject] at ha
  simp only [hold.1, Bool.false_eq_true, if_false] at ha
  split at ha
  · rename_i hfull
    rw [tableConcat_of_parts hlen hitems hfull] at ha
    obtain ⟨hinv, hdelivered⟩ := h.deliver hstarts hn hw hp.payload ha
    exact ⟨hinv, Or.inr hdelivered⟩
  · rename_i hfull
    have hc : Collects cfg first payloads k buf ⟨Function.update object.items (i + 1)
        (some p.body.bytes), object.count, false⟩ := by
      refine ⟨hp.payload, rfl, hitems, ?_⟩
      rw [full_iff] at hfull
      push Not at hfull
      obtain ⟨i', hi', hnone⟩ := hfull
      exact ⟨i', hi', by simpa using hnone⟩
    refine ⟨h.collect (by simp [hw]) hc ?_ ha, Or.inl ⟨_, by rw [ha]; exact Function.update_self _ _ _,
      by simp⟩⟩
    intro obj hobj t hsome
    rw [hobj, Option.getD_some] at hobject
    rw [hobject]
    by_cases ht : t = i + 1
    · simp [ht]
    · simpa [ht] using hsome

/-- A message is cancelled. -/
theorem ReceiverInv.cancel (h : ReceiverInv cfg first allow payloads got apt)
    (hstarts : Starts first) (hn : payloads.length < maxOutputIndexHalf) (hallow : allow) {w k : ℕ}
    (hw : apt.recvWindow = some w) (hk : k < payloads.length)
    (ha : apt' = { apt with
      incomingMap := Function.update apt.incomingMap (indexOf first k) none }.applyRecvWindow w
        (indexOf first k)) : ReceiverInv cfg first allow payloads got apt' := by
  have hmono : ∀ k, Delivered first payloads apt k → Delivered first payloads apt' k := by
    rintro k ⟨buf, hbuf, hmem⟩
    exact ⟨buf, hbuf, by rw [ha]; exact hmem⟩
  obtain ⟨hfirst, hwindow, hholes⟩ := h.applyRecvWindow hstarts hn hw hk (Or.inl hallow) hmono
  refine h.replace (by rw [ha]; rfl) (by rw [ha]; rfl) (by rw [ha]; rfl) ?_ ?_ ?_ ?_ ?_ ?_
  · intro head _
    exact Or.inl hallow
  · intro e he
    rw [ha] at he
    exact h.read e he
  · intro index obj hobj
    rw [ha] at hobj
    simp only [Endpoint.applyRecvWindow, Function.update_apply] at hobj
    split at hobj
    · cases hobj
    · exact h.incoming index obj hobj
  · intro w' hw'
    rw [ha] at hw'
    cases hw'
    exact ⟨hfirst, hwindow⟩
  · have heq : apt'.recvWindowHoles = (applyWindow apt.recvWindowHoles w (indexOf first k)).1 := by
      rw [ha]
      rfl
    rw [heq]
    exact hholes
  · rw [ha]
    simp [Endpoint.applyRecvWindow]

/-! ## Reading -/

/-- The acknowledgement can as well be queued after the package has been taken. -/
theorem Endpoint.takePackage_push (p : Package) (w : ℕ) (hd : Head) (body : List UInt8) :
    (apt.push p).takePackage cfg w hd body = (apt.takePackage cfg w hd body).push p := by
  unfold Endpoint.takePackage Endpoint.storePart
  dsimp only [Endpoint.push]
  split
  · rfl
  · split
    · rfl
    · split
      · rfl
      · split <;> rfl

theorem IsPart.length_head {k i : ℕ} {buf : List UInt8} {p : Package}
    (hp : IsPart cfg first payloads k buf i p) : p.head.length = headSize := by
  rw [(getElem?_messagePackages hp.package).1, length_packHead]

/-- The heads of the parts can be read back. -/
theorem IsPart.unpackHead_eq {k i : ℕ} {buf : List UInt8} {p : Package}
    (hp : IsPart cfg first payloads k buf i p) (hstarts : Starts first)
    (hsmall : ∀ buf ∈ payloads, buf.length ≤ cfg.maxPayloadSize) :
    unpackHead p.head = ⟨indexOf first k, (messagePackages cfg (indexOf first k) buf).length,
      i + 1⟩ := by
  have hlen : (messagePackages cfg (indexOf first k) buf).length ≤ 65535 :=
    (length_messagePackages (hsmall buf (List.mem_of_getElem? hp.payload))).2
  obtain ⟨hlt, -⟩ := List.getElem?_eq_some_iff.mp hp.package
  have hmax : maxOutputIndex < 2 ^ 32 := by decide
  have hindex : indexOf first k ≤ maxOutputIndex := indexOf_le hstarts
  rw [(getElem?_messagePackages hp.package).1]
  exact unpackHead_packHead (by omega) (by omega) (by omega)

theorem unpackHead_cancel (hstarts : Starts first) (k : ℕ) :
    unpackHead (packHead (indexOf first k) 0 0) = ⟨indexOf first k, 0, 0⟩ := by
  have hmax : maxOutputIndex < 2 ^ 32 := by decide
  have hindex : indexOf first k ≤ maxOutputIndex := indexOf_le hstarts
  exact unpackHead_packHead (by omega) (by decide) (by decide)

/-- A package is taken, and acknowledged unless it is ahead of the window. -/
theorem onPackage_cases (apt : Endpoint) (w : ℕ) (head body : List UInt8) :
    ((packageOutside cfg w (unpackHead head).outputIndex = false ∨
        futurePackage w (unpackHead head).outputIndex = false) ∧
      apt.onPackage cfg w head body = (apt.takePackage cfg w (unpackHead head) body).push
        (ackPackage head (unpackHead head).outputIndex)) ∨
      apt.onPackage cfg w head body = apt.takePackage cfg w (unpackHead head) body := by
  unfold Endpoint.onPackage Endpoint.acknowledge
  simp only
  split
  · rename_i hack
    have hqueue : apt.sendPackage (ackPackage head (unpackHead head).outputIndex) apt.mapCount
        = apt.push (ackPackage head (unpackHead head).outputIndex) := rfl
    rw [hqueue, Endpoint.takePackage_push]
    exact Or.inl ⟨by simpa using hack, rfl⟩
  · exact Or.inr rfl

/-- Taking a package, and then its acknowledgement. -/
theorem ReceiverInv.onPackage {w : ℕ} {head body : List UInt8}
    (htake : ReceiverInv cfg first allow payloads got
      (apt.takePackage cfg w (unpackHead head) body))
    (hset : (apt.takePackage cfg w (unpackHead head) body).recvWindow ≠ none)
    (hlen : head.length = headSize)
    (hacked : packageOutside cfg w (unpackHead head).outputIndex = false ∨
        futurePackage w (unpackHead head).outputIndex = false →
      Acked cfg first allow payloads got (apt.takePackage cfg w (unpackHead head) body) head) :
    ReceiverInv cfg first allow payloads got (apt.onPackage cfg w head body) := by
  rcases onPackage_cases apt w head body with ⟨hack, heq⟩ | heq
  · rw [heq]
    exact htake.push hlen (hacked hack) hset _
  · rw [heq]
    exact htake

/-- **A package of a message arrives.** -/
theorem ReceiverInv.onPart (h : ReceiverInv cfg first allow payloads got apt)
    (hstarts : Starts first) (hn : payloads.length < maxOutputIndexHalf)
    (hsmall : ∀ buf ∈ payloads, buf.length ≤ cfg.maxPayloadSize) {w k i : ℕ} {buf : List UInt8}
    {p : Package} (hw : apt.recvWindow = some w) (hp : IsPart cfg first payloads k buf i p)
    (hgot : p.datagram ∈ got) :
    ReceiverInv cfg first allow payloads got (apt.onPackage cfg w p.head p.body.bytes) := by
  obtain ⟨hlt, -⟩ := List.getElem?_eq_some_iff.mp hp.payload
  have hhead := hp.unpackHead_eq hstarts hsmall
  have hlen := hp.length_head
  by_cases hdrop : packageOutside cfg w (indexOf first k) = true ∧
      cfg.keepPackageOutsideWindow = false
  · -- the package is dropped
    have htake : apt.takePackage cfg w (unpackHead p.head) p.body.bytes = apt := by
      rw [Endpoint.takePackage, if_pos (by rw [hhead]; simp [hdrop])]
    apply ReceiverInv.onPackage
    · rw [htake]
      exact h
    · rw [htake, hw]
      simp
    · exact hlen
    · rw [htake, hhead]
      rintro (houtside | hfuture)
      · simp only [hdrop.1] at houtside
        cases houtside
      · -- it is behind the window
        obtain ⟨hfirst, j, hj, rfl, hpast⟩ := h.window w hw
        have hkj : k < j := by
          by_contra hjk
          simp only [futurePackage_of_le hstarts hfirst (not_lt.mp hjk) hlt hn] at hfuture
          cases hfuture
        rcases hpast k hkj with hallow | hdelivered
        · exact Or.inl hallow
        · exact Or.inr ⟨k, buf, i, p, hp, rfl, hgot, Or.inr hdelivered⟩
  · obtain ⟨apt', ha⟩ : ∃ apt', apt' = apt.takePackage cfg w (unpackHead p.head) p.body.bytes :=
      ⟨_, rfl⟩
    have hstore := ha
    rw [Endpoint.takePackage, hhead, if_neg (by simpa using hdrop), if_neg (by simp)] at hstore
    obtain ⟨hinv, hstored⟩ := h.storePart hstarts hn hsmall hw hp hstore
    rw [ha] at hinv hstored
    refine hinv.onPackage ?_ hlen fun _ => Or.inr ⟨k, buf, i, p, hp, rfl, hgot, hstored⟩
    rw [← ha, hstore, Endpoint.storePart]
    simp only
    split
    · rw [hw]
      simp
    · split
      · simp [Endpoint.applyRecvWindow]
      · rw [hw]
        simp

theorem ReceiverInv.onCancel (h : ReceiverInv cfg first allow payloads got apt)
    (hstarts : Starts first) (hn : payloads.length < maxOutputIndexHalf) (hallow : allow) {w k : ℕ}
    (hw : apt.recvWindow = some w) (hk : k < payloads.length) (body : List UInt8) :
    ReceiverInv cfg first allow payloads got
      (apt.onPackage cfg w (packHead (indexOf first k) 0 0) body) := by
  obtain ⟨apt', ha⟩ : ∃ apt', apt' = apt.takePackage cfg w
    (unpackHead (packHead (indexOf first k) 0 0)) body := ⟨_, rfl⟩
  have hinv : ReceiverInv cfg first allow payloads got apt' ∧ apt'.recvWindow ≠ none := by
    rw [Endpoint.takePackage, unpackHead_cancel hstarts] at ha
    split at ha
    · rw [ha, hw]
      exact ⟨h, by simp⟩
    · rw [if_pos (by simp)] at ha
      refine ⟨h.cancel hstarts hn hallow hw hk ha, ?_⟩
      rw [ha]
      simp [Endpoint.applyRecvWindow]
  rw [ha] at hinv
  exact hinv.1.onPackage hinv.2 (length_packHead _ _ _) fun _ => Or.inl hallow

/-- What the receiver does with a datagram of the sender. -/
inductive Reads (cfg : Config) (first : ℕ) (allow : Prop) (payloads : List (List UInt8))
    (ctrl : ℕ → Prop) (apt : Endpoint) (d : List UInt8) : Endpoint → Prop where
  | skip : Reads cfg first allow payloads ctrl apt d apt
  | ask (hnone : apt.recvWindow = none) :
      Reads cfg first allow payloads ctrl apt d (apt.connSend (windowCtrlReq apt.sendWindow))
  | window {v : ℕ} (hv : ctrl v) (hnone : apt.recvWindow = none)
      (hlt : v % 256 ^ 4 < maxOutputIndex) :
      Reads cfg first allow payloads ctrl apt d { apt with recvWindow := some (v % 256 ^ 4) }
  | part {w k : ℕ} {buf : List UInt8} {i : ℕ} {p : Package} (hw : apt.recvWindow = some w)
      (hp : IsPart cfg first payloads k buf i p) (hbody : p.body.bytes ≠ []) (hd : d = p.datagram)
      (hlt : indexOf first k < maxOutputIndex) :
      Reads cfg first allow payloads ctrl apt d (apt.onPackage cfg w p.head p.body.bytes)
  | cancel {w k : ℕ} {body : List UInt8} (hw : apt.recvWindow = some w) (hallow : allow)
      (hk : k < payloads.length) :
      Reads cfg first allow payloads ctrl apt d
        (apt.onPackage cfg w (packHead (indexOf first k) 0 0) body)

/-- **What `_onread` does with the datagrams of the sender**: it takes packages once the
window is set, asks for the window before that, and sets it at most once. -/
theorem onread_reads (hquiet : ∀ head, apt.outputPackagePartsMap head = none)
    (hstarts : Starts first) (hsmall : ∀ buf ∈ payloads, buf.length ≤ cfg.maxPayloadSize)
    {d : List UInt8} {ctrl : ℕ → Prop} (hd : OnWire cfg first allow payloads ctrl d) :
    Reads cfg first allow payloads ctrl apt d (apt.onread cfg d).1 := by
  have hmax : maxOutputIndex < windowCtrl := by decide
  cases hd with
  | @part k buf i p hp =>
      have hlen := hp.length_head
      have hle : indexOf first k ≤ maxOutputIndex := indexOf_le hstarts
      by_cases hbody : p.body.bytes = []
      · -- an empty message looks like an acknowledgement
        have hsize : p.datagram.length = headSize := by
          rw [Package.datagram, hbody, List.append_nil, hlen]
        rw [Endpoint.onread, if_pos hsize, Endpoint.onack, hquiet]
        exact Reads.skip
      · rw [Package.datagram, Endpoint.onread_append hlen hbody, hp.unpackHead_eq hstarts hsmall,
          if_neg (by simp only; omega)]
        split
        · rename_i hlt
          split
          · rename_i hnone
            exact Reads.ask hnone
          · rename_i w hw
            exact Reads.part hw hp hbody rfl hlt
        · exact Reads.skip
  | @cancel k hallow hk =>
      have hle : indexOf first k ≤ maxOutputIndex := indexOf_le hstarts
      have hbody : "N/A".toUTF8.toList ≠ [] := by decide +kernel
      have hdatagram : (cancelPackage (indexOf first k)).datagram
          = packHead (indexOf first k) 0 0 ++ "N/A".toUTF8.toList := rfl
      rw [hdatagram, Endpoint.onread_append (length_packHead _ _ _) hbody,
        unpackHead_cancel hstarts, if_neg (by simp only; omega)]
      split
      · split
        · rename_i hnone
          exact Reads.ask hnone
        · rename_i w hw
          exact Reads.cancel hw hallow hk
      · exact Reads.skip
  | @control v hv =>
      have hbytes : ofLe ((leBytes 4 v).take 4) = v % 256 ^ 4 := by
        rw [List.take_of_length_le (by simp), ofLe_leBytes]
      rw [windowCtrlSet, Endpoint.onread_control (by decide), Endpoint.onControl, if_pos ⟨rfl, rfl⟩,
        hbytes]
      split
      · rename_i hnone
        rw [if_neg (by simp)]
        split
        · rename_i hlt
          exact Reads.window hv (by simpa using hnone) hlt
        · exact Reads.skip
      · exact Reads.skip

/-- **The receiver reads a datagram of the sender.**  As long as the window is not set,
the sender has not moved its own. -/
theorem ReceiverInv.onread (h : ReceiverInv cfg first allow payloads got apt)
    (hstarts : Starts first) (hn : payloads.length < maxOutputIndexHalf)
    (hsmall : ∀ buf ∈ payloads, buf.length ≤ cfg.maxPayloadSize) {d : List UInt8}
    {ctrl : ℕ → Prop} (hgot : d ∈ got) (hctrl : ∀ v, ctrl v → apt.recvWindow = none → v = first)
    (hread : Reads cfg first allow payloads ctrl apt d apt') :
    ReceiverInv cfg first allow payloads got apt' := by
  cases hread with
  | skip => exact h
  | ask hnone => exact h.control (Or.inr rfl)
  | @window v hv hnone hlt =>
      -- the window is that of the first message
      obtain rfl := hctrl v hv hnone
      have hsame : v % 256 ^ 4 = v := by
        have hmax : maxOutputIndex < 256 ^ 4 := by decide
        have hle := hstarts.2
        exact Nat.mod_eq_of_lt (by omega)
      rw [hsame] at hlt ⊢
      refine ⟨h.quiet, h.chain, h.wire, h.read, h.incoming, ?_, h.holes, ?_⟩
      · intro w hw
        cases hw
        exact ⟨hlt, 0, Nat.zero_le _, rfl, fun k hk => by omega⟩
      · intro h'
        cases h'
  | part hw hp hbody hd hlt =>
      rw [hd] at hgot
      exact h.onPart hstarts hn hsmall hw hp hgot
  | cancel hw hallow hk => exact h.onCancel hstarts hn hallow hw hk _

end Receiver

end LuaFan.ReliableUdp
