/-
# Delivery over reliable UDP

* `acknowledged_delivered`: **when a message is completed at the sender, the receiver has
  got all its packages and delivered it**, if no message is cancelled.
* `delivered_at_most_once`: what is delivered was sent under its index, and no message is
  delivered twice, **as long as no package arrives of a message that was completed ahead
  of the receive window and not yet passed by it**: the code notices such a package, and
  stores it nevertheless.
-/
import LuaFan.ReliableUdp.Receiver

namespace LuaFan.ReliableUdp

open Machine

/-! ## The link -/

/-- Both sides.  The sender does not move its window before that of the receiver is
set. -/
structure Inv (cfg : Config) (first : ℕ) (allow : Prop) (s : Link) : Prop where
  sender : SenderInv cfg first allow (fun v => s.receiver.recvWindow = none → v = first)
    s.payloads s.sender
  receiver : ReceiverInv cfg first allow s.payloads s.got s.receiver
  unset : s.receiver.recvWindow = none → s.sender.sendWindow = first

/-- The event cancels a message only if that is allowed. -/
def Event.CancelsOnly (allow : Prop) : Event → Prop
  | .timeout visits => ∀ v ∈ visits, allow ∨ v.resend = true
  | _ => True

section Step

variable {cfg : Config} {first : ℕ} {allow : Prop} {s s' : Link} {e : Event}

theorem inv_init (cfg : Config) (first first' : ℕ) (allow : Prop) :
    Inv cfg first allow (Link.init cfg first first') where
  sender :=
    { index := rfl
      small := by simp [Link.init]
      chain := by simp [Link.init, initConn]
      maps := by simp [Link.init, initConn]
      wire := by simp [Link.init, initConn] }
  receiver :=
    { quiet := fun _ => rfl
      chain := by simp [Link.init, initConn]
      wire := by simp [Link.init, initConn]
      read := by simp [Link.init, initConn]
      incoming := by simp [Link.init, initConn]
      window := by simp [Link.init, initConn]
      holes := by simp [Link.init, initConn]
      unset := by simp [Link.init, initConn] }
  unset _ := rfl

/-- Sending a package changes the chain, what is waited for and the wire. -/
theorem sendReady_eq (cfg : Config) (apt : Endpoint) : ∃ chain waitAck waitCount sent ds,
    apt.sendReady cfg = { apt with
      outputChain := chain
      outputWaitAck := waitAck
      outputWaitCount := waitCount
      windowSent := sent
      wire := apt.wire ++ ds } := by
  unfold Endpoint.sendReady
  split
  · split
    · exact ⟨_, _, _, _, [], by rw [List.append_nil]⟩
    · unfold Endpoint.transmit
      split
      · exact ⟨_, _, _, _, _, rfl⟩
      · split
        · exact ⟨_, _, _, _, _, rfl⟩
        · exact ⟨_, _, _, _, [], by rw [List.append_nil]⟩
  · exact ⟨_, _, _, _, _, rfl⟩

theorem unqueued_sendWindow : Unqueued Endpoint.sendWindow := fun _ _ _ _ _ _ _ _ _ => rfl

theorem sendWindow_send (apt : Endpoint) (buf : List UInt8) :
    (apt.send cfg buf).sendWindow = apt.sendWindow := by
  unfold Endpoint.send
  split
  · rfl
  · exact unqueued_sendWindow.queueAll _ _

/-- Taking a package sends nothing, and a receive window that is set stays set. -/
theorem onPackage_frame {apt : Endpoint} {w : ℕ} (hw : apt.recvWindow = some w)
    (head body : List UInt8) : (apt.onPackage cfg w head body).wire = apt.wire ∧
      (apt.onPackage cfg w head body).recvWindow ≠ none := by
  have htake : (apt.takePackage cfg w (unpackHead head) body).wire = apt.wire ∧
      (apt.takePackage cfg w (unpackHead head) body).recvWindow ≠ none := by
    unfold Endpoint.takePackage Endpoint.storePart
    simp only
    split
    · simp [hw]
    · split
      · simp [Endpoint.applyRecvWindow]
      · split
        · simp [hw]
        · split
          · simp [Endpoint.applyRecvWindow]
          · simp [hw]
  rcases onPackage_cases apt w head body with ⟨-, heq⟩ | heq
  · rw [heq]
    exact htake
  · rw [heq]
    exact htake

theorem Reads.frame {payloads : List (List UInt8)} {ctrl : ℕ → Prop} {apt apt' : Endpoint}
    {d : List UInt8} (h : Reads cfg first allow payloads ctrl apt d apt') :
    apt.wire ⊆ apt'.wire ∧ (apt'.recvWindow = none → apt.recvWindow = none) := by
  cases h with
  | skip => exact ⟨List.Subset.refl _, id⟩
  | ask hnone => exact ⟨List.subset_append_left _ _, fun _ => hnone⟩
  | window hv hnone hlt => exact ⟨List.Subset.refl _, fun _ => hnone⟩
  | part hw hp hbody hd hlt =>
      obtain ⟨hwire, hset⟩ := onPackage_frame hw _ _
      exact ⟨by rw [hwire]; exact List.Subset.refl _, fun h => absurd h hset⟩
  | cancel hw hallow hk =>
      obtain ⟨hwire, hset⟩ := onPackage_frame hw _ _
      exact ⟨by rw [hwire]; exact List.Subset.refl _, fun h => absurd h hset⟩

/-- Every datagram of the receiver is one that the sender can read. -/
theorem ReceiverInv.fromReceiver {payloads got : List (List UInt8)} {apt : Endpoint}
    (h : ReceiverInv cfg first allow payloads got apt) {d : List UInt8} (hd : d ∈ apt.wire) :
    FromReceiver d :=
  (h.wire d hd).imp_left fun hd => hd.1

/-- What the receiver does with a datagram of the wire. -/
theorem Inv.reads (h : Inv cfg first allow s) (hstarts : Starts first) {i : ℕ} {d : List UInt8}
    (hd : s.sender.wire[i]? = some d) :
    Reads cfg first allow s.payloads (fun v => s.receiver.recvWindow = none → v = first)
      { s.receiver with waitingCount := cfg.waitingCount } d (s.receiver.connRead cfg d) := by
  have hquiet : ∀ head, { s.receiver with
      waitingCount := cfg.waitingCount }.outputPackagePartsMap head = none := h.receiver.quiet
  exact onread_reads hquiet hstarts h.sender.small (h.sender.wire d (List.mem_of_getElem? hd))

/-- **Every step keeps the invariant** while fewer than half an index cycle of messages
are sent. -/
theorem step_inv (hstarts : Starts first) (h : Inv cfg first allow s) (hc : e.CancelsOnly allow)
    (hstep : s.step cfg e = some s') (hn : s'.payloads.length < maxOutputIndexHalf) :
    Inv cfg first allow s' := by
  cases e with
  | send buf =>
      cases hstep
      by_cases hmax : buf.length > cfg.maxPayloadSize
      · have hsame : s.sender.send cfg buf = s.sender := by rw [Endpoint.send, if_pos hmax]
        simp only [hmax, if_true, hsame]
        exact h
      · simp only [hmax, if_false]
        refine ⟨h.sender.send (by omega), ?_, fun hnone => ?_⟩
        · have hmono := h.receiver.mono [buf] []
          rwa [List.append_nil] at hmono
        · exact (sendWindow_send s.sender buf).trans (h.unset hnone)
  | senderReady =>
      cases hstep
      refine ⟨h.sender.sendReady h.unset, h.receiver, fun hnone => ?_⟩
      obtain ⟨_, _, _, _, _, heq⟩ := sendReady_eq cfg s.sender
      simp only [heq]
      exact h.unset hnone
  | receiverReady =>
      cases hstep
      have hwindow : (s.receiver.sendReady cfg).recvWindow = s.receiver.recvWindow := by
        obtain ⟨_, _, _, _, _, heq⟩ := sendReady_eq cfg s.receiver
        rw [heq]
      refine ⟨?_, h.receiver.sendReady, ?_⟩
      · simp only [hwindow]
        exact h.sender
      · simp only [hwindow]
        exact h.unset
  | timeout visits =>
      cases hstep
      exact ⟨h.sender.checkTimeout hc, h.receiver, fun hnone =>
        (unqueued_sendWindow.checkTimeout s.sender visits).trans (h.unset hnone)⟩
  | toReceiver i =>
      obtain ⟨d, hd, rfl⟩ := Option.map_eq_some_iff.mp hstep
      have hmono := h.receiver.mono [] [d]
      rw [List.append_nil] at hmono
      have hread := h.reads hstarts hd
      have hset : (s.receiver.connRead cfg d).recvWindow = none → s.receiver.recvWindow = none :=
        hread.frame.2
      refine ⟨h.sender.weaken fun v hv hnone => hv (hset hnone), ?_, fun hnone =>
        h.unset (hset hnone)⟩
      exact (hmono.paired cfg.waitingCount).onread hstarts hn h.sender.small (by simp)
        (fun v hv => hv) hread
  | toSender i =>
      obtain ⟨d, hd, rfl⟩ := Option.map_eq_some_iff.mp hstep
      have hmem := List.mem_of_getElem? hd
      have hfrom := h.receiver.fromReceiver hmem
      refine ⟨h.sender.connRead hfrom, h.receiver, fun hnone => ?_⟩
      rcases connRead_cases hfrom with ⟨hlen, -⟩ | ⟨-, window, sent, heq⟩
      · exact absurd hlen ((h.receiver.unset hnone).2.2 d hmem)
      · show (s.sender.connRead cfg d).sendWindow = first
        rw [heq]
        exact h.unset hnone

/-- No message is taken back. -/
theorem payloads_le (hstep : s.step cfg e = some s') : s.payloads.length ≤ s'.payloads.length := by
  cases e with
  | send buf =>
      cases hstep
      simp only
      split
      · exact le_rfl
      · simp
  | toReceiver i =>
      obtain ⟨d, -, rfl⟩ := Option.map_eq_some_iff.mp hstep
      exact le_rfl
  | toSender i =>
      obtain ⟨d, -, rfl⟩ := Option.map_eq_some_iff.mp hstep
      exact le_rfl
  | _ =>
      cases hstep
      exact le_rfl

/-- **What the steps keep beside the invariant, a run keeps**, while fewer than half an
index cycle of messages are sent. -/
theorem run_inv {Q : Link → Prop} {ok : Link → Event → Prop} (hstarts : Starts first)
    (hok : ∀ s e, ok s e → e.CancelsOnly allow)
    (hkeep : ∀ s e s', Inv cfg first allow s → s'.payloads.length < maxOutputIndexHalf → Q s →
      ok s e → s.step cfg e = some s' → Q s') {first' : ℕ} {es : List Event}
    (hinit : Q (Link.init cfg first first'))
    (hmeets : Meets (Link.step cfg) ok (Link.init cfg first first') es)
    (hrun : run (Link.step cfg) (Link.init cfg first first') es = some s)
    (hn : s.payloads.length < maxOutputIndexHalf) : Inv cfg first allow s ∧ Q s := by
  have hstep : ∀ s e s', (s.payloads.length < maxOutputIndexHalf → Inv cfg first allow s ∧ Q s) →
      ok s e → s.step cfg e = some s' →
      s'.payloads.length < maxOutputIndexHalf → Inv cfg first allow s' ∧ Q s' := by
    intro s e s' h hc hstep hlt
    obtain ⟨hinv, hq⟩ := h ((payloads_le hstep).trans_lt hlt)
    exact ⟨step_inv hstarts hinv (hok s e hc) hstep hlt, hkeep s e s' hinv hlt hq hc hstep⟩
  exact run_invariant hstep (fun _ => ⟨inv_init cfg first first' allow, hinit⟩) hmeets hrun hn

end Step

/-! ## Acknowledged messages -/

/-- What the sender keeps of its messages: a package that is missing in the map of its
message was acknowledged. -/
structure AckInv (cfg : Config) (first : ℕ) (payloads acks : List (List UInt8)) (apt : Endpoint) :
    Prop where
  bound : ∀ head ref, apt.outputPackagePartsMap head = some ref → ref < apt.mapCount
  maps : ∀ ref < apt.mapCount, ∃ k buf, payloads[k]? = some buf ∧
    (∀ e ∈ apt.maps ref, e.2.outputIndex = indexOf first k) ∧
    ∀ p ∈ messagePackages cfg (indexOf first k) buf,
      (∃ e ∈ apt.maps ref, e.1 = p.head) ∨ p.head ∈ acks
  sent : ∀ index ∈ apt.sentLog, ∃ k buf, payloads[k]? = some buf ∧ index = indexOf first k ∧
    ∀ p ∈ messagePackages cfg (indexOf first k) buf, p.head ∈ acks

section Ack

variable {cfg : Config} {first : ℕ} {payloads acks acks' : List (List UInt8)} {apt apt' : Endpoint}

/-- More messages and more acknowledgements. -/
theorem AckInv.mono (h : AckInv cfg first payloads acks apt) (payloads' : List (List UInt8))
    (hacks : acks ⊆ acks') : AckInv cfg first (payloads ++ payloads') acks' apt where
  bound := h.bound
  maps ref href := by
    obtain ⟨k, buf, hbuf, hindex, hparts⟩ := h.maps ref href
    exact ⟨k, buf, getElem?_append_of_some hbuf, hindex, fun p hp =>
      (hparts p hp).imp_right fun hmem => hacks hmem⟩
  sent index hindex := by
    obtain ⟨k, buf, hbuf, heq, hparts⟩ := h.sent index hindex
    exact ⟨k, buf, getElem?_append_of_some hbuf, heq, fun p hp => hacks (hparts p hp)⟩

/-- What the other operations leave of it. -/
theorem AckInv.frame (h : AckInv cfg first payloads acks apt)
    (hparts : ∀ head ref, apt'.outputPackagePartsMap head = some ref →
      apt.outputPackagePartsMap head = some ref)
    (hmaps : apt'.maps = apt.maps) (hcount : apt'.mapCount = apt.mapCount)
    (hsent : apt'.sentLog = apt.sentLog) : AckInv cfg first payloads acks apt' := by
  refine ⟨?_, ?_, ?_⟩
  · intro head ref href
    rw [hcount]
    exact h.bound head ref (hparts head ref href)
  · rw [hmaps, hcount]
    exact h.maps
  · rw [hsent]
    exact h.sent

theorem AckInv.send (h : AckInv cfg first payloads acks apt)
    (hindex : apt.outputIndex = indexOf first payloads.length) {buf : List UInt8}
    (hmax : buf.length ≤ cfg.maxPayloadSize) :
    AckInv cfg first (payloads ++ [buf]) acks (apt.send cfg buf) := by
  have hmono := h.mono [buf] (List.Subset.refl acks)
  have hack : ∀ p ∈ messagePackages cfg apt.outputIndex buf, p.ack = false := by
    intro p hp
    obtain ⟨i, hi⟩ := List.mem_iff_getElem?.mp hp
    exact (getElem?_messagePackages hi).2.2
  rw [Endpoint.send, if_neg (by omega), Endpoint.queueAll_eq _ hack]
  refine ⟨?_, ?_, hmono.sent⟩
  · intro head ref href
    simp only at href ⊢
    split at href
    · cases href
      omega
    · have := h.bound head ref href
      omega
  · intro ref href
    simp only at href ⊢
    by_cases hnew : ref = apt.mapCount
    · -- the new map has all packages of the new message
      subst hnew
      rw [Function.update_self]
      refine ⟨payloads.length, buf, by simp, ?_, ?_⟩
      · intro e he
        obtain ⟨p, hp, rfl⟩ := List.mem_map.mp he
        obtain ⟨i, hi⟩ := List.mem_iff_getElem?.mp hp
        rw [(getElem?_messagePackages hi).2.1, hindex]
      · intro p hp
        rw [← hindex] at hp
        exact Or.inl ⟨(p.head, p), List.mem_map.mpr ⟨p, hp, rfl⟩, rfl⟩
    · rw [Function.update_of_ne hnew]
      exact hmono.maps ref (by omega)

theorem markSendCompleted_frame (apt : Endpoint) (head : List UInt8) :
    (∀ head' ref, (apt.markSendCompleted head).outputPackagePartsMap head' = some ref →
      apt.outputPackagePartsMap head' = some ref) ∧
      (apt.markSendCompleted head).maps = apt.maps ∧
      (apt.markSendCompleted head).mapCount = apt.mapCount ∧
      (apt.markSendCompleted head).sentLog = apt.sentLog := by
  unfold Endpoint.markSendCompleted
  split
  · refine ⟨?_, rfl, rfl, rfl⟩
    intro head' ref href
    simp only [Function.update_apply] at href
    split at href
    · cases href
    · exact href
  · exact ⟨fun _ _ h => h, rfl, rfl, rfl⟩

theorem AckInv.markSendCompleted (h : AckInv cfg first payloads acks apt) (head : List UInt8) :
    AckInv cfg first payloads acks (apt.markSendCompleted head) := by
  obtain ⟨hparts, hmaps, hcount, hsent⟩ := markSendCompleted_frame apt head
  exact h.frame hparts hmaps hcount hsent

/-- **An acknowledgement** takes its package out of the map; the message is completed
with the last one. -/
theorem AckInv.onack (h : AckInv cfg first payloads acks apt) {d : List UInt8} (hd : d ∈ acks) :
    AckInv cfg first payloads acks (apt.onack d) := by
  unfold Endpoint.onack
  split
  · exact h
  · rename_i ref href
    split
    · exact h.markSendCompleted d
    · rename_i package hlookup
      obtain ⟨hparts, hmaps, hcount, hsent⟩ := markSendCompleted_frame apt d
      obtain ⟨k, buf, hbuf, hindex, hpackages⟩ := h.maps ref (h.bound d ref href)
      have hleft : ∀ p ∈ messagePackages cfg (indexOf first k) buf,
          (∃ e ∈ (apt.maps ref).filter fun e => e.1 ≠ d, e.1 = p.head) ∨ p.head ∈ acks := by
        intro p hp
        rcases hpackages p hp with ⟨e, he, heq⟩ | hmem
        · by_cases hed : e.1 = d
          · rw [← heq, hed]
            exact Or.inr hd
          · exact Or.inl ⟨e, List.mem_filter.mpr ⟨he, by simpa using hed⟩, heq⟩
        · exact Or.inr hmem
      have hinv : AckInv cfg first payloads acks { apt.markSendCompleted d with
          maps := Function.update apt.maps ref ((apt.maps ref).filter fun e => e.1 ≠ d) } := by
        refine ⟨?_, ?_, ?_⟩
        · intro head ref' href'
          show ref' < (apt.markSendCompleted d).mapCount
          rw [hcount]
          exact h.bound head ref' (hparts head ref' href')
        · intro ref' href'
          rw [show (_ : Endpoint).mapCount = (apt.markSendCompleted d).mapCount from rfl,
            hcount] at href'
          by_cases hsame : ref' = ref
          · subst hsame
            simp only [Function.update_self]
            exact ⟨k, buf, hbuf, fun e he => hindex e (List.mem_filter.mp he).1, hleft⟩
          · simp only [Function.update_of_ne hsame]
            exact h.maps ref' href'
        · intro index hmem
          rw [show (_ : Endpoint).sentLog = (apt.markSendCompleted d).sentLog from rfl,
            hsent] at hmem
          exact h.sent index hmem
      simp only
      split
      · rename_i hempty
        refine ⟨hinv.bound, hinv.maps, ?_⟩
        intro index hmem
        rcases List.mem_append.mp hmem with hmem | hmem
        · exact hinv.sent index hmem
        · rw [List.mem_singleton.mp hmem]
          refine ⟨k, buf, hbuf, hindex _ (mem_of_lookup hlookup), ?_⟩
          intro p hp
          rcases hleft p hp with ⟨e, he, -⟩ | hmem
          · rw [hempty] at he
            cases he
          · exact hmem
      · exact hinv

/-- A round of `_check_timeout` that gives up no message. -/
theorem AckInv.visit (h : AckInv cfg first payloads acks apt) {v : Endpoint.Visit}
    (hresend : v.resend = true) :
    AckInv cfg first payloads acks (apt.visit v).1 ∧ (apt.visit v).2 = [] := by
  unfold Endpoint.visit
  split
  · exact ⟨h, rfl⟩
  · split
    · split
      · exact ⟨h, rfl⟩
      · split
        · exact ⟨h.markSendCompleted v.head, rfl⟩
        · split
          · rw [if_pos (by simp [hresend])]
            exact ⟨⟨h.bound, h.maps, h.sent⟩, rfl⟩
          · exact ⟨h, rfl⟩
    · exact ⟨h, rfl⟩

theorem AckInv.checkTimeout {visits : List Endpoint.Visit}
    (hresend : ∀ v ∈ visits, v.resend = true) (h : AckInv cfg first payloads acks apt) :
    AckInv cfg first payloads acks (apt.checkTimeout visits) := by
  have hall : ∀ (vs : List Endpoint.Visit) (apt : Endpoint), (∀ v ∈ vs, v.resend = true) →
      AckInv cfg first payloads acks apt →
      AckInv cfg first payloads acks (apt.visitAll vs).1 ∧ (apt.visitAll vs).2 = [] := by
    intro vs
    induction vs with
    | nil =>
        intro apt _ h
        exact ⟨h, rfl⟩
    | cons v vs ih =>
        intro apt hvs h
        obtain ⟨hv, hnil⟩ := h.visit (hvs v List.mem_cons_self)
        obtain ⟨hrest, hnil'⟩ := ih _ (fun w hw => hvs w (List.mem_cons_of_mem v hw)) hv
        rw [Endpoint.visitAll]
        simp only [hnil, hnil', List.append_nil, and_true]
        exact hrest
  obtain ⟨hinv, hnil⟩ := hall visits apt hresend h
  rw [Endpoint.checkTimeout, hnil]
  exact hinv

theorem AckInv.connRead (h : AckInv cfg first payloads acks apt) {d : List UInt8}
    (hd : FromReceiver d) (hmem : d ∈ acks) :
    AckInv cfg first payloads acks (apt.connRead cfg d) := by
  rcases connRead_cases hd with ⟨-, heq⟩ | ⟨-, window, sent, heq⟩
  · rw [heq]
    apply AckInv.onack _ hmem
    exact ⟨h.bound, h.maps, h.sent⟩
  · rw [heq]
    exact ⟨h.bound, h.maps, h.sent⟩

end Ack

section Acknowledged

variable {cfg : Config} {first : ℕ} {s s' : Link} {e : Event}

theorem step_ackInv (hstarts : Starts first) (h : Inv cfg first False s)
    (hack : AckInv cfg first s.payloads s.receiver.wire s.sender) (hc : e.CancelsOnly False)
    (hstep : s.step cfg e = some s') :
    AckInv cfg first s'.payloads s'.receiver.wire s'.sender := by
  -- a step of the receiver
  have hmono : ∀ {acks}, s.receiver.wire ⊆ acks → AckInv cfg first s.payloads acks s.sender := by
    intro acks hacks
    have := hack.mono [] hacks
    rwa [List.append_nil] at this
  cases e with
  | send buf =>
      cases hstep
      by_cases hmax : buf.length > cfg.maxPayloadSize
      · have hsame : s.sender.send cfg buf = s.sender := by rw [Endpoint.send, if_pos hmax]
        simp only [hmax, if_true, hsame]
        exact hack
      · simp only [hmax, if_false]
        exact hack.send h.sender.index (by omega)
  | senderReady =>
      cases hstep
      obtain ⟨_, _, _, _, _, heq⟩ := sendReady_eq cfg s.sender
      simp only [heq]
      exact hack.frame (fun head ref href => href) rfl rfl rfl
  | receiverReady =>
      cases hstep
      apply hmono
      obtain ⟨_, _, _, _, _, heq⟩ := sendReady_eq cfg s.receiver
      simp only [heq]
      exact List.subset_append_left _ _
  | timeout visits =>
      cases hstep
      exact hack.checkTimeout fun v hv => (hc v hv).resolve_left id
  | toReceiver i =>
      obtain ⟨d, hd, rfl⟩ := Option.map_eq_some_iff.mp hstep
      exact hmono (h.reads hstarts hd).frame.1
  | toSender i =>
      obtain ⟨d, hd, rfl⟩ := Option.map_eq_some_iff.mp hstep
      have hmem := List.mem_of_getElem? hd
      exact hack.connRead (h.receiver.fromReceiver hmem) hmem

/-- A part whose head was acknowledged was got, and is stored or delivered. -/
theorem ReceiverInv.of_ack {payloads got : List (List UInt8)} {apt : Endpoint} {k i : ℕ}
    {buf : List UInt8} {p : Package} (h : ReceiverInv cfg first False payloads got apt)
    (hstarts : Starts first) (hn : payloads.length < maxOutputIndexHalf)
    (hsmall : ∀ buf ∈ payloads, buf.length ≤ cfg.maxPayloadSize)
    (hp : IsPart cfg first payloads k buf i p) (hwire : p.head ∈ apt.wire) :
    p.datagram ∈ got ∧ (Stored first apt k i ∨ Delivered first payloads apt k) := by
  have hlen : p.head.length = headSize := by
    rw [(getElem?_messagePackages hp.package).1, length_packHead]
  rcases h.wire p.head hwire with ⟨-, hacked⟩ | ⟨v, hv⟩
  · obtain ⟨k', buf', i', p', hp', heq, hgot, hstored⟩ := hacked.resolve_left id
    have hunpack := hp.unpackHead_eq hstarts hsmall
    rw [heq, hp'.unpackHead_eq hstarts hsmall, Head.mk.injEq] at hunpack
    obtain ⟨hindex, -, hplace⟩ := hunpack
    obtain ⟨rfl, rfl⟩ := message_unique hstarts hn hp'.payload hp.payload hindex
    obtain rfl : i' = i := by omega
    have hsame := hp'.package
    rw [hp.package] at hsame
    cases hsame
    exact ⟨hgot, hstored⟩
  · exfalso
    have hsize := congrArg List.length (hv.resolve_right fun h => by
      have := congrArg List.length h
      rw [hlen] at this
      simp [windowCtrlReq, headSize] at this)
    rw [hlen] at hsize
    simp [windowCtrlSet, headSize] at hsize

/-- **When all parts of a message are acknowledged, it was delivered.** -/
theorem ReceiverInv.delivered_of_acks {payloads got : List (List UInt8)} {apt : Endpoint} {k : ℕ}
    {buf : List UInt8} (h : ReceiverInv cfg first False payloads got apt)
    (hstarts : Starts first) (hn : payloads.length < maxOutputIndexHalf)
    (hsmall : ∀ buf ∈ payloads, buf.length ≤ cfg.maxPayloadSize) (hbuf : payloads[k]? = some buf)
    (hacks : ∀ p ∈ messagePackages cfg (indexOf first k) buf, p.head ∈ apt.wire) :
    (∀ p ∈ messagePackages cfg (indexOf first k) buf, p.datagram ∈ got) ∧
      (indexOf first k, buf) ∈ apt.readLog := by
  have hparts : ∀ i p, (messagePackages cfg (indexOf first k) buf)[i]? = some p →
      p.datagram ∈ got ∧ (Stored first apt k i ∨ Delivered first payloads apt k) := fun i p hp =>
    h.of_ack hstarts hn hsmall ⟨hbuf, hp⟩ (hacks p (List.mem_of_getElem? hp))
  constructor
  · intro p hp
    obtain ⟨i, hi⟩ := List.mem_iff_getElem?.mp hp
    exact (hparts i p hi).1
  · by_contra hnot
    have hstored : ∀ i < (messagePackages cfg (indexOf first k) buf).length,
        Stored first apt k i := by
      intro i hi
      refine (hparts i _ (List.getElem?_eq_getElem hi)).2.resolve_right ?_
      rintro ⟨buf', hbuf', hmem⟩
      rw [hbuf] at hbuf'
      cases hbuf'
      exact hnot hmem
    -- all parts are in one object, of which one is missing
    have hpos : 0 < (messagePackages cfg (indexOf first k) buf).length :=
      (length_messagePackages (hsmall buf (List.mem_of_getElem? hbuf))).1
    obtain ⟨obj, hobj, -⟩ := hstored 0 hpos
    obtain ⟨k', buf', heq, hc⟩ := h.incoming _ _ hobj
    obtain ⟨rfl, rfl⟩ := message_unique hstarts hn hbuf hc.payload heq
    obtain ⟨i, hi, hnone⟩ := hc.missing
    obtain ⟨obj', hobj', hsome⟩ := hstored i hi
    rw [hobj] at hobj'
    cases hobj'
    rw [hnone] at hsome
    cases hsome

theorem ackInv_init (cfg : Config) (first first' : ℕ) (acks : List (List UInt8)) :
    AckInv cfg first [] acks (Link.init cfg first first').sender where
  bound := by simp [Link.init, initConn]
  maps := by simp [Link.init, initConn]
  sent := by simp [Link.init, initConn]

/-- **A message that was completed at the sender was delivered**: in every run without
cancelled messages, for every index that was given to `onsent`, all packages of its
message have reached the receiver and its payload was given to `onread`. -/
theorem acknowledged_delivered {first' : ℕ} {es : List Event} (hstarts : Starts first)
    (hrun : run (Link.step cfg) (Link.init cfg first first') es = some s)
    (hcancel : ∀ e ∈ es, e.CancelsOnly False) (hn : s.payloads.length < maxOutputIndexHalf) :
    ∀ index ∈ s.sender.sentLog, ∃ k buf, s.payloads[k]? = some buf ∧ index = indexOf first k ∧
      (∀ p ∈ messagePackages cfg index buf, p.datagram ∈ s.got) ∧
      (index, buf) ∈ s.receiver.readLog := by
  have hkeep : ∀ s e s', Inv cfg first False s → s'.payloads.length < maxOutputIndexHalf →
      AckInv cfg first s.payloads s.receiver.wire s.sender → Event.CancelsOnly False e →
      s.step cfg e = some s' → AckInv cfg first s'.payloads s'.receiver.wire s'.sender :=
    fun s e s' hinv _ hack hc hstep => step_ackInv hstarts hinv hack hc hstep
  obtain ⟨hinv, hack⟩ := run_inv hstarts (fun s e hc => hc) hkeep
    (ackInv_init cfg first first' _) (meets_of_forall hcancel _) hrun hn
  intro index hindex
  obtain ⟨k, buf, hbuf, rfl, hacks⟩ := hack.sent index hindex
  exact ⟨k, buf, hbuf, rfl,
    hinv.receiver.delivered_of_acks hstarts hn hinv.sender.small hbuf hacks⟩

/-- A message whose package is lost once, sent again and acknowledged. -/
def resentMessage : List Event :=
  [.send [1], .senderReady, .senderReady, .timeout [⟨packHead 5 1 1, true, true⟩], .senderReady,
    .toReceiver 0, .toReceiver 2, .receiverReady, .receiverReady, .toSender 1]

theorem resentMessage_delivered : ∃ s,
    run (Link.step .unset) (Link.init .unset 5 7) resentMessage = some s ∧
      s.sender.sentLog = [5] ∧ ∃ k buf, s.payloads[k]? = some buf ∧ 5 = indexOf 5 k ∧
        (∀ p ∈ messagePackages .unset 5 buf, p.datagram ∈ s.got) ∧
        (5, buf) ∈ s.receiver.readLog := by
  have hend : (run (Link.step .unset) (Link.init .unset 5 7) resentMessage).map
      (fun s => (s.sender.sentLog, s.payloads)) = some ([5], [[1]]) := by decide +kernel
  obtain ⟨s, hrun, hs⟩ := Option.map_eq_some_iff.mp hend
  rw [Prod.mk.injEq] at hs
  have hcancel : ∀ e ∈ resentMessage, e.CancelsOnly False := by
    simp [resentMessage, Event.CancelsOnly]
  exact ⟨s, hrun, hs.1, acknowledged_delivered ⟨by decide, by decide⟩ hrun hcancel
    (by rw [hs.2]; decide) 5 (by simp [hs.1])⟩

end Acknowledged

/-! ## Messages are delivered once -/

/-- The datagram is a package that `_onread` finds to be of a message in
`recvWindowHoles`: it is inside the window and does not cancel its message. -/
def Endpoint.FindsDup (cfg : Config) (apt : Endpoint) (buf : List UInt8) : Prop :=
  let h := unpackHead (buf.take headSize)
  buf.length > headSize ∧ h.outputIndex < maxOutputIndex ∧
    (∃ w ∈ apt.recvWindow, packageOutside cfg w h.outputIndex = false) ∧
    ¬(h.count = 0 ∧ h.packageIndex = 0) ∧ h.outputIndex ∈ apt.recvWindowHoles

instance (cfg : Config) (apt : Endpoint) (buf : List UInt8) : Decidable (apt.FindsDup cfg buf) :=
  inferInstanceAs (Decidable (_ ∧ _))

/-- No such package reaches the receiver. -/
def Event.NoDup (cfg : Config) (s : Link) : Event → Prop
  | .toReceiver i => ∀ buf ∈ s.sender.wire[i]?, ¬ s.receiver.FindsDup cfg buf
  | _ => True

instance (cfg : Config) (s : Link) : ∀ e : Event, Decidable (e.NoDup cfg s)
  | .toReceiver i =>
      inferInstanceAs (Decidable (∀ buf ∈ s.sender.wire[i]?, ¬ s.receiver.FindsDup cfg buf))
  | .send _ => isTrue trivial
  | .senderReady => isTrue trivial
  | .receiverReady => isTrue trivial
  | .timeout _ => isTrue trivial
  | .toSender _ => isTrue trivial

/-- The receiver remembers the index: in the holes of its window, or by having passed
it. -/
def Marked (first : ℕ) (apt : Endpoint) (index : ℕ) : Prop :=
  index ∈ apt.recvWindowHoles ∨ ∃ j k, apt.recvWindow = some (indexOf first j) ∧ k < j ∧
    j < maxOutputIndexHalf ∧ index = indexOf first k

/-- No message was delivered twice, and those that were are remembered. -/
structure Once (first : ℕ) (apt : Endpoint) : Prop where
  nodup : (apt.readLog.map Prod.fst).Nodup
  marked : ∀ e ∈ apt.readLog, Marked first apt e.1

section Once

variable {cfg : Config} {first : ℕ} {allow : Prop} {payloads got : List (List UInt8)}
  {apt apt' : Endpoint}

/-- What other operations leave of it. -/
theorem Once.frame (h : Once first apt) (hread : apt'.readLog = apt.readLog)
    (hholes : apt'.recvWindowHoles = apt.recvWindowHoles)
    (hwindow : apt'.recvWindow = apt.recvWindow) : Once first apt' := by
  refine ⟨?_, ?_⟩
  · rw [hread]
    exact h.nodup
  · intro e he
    rw [hread] at he
    rw [Marked, hholes, hwindow]
    exact h.marked e he

/-- Settling a message marks it, and no mark is lost. -/
theorem Marked.applyRecvWindow (h : ReceiverInv cfg first allow payloads got apt)
    (hstarts : Starts first) (hn : payloads.length < maxOutputIndexHalf) {w k index : ℕ}
    (hw : apt.recvWindow = some w) (hk : k < payloads.length)
    (hindex : Marked first apt index ∨ index = indexOf first k)
    (hholes : apt'.recvWindowHoles = (apt.applyRecvWindow w (indexOf first k)).recvWindowHoles)
    (hwindow : apt'.recvWindow = (apt.applyRecvWindow w (indexOf first k)).recvWindow) :
    Marked first apt' index := by
  obtain ⟨hfirst, j, hj, rfl, -⟩ := h.window w hw
  obtain ⟨j', hj', hplace, -, hjj, -, hrest⟩ := applyWindow_spec hstarts hfirst hn hj hk
    (S := fun _ => True) trivial (fun _ _ => trivial) (fun x hx => by
      obtain ⟨i, hi, heq, -⟩ := h.holes x hx
      exact ⟨i, hi, heq, trivial⟩)
  have hwindow' : apt'.recvWindow = some (indexOf first j') := by
    rw [hwindow, Endpoint.applyRecvWindow, hplace]
  have hmarks : index ∈ insert (indexOf first k) apt.recvWindowHoles → Marked first apt' index := by
    intro hmem
    rcases hrest index hmem with hmem | ⟨i, hi, rfl⟩
    · left
      rw [hholes]
      exact hmem
    · exact Or.inr ⟨j', i, hwindow', hi, by omega, rfl⟩
  rcases hindex with (hmem | ⟨j₁, k₁, hw₁, hk₁, hj₁, rfl⟩) | rfl
  · exact hmarks (Finset.mem_insert_of_mem hmem)
  · -- it was passed before
    rw [hw, Option.some.injEq] at hw₁
    obtain rfl := indexOf_inj hstarts (by omega) (by omega) hw₁
    exact Or.inr ⟨j', k₁, hwindow', by omega, by omega, rfl⟩
  · exact hmarks (Finset.mem_insert_self _ _)

/-- **A package is taken**, of a message that is not in the holes. -/
theorem Once.takePackage (h : Once first apt) (hinv : ReceiverInv cfg first allow payloads got apt)
    (hstarts : Starts first) (hn : payloads.length < maxOutputIndexHalf)
    (hkeep : cfg.keepPackageOutsideWindow = false) (hwindow : cfg.windowSize < maxOutputIndexHalf)
    {w k : ℕ} {hd : Head} (hw : apt.recvWindow = some w) (hk : k < payloads.length)
    (hindex : hd.outputIndex = indexOf first k)
    (hdup : packageOutside cfg w hd.outputIndex = false → ¬(hd.count = 0 ∧ hd.packageIndex = 0) →
      hd.outputIndex ∉ apt.recvWindowHoles) (body : List UInt8) :
    Once first (apt.takePackage cfg w hd body) := by
  unfold Endpoint.takePackage
  split
  · exact h
  · rename_i hinside
    have hinside : packageOutside cfg w hd.outputIndex = false := by simpa [hkeep] using hinside
    split
    · -- the message is cancelled
      refine ⟨h.nodup, fun e he => ?_⟩
      rw [hindex]
      exact Marked.applyRecvWindow hinv hstarts hn hw hk (Or.inl (h.marked e he)) rfl rfl
    · rename_i hpart
      unfold Endpoint.storePart
      simp only
      split
      · exact h
      · split
        · -- the message is delivered, and was not before
          have hnew : ∀ e ∈ apt.readLog, e.1 ≠ hd.outputIndex := by
            intro e he heq
            rcases h.marked e he with hmem | ⟨j₁, k₁, hw₁, hk₁, hj₁, hpassed⟩
            · rw [heq] at hmem
              exact hdup hinside hpart hmem
            · rw [hw, Option.some.injEq] at hw₁
              have houtside := packageOutside_of_lt hstarts (hinv.window w hw).1 hwindow hk₁ hj₁
              rw [← hw₁, ← hpassed, heq, hinside] at houtside
              cases houtside
          refine ⟨?_, ?_⟩
          · rw [List.map_append, List.nodup_append]
            refine ⟨h.nodup, by simp, ?_⟩
            intro x hx y hy
            obtain ⟨e, he, rfl⟩ := List.mem_map.mp hx
            rw [List.map_singleton, List.mem_singleton] at hy
            rw [hy]
            exact hnew e he
          · intro e he
            have he' : Marked first apt e.1 ∨ e.1 = indexOf first k := by
              rcases List.mem_append.mp he with he | he
              · exact Or.inl (h.marked e he)
              · rw [List.mem_singleton.mp he]
                exact Or.inr hindex
            rw [hindex]
            exact Marked.applyRecvWindow hinv hstarts hn hw hk he' rfl rfl
        · exact ⟨h.nodup, h.marked⟩

/-- **A datagram is read** that is not a package of a message in the holes. -/
theorem Once.onread (h : Once first apt) (hinv : ReceiverInv cfg first allow payloads got apt)
    (hstarts : Starts first) (hn : payloads.length < maxOutputIndexHalf)
    (hsmall : ∀ buf ∈ payloads, buf.length ≤ cfg.maxPayloadSize)
    (hkeep : cfg.keepPackageOutsideWindow = false) (hwindow : cfg.windowSize < maxOutputIndexHalf)
    {d : List UInt8} {ctrl : ℕ → Prop} (hdup : ¬ apt.FindsDup cfg d)
    (hread : Reads cfg first allow payloads ctrl apt d apt') : Once first apt' := by
  have hpackage : ∀ {w k : ℕ} {head : List UInt8}, apt.recvWindow = some w →
      k < payloads.length → (unpackHead head).outputIndex = indexOf first k →
      (packageOutside cfg w (unpackHead head).outputIndex = false →
        ¬((unpackHead head).count = 0 ∧ (unpackHead head).packageIndex = 0) →
        (unpackHead head).outputIndex ∉ apt.recvWindowHoles) →
      ∀ body, Once first (apt.onPackage cfg w head body) := by
    intro w k head hw hk hindex hdup body
    have htake := h.takePackage hinv hstarts hn hkeep hwindow hw hk hindex hdup body
    rcases onPackage_cases apt w head body with ⟨-, heq⟩ | heq
    · rw [heq]
      exact htake.frame rfl rfl rfl
    · rw [heq]
      exact htake
  cases hread with
  | skip => exact h
  | ask hnone => exact h.frame rfl rfl rfl
  | window hv hnone hlt =>
      -- nothing is delivered before
      have hnil := (hinv.unset hnone).2.1
      exact ⟨h.nodup, fun e he => by rw [hnil] at he; cases he⟩
  | @part w k buf i p hw hp hbody hd hlt =>
      obtain ⟨hk, -⟩ := List.getElem?_eq_some_iff.mp hp.payload
      have hhead := hp.unpackHead_eq hstarts hsmall
      refine hpackage hw hk (by rw [hhead]) ?_ _
      intro hinside hpart hmem
      apply hdup
      have hpos := List.length_pos_of_ne_nil hbody
      have hlen : d.length = headSize + p.body.bytes.length := by
        rw [hd, Package.datagram, List.length_append, hp.length_head]
      have hsame : d.take headSize = p.head := by
        rw [hd, Package.datagram, List.take_left' hp.length_head]
      unfold Endpoint.FindsDup
      rw [hsame]
      exact ⟨by omega, by rw [hhead]; exact hlt, ⟨w, hw, hinside⟩, hpart, hmem⟩
  | @cancel w k body hw hallow hk =>
      have hhead := unpackHead_cancel hstarts k
      refine hpackage hw hk (by rw [hhead]) ?_ _
      intro _ hpart
      exact absurd (by rw [hhead]; simp) hpart

end Once

section AtMostOnce

variable {cfg : Config} {first : ℕ} {s s' : Link} {e : Event}

theorem step_once (hstarts : Starts first) (hkeep : cfg.keepPackageOutsideWindow = false)
    (hwindow : cfg.windowSize < maxOutputIndexHalf) (h : Inv cfg first True s)
    (hn : s'.payloads.length < maxOutputIndexHalf) (honce : Once first s.receiver)
    (hdup : e.NoDup cfg s) (hstep : s.step cfg e = some s') : Once first s'.receiver := by
  cases e with
  | receiverReady =>
      cases hstep
      obtain ⟨_, _, _, _, _, heq⟩ := sendReady_eq cfg s.receiver
      simp only [heq]
      exact honce.frame rfl rfl rfl
  | toReceiver i =>
      obtain ⟨d, hd, rfl⟩ := Option.map_eq_some_iff.mp hstep
      have honce' : Once first { s.receiver with waitingCount := cfg.waitingCount } :=
        honce.frame rfl rfl rfl
      exact honce'.onread (h.receiver.paired cfg.waitingCount) hstarts hn h.sender.small hkeep
        hwindow (hdup d hd) (h.reads hstarts hd)
  | toSender i =>
      obtain ⟨d, -, rfl⟩ := Option.map_eq_some_iff.mp hstep
      exact honce
  | _ =>
      cases hstep
      exact honce

/-- **At most once**: as long as no package arrives of a message that is in the holes of
the receive window, every payload that was given to `onread` was sent under its index,
and no index occurs twice. -/
theorem delivered_at_most_once {first' : ℕ} {es : List Event} (hstarts : Starts first)
    (hkeep : cfg.keepPackageOutsideWindow = false) (hwindow : cfg.windowSize < maxOutputIndexHalf)
    (hrun : run (Link.step cfg) (Link.init cfg first first') es = some s)
    (hdup : Meets (Link.step cfg) (fun s e => e.NoDup cfg s) (Link.init cfg first first') es)
    (hn : s.payloads.length < maxOutputIndexHalf) :
    (∀ entry ∈ s.receiver.readLog, ∃ k, s.payloads[k]? = some entry.2 ∧
      entry.1 = indexOf first k) ∧ (s.receiver.readLog.map Prod.fst).Nodup := by
  have hkept : ∀ s e s', Inv cfg first True s → s'.payloads.length < maxOutputIndexHalf →
      Once first s.receiver → e.NoDup cfg s → s.step cfg e = some s' → Once first s'.receiver :=
    fun s e s' hinv hlt honce hdup hstep =>
      step_once hstarts hkeep hwindow hinv hlt honce hdup hstep
  have hinit : Once first (Link.init cfg first first').receiver :=
    ⟨List.nodup_nil, fun e he => by cases he⟩
  have hok : ∀ (s : Link) (e : Event), e.NoDup cfg s → e.CancelsOnly True := by
    intro _ e _
    cases e <;> simp [Event.CancelsOnly]
  obtain ⟨hinv, honce⟩ := run_inv hstarts hok hkept hinit hdup hrun hn
  exact ⟨hinv.receiver.read, honce.nodup⟩

/-- Two messages, of which the network duplicates the first. -/
def duplicatedFirst : List Event :=
  [.send [1], .send [2], .senderReady, .toReceiver 0, .receiverReady, .toSender 0, .senderReady,
    .senderReady, .toReceiver 1, .toReceiver 1, .toReceiver 2]

theorem duplicatedFirst_delivered_once : ∃ s,
    run (Link.step .unset) (Link.init .unset 5 7) duplicatedFirst = some s ∧
      s.receiver.readLog = [(5, [1]), (6, [2])] ∧
      (∀ entry ∈ s.receiver.readLog, ∃ k, s.payloads[k]? = some entry.2 ∧
        entry.1 = indexOf 5 k) ∧ (s.receiver.readLog.map Prod.fst).Nodup := by
  have hend : (run (Link.step .unset) (Link.init .unset 5 7) duplicatedFirst).map
      (fun s => (s.receiver.readLog, s.payloads)) = some ([(5, [1]), (6, [2])], [[1], [2]]) := by
    decide +kernel
  obtain ⟨s, hrun, hs⟩ := Option.map_eq_some_iff.mp hend
  rw [Prod.mk.injEq] at hs
  exact ⟨s, hrun, hs.1, delivered_at_most_once ⟨by decide, by decide⟩ rfl (by decide) hrun
    (by decide +kernel) (by rw [hs.2]; decide)⟩

/-- **A message is delivered twice** when the network duplicates it while the message
before it is missing. -/
theorem duplicatedSecond_delivered_twice : ∃ s,
    run (Link.step .unset) (Link.init .unset 5 7)
        [.send [1], .send [2], .senderReady, .toReceiver 0, .receiverReady, .toSender 0,
          .senderReady, .senderReady, .toReceiver 2, .toReceiver 2] = some s ∧
      s.payloads = [[1], [2]] ∧ s.receiver.readLog = [(6, [2]), (6, [2])] ∧
      ¬ (s.receiver.readLog.map Prod.fst).Nodup := by
  have hend : (run (Link.step .unset) (Link.init .unset 5 7)
      [.send [1], .send [2], .senderReady, .toReceiver 0, .receiverReady, .toSender 0,
        .senderReady, .senderReady, .toReceiver 2, .toReceiver 2]).map
      (fun s => (s.payloads, s.receiver.readLog)) = some ([[1], [2]], [(6, [2]), (6, [2])]) := by
    decide +kernel
  obtain ⟨s, hrun, hs⟩ := Option.map_eq_some_iff.mp hend
  rw [Prod.mk.injEq] at hs
  exact ⟨s, hrun, hs.1, hs.2, by rw [hs.2]; decide⟩

end AtMostOnce

end LuaFan.ReliableUdp
