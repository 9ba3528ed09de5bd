/-
# What the sender sends

Whatever the sender has queued, keeps in its maps and has sent is a package of one of
its messages, a package that cancels one, or a control datagram (`SenderInv`).  All
operations of the sender keep this.
-/
import LuaFan.ReliableUdp.Link

namespace LuaFan.ReliableUdp

open Machine

/-! ## Views -/

/-- A view of an endpoint that does not see what is queued, sent and waited for. -/
def Unqueued {α : Type} (f : Endpoint → α) : Prop :=
  ∀ (apt : Endpoint) chain waitAck waitCount parts maps mapCount sent wire,
    f { apt with
        outputChain := chain
        outputWaitAck := waitAck
        outputWaitCount := waitCount
        outputPackagePartsMap := parts
        maps := maps
        mapCount := mapCount
        windowSent := sent
        wire := wire } = f apt

namespace Unqueued

variable {α : Type} {f : Endpoint → α} (hf : Unqueued f) (cfg : Config) (apt : Endpoint)
include hf

theorem markSendCompleted (head : List UInt8) : f (apt.markSendCompleted head) = f apt := by
  unfold Endpoint.markSendCompleted
  split
  · exact hf apt _ _ _ _ _ _ _ _
  · rfl

theorem queueAll (packages : List Package) : f (apt.queueAll packages) = f apt := by
  have hfold : ∀ (ps : List Package) (ref : ℕ) (apt : Endpoint),
      f (ps.foldl (fun apt p => apt.sendPackage p ref) apt) = f apt := by
    intro ps ref
    induction ps with
    | nil =>
        intro apt
        rfl
    | cons p ps ih =>
        intro apt
        rw [List.foldl_cons, ih, Endpoint.sendPackage]
        split
        · exact hf apt _ _ _ _ _ _ _ _
        · exact hf apt _ _ _ _ _ _ _ _
  exact (hfold packages _ _).trans (hf apt _ _ _ _ _ _ _ _)

theorem visit (v : Endpoint.Visit) : f (apt.visit v).1 = f apt := by
  have hgiveUp : ∀ maps, f { apt.markSendCompleted v.head with maps := maps } = f apt := fun _ =>
    (hf _ _ _ _ _ _ _ _ _).trans (hf.markSendCompleted apt v.head)
  unfold Endpoint.visit
  split
  · rfl
  · split
    · split
      · rfl
      · split
        · exact hf.markSendCompleted apt v.head
        · split
          · split
            · exact hf apt _ _ _ _ _ _ _ _
            · exact hgiveUp _
          · rfl
    · rfl

theorem visitAll (visits : List Endpoint.Visit) :
    ∀ apt : Endpoint, f (apt.visitAll visits).1 = f apt := by
  induction visits with
  | nil =>
      intro apt
      rfl
  | cons v visits ih =>
      intro apt
      exact (ih _).trans (hf.visit apt v)

/-- **Timeouts change only what is queued and waited for.** -/
theorem checkTimeout (visits : List Endpoint.Visit) : f (apt.checkTimeout visits) = f apt := by
  have hfold : ∀ (ps : List Package) (apt : Endpoint),
      f (ps.foldl (fun apt p => apt.queueAll [p]) apt) = f apt := by
    intro ps
    induction ps with
    | nil =>
        intro apt
        rfl
    | cons p ps ih =>
        intro apt
        rw [List.foldl_cons, ih, hf.queueAll]
  exact (hfold _ _).trans (hf.visitAll visits apt)

theorem sendReady : f (apt.sendReady cfg) = f apt := by
  unfold Endpoint.sendReady
  split
  · split
    · rfl
    · unfold Endpoint.transmit
      split
      · exact hf apt _ _ _ _ _ _ _ _
      · split
        · exact hf apt _ _ _ _ _ _ _ _
        · exact hf apt _ _ _ _ _ _ _ _
  · exact hf apt _ _ _ _ _ _ _ _

end Unqueued

/-! ## The packages of the messages -/

/-- What a package is, apart from the flags of the sender. -/
def Package.content (p : Package) : List UInt8 × Body × ℕ × Bool :=
  (p.head, p.body, p.outputIndex, p.ack)

section Known

variable (cfg : Config) (first : ℕ) (allow : Prop) (payloads : List (List UInt8))

/-- The `i`-th package of the `k`-th message. -/
structure IsPart (k : ℕ) (buf : List UInt8) (i : ℕ) (p : Package) : Prop where
  payload : payloads[k]? = some buf
  package : (messagePackages cfg (indexOf first k) buf)[i]? = some p

/-- A package of a message, or, if that is allowed, one that cancels a message. -/
inductive Known (p : Package) : Prop where
  | part {k : ℕ} {buf : List UInt8} {i : ℕ} {q : Package}
      (hq : IsPart cfg first payloads k buf i q) (hcontent : p.content = q.content)
  | cancel {k : ℕ} (hallow : allow) (hk : k < payloads.length)
      (hcontent : p.content = (cancelPackage (indexOf first k)).content)

/-- A datagram of the sender; `ctrl` are the windows it tells. -/
inductive OnWire (ctrl : ℕ → Prop) : List UInt8 → Prop where
  | part {k : ℕ} {buf : List UInt8} {i : ℕ} {p : Package}
      (hp : IsPart cfg first payloads k buf i p) : OnWire ctrl p.datagram
  | cancel {k : ℕ} (hallow : allow) (hk : k < payloads.length) :
      OnWire ctrl (cancelPackage (indexOf first k)).datagram
  | control {v : ℕ} (hv : ctrl v) : OnWire ctrl (windowCtrlSet v)

end Known

section Mono

variable {cfg : Config} {first : ℕ} {allow : Prop} {payloads payloads' : List (List UInt8)}
  {ctrl : ℕ → Prop}

theorem getElem?_append_of_some {k : ℕ} {buf : List UInt8} (h : payloads[k]? = some buf) :
    (payloads ++ payloads')[k]? = some buf := by
  obtain ⟨hlt, -⟩ := List.getElem?_eq_some_iff.mp h
  rw [List.getElem?_append_left hlt, h]

theorem IsPart.mono {k : ℕ} {buf : List UInt8} {i : ℕ} {p : Package}
    (h : IsPart cfg first payloads k buf i p) : IsPart cfg first (payloads ++ payloads') k buf i p :=
  ⟨getElem?_append_of_some h.payload, h.package⟩

theorem Known.mono {p : Package} (h : Known cfg first allow payloads p) :
    Known cfg first allow (payloads ++ payloads') p := by
  cases h with
  | part hq hcontent => exact .part hq.mono hcontent
  | cancel hallow hk hcontent =>
      exact .cancel hallow (by rw [List.length_append]; omega) hcontent

theorem OnWire.mono {d : List UInt8} (h : OnWire cfg first allow payloads ctrl d) :
    OnWire cfg first allow (payloads ++ payloads') ctrl d := by
  cases h with
  | part hp => exact .part hp.mono
  | cancel hallow hk => exact .cancel hallow (by rw [List.length_append]; omega)
  | control hv => exact .control hv

theorem Known.ack {p : Package} (h : Known cfg first allow payloads p) : p.ack = false := by
  cases h with
  | part hq hcontent =>
      have := congrArg (fun c => c.2.2.2) hcontent
      exact this.trans (getElem?_messagePackages hq.package).2.2
  | cancel _ _ hcontent => exact congrArg (fun c => c.2.2.2) hcontent

theorem Known.onWire {p : Package} (h : Known cfg first allow payloads p) :
    OnWire cfg first allow payloads ctrl p.datagram := by
  have hdatagram : ∀ {q : Package}, p.content = q.content → p.datagram = q.datagram := by
    intro q hq
    have hhead : p.head = q.head := congrArg (fun c => c.1) hq
    have hbody : p.body = q.body := congrArg (fun c => c.2.1) hq
    rw [Package.datagram, Package.datagram, hhead, hbody]
  cases h with
  | part hq hcontent =>
      rw [hdatagram hcontent]
      exact .part hq
  | cancel hallow hk hcontent =>
      rw [hdatagram hcontent]
      exact .cancel hallow hk

end Mono

/-! ## The sender -/

/-- What is queued and sent belongs to the messages. -/
structure SenderInv (cfg : Config) (first : ℕ) (allow : Prop) (ctrl : ℕ → Prop)
    (payloads : List (List UInt8)) (apt : Endpoint) : Prop where
  index : apt.outputIndex = indexOf first payloads.length
  small : ∀ buf ∈ payloads, buf.length ≤ cfg.maxPayloadSize
  chain : ∀ p ∈ apt.outputChain, Known cfg first allow payloads p
  maps : ∀ r, ∀ e ∈ apt.maps r, Known cfg first allow payloads e.2
  wire : ∀ d ∈ apt.wire, OnWire cfg first allow payloads ctrl d

namespace Endpoint

/-- Queueing a list of packages, in one step. -/
theorem foldl_sendPackage (ref : ℕ) (packages : List Package)
    (h : ∀ p ∈ packages, p.ack = false) :
    ∀ apt : Endpoint, packages.foldl (fun apt package => apt.sendPackage package ref) apt
      = { apt with
          outputChain := apt.outputChain ++ packages
          outputPackagePartsMap := fun head =>
            if head ∈ packages.map Package.head then some ref else apt.outputPackagePartsMap head } := by
  induction packages with
  | nil =>
      intro apt
      simp
  | cons p packages ih =>
      intro apt
      have hp := h p List.mem_cons_self
      rw [List.foldl_cons, ih fun q hq => h q (List.mem_cons_of_mem p hq), sendPackage, hp]
      simp only [Bool.false_eq_true, if_false, push, List.append_assoc, List.singleton_append,
        List.map_cons, List.mem_cons, Endpoint.mk.injEq, true_and, and_true]
      funext head
      by_cases hmem : head ∈ packages.map Package.head
      · simp [hmem]
      · by_cases hhead : head = p.head
        · simp [hhead]
        · simp [hmem, hhead]

theorem queueAll_eq (apt : Endpoint) {packages : List Package}
    (h : ∀ p ∈ packages, p.ack = false) :
    apt.queueAll packages
      = { apt with
          maps := Function.update apt.maps apt.mapCount (packages.map fun p => (p.head, p))
          mapCount := apt.mapCount + 1
          outputChain := apt.outputChain ++ packages
          outputPackagePartsMap := fun head =>
            if head ∈ packages.map Package.head then some apt.mapCount
            else apt.outputPackagePartsMap head } := by
  rw [queueAll, foldl_sendPackage _ _ h]

end Endpoint

section Sender

variable {cfg : Config} {first : ℕ} {allow : Prop} {ctrl ctrl' : ℕ → Prop}
  {payloads : List (List UInt8)} {apt : Endpoint}

/-- Less may be said of the windows. -/
theorem SenderInv.weaken (h : SenderInv cfg first allow ctrl payloads apt)
    (hctrl : ∀ v, ctrl v → ctrl' v) : SenderInv cfg first allow ctrl' payloads apt := by
  refine ⟨h.index, h.small, h.chain, h.maps, ?_⟩
  intro d hd
  cases h.wire d hd with
  | part hp => exact .part hp
  | cancel hallow hk => exact .cancel hallow hk
  | control hv => exact .control (hctrl _ hv)

/-- Queueing known packages. -/
theorem SenderInv.queueAll (h : SenderInv cfg first allow ctrl payloads apt) {packages : List Package}
    (hknown : ∀ p ∈ packages, Known cfg first allow payloads p) :
    SenderInv cfg first allow ctrl payloads (apt.queueAll packages) := by
  rw [Endpoint.queueAll_eq apt fun p hp => (hknown p hp).ack]
  refine ⟨h.index, h.small, ?_, ?_, h.wire⟩
  · intro p hp
    rcases List.mem_append.mp hp with hp | hp
    · exact h.chain p hp
    · exact hknown p hp
  · intro r e he
    simp only [Function.update_apply] at he
    split at he
    · obtain ⟨p, hp, rfl⟩ := List.mem_map.mp he
      exact hknown p hp
    · exact h.maps r e he

theorem isPart_of_mem {k : ℕ} {buf : List UInt8} {p : Package} (hbuf : payloads[k]? = some buf)
    (hp : p ∈ messagePackages cfg (indexOf first k) buf) :
    ∃ i, IsPart cfg first payloads k buf i p := by
  obtain ⟨i, hi⟩ := List.mem_iff_getElem?.mp hp
  exact ⟨i, hbuf, hi⟩

theorem SenderInv.send (h : SenderInv cfg first allow ctrl payloads apt) {buf : List UInt8}
    (hmax : buf.length ≤ cfg.maxPayloadSize) :
    SenderInv cfg first allow ctrl (payloads ++ [buf]) (apt.send cfg buf) := by
  rw [Endpoint.send, if_neg (by omega)]
  apply SenderInv.queueAll
  · refine ⟨?_, ?_, fun p hp => (h.chain p hp).mono, fun r e he => (h.maps r e he).mono,
      fun d hd => (h.wire d hd).mono⟩
    · show Serial.next maxOutputIndex apt.outputIndex = _
      rw [List.length_append, List.length_singleton, indexOf_succ, h.index]
    · intro b hb
      rcases List.mem_append.mp hb with hb | hb
      · exact h.small b hb
      · rw [List.mem_singleton.mp hb]
        exact hmax
  · intro p hp
    rw [h.index] at hp
    have hlast : (payloads ++ [buf])[payloads.length]? = some buf := by simp
    obtain ⟨i, hi⟩ := isPart_of_mem hlast hp
    exact .part hi rfl

/-- A package that is taken from the chain was in it, and the others stay. -/
theorem Endpoint.mem_of_pop {p : Package} {chain : List Package}
    (h : apt.pop cfg = some (p, chain)) :
    p ∈ apt.outputChain ∧ ∀ q ∈ chain, q ∈ apt.outputChain := by
  unfold Endpoint.pop at h
  split at h
  · split at h
    · cases h
    · rename_i hchain
      cases h
      rw [hchain]
      exact ⟨List.mem_cons_self, fun q hq => List.mem_cons_of_mem p hq⟩
  · obtain ⟨q, hq, heq⟩ := Option.map_eq_some_iff.mp h
    cases heq
    exact ⟨List.mem_of_find?_eq_some hq, fun r hr => List.mem_of_mem_eraseP hr⟩

theorem SenderInv.sendReady (h : SenderInv cfg first allow ctrl payloads apt)
    (hctrl : ctrl apt.sendWindow) :
    SenderInv cfg first allow ctrl payloads (apt.sendReady cfg) := by
  have hwire : ∀ {d}, OnWire cfg first allow payloads ctrl d →
      ∀ d' ∈ apt.wire ++ [d], OnWire cfg first allow payloads ctrl d' := by
    intro d hd d' hd'
    rcases List.mem_append.mp hd' with hd' | hd'
    · exact h.wire d' hd'
    · rw [List.mem_singleton.mp hd']
      exact hd
  unfold Endpoint.sendReady
  split
  · split
    · exact h
    · rename_i p chain hpop
      obtain ⟨hp, hchain⟩ := Endpoint.mem_of_pop hpop
      have hknown := h.chain p hp
      have hchain' : ∀ q ∈ chain, Known cfg first allow payloads q := fun q hq =>
        h.chain q (hchain q hq)
      unfold Endpoint.transmit
      rw [if_neg (by simp [hknown.ack])]
      split
      · exact ⟨h.index, h.small, hchain', h.maps, hwire hknown.onWire⟩
      · exact ⟨h.index, h.small, hchain', h.maps, h.wire⟩
  · exact ⟨h.index, h.small, h.chain, h.maps, hwire (.control hctrl)⟩

/-- What `_mark_send_completed` leaves as it is. -/
theorem SenderInv.markSendCompleted (h : SenderInv cfg first allow ctrl payloads apt)
    (head : List UInt8) : SenderInv cfg first allow ctrl payloads (apt.markSendCompleted head) := by
  unfold Endpoint.markSendCompleted
  split
  · exact ⟨h.index, h.small, h.chain, h.maps, h.wire⟩
  · exact h

theorem mem_of_lookup {m : PartsMap} {head : List UInt8} {p : Package}
    (h : m.lookup head = some p) : (head, p) ∈ m := by
  obtain ⟨l₁, l₂, rfl, -⟩ := List.lookup_eq_some_iff.mp h
  simp

/-- One round of `_check_timeout`; a message is cancelled only if that is allowed. -/
theorem SenderInv.visit (h : SenderInv cfg first allow ctrl payloads apt) (v : Endpoint.Visit)
    (hallow : allow ∨ v.resend = true) :
    SenderInv cfg first allow ctrl payloads (apt.visit v).1 ∧
      ∀ p ∈ (apt.visit v).2, allow ∧ Known cfg first allow payloads p := by
  unfold Endpoint.visit
  split
  · exact ⟨h, by simp⟩
  · rename_i ref href
    split
    · split
      · exact ⟨h, by simp⟩
      · rename_i package hlookup
        have hknown := h.maps ref _ (mem_of_lookup hlookup)
        split
        · exact ⟨h.markSendCompleted _, by simp⟩
        · split
          · split
            · refine ⟨⟨h.index, h.small, ?_, h.maps, h.wire⟩, by simp⟩
              intro p hp
              rcases List.mem_append.mp hp with hp | hp
              · exact h.chain p hp
              · rw [List.mem_singleton.mp hp]
                exact hknown
            · -- the message is given up
              rename_i hresend
              simp only [Bool.or_eq_true, not_or, Bool.not_eq_true] at hresend
              have hcancel : allow := by
                rcases hallow with hallow | hallow
                · exact hallow
                · rw [hresend.2] at hallow
                  cases hallow
              have hmark := h.markSendCompleted v.head
              refine ⟨⟨hmark.index, hmark.small, hmark.chain, ?_, hmark.wire⟩, ?_⟩
              · intro r e he
                simp only [Function.update_apply] at he
                split at he
                · obtain ⟨e', he', rfl⟩ := List.mem_map.mp he
                  cases h.maps ref e' he' with
                  | part hq hcontent => exact .part hq hcontent
                  | cancel hallow hk hcontent => exact .cancel hallow hk hcontent
                · exact h.maps r e he
              · intro p hp
                obtain rfl := List.mem_singleton.mp hp
                refine ⟨hcancel, ?_⟩
                cases hknown with
                | @part k buf i q hq hcontent =>
                    obtain ⟨hlt, -⟩ := List.getElem?_eq_some_iff.mp hq.payload
                    have hindex : package.outputIndex = indexOf first k :=
                      (congrArg (fun c => c.2.2.1) hcontent).trans
                        (getElem?_messagePackages hq.package).2.1
                    exact .cancel hcancel hlt (by rw [hindex])
                | @cancel k _ hk hcontent =>
                    have hindex : package.outputIndex = indexOf first k :=
                      congrArg (fun c => c.2.2.1) hcontent
                    exact .cancel hcancel hk (by rw [hindex])
          · exact ⟨h, by simp⟩
    · exact ⟨h, by simp⟩

theorem SenderInv.visitAll (visits : List Endpoint.Visit)
    (hallow : ∀ v ∈ visits, allow ∨ v.resend = true) :
    ∀ {apt : Endpoint}, SenderInv cfg first allow ctrl payloads apt →
      SenderInv cfg first allow ctrl payloads (apt.visitAll visits).1 ∧
        ∀ p ∈ (apt.visitAll visits).2, allow ∧ Known cfg first allow payloads p := by
  induction visits with
  | nil =>
      intro apt h
      exact ⟨h, by simp [Endpoint.visitAll]⟩
  | cons v visits ih =>
      intro apt h
      obtain ⟨hv, hpv⟩ := h.visit v (hallow v List.mem_cons_self)
      obtain ⟨hvs, hpvs⟩ := ih (fun w hw => hallow w (List.mem_cons_of_mem v hw)) hv
      refine ⟨hvs, ?_⟩
      intro p hp
      rcases List.mem_append.mp hp with hp | hp
      · exact hpv p hp
      · exact hpvs p hp

theorem SenderInv.checkTimeout (h : SenderInv cfg first allow ctrl payloads apt)
    {visits : List Endpoint.Visit} (hallow : ∀ v ∈ visits, allow ∨ v.resend = true) :
    SenderInv cfg first allow ctrl payloads (apt.checkTimeout visits) := by
  obtain ⟨hvs, hps⟩ := SenderInv.visitAll visits hallow h
  have hqueue : ∀ (ps : List Package) (apt : Endpoint), SenderInv cfg first allow ctrl payloads apt →
      (∀ p ∈ ps, allow ∧ Known cfg first allow payloads p) →
      SenderInv cfg first allow ctrl payloads (ps.foldl (fun apt p => apt.queueAll [p]) apt) := by
    intro ps
    induction ps with
    | nil =>
        intro apt h _
        exact h
    | cons p ps ih =>
        intro apt h hps
        refine ih _ (h.queueAll ?_) fun q hq => hps q (List.mem_cons_of_mem p hq)
        intro q hq
        rw [List.mem_singleton.mp hq]
        exact (hps p List.mem_cons_self).2
  exact hqueue _ _ hvs hps

/-! ## Datagrams as they are read -/

/-- What `_onread` does with a head and a body. -/
theorem Endpoint.onread_append {head body : List UInt8} (hhead : head.length = headSize)
    (hbody : body ≠ []) :
    apt.onread cfg (head ++ body) =
      if (unpackHead head).outputIndex = windowCtrl then apt.onControl (unpackHead head) body
      else if (unpackHead head).outputIndex < maxOutputIndex then
        match apt.recvWindow with
        | none => (apt.connSend (windowCtrlReq apt.sendWindow), none)
        | some window => (apt.onPackage cfg window head body, none)
      else (apt, none) := by
  have hpos := List.length_pos_of_ne_nil hbody
  have hlen : (head ++ body).length = headSize + body.length := by rw [List.length_append, hhead]
  have hack : ¬ (head ++ body).length = headSize := by omega
  have hlong : (head ++ body).length > headSize := by omega
  cases hw : apt.recvWindow with
  | none =>
      simp only [Endpoint.onread, if_neg hack, if_pos hlong, List.take_left' hhead,
        List.drop_left' hhead, hw]
  | some w =>
      simp only [Endpoint.onread, if_neg hack, if_pos hlong, List.take_left' hhead,
        List.drop_left' hhead, hw]

theorem Endpoint.onread_control {p : ℕ} (hp : p < 2 ^ 16) (v : ℕ) :
    apt.onread cfg (packHead windowCtrl 1 p ++ leBytes 4 v)
      = apt.onControl ⟨windowCtrl, 1, p⟩ (leBytes 4 v) := by
  have hbody : leBytes 4 v ≠ [] := List.ne_nil_of_length_pos (by simp)
  rw [Endpoint.onread_append (length_packHead _ _ _) hbody,
    unpackHead_packHead (by decide) (by decide) hp, if_pos rfl]

/-- A datagram of the receiver: an acknowledgement or a control datagram. -/
def FromReceiver (d : List UInt8) : Prop :=
  d.length = headSize ∨ ∃ v, d = windowCtrlSet v ∨ d = windowCtrlReq v

/-- What the sender does with the datagrams of the receiver: a control datagram changes
nothing that has to do with sending. -/
theorem connRead_cases {d : List UInt8} (hd : FromReceiver d) :
    (d.length = headSize ∧
        apt.connRead cfg d = ({ apt with waitingCount := cfg.waitingCount }).onack d) ∨
      d.length ≠ headSize ∧ ∃ window sent, apt.connRead cfg d =
        { apt with waitingCount := cfg.waitingCount, recvWindow := window, windowSent := sent } := by
  by_cases hlen : d.length = headSize
  · left
    refine ⟨hlen, ?_⟩
    rw [Endpoint.connRead, Endpoint.onread, if_pos hlen]
  · right
    refine ⟨hlen, ?_⟩
    obtain ⟨v, rfl | rfl⟩ := hd.resolve_left hlen
    · rw [Endpoint.connRead, windowCtrlSet, Endpoint.onread_control (by decide), Endpoint.onControl,
        if_pos ⟨rfl, rfl⟩]
      split
      · split
        · exact ⟨apt.recvWindow, apt.windowSent, rfl⟩
        · split
          · exact ⟨_, apt.windowSent, rfl⟩
          · exact ⟨apt.recvWindow, apt.windowSent, rfl⟩
      · exact ⟨apt.recvWindow, apt.windowSent, rfl⟩
    · rw [Endpoint.connRead, windowCtrlReq, Endpoint.onread_control (by decide), Endpoint.onControl,
        if_neg (by simp), if_pos ⟨rfl, rfl⟩]
      exact ⟨apt.recvWindow, false, rfl⟩

theorem SenderInv.onack (h : SenderInv cfg first allow ctrl payloads apt) (buf : List UInt8) :
    SenderInv cfg first allow ctrl payloads (apt.onack buf) := by
  unfold Endpoint.onack
  split
  · exact h
  · rename_i ref href
    split
    · exact h.markSendCompleted buf
    · have hmark := h.markSendCompleted buf
      have hmaps : ∀ r, ∀ e ∈ Function.update apt.maps ref
          ((apt.maps ref).filter fun e => e.1 ≠ buf) r, Known cfg first allow payloads e.2 := by
        intro r e he
        simp only [Function.update_apply] at he
        split at he
        · exact h.maps ref e (List.mem_filter.mp he).1
        · exact h.maps r e he
      simp only
      split
      · exact ⟨hmark.index, hmark.small, hmark.chain, hmaps, hmark.wire⟩
      · exact ⟨hmark.index, hmark.small, hmark.chain, hmaps, hmark.wire⟩

theorem SenderInv.connRead (h : SenderInv cfg first allow ctrl payloads apt) {d : List UInt8}
    (hd : FromReceiver d) : SenderInv cfg first allow ctrl payloads (apt.connRead cfg d) := by
  rcases connRead_cases hd with ⟨-, heq⟩ | ⟨-, window, sent, heq⟩
  · rw [heq]
    apply SenderInv.onack
    exact ⟨h.index, h.small, h.chain, h.maps, h.wire⟩
  · rw [heq]
    exact ⟨h.index, h.small, h.chain, h.maps, h.wire⟩

end Sender

end LuaFan.ReliableUdp
