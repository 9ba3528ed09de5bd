/-
# Cutting a message and putting it together

`send` cuts a message into datagrams, and a receiver that waits for the message gathers
them in any order, some of them more than once.

* `message_reassembled`: heads and bodies are right, and the receiver reads exactly the
  message, once, **exactly if** the message is not empty;
* `empty_message_unread`: the datagram of an empty message is a head alone, which is an
  acknowledgement to the receiver.
-/
import LuaFan.ReliableUdp.Receiver

namespace LuaFan.ReliableUdp

/-! ## What is sent and how it arrives -/

/-- The datagrams of the packages that `send` adds to the chain. -/
def datagrams (cfg : Config) (tx : Endpoint) (buf : List UInt8) : List (List UInt8) :=
  ((tx.send cfg buf).outputChain.drop tx.outputChain.length).map Package.datagram

/-- A receiver is handed one datagram after the other. -/
def handAll (cfg : Config) (rx : Endpoint) (ds : List (List UInt8)) : Endpoint :=
  ds.foldl (fun rx d => (rx.onread cfg d).1) rx

/-- All of them, in any order and some more than once, and the last one not before. -/
def Completes (all ds : List (List UInt8)) : Prop :=
  ∃ before last, ds = before ++ [last] ∧ last ∉ before ∧ ∀ d, d ∈ ds ↔ d ∈ all

/-- A receive window is taken from a peer, or slid, only below the limit. -/
def Windowed (rx : Endpoint) : Prop := ∀ w, rx.recvWindow = some w → w < maxOutputIndex

/-- The datagrams say which part of how many they carry, in 16 bits each; the parts are the
message; and a receiver that waits for it, and has none of it, reads it exactly once. -/
structure Reassembled (cfg : Config) (tx : Endpoint) (buf : List UInt8) : Prop where
  heads : ∀ i d, (datagrams cfg tx buf)[i]? = some d →
    unpackHead (d.take headSize) = ⟨tx.outputIndex, (datagrams cfg tx buf).length, i + 1⟩
  fits : (datagrams cfg tx buf).length < 2 ^ 16
  bodies : (datagrams cfg tx buf).flatMap (fun d => d.drop headSize) = buf
  read : ∀ rx ds, Windowed rx → rx.recvWindow = some tx.outputIndex →
    rx.incomingMap tx.outputIndex = none → Completes (datagrams cfg tx buf) ds →
      (handAll cfg rx ds).readLog = rx.readLog ++ [(tx.outputIndex, buf)]

section Datagrams

variable {cfg : Config} {tx : Endpoint} {outputIndex : ℕ} {buf : List UInt8}

theorem send_outputChain (hmax : buf.length ≤ cfg.maxPayloadSize) :
    (tx.send cfg buf).outputChain = tx.outputChain ++ messagePackages cfg tx.outputIndex buf := by
  rw [Endpoint.send, if_neg (Nat.not_lt.mpr hmax), Endpoint.queueAll_eq]
  intro p hp
  obtain ⟨i, hi⟩ := List.mem_iff_getElem?.mp hp
  exact (getElem?_messagePackages hi).2.2

theorem datagrams_eq (hmax : buf.length ≤ cfg.maxPayloadSize) :
    datagrams cfg tx buf = (messagePackages cfg tx.outputIndex buf).map Package.datagram := by
  rw [datagrams, send_outputChain hmax, List.drop_left]

theorem unpackHead_package (hindex : outputIndex ≤ maxOutputIndex) (hmax : buf.length ≤ cfg.maxPayloadSize)
    {i : ℕ} {p : Package} (hp : (messagePackages cfg outputIndex buf)[i]? = some p) :
    unpackHead p.head = ⟨outputIndex, (messagePackages cfg outputIndex buf).length, i + 1⟩ := by
  have hle : (messagePackages cfg outputIndex buf).length ≤ 65535 := (length_messagePackages hmax).2
  have hlarge : maxOutputIndex < 2 ^ 32 := by decide
  obtain ⟨hlt, -⟩ := List.getElem?_eq_some_iff.mp hp
  rw [(getElem?_messagePackages hp).1]
  exact unpackHead_packHead (by omega) (by omega) (by omega)

theorem length_head {i : ℕ} {p : Package} (hp : (messagePackages cfg outputIndex buf)[i]? = some p) :
    p.head.length = headSize := by
  rw [(getElem?_messagePackages hp).1, length_packHead]

/-- No part of a message that is not empty is empty. -/
theorem bytes_ne_nil (hmax : buf.length ≤ cfg.maxPayloadSize) (hbuf : buf ≠ []) {p : Package}
    (hp : p ∈ messagePackages cfg outputIndex buf) : p.body.bytes ≠ [] := by
  unfold messagePackages at hp
  split at hp
  case isTrue hlen =>
    have hpos := bodySize_pos hmax hlen
    obtain ⟨hlt, -⟩ := indexCount_mul_lt hlen hpos
    obtain ⟨i, hi, rfl⟩ := List.mem_map.mp hp
    rw [List.mem_range] at hi
    have hstart : i * cfg.bodySize < buf.length :=
      lt_of_le_of_lt (Nat.mul_le_mul_right _ (Nat.le_of_lt_succ hi)) hlt
    apply List.ne_nil_of_length_pos
    rw [Body.bytes, List.length_take, List.length_drop]
    omega
  case isFalse =>
    rw [List.mem_singleton.mp hp]
    exact hbuf

/-- Packages with the same datagram are one. -/
theorem datagram_inj (hindex : outputIndex ≤ maxOutputIndex) (hmax : buf.length ≤ cfg.maxPayloadSize)
    {i j : ℕ} {p q : Package} (hp : (messagePackages cfg outputIndex buf)[i]? = some p)
    (hq : (messagePackages cfg outputIndex buf)[j]? = some q) (h : p.datagram = q.datagram) : i = j := by
  have hhead : p.head = q.head :=
    (List.append_inj h ((length_head hp).trans (length_head hq).symm)).1
  have hunpack := unpackHead_package hindex hmax hp
  rw [hhead, unpackHead_package hindex hmax hq] at hunpack
  injection hunpack with _ _ hplace
  omega

end Datagrams

/-! ## Gathering -/

/-- A receiver that has got some of the datagrams of a message holds the parts they carry,
still waits for the message and has read nothing new. -/
structure Gathers (cfg : Config) (outputIndex : ℕ) (buf : List UInt8) (rx₀ rx : Endpoint)
    (got : List (List UInt8)) (items : ℕ → Option (List UInt8)) : Prop where
  window : rx.recvWindow = some outputIndex
  log : rx.readLog = rx₀.readLog
  object : (rx.incomingMap outputIndex).getD
      ⟨fun _ => none, (messagePackages cfg outputIndex buf).length, false⟩ =
    ⟨items, (messagePackages cfg outputIndex buf).length, false⟩
  items : ∀ t b, items t = some b ↔ ∃ i p, t = i + 1 ∧
    (messagePackages cfg outputIndex buf)[i]? = some p ∧ b = p.body.bytes ∧ p.datagram ∈ got

section Gathering

variable {cfg : Config} {outputIndex : ℕ} {buf : List UInt8} {rx₀ rx : Endpoint}
  {got : List (List UInt8)} {items : ℕ → Option (List UInt8)}

theorem gathers_nil (hwindow : rx.recvWindow = some outputIndex)
    (hnone : rx.incomingMap outputIndex = none) :
    Gathers cfg outputIndex buf rx rx [] (fun _ => none) where
  window := hwindow
  log := rfl
  object := by rw [hnone]; rfl
  items := by simp

/-- One more datagram, one more part. -/
theorem Gathers.update (h : Gathers cfg outputIndex buf rx₀ rx got items)
    (hindex : outputIndex < maxOutputIndex) (hmax : buf.length ≤ cfg.maxPayloadSize) {i : ℕ} {p : Package}
    (hp : (messagePackages cfg outputIndex buf)[i]? = some p) (t : ℕ) (b : List UInt8) :
    Function.update items (i + 1) (some p.body.bytes) t = some b ↔ ∃ j q, t = j + 1 ∧
      (messagePackages cfg outputIndex buf)[j]? = some q ∧ b = q.body.bytes ∧
        q.datagram ∈ got ++ [p.datagram] := by
  by_cases ht : t = i + 1
  · subst ht
    rw [Function.update_self]
    constructor
    · rintro hb
      exact ⟨i, p, rfl, hp, (Option.some.inj hb).symm, by simp⟩
    · rintro ⟨j, q, hj, hq, rfl, -⟩
      obtain rfl : i = j := by omega
      rw [Option.some.inj (hp.symm.trans hq)]
  · rw [Function.update_of_ne ht, h.items]
    refine exists_congr fun j => exists_congr fun q => ?_
    constructor
    · rintro ⟨rfl, hq, rfl, hmem⟩
      exact ⟨rfl, hq, rfl, List.mem_append_left _ hmem⟩
    · rintro ⟨rfl, hq, rfl, hmem⟩
      refine ⟨rfl, hq, rfl, ?_⟩
      rcases List.mem_append.mp hmem with hmem | hmem
      · exact hmem
      · rw [datagram_inj hindex.le hmax hq hp (List.mem_singleton.mp hmem)] at ht
        exact absurd rfl ht

/-- All parts are there when all datagrams were got. -/
theorem full_iff_got {items : ℕ → Option (List UInt8)}
    (hitems : ∀ t b, items t = some b ↔ ∃ i p, t = i + 1 ∧
      (messagePackages cfg outputIndex buf)[i]? = some p ∧ b = p.body.bytes ∧ p.datagram ∈ got) :
    Endpoint.full items (messagePackages cfg outputIndex buf).length = true ↔
      ∀ p ∈ messagePackages cfg outputIndex buf, p.datagram ∈ got := by
  rw [full_iff]
  constructor
  · intro h p hp
    obtain ⟨i, hi⟩ := List.mem_iff_getElem?.mp hp
    obtain ⟨hlt, -⟩ := List.getElem?_eq_some_iff.mp hi
    obtain ⟨b, hb⟩ := Option.isSome_iff_exists.mp (h i hlt)
    obtain ⟨j, q, hj, hq, -, hmem⟩ := (hitems _ _).mp hb
    obtain rfl : i = j := by omega
    rwa [Option.some.inj (hi.symm.trans hq)]
  · intro h i hlt
    have hi : (messagePackages cfg outputIndex buf)[i]? = some _ := List.getElem?_eq_getElem hlt
    exact Option.isSome_iff_exists.mpr
      ⟨_, (hitems _ _).mpr ⟨i, _, rfl, hi, rfl, h _ (List.mem_of_getElem? hi)⟩⟩

/-- A datagram of the message goes to its place. -/
theorem onread_stores (hwindow : rx.recvWindow = some outputIndex) (hindex : outputIndex < maxOutputIndex)
    (hmax : buf.length ≤ cfg.maxPayloadSize) (hbuf : buf ≠ []) {i : ℕ} {p : Package}
    (hp : (messagePackages cfg outputIndex buf)[i]? = some p) :
    ∃ chain, (rx.onread cfg p.datagram).1 =
      { rx.storePart outputIndex ⟨outputIndex, (messagePackages cfg outputIndex buf).length, i + 1⟩
          p.body.bytes with outputChain := chain } := by
  have hunpack := unpackHead_package hindex.le hmax hp
  have hbody := bytes_ne_nil hmax hbuf (List.mem_of_getElem? hp)
  have hctrl : outputIndex ≠ windowCtrl := by
    have hlt : maxOutputIndex < windowCtrl := by decide
    omega
  have hinside : packageOutside cfg outputIndex outputIndex = false := by
    simp [packageOutside, ahead]
  have htake : rx.takePackage cfg outputIndex
      ⟨outputIndex, (messagePackages cfg outputIndex buf).length, i + 1⟩ p.body.bytes =
        rx.storePart outputIndex ⟨outputIndex, (messagePackages cfg outputIndex buf).length, i + 1⟩
          p.body.bytes := by
    simp [Endpoint.takePackage, hinside]
  rw [Package.datagram, Endpoint.onread_append (length_head hp) hbody, hunpack, if_neg hctrl,
    if_pos hindex, hwindow]
  dsimp only
  rcases onPackage_cases rx outputIndex p.head p.body.bytes with ⟨-, heq⟩ | heq
  · rw [heq, hunpack, htake]
    exact ⟨_, rfl⟩
  · rw [heq, hunpack, htake]
    exact ⟨_, rfl⟩

/-- **The last datagram completes the message, and the others are gathered.** -/
theorem Gathers.onread (h : Gathers cfg outputIndex buf rx₀ rx got items)
    (hindex : outputIndex < maxOutputIndex) (hmax : buf.length ≤ cfg.maxPayloadSize) (hbuf : buf ≠ [])
    {p : Package} (hp : p ∈ messagePackages cfg outputIndex buf) :
    if ∀ q ∈ messagePackages cfg outputIndex buf, q.datagram ∈ got ++ [p.datagram] then
      (rx.onread cfg p.datagram).1.readLog = rx₀.readLog ++ [(outputIndex, buf)]
    else ∃ items', Gathers cfg outputIndex buf rx₀ (rx.onread cfg p.datagram).1 (got ++ [p.datagram])
      items' := by
  obtain ⟨i, hi⟩ := List.mem_iff_getElem?.mp hp
  obtain ⟨chain, heq⟩ := onread_stores h.window hindex hmax hbuf hi
  have hitems := h.update hindex hmax hi
  have hfull := full_iff_got hitems
  rw [heq, Endpoint.storePart, h.object]
  simp only [Bool.false_eq_true, if_false]
  by_cases hall : ∀ q ∈ messagePackages cfg outputIndex buf, q.datagram ∈ got ++ [p.datagram]
  · rw [if_pos hall, if_pos (hfull.mpr hall)]
    have hconcat := tableConcat_of_parts hmax (fun t b hb => by
      obtain ⟨j, q, ht, hq, hb, -⟩ := (hitems t b).mp hb
      exact ⟨j, q, ht, hq, hb⟩) (hfull.mpr hall)
    simp only [hconcat, h.log]
  · rw [if_neg hall, if_neg (fun hf => hall (hfull.mp hf))]
    refine ⟨_, h.window, h.log, ?_, hitems⟩
    simp only [Function.update_self, Option.getD_some]

/-- Before the last datagram the message is gathered. -/
theorem gathers_before (hindex : outputIndex < maxOutputIndex) (hmax : buf.length ≤ cfg.maxPayloadSize)
    (hbuf : buf ≠ []) (hwindow : rx.recvWindow = some outputIndex)
    (hnone : rx.incomingMap outputIndex = none) {last : Package}
    (hlast : last ∈ messagePackages cfg outputIndex buf) (before : List (List UInt8))
    (hmem : ∀ d ∈ before, ∃ p ∈ messagePackages cfg outputIndex buf, d = p.datagram)
    (hnot : last.datagram ∉ before) :
    ∃ items, Gathers cfg outputIndex buf rx (handAll cfg rx before) before items := by
  induction before using List.reverseRecOn with
  | nil => exact ⟨_, gathers_nil hwindow hnone⟩
  | append_singleton before d ih =>
      rw [List.mem_append, not_or] at hnot
      obtain ⟨items, h⟩ := ih (fun d hd => hmem d (List.mem_append_left _ hd)) hnot.1
      obtain ⟨p, hp, rfl⟩ := hmem d (by simp)
      have hstep := h.onread hindex hmax hbuf hp
      rw [if_neg (fun hall => by simpa [hnot] using hall last hlast)] at hstep
      rw [handAll, List.foldl_append]
      exact hstep

end Gathering

section Reassembly

variable {cfg : Config} {tx : Endpoint} {buf : List UInt8}

theorem datagrams_bodies (hmax : buf.length ≤ cfg.maxPayloadSize) :
    (datagrams cfg tx buf).flatMap (fun d => d.drop headSize) = buf := by
  rw [datagrams_eq hmax, List.flatMap_map, List.flatMap_congr, flatMap_bytes hmax]
  intro p hp
  obtain ⟨i, hi⟩ := List.mem_iff_getElem?.mp hp
  rw [Package.datagram, List.drop_append_of_le_length (length_head hi).ge, List.drop_of_length_le
    (length_head hi).le, List.nil_append]

/-- A receiver that waits for a message reads it. -/
theorem read_message (hmax : buf.length ≤ cfg.maxPayloadSize) (hbuf : buf ≠ []) {rx : Endpoint}
    {ds : List (List UInt8)} (hindex : tx.outputIndex < maxOutputIndex)
    (hwindow : rx.recvWindow = some tx.outputIndex) (hnone : rx.incomingMap tx.outputIndex = none)
    (hds : Completes (datagrams cfg tx buf) ds) :
    (handAll cfg rx ds).readLog = rx.readLog ++ [(tx.outputIndex, buf)] := by
  obtain ⟨before, d, rfl, hnot, hall⟩ := hds
  rw [datagrams_eq hmax] at hall
  have hmem : ∀ d' ∈ before ++ [d], ∃ p ∈ messagePackages cfg tx.outputIndex buf, d' = p.datagram := by
    intro d' hd'
    obtain ⟨p, hp, heq⟩ := List.mem_map.mp ((hall d').mp hd')
    exact ⟨p, hp, heq.symm⟩
  obtain ⟨last, hlast, rfl⟩ := hmem d (by simp)
  obtain ⟨items, h⟩ := gathers_before hindex hmax hbuf hwindow hnone hlast before
    (fun d' hd' => hmem d' (List.mem_append_left _ hd')) hnot
  have hstep := h.onread hindex hmax hbuf hlast
  rw [if_pos (fun q hq => (hall _).mpr (List.mem_map_of_mem hq))] at hstep
  rw [handAll, List.foldl_append]
  exact hstep

end Reassembly

/-! ## The receive window -/

theorem nextWindow_lt {w : ℕ} (hw : w < maxOutputIndex) : nextWindow w < maxOutputIndex := by
  have hone : 1 < maxOutputIndex := by decide
  unfold nextWindow
  split <;> omega

section Windows

variable {cfg : Config} {rx : Endpoint}

theorem Windowed.applyRecvWindow (rx : Endpoint) {w : ℕ} (hw : w < maxOutputIndex) (outputIndex : ℕ) :
    Windowed (rx.applyRecvWindow w outputIndex) := by
  intro w' hw'
  obtain ⟨t, hplace, -⟩ := Serial.slide_spec nextWindow (insert outputIndex rx.recvWindowHoles).card
    (insert outputIndex rx.recvWindowHoles) w
  have hslid : nextWindow^[t] w < maxOutputIndex := by
    apply Function.Iterate.rec (· < maxOutputIndex) hw (fun _ => nextWindow_lt) t
  rw [← hplace] at hslid
  exact Option.some.inj hw' ▸ hslid

theorem recvWindow_onack (rx : Endpoint) (d : List UInt8) : (rx.onack d).recvWindow = rx.recvWindow := by
  have hmark : (rx.markSendCompleted d).recvWindow = rx.recvWindow := by
    unfold Endpoint.markSendCompleted
    split <;> rfl
  unfold Endpoint.onack
  split
  · rfl
  · split
    · exact hmark
    · dsimp only
      split <;> exact hmark

theorem Windowed.takePackage (h : Windowed rx) {w : ℕ} (hw : w < maxOutputIndex) (head : Head)
    (body : List UInt8) : Windowed (rx.takePackage cfg w head body) := by
  unfold Endpoint.takePackage
  split
  · exact h
  · split
    · exact Windowed.applyRecvWindow _ hw _
    · unfold Endpoint.storePart
      dsimp only
      split
      · exact h
      · split
        · exact Windowed.applyRecvWindow rx hw _
        · exact h

/-- What is read keeps the window below the limit. -/
theorem Windowed.onread (h : Windowed rx) (d : List UInt8) : Windowed (rx.onread cfg d).1 := by
  unfold Endpoint.onread
  split
  · intro w hw
    rw [recvWindow_onack] at hw
    exact h w hw
  · split
    · dsimp only
      split
      · unfold Endpoint.onControl
        split
        · split
          · split
            · exact h
            · split
              · rename_i hlt
                intro w hw
                exact Option.some.inj hw ▸ hlt
              · exact h
          · exact h
        · split <;> exact h
      · split
        · split
          · exact h
          · rename_i w hw
            rcases onPackage_cases rx w (d.take headSize) (d.drop headSize) with ⟨-, heq⟩ | heq
            · rw [heq]
              exact h.takePackage (h w hw) _ _
            · rw [heq]
              exact h.takePackage (h w hw) _ _
        · exact h
    · exact h

end Windows

/-! ## Reading the message -/

/-- A receiver that waits for message `outputIndex`, with nothing else. -/
def waiting (cfg : Config) (outputIndex : ℕ) : Endpoint :=
  { initConn cfg 1 with recvWindow := some outputIndex }

/-- The datagram of an empty message is its head, which is read as an acknowledgement. -/
theorem handAll_empty (cfg : Config) (tx : Endpoint) :
    (handAll cfg (waiting cfg tx.outputIndex) (datagrams cfg tx [])).readLog = [] ∧
      Completes (datagrams cfg tx []) (datagrams cfg tx []) := by
  have hds : datagrams cfg tx [] = [packHead tx.outputIndex 1 1] := by
    rw [datagrams_eq (Nat.zero_le _)]
    simp [messagePackages, Package.datagram, Body.bytes]
  rw [hds]
  constructor
  · rw [handAll, List.foldl_cons, Endpoint.onread, if_pos (length_packHead _ _ _)]
    rfl
  · exact ⟨[], packHead tx.outputIndex 1 1, rfl, by simp, fun _ => Iff.rfl⟩

/-- **A message is cut and put together again**, exactly if it is not empty.  No receiver
waits for index `maxOutputIndex`, which a sender may only begin with. -/
theorem message_reassembled {cfg : Config} {tx : Endpoint} {buf : List UInt8}
    (hindex : tx.outputIndex ≤ maxOutputIndex) (hmax : buf.length ≤ cfg.maxPayloadSize) :
    Reassembled cfg tx buf ↔ ¬(buf = [] ∧ tx.outputIndex < maxOutputIndex) := by
  constructor
  · rintro h ⟨rfl, hlt⟩
    obtain ⟨hlog, hds⟩ := handAll_empty cfg tx
    have hread := h.read (waiting cfg tx.outputIndex) _
      (fun w hw => Option.some.inj hw ▸ hlt) rfl rfl hds
    rw [hlog] at hread
    cases hread
  · intro hnot
    have hlen : (datagrams cfg tx buf).length = (messagePackages cfg tx.outputIndex buf).length := by
      rw [datagrams_eq hmax, List.length_map]
    have hle : (messagePackages cfg tx.outputIndex buf).length ≤ 65535 :=
      (length_messagePackages hmax).2
    refine ⟨?heads, ?fits, datagrams_bodies hmax, ?read⟩
    case heads =>
      intro i d hd
      rw [datagrams_eq hmax, List.getElem?_map] at hd
      obtain ⟨p, hp, rfl⟩ := Option.map_eq_some_iff.mp hd
      rw [hlen, Package.datagram, List.take_left' (length_head hp), unpackHead_package hindex hmax hp]
    case fits => omega
    case read =>
      intro rx ds hwindowed hwindow hnone hds
      have hlt := hwindowed _ hwindow
      exact read_message hmax (fun hbuf => hnot ⟨hbuf, hlt⟩) hlt hwindow hnone hds

/-- A message in three parts. -/
theorem message_reassembled_parts :
    Reassembled ⟨2, 10, 10, 1, false⟩ (initConn ⟨2, 10, 10, 1, false⟩ 7) [1, 2, 3, 4, 5, 6] :=
  (message_reassembled (by decide) (by decide)).mpr (by decide)

/-- A receiver that waits for an empty message does not read it. -/
theorem empty_message_unread :
    ¬Reassembled .unset (initConn .unset 7) [] := by
  intro h
  have hread := h.read (waiting .unset 7) _ (fun w hw => Option.some.inj hw ▸ by decide) rfl rfl
    (handAll_empty .unset (initConn .unset 7)).2
  rw [show (handAll .unset (waiting .unset 7) (datagrams .unset (initConn .unset 7) [])).readLog = []
    from (handAll_empty .unset (initConn .unset 7)).1] at hread
  cases hread

end LuaFan.ReliableUdp
