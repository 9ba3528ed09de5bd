/-
# Flow-control accounting

A package that has been sent and is not acknowledged waits for an acknowledgement, and
`_output_wait_count` counts these; while it is too high nothing more is popped.  Every
package that is still of interest is either in the chain or waits: **as long as no index
is used twice, no operation loses a package, queues it twice or miscounts**
(`flow_accounting`).

The delicate operation is `_check_timeout`, which gives up a message in the middle of
its loop and queues the package that cancels it only afterwards.  `Flow` therefore
carries the indices for which such a package is still to be queued.
-/
import LuaFan.ReliableUdp.Solo

namespace LuaFan.ReliableUdp

open Machine

/-! ## The accounting -/

/-- The heads of the data in the chain. -/
def Endpoint.heads (apt : Endpoint) : List (List UInt8) := apt.data.map Package.head

/-- **The books are in order**: the counter is right, what waits for an acknowledgement
is of interest, and what is of interest is in the chain once or waits, not both. -/
structure Accounted (apt : Endpoint) : Prop where
  count : apt.outputWaitCount = apt.outputWaitAck.card
  waits : ∀ h ∈ apt.outputWaitAck, (apt.outputPackagePartsMap h).isSome
  placed : ∀ h, (apt.outputPackagePartsMap h).isSome →
    (apt.heads.count h = 1 ∧ h ∉ apt.outputWaitAck) ∨
      (apt.heads.count h = 0 ∧ h ∈ apt.outputWaitAck)

/-- The head of the package that cancels a message. -/
def cancelHead (i : ℕ) : List UInt8 := packHead i 0 0

/-- A package of a message with one of the indices. -/
structure PackageOf (used : List ℕ) (p : Package) : Prop where
  index : p.outputIndex ∈ used
  head : ∃ c j, c < 2 ^ 16 ∧ j < 2 ^ 16 ∧ p.head = packHead p.outputIndex c j

/-- A head that is neither queued nor of interest. -/
structure Fresh (apt : Endpoint) (h : List UInt8) : Prop where
  queued : h ∉ apt.heads
  known : apt.outputPackagePartsMap h = none

/-- The accounting and what it rests on: `used` are the indices of the messages so far,
and `pending` those of messages given up whose cancel package is not queued yet. -/
structure Flow (used pending : List ℕ) (apt : Endpoint) : Prop where
  bounded : ∀ i ∈ used, i ≤ maxOutputIndex
  count : apt.outputWaitCount = apt.outputWaitAck.card
  waits : ∀ h ∈ apt.outputWaitAck, (apt.outputPackagePartsMap h).isSome
  once : ∀ h, (apt.outputPackagePartsMap h).isSome →
    apt.heads.count h + (if h ∈ apt.outputWaitAck then 1 else 0) = 1
  chain : ∀ p ∈ apt.data, PackageOf used p
  held : ∀ h ref, apt.outputPackagePartsMap h = some ref →
    ref < apt.mapCount ∧ ∃ p, (apt.maps ref).lookup h = some p
  maps : ∀ r, ∀ e ∈ apt.maps r,
    r < apt.mapCount ∧ e.2.head = e.1 ∧ e.2.ack = false ∧ PackageOf used e.2
  apart : ∀ r r', ∀ e ∈ apt.maps r, ∀ e' ∈ apt.maps r', e.2.ignoreTimeoutCheck = false →
    e'.2.ignoreTimeoutCheck = false → e.2.outputIndex = e'.2.outputIndex → r = r'
  cancels : ∀ r, ∀ e ∈ apt.maps r, e.2.ignoreTimeoutCheck = false → e.2.completed = false →
    e.2.outputIndex ∉ pending ∧ Fresh apt (cancelHead e.2.outputIndex)
  distinct : pending.Nodup
  queueable : ∀ i ∈ pending, i ∈ used ∧ Fresh apt (cancelHead i)

theorem Flow.accounted {used pending : List ℕ} {apt : Endpoint} (h : Flow used pending apt) :
    Accounted apt := by
  refine ⟨h.count, h.waits, ?_⟩
  intro head hhead
  have honce := h.once head hhead
  split at honce
  · rename_i hwait
    exact Or.inr ⟨by omega, hwait⟩
  · rename_i hwait
    exact Or.inl ⟨by omega, hwait⟩

/-! ## Heads -/

section Heads

variable {i i' c c' j j' : ℕ}

theorem packHead_inj (hi : i < 2 ^ 32) (hi' : i' < 2 ^ 32) (hc : c < 2 ^ 16) (hc' : c' < 2 ^ 16)
    (hj : j < 2 ^ 16) (hj' : j' < 2 ^ 16) (h : packHead i c j = packHead i' c' j') :
    i = i' ∧ c = c' ∧ j = j' := by
  have hread := congrArg unpackHead h
  rw [unpackHead_packHead hi hc hj, unpackHead_packHead hi' hc' hj'] at hread
  simpa using hread

theorem lt_of_le_maxOutputIndex (h : i ≤ maxOutputIndex) : i < 2 ^ 32 :=
  h.trans_lt (by decide)

theorem cancelHead_inj (hi : i ≤ maxOutputIndex) (hi' : i' ≤ maxOutputIndex)
    (h : cancelHead i = cancelHead i') : i = i' :=
  (packHead_inj (lt_of_le_maxOutputIndex hi) (lt_of_le_maxOutputIndex hi') (by decide) (by decide)
    (by decide) (by decide) h).1

variable {used : List ℕ} {p : Package}

theorem PackageOf.mono (h : PackageOf used p) (k : ℕ) : PackageOf (used ++ [k]) p :=
  ⟨List.mem_append_left _ h.index, h.head⟩

/-- The head tells the index. -/
theorem PackageOf.index_of_head (h : PackageOf used p) (hbound : ∀ i ∈ used, i ≤ maxOutputIndex)
    (hi : i ≤ maxOutputIndex) (hc : c < 2 ^ 16) (hj : j < 2 ^ 16) (heq : p.head = packHead i c j) :
    i ∈ used := by
  obtain ⟨c', j', hc', hj', hhead⟩ := h.head
  rw [hhead] at heq
  obtain ⟨hindex, -, -⟩ := packHead_inj (lt_of_le_maxOutputIndex (hbound _ h.index))
    (lt_of_le_maxOutputIndex hi) hc' hc hj' hj heq
  exact hindex ▸ h.index

theorem packageOf_cancel (h : i ∈ used) : PackageOf used (cancelPackage i) :=
  ⟨h, 0, 0, by decide, by decide, rfl⟩

variable {cfg : Config} {buf : List UInt8}

/-- The packages of a message, and their heads. -/
theorem mem_messagePackages (hmax : buf.length ≤ cfg.maxPayloadSize)
    (hp : p ∈ messagePackages cfg i buf) :
    ∃ t, t < 65535 ∧ (messagePackages cfg i buf)[t]? = some p ∧ p.outputIndex = i ∧ p.ack = false ∧
      p.head = packHead i (messagePackages cfg i buf).length (t + 1) := by
  obtain ⟨t, ht⟩ := List.mem_iff_getElem?.mp hp
  obtain ⟨hhead, hindex, hack⟩ := getElem?_messagePackages ht
  obtain ⟨hlt, -⟩ := List.getElem?_eq_some_iff.mp ht
  exact ⟨t, hlt.trans_le (length_messagePackages hmax).2, ht, hindex, hack, hhead⟩

theorem nodup_heads_messagePackages (hmax : buf.length ≤ cfg.maxPayloadSize)
    (hi : i ≤ maxOutputIndex) : ((messagePackages cfg i buf).map Package.head).Nodup := by
  have hlen : (messagePackages cfg i buf).length ≤ 65535 := (length_messagePackages hmax).2
  have hi' := lt_of_le_maxOutputIndex hi
  rw [List.nodup_iff_injective_getElem]
  rintro ⟨a, ha⟩ ⟨b, hb⟩ heq
  simp only [List.getElem_map] at heq
  rw [List.length_map] at ha hb
  have hheada := (getElem?_messagePackages (List.getElem?_eq_getElem ha)).1
  have hheadb := (getElem?_messagePackages (List.getElem?_eq_getElem hb)).1
  rw [hheada, hheadb] at heq
  have hab := (packHead_inj hi' hi' (by omega) (by omega) (by omega) (by omega) heq).2.2
  exact Fin.ext (by simpa using hab)

end Heads

/-! ## Queueing -/

section Queue

variable {used pending : List ℕ} {apt : Endpoint}

theorem data_queueAll {ps : List Package} (hack : ∀ p ∈ ps, p.ack = false) :
    (apt.queueAll ps).data = apt.data ++ ps := by
  rw [Endpoint.queueAll_eq apt hack, Endpoint.data, Endpoint.data, List.filter_append]
  congr 1
  exact List.filter_eq_self.mpr fun p hp => by simp [hack p hp]

/-- What is in a map can be looked up. -/
theorem lookup_map_head {ps : List Package} {h : List UInt8} (hmem : h ∈ ps.map Package.head) :
    ∃ p, (ps.map fun p => (p.head, p)).lookup h = some p := by
  induction ps with
  | nil => simp at hmem
  | cons q ps ih =>
      by_cases hq : h = q.head
      · exact ⟨q, by simp [hq]⟩
      · obtain ⟨p, hp⟩ := ih (by simpa [hq] using hmem)
        have hne : (h == q.head) = false := by simpa using hq
        exact ⟨p, by rw [List.map_cons, List.lookup_cons, hne]; exact hp⟩

/-- **Queueing fresh packages keeps the books.** -/
theorem Flow.queueAll (hf : Flow used pending apt) {ps : List Package}
    (hps : ∀ p ∈ ps, p.ack = false ∧ PackageOf used p) (hnodup : (ps.map Package.head).Nodup)
    (hfresh : ∀ p ∈ ps, Fresh apt p.head)
    (hmessage : ∀ p ∈ ps, p.ignoreTimeoutCheck = false →
      (∀ r, ∀ e ∈ apt.maps r, e.2.outputIndex ≠ p.outputIndex) ∧ p.outputIndex ∉ pending ∧
        Fresh apt (cancelHead p.outputIndex) ∧ cancelHead p.outputIndex ∉ ps.map Package.head)
    (hcancels : ∀ r, ∀ e ∈ apt.maps r, e.2.ignoreTimeoutCheck = false → e.2.completed = false →
      cancelHead e.2.outputIndex ∉ ps.map Package.head)
    (hpending : ∀ i ∈ pending, cancelHead i ∉ ps.map Package.head) :
    Flow used pending (apt.queueAll ps) := by
  have hack : ∀ p ∈ ps, p.ack = false := fun p hp => (hps p hp).1
  have hdata : (apt.queueAll ps).data = apt.data ++ ps := data_queueAll hack
  have hheads : (apt.queueAll ps).heads = apt.heads ++ ps.map Package.head := by
    rw [Endpoint.heads, hdata, List.map_append, Endpoint.heads]
  have hfresh' : ∀ h ∈ ps.map Package.head, Fresh apt h := by
    intro h hh
    obtain ⟨p, hp, rfl⟩ := List.mem_map.mp hh
    exact hfresh p hp
  have heq := Endpoint.queueAll_eq apt hack
  have hnew : ∀ {h}, Fresh apt h → h ∉ ps.map Package.head → Fresh (apt.queueAll ps) h := by
    intro h hh hnot
    refine ⟨?_, ?_⟩
    · rw [hheads, List.mem_append]
      exact fun hmem => hmem.elim hh.queued hnot
    · rw [heq]
      simp only [hnot, if_false]
      exact hh.known
  -- the maps before, and the new one
  have hmaps : ∀ {r e}, e ∈ (apt.queueAll ps).maps r →
      (e ∈ apt.maps r ∧ r < apt.mapCount) ∨ (r = apt.mapCount ∧ e.2 ∈ ps ∧ e.2.head = e.1) := by
    intro r e he
    rw [heq] at he
    simp only [Function.update_apply] at he
    split at he
    · rename_i hr
      obtain ⟨p, hp, rfl⟩ := List.mem_map.mp he
      exact Or.inr ⟨hr, hp, rfl⟩
    · exact Or.inl ⟨he, (hf.maps r e he).1⟩
  refine ⟨hf.bounded, ?_, ?_, ?_, ?_, ?_, ?_, ?_, ?_, hf.distinct, ?_⟩
  · rw [heq]
    exact hf.count
  · intro h hh
    rw [heq] at hh ⊢
    simp only
    split
    · rfl
    · exact hf.waits h hh
  · intro h hh
    rw [hheads, List.count_append]
    rw [heq] at hh ⊢
    simp only at hh ⊢
    by_cases hmem : h ∈ ps.map Package.head
    · have hwait : h ∉ apt.outputWaitAck := by
        intro hw
        have := hf.waits h hw
        rw [(hfresh' h hmem).known] at this
        cases this
      rw [if_neg hwait, List.count_eq_zero_of_not_mem (hfresh' h hmem).queued,
        List.count_eq_one_of_mem hnodup hmem]
    · rw [if_neg hmem] at hh
      rw [List.count_eq_zero_of_not_mem hmem, Nat.add_zero]
      exact hf.once h hh
  · intro p hp
    rw [hdata] at hp
    rcases List.mem_append.mp hp with hp | hp
    · exact hf.chain p hp
    · exact (hps p hp).2
  · intro h ref hh
    rw [heq] at hh ⊢
    simp only at hh ⊢
    by_cases hmem : h ∈ ps.map Package.head
    · rw [if_pos hmem] at hh
      cases hh
      refine ⟨Nat.lt_succ_self _, ?_⟩
      rw [Function.update_self]
      exact lookup_map_head hmem
    · rw [if_neg hmem] at hh
      obtain ⟨hlt, p, hp⟩ := hf.held h ref hh
      refine ⟨by omega, p, ?_⟩
      rw [Function.update_of_ne (by omega)]
      exact hp
  · intro r e he
    have hcount : (apt.queueAll ps).mapCount = apt.mapCount + 1 := by rw [heq]
    rw [hcount]
    rcases hmaps he with ⟨he, hlt⟩ | ⟨rfl, hp, hhead⟩
    · exact ⟨by omega, (hf.maps r e he).2⟩
    · exact ⟨Nat.lt_succ_self _, hhead, hps _ hp⟩
  · intro r r' e he e' he' hign hign' hindex
    rcases hmaps he with ⟨he, -⟩ | ⟨rfl, hp, -⟩
    · rcases hmaps he' with ⟨he', -⟩ | ⟨rfl, hp', -⟩
      · exact hf.apart r r' e he e' he' hign hign' hindex
      · exact absurd hindex ((hmessage _ hp' hign').1 r e he)
    · rcases hmaps he' with ⟨he', -⟩ | ⟨rfl, hp', -⟩
      · exact absurd hindex.symm ((hmessage _ hp hign).1 r' e' he')
      · rfl
  · intro r e he hign hopen
    rcases hmaps he with ⟨he, -⟩ | ⟨rfl, hp, -⟩
    · obtain ⟨hnot, hfr⟩ := hf.cancels r e he hign hopen
      exact ⟨hnot, hnew hfr (hcancels r e he hign hopen)⟩
    · obtain ⟨-, hnot, hfr, hself⟩ := hmessage _ hp hign
      exact ⟨hnot, hnew hfr hself⟩
  · intro i hi
    obtain ⟨hmem, hfr⟩ := hf.queueable i hi
    exact ⟨hmem, hnew hfr (hpending i hi)⟩

end Queue

/-! ## The operations -/

section Operations

variable {cfg : Config} {used pending : List ℕ} {apt apt' : Endpoint}

/-- Flow control does not depend on the other fields. -/
theorem Flow.of_same (hf : Flow used pending apt) (hsame : SameBooks apt apt') :
    Flow used pending apt' := by
  have hheads : apt'.heads = apt.heads := by rw [Endpoint.heads, hsame.data, Endpoint.heads]
  have hfresh : ∀ {h}, Fresh apt h → Fresh apt' h := by
    intro h hh
    exact ⟨hheads ▸ hh.queued, by rw [hsame.partsMap, hh.known]⟩
  refine ⟨hf.bounded, ?_, ?_, ?_, ?_, ?_, ?_, ?_, ?_, hf.distinct, ?_⟩
  · rw [hsame.waitCount, hsame.waitAck, hf.count]
  · rw [hsame.waitAck, hsame.partsMap]
    exact hf.waits
  · rw [hsame.waitAck, hsame.partsMap, hheads]
    exact hf.once
  · rw [hsame.data]
    exact hf.chain
  · rw [hsame.partsMap, hsame.mapCount, hsame.maps]
    exact hf.held
  · rw [hsame.mapCount, hsame.maps]
    exact hf.maps
  · rw [hsame.maps]
    exact hf.apart
  · rw [hsame.maps]
    intro r e he hign hopen
    obtain ⟨hnot, hfr⟩ := hf.cancels r e he hign hopen
    exact ⟨hnot, hfresh hfr⟩
  · intro i hi
    obtain ⟨hmem, hfr⟩ := hf.queueable i hi
    exact ⟨hmem, hfresh hfr⟩

/-- A new index changes nothing yet. -/
theorem Flow.extend (hf : Flow used pending apt) {i : ℕ} (hi : i ≤ maxOutputIndex) :
    Flow (used ++ [i]) pending apt := by
  refine ⟨?_, hf.count, hf.waits, hf.once, fun p hp => (hf.chain p hp).mono i, hf.held, ?_, hf.apart,
    hf.cancels, hf.distinct, ?_⟩
  · intro k hk
    rcases List.mem_append.mp hk with hk | hk
    · exact hf.bounded k hk
    · rw [List.mem_singleton.mp hk]
      exact hi
  · intro r e he
    obtain ⟨hlt, hhead, hack, hof⟩ := hf.maps r e he
    exact ⟨hlt, hhead, hack, hof.mono i⟩
  · intro k hk
    obtain ⟨hmem, hfr⟩ := hf.queueable k hk
    exact ⟨List.mem_append_left _ hmem, hfr⟩

/-- Nothing has the head of an index that is not used. -/
theorem Flow.fresh (hf : Flow used pending apt) {i c j : ℕ} (hi : i ≤ maxOutputIndex)
    (hc : c < 2 ^ 16) (hj : j < 2 ^ 16) (hnew : i ∉ used) : Fresh apt (packHead i c j) := by
  refine ⟨?_, ?_⟩
  · intro hmem
    obtain ⟨p, hp, heq⟩ := List.mem_map.mp hmem
    exact hnew ((hf.chain p hp).index_of_head hf.bounded hi hc hj heq)
  · cases hparts : apt.outputPackagePartsMap (packHead i c j) with
    | none => rfl
    | some ref =>
        obtain ⟨-, p, hp⟩ := hf.held _ _ hparts
        obtain ⟨-, hhead, -, hof⟩ := hf.maps ref _ (mem_of_lookup hp)
        exact absurd (hof.index_of_head hf.bounded hi hc hj hhead) hnew

/-- **`send` with a new index.** -/
theorem Flow.send (hf : Flow used [] apt) {buf : List UInt8}
    (hmax : buf.length ≤ cfg.maxPayloadSize) (hi : apt.outputIndex ≤ maxOutputIndex)
    (hnew : apt.outputIndex ∉ used) :
    Flow (used ++ [apt.outputIndex]) [] (apt.send cfg buf) := by
  obtain ⟨hpos, hlen⟩ : 0 < (messagePackages cfg apt.outputIndex buf).length ∧
      (messagePackages cfg apt.outputIndex buf).length ≤ 65535 := length_messagePackages hmax
  have hsame : Flow used [] { apt with
      outputIndex := Serial.next maxOutputIndex apt.outputIndex } :=
    ⟨hf.bounded, hf.count, hf.waits, hf.once, hf.chain, hf.held, hf.maps, hf.apart,
      fun r e he hign hopen =>
        let ⟨hnot, hfr⟩ := hf.cancels r e he hign hopen
        ⟨hnot, hfr.queued, hfr.known⟩,
      hf.distinct, fun i hi => absurd hi (by simp)⟩
  have hcancel : ∀ {i}, i ≤ maxOutputIndex →
      cancelHead i ∉ (messagePackages cfg apt.outputIndex buf).map Package.head := by
    intro k hk hmem
    obtain ⟨p, hp, heq⟩ := List.mem_map.mp hmem
    obtain ⟨t, ht, -, -, -, hhead⟩ := mem_messagePackages hmax hp
    rw [hhead] at heq
    have := (packHead_inj (lt_of_le_maxOutputIndex hi) (lt_of_le_maxOutputIndex hk) (by omega)
      (by decide) (by omega) (by decide) heq).2.1
    omega
  rw [Endpoint.send, if_neg (by omega)]
  refine (hsame.extend hi).queueAll ?_ (nodup_heads_messagePackages hmax hi) ?_ ?_ ?_ (by simp)
  · intro p hp
    obtain ⟨t, ht, -, hindex, hack, hhead⟩ := mem_messagePackages hmax hp
    refine ⟨hack, by rw [hindex]; simp, _, _, ?_, ?_, by rw [hindex]; exact hhead⟩ <;> omega
  · intro p hp
    obtain ⟨t, ht, -, -, -, hhead⟩ := mem_messagePackages hmax hp
    rw [hhead]
    exact hsame.fresh hi (by omega) (by omega) hnew
  · intro p hp _
    obtain ⟨t, ht, -, hindex, -, -⟩ := mem_messagePackages hmax hp
    rw [hindex]
    refine ⟨?_, by simp, hsame.fresh hi (by decide) (by decide) hnew, hcancel hi⟩
    intro r e he heq
    exact hnew (heq ▸ (hf.maps r e he).2.2.2.index)
  · intro r e he _ _
    exact hcancel (hf.bounded _ (hf.maps r e he).2.2.2.index)

/-- Fewer packages in the chain: only the accounting itself has to be looked at. -/
theorem Flow.of_fewer (hf : Flow used pending apt)
    (hparts : apt'.outputPackagePartsMap = apt.outputPackagePartsMap) (hmaps : apt'.maps = apt.maps)
    (hmapCount : apt'.mapCount = apt.mapCount) (hdata : apt'.data ⊆ apt.data)
    (hcount : apt'.outputWaitCount = apt'.outputWaitAck.card)
    (hwaits : ∀ h ∈ apt'.outputWaitAck, (apt.outputPackagePartsMap h).isSome)
    (honce : ∀ h, (apt.outputPackagePartsMap h).isSome →
      apt'.heads.count h + (if h ∈ apt'.outputWaitAck then 1 else 0) = 1) :
    Flow used pending apt' := by
  have hfresh : ∀ {h}, Fresh apt h → Fresh apt' h := by
    intro h hh
    refine ⟨fun hmem => hh.queued ?_, by rw [hparts, hh.known]⟩
    exact List.map_subset Package.head hdata hmem
  refine ⟨hf.bounded, hcount, hparts ▸ hwaits, hparts ▸ honce, fun p hp => hf.chain p (hdata hp),
    ?_, ?_, ?_, ?_, hf.distinct, ?_⟩
  · rw [hparts, hmaps, hmapCount]
    exact hf.held
  · rw [hmaps, hmapCount]
    exact hf.maps
  · rw [hmaps]
    exact hf.apart
  · rw [hmaps]
    intro r e he hign hopen
    obtain ⟨hnot, hfr⟩ := hf.cancels r e he hign hopen
    exact ⟨hnot, hfresh hfr⟩
  · intro i hi
    obtain ⟨hmem, hfr⟩ := hf.queueable i hi
    exact ⟨hmem, hfresh hfr⟩

/-- **A package that is popped and transmitted.** -/
theorem Flow.sendReady (hf : Flow used pending apt) : Flow used pending (apt.sendReady cfg) := by
  unfold Endpoint.sendReady
  split
  · split
    · exact hf
    · rename_i p chain hpop
      unfold Endpoint.transmit
      rcases data_pop hpop with ⟨hack, hdata⟩ | ⟨hack, hperm⟩
      · rw [if_pos hack]
        exact hf.of_same ⟨hdata, rfl, rfl, rfl, rfl, rfl⟩
      · rw [if_neg (by simp [hack])]
        have hsub : (chain.filter fun q => !q.ack) ⊆ apt.data := fun q hq =>
          hperm.symm.subset (List.mem_cons_of_mem _ hq)
        have hcount : ∀ h, apt.heads.count h =
            ((chain.filter fun q => !q.ack).map Package.head).count h +
              (if h = p.head then 1 else 0) := by
          intro h
          rw [Endpoint.heads, (hperm.map Package.head).count_eq, List.map_cons, List.count_cons]
          simp only [beq_iff_eq, @eq_comm _ p.head h]
        split
        · rename_i hparts
          -- the package was in the chain, so it does not wait yet
          have honce := hf.once p.head hparts
          have hp := hcount p.head
          rw [if_pos rfl] at hp
          have hwait : p.head ∉ apt.outputWaitAck := by
            intro hw
            rw [if_pos hw] at honce
            omega
          rw [if_neg hwait] at honce
          refine hf.of_fewer rfl rfl rfl hsub ?_ ?_ ?_
          · simp only [if_neg hwait]
            rw [Finset.card_insert_of_notMem hwait, hf.count]
            push_cast
            rfl
          · intro h hh
            rcases Finset.mem_insert.mp hh with rfl | hh
            · exact hparts
            · exact hf.waits h hh
          · intro h hh
            have hbefore := hf.once h hh
            have hc := hcount h
            show ((chain.filter fun q => !q.ack).map Package.head).count h +
              (if h ∈ insert p.head apt.outputWaitAck then 1 else 0) = 1
            by_cases heq : h = p.head
            · rw [heq, if_pos (Finset.mem_insert_self _ _)]
              omega
            · rw [if_neg heq, Nat.add_zero] at hc
              simp only [Finset.mem_insert, heq, false_or]
              rw [← hc]
              exact hbefore
        · rename_i hparts
          refine hf.of_fewer rfl rfl rfl hsub hf.count hf.waits ?_
          intro h hh
          have hbefore := hf.once h hh
          have hne : h ≠ p.head := by
            rintro rfl
            exact hparts hh
          have hc := hcount h
          rw [if_neg hne, Nat.add_zero] at hc
          rw [hc] at hbefore
          exact hbefore
  · exact hf.of_same ⟨rfl, rfl, rfl, rfl, rfl, rfl⟩

/-- **A package that needs no acknowledgement any more.** -/
theorem Flow.markSendCompleted (hf : Flow used pending apt) (head : List UInt8) :
    Flow used pending (apt.markSendCompleted head) := by
  unfold Endpoint.markSendCompleted
  split
  · have hfresh : ∀ {h}, Fresh apt h →
        Function.update apt.outputPackagePartsMap head none h = none := by
      intro h hh
      rw [Function.update_apply, hh.known]
      exact ite_self none
    have hother : ∀ {h}, (Function.update apt.outputPackagePartsMap head none h).isSome →
        h ≠ head ∧ (apt.outputPackagePartsMap h).isSome := by
      intro h hh
      rw [Function.update_apply] at hh
      split at hh
      · cases hh
      · rename_i hne
        exact ⟨hne, hh⟩
    refine ⟨hf.bounded, ?_, ?_, ?_, hf.chain, ?_, hf.maps, hf.apart, ?_, hf.distinct, ?_⟩
    · simp only
      split
      · rename_i hwait
        have hpos : 0 < apt.outputWaitAck.card := Finset.card_pos.mpr ⟨head, hwait⟩
        rw [Finset.card_erase_of_mem hwait, hf.count]
        omega
      · rename_i hwait
        rw [Finset.erase_eq_of_notMem hwait, hf.count]
    · intro h hh
      obtain ⟨hne, hwait⟩ := Finset.mem_erase.mp hh
      simp only [Function.update_of_ne hne]
      exact hf.waits h hwait
    · intro h hh
      obtain ⟨hne, hh⟩ := hother hh
      simp only [Finset.mem_erase, hne, ne_eq, not_false_eq_true, true_and]
      exact hf.once h hh
    · intro h ref hh
      have hne := (hother (by simp only at hh; rw [hh]; rfl)).1
      simp only [Function.update_of_ne hne] at hh
      exact hf.held h ref hh
    · intro r e he hign hopen
      obtain ⟨hnot, hfr⟩ := hf.cancels r e he hign hopen
      exact ⟨hnot, hfr.queued, hfresh hfr⟩
    · intro i hi
      obtain ⟨hmem, hfr⟩ := hf.queueable i hi
      exact ⟨hmem, hfr.queued, hfresh hfr⟩
  · exact hf

/-- The maps change: every entry of the new ones comes from one of the old, with the same
head and index, and is no more open than that was. -/
theorem Flow.of_maps (hf : Flow used pending apt) (ref : ℕ) {map : PartsMap}
    (hmap : ∀ e ∈ map, ∃ e' ∈ apt.maps ref, e'.1 = e.1 ∧ e.2.content = e'.2.content ∧
      e.2.ignoreTimeoutCheck = e'.2.ignoreTimeoutCheck ∧
        (e.2.completed = false → e'.2.completed = false))
    (hlookup : ∀ h, apt.outputPackagePartsMap h = some ref → ∃ p, map.lookup h = some p) :
    Flow used pending { apt with maps := Function.update apt.maps ref map } := by
  have hentry : ∀ {r e}, e ∈ Function.update apt.maps ref map r → ∃ e' ∈ apt.maps r,
      e'.1 = e.1 ∧ e.2.content = e'.2.content ∧
        e.2.ignoreTimeoutCheck = e'.2.ignoreTimeoutCheck ∧
          (e.2.completed = false → e'.2.completed = false) := by
    intro r e he
    rw [Function.update_apply] at he
    split at he
    · rename_i hr
      rw [hr]
      exact hmap e he
    · exact ⟨e, he, rfl, rfl, rfl, id⟩
  have hindex : ∀ {p q : Package}, p.content = q.content → p.outputIndex = q.outputIndex :=
    fun h => congrArg (fun c => c.2.2.1) h
  refine ⟨hf.bounded, hf.count, hf.waits, hf.once, hf.chain, ?_, ?_, ?_, ?_, hf.distinct, ?_⟩
  · intro h r hh
    obtain ⟨hlt, hold⟩ := hf.held h r hh
    refine ⟨hlt, ?_⟩
    simp only [Function.update_apply]
    split
    · rename_i hr
      exact hlookup h (hr ▸ hh)
    · exact hold
  · intro r e he
    obtain ⟨e', he', hkey, hcontent, -, -⟩ := hentry he
    obtain ⟨hlt, hhead, hack, hof⟩ := hf.maps r e' he'
    have hsame : e.2.head = e'.2.head := congrArg (fun c => c.1) hcontent
    refine ⟨hlt, by rw [hsame, hhead, hkey], ?_, ?_⟩
    · exact (congrArg (fun c => c.2.2.2) hcontent).trans hack
    · exact ⟨hindex hcontent ▸ hof.index, by rw [hsame, hindex hcontent]; exact hof.head⟩
  · intro r r' e he e' he' hign hign' heq
    obtain ⟨d, hd, -, hcontent, hsame, -⟩ := hentry he
    obtain ⟨d', hd', -, hcontent', hsame', -⟩ := hentry he'
    rw [hindex hcontent, hindex hcontent'] at heq
    exact hf.apart r r' d hd d' hd' (hsame ▸ hign) (hsame' ▸ hign') heq
  · intro r e he hign hopen
    obtain ⟨d, hd, -, hcontent, hsame, hcompleted⟩ := hentry he
    obtain ⟨hnot, hfr⟩ := hf.cancels r d hd (hsame ▸ hign) (hcompleted hopen)
    rw [hindex hcontent]
    exact ⟨hnot, hfr.queued, hfr.known⟩
  · intro i hi
    obtain ⟨hmem, hfr⟩ := hf.queueable i hi
    exact ⟨hmem, hfr.queued, hfr.known⟩

theorem lookup_filter_ne {m : PartsMap} {h buf : List UInt8} (hne : h ≠ buf) :
    (m.filter fun e => e.1 ≠ buf).lookup h = m.lookup h := by
  induction m with
  | nil => rfl
  | cons e m ih =>
      obtain ⟨k, p⟩ := e
      by_cases hk : k = buf
      · have hne' : (h == k) = false := by simpa [hk] using hne
        rw [List.filter_cons_of_neg (by simpa using hk), List.lookup_cons, hne', ih]
      · rw [List.filter_cons_of_pos (by simpa using hk), List.lookup_cons, List.lookup_cons, ih]

theorem lookup_map_completed {m : PartsMap} {h : List UInt8} {p : Package}
    (hp : m.lookup h = some p) :
    ∃ q, (m.map fun e => (e.1, { e.2 with completed := true })).lookup h = some q := by
  induction m with
  | nil => cases hp
  | cons e m ih =>
      rw [List.lookup_cons] at hp
      rw [List.map_cons, List.lookup_cons]
      cases hkey : h == e.1 with
      | true => exact ⟨_, rfl⟩
      | false =>
          rw [hkey] at hp
          exact ih hp

theorem partsMap_markSendCompleted {head h : List UInt8} {ref : ℕ} :
    (apt.markSendCompleted head).outputPackagePartsMap h = some ref ↔
      h ≠ head ∧ apt.outputPackagePartsMap h = some ref := by
  unfold Endpoint.markSendCompleted
  split
  · simp only [Function.update_apply]
    by_cases hh : h = head
    · simp [hh]
    · simp [hh]
  · rename_i hnone
    refine ⟨fun hh => ⟨?_, hh⟩, fun hh => hh.2⟩
    rintro rfl
    rw [hh] at hnone
    exact hnone rfl

theorem maps_markSendCompleted (apt : Endpoint) (head : List UInt8) :
    (apt.markSendCompleted head).maps = apt.maps := by
  unfold Endpoint.markSendCompleted
  split <;> rfl

/-- **An acknowledgement, whatever its head.** -/
theorem Flow.onack (hf : Flow used pending apt) (buf : List UInt8) :
    Flow used pending (apt.onack buf) := by
  have hmark := hf.markSendCompleted buf
  rcases apt.onack_cases buf with ⟨-, heq, -⟩ | ⟨ref, href, ⟨-, heq, -⟩ | ⟨package, -, hlast⟩⟩
  · rw [heq]
    exact hf
  · rw [heq]
    exact hmark
  · have hwithout : Flow used pending (apt.without ref buf) := by
      rw [Endpoint.without, Endpoint.finish, ← maps_markSendCompleted apt buf]
      refine hmark.of_maps _ ?_ ?_
      · intro e he
        exact ⟨e, (List.mem_filter.mp he).1, rfl, rfl, rfl, id⟩
      · intro h hh
        obtain ⟨hne, hold⟩ := partsMap_markSendCompleted.mp hh
        rw [lookup_filter_ne hne, maps_markSendCompleted]
        exact (hf.held h ref hold).2
    rcases hlast with ⟨-, heq, -⟩ | ⟨-, heq, -⟩
    · rw [heq]
      exact hwithout
    · rw [heq]
      exact hwithout.of_same ⟨rfl, rfl, rfl, rfl, rfl, rfl⟩

/-- A package goes from waiting back to the chain. -/
theorem Flow.resend (hf : Flow used pending apt) {p : Package} (hp : PackageOf used p)
    (hack : p.ack = false) (hwait : p.head ∈ apt.outputWaitAck)
    (hfresh : ∀ i, Fresh apt (cancelHead i) → p.head ≠ cancelHead i) :
    Flow used pending { apt.push p with
      outputWaitCount := apt.outputWaitCount - 1
      outputWaitAck := apt.outputWaitAck.erase p.head } := by
  have hdata : (apt.push p).data = apt.data ++ [p] := by simp [Endpoint.data, Endpoint.push, hack]
  have hheads : (apt.push p).heads = apt.heads ++ [p.head] := by
    rw [Endpoint.heads, hdata, List.map_append, Endpoint.heads]
    rfl
  have hnew : ∀ {i}, Fresh apt (cancelHead i) → cancelHead i ∉ apt.heads ++ [p.head] := by
    intro i hi hmem
    rcases List.mem_append.mp hmem with hmem | hmem
    · exact hi.queued hmem
    · exact hfresh i hi (List.mem_singleton.mp hmem).symm
  have hpos : 0 < apt.outputWaitAck.card := Finset.card_pos.mpr ⟨p.head, hwait⟩
  refine ⟨hf.bounded, ?_, ?_, ?_, ?_, hf.held, hf.maps, hf.apart, ?_, hf.distinct, ?_⟩
  · simp only [Finset.card_erase_of_mem hwait]
    rw [hf.count]
    omega
  · intro h hh
    exact hf.waits h (Finset.mem_of_mem_erase hh)
  · intro h hh
    have hbefore := hf.once h hh
    show (apt.push p).heads.count h + (if h ∈ apt.outputWaitAck.erase p.head then 1 else 0) = 1
    rw [hheads, List.count_append]
    by_cases heq : h = p.head
    · subst heq
      rw [if_pos hwait] at hbefore
      simp only [Finset.notMem_erase, if_false, List.count_singleton_self]
      omega
    · have hother : [p.head].count h = 0 := List.count_eq_zero_of_not_mem (by simpa using heq)
      simp only [hother, Nat.add_zero, Finset.mem_erase, heq, ne_eq, not_false_eq_true, true_and]
      exact hbefore
  · intro q hq
    have hq : q ∈ (apt.push p).data := hq
    rw [hdata] at hq
    rcases List.mem_append.mp hq with hq | hq
    · exact hf.chain q hq
    · rw [List.mem_singleton.mp hq]
      exact hp
  · intro r e he hign hopen
    obtain ⟨hnot, hfr⟩ := hf.cancels r e he hign hopen
    exact ⟨hnot, hheads ▸ hnew hfr, hfr.known⟩
  · intro i hi
    obtain ⟨hmem, hfr⟩ := hf.queueable i hi
    exact ⟨hmem, hheads ▸ hnew hfr, hfr.known⟩

/-- A message is given up; the package that cancels it is still to be queued. -/
theorem Flow.giveUp (hf : Flow used pending apt) {i : ℕ} (hi : i ∈ used) (hnot : i ∉ pending)
    (hfresh : Fresh apt (cancelHead i))
    (hclosed : ∀ r, ∀ e ∈ apt.maps r, e.2.ignoreTimeoutCheck = false → e.2.completed = false →
      e.2.outputIndex ≠ i) : Flow used (pending ++ [i]) apt := by
  refine ⟨hf.bounded, hf.count, hf.waits, hf.once, hf.chain, hf.held, hf.maps, hf.apart, ?_, ?_, ?_⟩
  · intro r e he hign hopen
    obtain ⟨hold, hfr⟩ := hf.cancels r e he hign hopen
    refine ⟨fun hmem => ?_, hfr⟩
    rcases List.mem_append.mp hmem with hmem | hmem
    · exact hold hmem
    · exact hclosed r e he hign hopen (List.mem_singleton.mp hmem)
  · rw [List.nodup_append]
    exact ⟨hf.distinct, List.nodup_singleton i, by
      rintro a ha b hb rfl
      exact hnot (List.mem_singleton.mp hb ▸ ha)⟩
  · intro k hk
    rcases List.mem_append.mp hk with hk | hk
    · exact hf.queueable k hk
    · rw [List.mem_singleton.mp hk]
      exact ⟨hi, hfresh⟩

/-- The package that cancels a message is queued. -/
theorem Flow.queueCancel {i : ℕ} (hf : Flow used (i :: pending) apt) :
    Flow used pending (apt.queueAll [cancelPackage i]) := by
  obtain ⟨hi, hfresh⟩ := hf.queueable i List.mem_cons_self
  obtain ⟨hnot, hdistinct⟩ := List.nodup_cons.mp hf.distinct
  have hother : ∀ {k}, k ∈ used → k ≠ i → cancelHead k ∉ [cancelPackage i].map Package.head := by
    intro k hk hne hmem
    rw [List.map_singleton, List.mem_singleton] at hmem
    exact hne (cancelHead_inj (hf.bounded k hk) (hf.bounded i hi) hmem)
  have hrest : Flow used pending apt :=
    ⟨hf.bounded, hf.count, hf.waits, hf.once, hf.chain, hf.held, hf.maps, hf.apart,
      fun r e he hign hopen =>
        let ⟨hnot, hfr⟩ := hf.cancels r e he hign hopen
        ⟨fun hmem => hnot (List.mem_cons_of_mem i hmem), hfr⟩,
      hdistinct, fun k hk => hf.queueable k (List.mem_cons_of_mem i hk)⟩
  refine hrest.queueAll ?_ (List.nodup_singleton _) ?_ ?_ ?_ ?_
  · intro p hp
    rw [List.mem_singleton.mp hp]
    exact ⟨rfl, packageOf_cancel hi⟩
  · intro p hp
    rw [List.mem_singleton.mp hp]
    exact hfresh
  · intro p hp hign
    rw [List.mem_singleton.mp hp] at hign
    cases hign
  · intro r e he hign hopen
    refine hother (hf.maps r e he).2.2.2.index ?_
    intro heq
    exact (hf.cancels r e he hign hopen).1 (heq ▸ List.mem_cons_self)
  · intro k hk
    refine hother (hf.queueable k (List.mem_cons_of_mem i hk)).1 ?_
    rintro rfl
    exact hnot hk

/-- **One round of `_check_timeout`.** -/
theorem Flow.visit (hf : Flow used pending apt) (v : Endpoint.Visit) :
    Flow used (pending ++ (apt.visit v).2.map Package.outputIndex) (apt.visit v).1 ∧
      ∀ p ∈ (apt.visit v).2, p = cancelPackage p.outputIndex := by
  have hsame : Flow used (pending ++ ([] : List Package).map Package.outputIndex) apt ∧
      ∀ p ∈ ([] : List Package), p = cancelPackage p.outputIndex := by simpa using hf
  unfold Endpoint.visit
  split
  · exact hsame
  · rename_i ref href
    split
    · rename_i hwait
      split
      · exact hsame
      · rename_i package hlookup
        have hmem := mem_of_lookup hlookup
        obtain ⟨-, hhead, hack, hof⟩ := hf.maps ref _ hmem
        simp only at hhead hack hof
        split
        · exact ⟨by simpa using hf.markSendCompleted v.head, by simp⟩
        · rename_i hopen
          split
          · split
            · refine ⟨?_, by simp⟩
              have hresend := hf.resend hof hack (hhead ▸ hwait) fun i hi heq => by
                have := hf.waits v.head hwait
                rw [← hhead, heq, hi.known] at this
                cases this
              rw [hhead] at hresend
              simpa using hresend
            · -- the message is given up: its packages are marked, and it is cancelled later
              rename_i hresend
              simp only [Bool.or_eq_true, not_or, Bool.not_eq_true] at hresend hopen
              obtain ⟨hnot, hfresh⟩ := (hf.markSendCompleted v.head).cancels ref _
                (by rw [maps_markSendCompleted]; exact hmem) hresend.1 hopen
              refine ⟨?_, by simp [cancelPackage]⟩
              have hmark : Flow used pending { apt.markSendCompleted v.head with
                  maps := Function.update (apt.markSendCompleted v.head).maps ref
                    ((apt.maps ref).map fun e => (e.1, { e.2 with completed := true })) } := by
                refine (hf.markSendCompleted v.head).of_maps ref ?_ ?_
                · intro e he
                  obtain ⟨e', he', rfl⟩ := List.mem_map.mp he
                  rw [maps_markSendCompleted]
                  exact ⟨e', he', rfl, rfl, rfl, fun h => absurd h (by simp)⟩
                · intro h hh
                  obtain ⟨p, hp⟩ := (hf.held h ref (partsMap_markSendCompleted.mp hh).2).2
                  exact lookup_map_completed hp
              rw [maps_markSendCompleted] at hmark
              refine hmark.giveUp hof.index hnot ⟨hfresh.queued, hfresh.known⟩ ?_
              intro r e he hign hcompleted heq
              simp only [Function.update_apply] at he
              split at he
              · obtain ⟨e', he', rfl⟩ := List.mem_map.mp he
                cases hcompleted
              · rename_i hr
                exact hr (hf.apart r ref e he _ hmem hign hresend.1 heq)
          · exact hsame
    · exact hsame

theorem Flow.visitAll (visits : List Endpoint.Visit) :
    ∀ {pending : List ℕ} {apt : Endpoint}, Flow used pending apt →
      Flow used (pending ++ (apt.visitAll visits).2.map Package.outputIndex) (apt.visitAll visits).1 ∧
        ∀ p ∈ (apt.visitAll visits).2, p = cancelPackage p.outputIndex := by
  induction visits with
  | nil =>
      intro pending apt hf
      exact ⟨by simpa [Endpoint.visitAll] using hf, by simp [Endpoint.visitAll]⟩
  | cons v visits ih =>
      intro pending apt hf
      obtain ⟨hv, hpv⟩ := hf.visit v
      obtain ⟨hvs, hpvs⟩ := ih hv
      rw [Endpoint.visitAll]
      refine ⟨?_, ?_⟩
      · rw [List.map_append, ← List.append_assoc]
        exact hvs
      · intro p hp
        rcases List.mem_append.mp hp with hp | hp
        · exact hpv p hp
        · exact hpvs p hp

/-- **`_check_timeout`, with any answers.** -/
theorem Flow.checkTimeout (hf : Flow used [] apt) (visits : List Endpoint.Visit) :
    Flow used [] (apt.checkTimeout visits) := by
  obtain ⟨hvs, hps⟩ := Flow.visitAll visits hf
  have hqueue : ∀ (ps : List Package) (apt : Endpoint),
      Flow used (ps.map Package.outputIndex) apt → (∀ p ∈ ps, p = cancelPackage p.outputIndex) →
      Flow used [] (ps.foldl (fun apt p => apt.queueAll [p]) apt) := by
    intro ps
    induction ps with
    | nil =>
        intro apt h _
        exact h
    | cons p ps ih =>
        intro apt h hps
        refine ih _ ?_ fun q hq => hps q (List.mem_cons_of_mem p hq)
        have hp := h.queueCancel
        rwa [← hps p List.mem_cons_self] at hp
  exact hqueue _ _ hvs hps

end Operations

/-! ## Whole runs -/

section Runs

variable {cfg : Config} {first : ℕ} {s s' : Solo} {a : Act}

theorem flow_init (cfg : Config) (first : ℕ) : Flow [] [] (initConn cfg first) where
  bounded := by simp
  count := by simp [initConn]
  waits := by simp [initConn]
  once := by simp [initConn]
  chain := by simp [initConn, Endpoint.data]
  held := by simp [initConn]
  maps := by simp [initConn]
  apart := by simp [initConn]
  cancels := by simp [initConn]
  distinct := List.nodup_nil
  queueable := by simp

/-- **Every step keeps the books**, if its index is a new one. -/
theorem step_flow (hstarts : Starts first) (hnum : Numbered first s) (hf : Flow s.used [] s.apt)
    (hstep : s.step cfg a = some s') (hdistinct : s'.used.Nodup) : Flow s'.used [] s'.apt := by
  cases a with
  | send buf =>
      cases hstep
      by_cases hmax : buf.length > cfg.maxPayloadSize
      · simp only [if_pos hmax]
        rw [Endpoint.send, if_pos hmax]
        exact hf
      · simp only [if_neg hmax] at hdistinct ⊢
        refine hf.send (by omega) (hnum.index ▸ indexOf_le hstarts) ?_
        intro hmem
        exact (List.nodup_append.mp hdistinct).2.2 _ hmem _ (List.mem_singleton_self _) rfl
  | ready =>
      cases hstep
      exact hf.sendReady
  | read buf =>
      cases hstep
      by_cases hlen : buf.length = headSize
      · simp only [connRead_of_head cfg s.apt hlen]
        apply Flow.onack
        exact hf.of_same ⟨rfl, rfl, rfl, rfl, rfl, rfl⟩
      · exact hf.of_same (sameFlow_connRead cfg s.apt hlen).toSameBooks
  | timeout visits =>
      cases hstep
      exact hf.checkTimeout visits

theorem isPrefix_used (hstep : s.step cfg a = some s') : s.used <+: s'.used := by
  cases a with
  | send buf =>
      cases hstep
      by_cases hmax : buf.length > cfg.maxPayloadSize
      · simp [hmax]
      · simp [hmax]
  | ready => cases hstep; exact List.prefix_refl _
  | read buf => cases hstep; exact List.prefix_refl _
  | timeout visits => cases hstep; exact List.prefix_refl _

/-- **Flow-control accounting.**  After every run of sends, transmissions, datagrams of
any kind and timeouts with any answers in which no index is used twice, the books of the
endpoint are in order. -/
theorem flow_accounting {acts : List Act} (hstarts : Starts first)
    (hrun : run (Solo.step cfg) (Solo.init cfg first) acts = some s) (hdistinct : s.used.Nodup) :
    Accounted s.apt := by
  -- the indices only become more, so that they are distinct all along
  have hkeeps : Numbered first s ∧ (s.used.Nodup → Flow s.used [] s.apt) :=
    run_keeps (P := fun s => Numbered first s ∧ (s.used.Nodup → Flow s.used [] s.apt))
      (fun s a s' ⟨hnum, hf⟩ hstep => ⟨step_numbered hnum hstep, fun hnodup =>
        step_flow hstarts hnum (hf (hnodup.sublist (isPrefix_used hstep).sublist)) hstep hnodup⟩)
      ⟨numbered_init cfg first, fun _ => flow_init cfg first⟩ hrun
  exact (hkeeps.2 hdistinct).accounted

/-- A message is sent, given up after a timeout and cancelled; then its acknowledgement
comes after all. -/
def cancelledRun : List Act :=
  [.send [1], .ready, .ready, .timeout [⟨packHead 5 1 1, true, false⟩], .ready,
    .read (packHead 5 1 1)]

/-- The cancel package waits for its acknowledgement, and nothing else does. -/
theorem flow_accounting_cancelled :
    ∃ s, run (Solo.step .unset) (Solo.init .unset 5) cancelledRun = some s ∧ s.used.Nodup ∧
      s.apt.outputWaitCount = 1 ∧ Accounted s.apt := by
  refine ⟨_, rfl, by decide +kernel, by decide +kernel, ?_⟩
  have hrun : run (Solo.step .unset) (Solo.init .unset 5) cancelledRun = some _ := rfl
  exact flow_accounting ⟨by decide, by decide⟩ hrun (by decide +kernel)

end Runs

end LuaFan.ReliableUdp
