/-
# The range of the indices

An index is accepted by the receiver if it lies between 1 and `MAX_OUTPUT_INDEX - 1`.
`send` wraps the next index with `>=` and the windows wrap with `==`, so that a start at
`MAX_OUTPUT_INDEX` itself, which `math.random` can give, is out of range: nobody accepts
the first message, and the send window would never wrap again.  **With every other start
all indices stay in range in every run** (`index_range`).

The send window never steps over the next index: what it has moved off is a prefix of
what `send` has handed out, however often the indices are used again.  The argument is a
tally (`Tally`): a message can be completed once, a package that cancels it takes its
place, and every step of the window costs the mark of a completed message.
-/
import LuaFan.ReliableUdp.Flow

namespace LuaFan.ReliableUdp

open Machine

/-! ## The property -/

/-- The indices that `_onread` of the receiver accepts. -/
def InRange (i : ℕ) : Prop := 1 ≤ i ∧ i < maxOutputIndex

/-- A datagram that carries data has an index in range; the others have the size of a
head or carry a window. -/
def WireInRange (d : List UInt8) : Prop :=
  d.length = headSize ∨ (unpackHead (d.take headSize)).outputIndex = windowCtrl ∨
    InRange (unpackHead (d.take headSize)).outputIndex

/-- **The indices are in range**, those of queued and sent packages too, and the send
window has moved off a prefix of the indices handed out. -/
structure IndicesInRange (s : Solo) : Prop where
  index : InRange s.apt.outputIndex
  window : InRange s.apt.sendWindow
  queued : ∀ p ∈ s.apt.data,
    InRange p.outputIndex ∧ (unpackHead p.head).outputIndex = p.outputIndex
  sent : ∀ d ∈ s.apt.wire, WireInRange d
  passed : s.passed <+: s.used

/-! ## Rows of heads -/

/-- The places in a message of `n` packages; the cancel package has place 0 of 0. -/
def InRow (n j : ℕ) : Prop := (n = 0 ∧ j = 0) ∨ (1 ≤ j ∧ j ≤ n)

/-- A package of the message with index `i` that is sent in `n` packages. -/
structure Member (i n : ℕ) (p : Package) : Prop where
  ack : p.ack = false
  index : p.outputIndex = i
  head : ∃ j, InRow n j ∧ p.head = packHead i n j

/-- All packages of a message. -/
structure Row (i n : ℕ) (ps : List Package) : Prop where
  range : InRange i
  count : n ≤ 65535
  member : ∀ p ∈ ps, Member i n p
  all : ∀ j, InRow n j → packHead i n j ∈ ps.map Package.head
  fresh : ∀ p ∈ ps, p.completed = false
  nonempty : ps ≠ []

section Rows

variable {i n j : ℕ}

theorem InRange.lt (h : InRange i) : i < 2 ^ 32 := h.2.trans (by decide)

theorem InRow.lt (h : InRow n j) (hn : n ≤ 65535) : j < 2 ^ 16 := by
  rcases h with ⟨-, rfl⟩ | ⟨-, hle⟩ <;> omega

theorem row_cancel (h : InRange i) : Row i 0 [cancelPackage i] where
  range := h
  count := by decide
  member := by
    intro p hp
    rw [List.mem_singleton.mp hp]
    exact ⟨rfl, rfl, 0, Or.inl ⟨rfl, rfl⟩, rfl⟩
  all := by
    rintro j (⟨-, rfl⟩ | ⟨h₁, h₂⟩)
    · exact List.mem_singleton_self _
    · omega
  fresh := by
    intro p hp
    rw [List.mem_singleton.mp hp]
    rfl
  nonempty := by simp

theorem completed_messagePackages {cfg : Config} {buf : List UInt8} {p : Package}
    (hp : p ∈ messagePackages cfg i buf) : p.completed = false := by
  unfold messagePackages at hp
  split at hp
  · obtain ⟨t, -, rfl⟩ := List.mem_map.mp hp
    rfl
  · rw [List.mem_singleton.mp hp]

theorem row_message {cfg : Config} {buf : List UInt8} (h : InRange i)
    (hmax : buf.length ≤ cfg.maxPayloadSize) :
    Row i (messagePackages cfg i buf).length (messagePackages cfg i buf) where
  range := h
  count := (length_messagePackages hmax).2
  member := by
    intro p hp
    obtain ⟨t, -, ht, hindex, hack, hhead⟩ := mem_messagePackages hmax hp
    obtain ⟨hlt, -⟩ := List.getElem?_eq_some_iff.mp ht
    exact ⟨hack, hindex, t + 1, Or.inr ⟨by omega, hlt⟩, hhead⟩
  all := by
    have hpos : 0 < (messagePackages cfg i buf).length := (length_messagePackages hmax).1
    rintro j (⟨h₁, -⟩ | ⟨h₁, h₂⟩)
    · omega
    · have hget := List.getElem?_eq_getElem (l := messagePackages cfg i buf) (i := j - 1) (by omega)
      obtain ⟨hhead, -⟩ := getElem?_messagePackages hget
      rw [Nat.sub_add_cancel h₁] at hhead
      exact hhead ▸ List.mem_map_of_mem (List.getElem_mem _)
  fresh := fun p hp => completed_messagePackages hp
  nonempty := List.ne_nil_of_length_pos (length_messagePackages hmax).1

/-- A head of a row says which row it is. -/
theorem Row.mem_of_mem {ps : List Package} (h : Row i n ps) {i' n' j j' : ℕ} (hi : InRange i')
    (hn : n' ≤ 65535) (hj : InRow n' j) (hj' : InRow n' j')
    (hmem : packHead i' n' j ∈ ps.map Package.head) : packHead i' n' j' ∈ ps.map Package.head := by
  obtain ⟨p, hp, heq⟩ := List.mem_map.mp hmem
  obtain ⟨t, ht, hhead⟩ := (h.member p hp).head
  rw [hhead] at heq
  obtain ⟨rfl, rfl, -⟩ := packHead_inj h.range.lt hi.lt (by have := h.count; omega) (by omega)
    (ht.lt h.count) (hj.lt hn) heq
  exact h.all j' hj'

end Rows

/-! ## The tally -/

/-- A map that can still be completed: its packages are all of interest. -/
def Endpoint.Live (apt : Endpoint) (r : ℕ) : Prop :=
  apt.maps r ≠ [] ∧ ∀ e ∈ apt.maps r, apt.outputPackagePartsMap e.1 = some r

open Classical in
/-- The maps that can still be completed. -/
noncomputable def Endpoint.live (apt : Endpoint) : Finset ℕ :=
  (Finset.range apt.mapCount).filter apt.Live

/-- The marks and the maps that can still be completed, together with the `pending`
packages that cancel a message and are not queued yet, are within the budget. -/
structure Tally (budget pending : ℕ) (apt : Endpoint) : Prop where
  rows : ∀ r, ∃ i n, InRange i ∧ n ≤ 65535 ∧
    ∀ e ∈ apt.maps r, e.2.head = e.1 ∧ Member i n e.2
  bound : ∀ r, ∀ e ∈ apt.maps r, r < apt.mapCount
  together : ∀ r, ∀ e ∈ apt.maps r, ∀ e' ∈ apt.maps r, e.2.completed = e'.2.completed
  known : ∀ r, ∀ e ∈ apt.maps r, apt.outputPackagePartsMap e.1 = some r → e.2.completed = false →
    ∀ e' ∈ apt.maps r, apt.outputPackagePartsMap e'.1 = some r
  within : apt.sendWindowHoles.card + apt.live.card + pending ≤ budget

section Live

variable {apt apt' : Endpoint}

theorem mem_live {r : ℕ} : r ∈ apt.live ↔ r < apt.mapCount ∧ apt.Live r := by
  classical
  simp [Endpoint.live]

/-- What can be completed later could be completed before. -/
theorem live_subset (hcount : apt'.mapCount = apt.mapCount)
    (hlive : ∀ r, apt'.Live r → apt.Live r) : apt'.live ⊆ apt.live := by
  intro r hr
  obtain ⟨hlt, h⟩ := mem_live.mp hr
  exact mem_live.mpr ⟨hcount ▸ hlt, hlive r h⟩

theorem live_markSendCompleted (head : List UInt8) :
    (apt.markSendCompleted head).live ⊆ apt.live := by
  have hcount : (apt.markSendCompleted head).mapCount = apt.mapCount := by
    unfold Endpoint.markSendCompleted
    split <;> rfl
  refine live_subset hcount ?_
  rintro r ⟨hne, hknown⟩
  rw [maps_markSendCompleted] at hne hknown
  exact ⟨hne, fun e he => (partsMap_markSendCompleted.mp (hknown e he)).2⟩

end Live

section Tally

variable {budget pending : ℕ} {apt apt' : Endpoint}

/-- A map of known packages of a row is new, all others are as they were or have lost
their interest. -/
theorem Tally.queueAll (h : Tally budget pending apt) {i n : ℕ} {ps : List Package}
    (hrow : Row i n ps) : Tally (budget + 1) pending (apt.queueAll ps) := by
  have heq := Endpoint.queueAll_eq apt fun p hp => (hrow.member p hp).ack
  have hmaps : ∀ {r e}, e ∈ (apt.queueAll ps).maps r →
      (e ∈ apt.maps r ∧ r < apt.mapCount) ∨ (r = apt.mapCount ∧ e.2 ∈ ps ∧ e.2.head = e.1) := by
    intro r e he
    rw [heq] at he
    simp only [Function.update_apply] at he
    split at he
    · rename_i hr
      obtain ⟨p, hp, rfl⟩ := List.mem_map.mp he
      exact Or.inr ⟨hr, hp, rfl⟩
    · exact Or.inl ⟨he, h.bound r e he⟩
  have hparts : ∀ {r head}, r < apt.mapCount →
      (apt.queueAll ps).outputPackagePartsMap head = some r →
        head ∉ ps.map Package.head ∧ apt.outputPackagePartsMap head = some r := by
    intro r head hr hknown
    rw [heq] at hknown
    simp only at hknown
    split at hknown
    · simp only [Option.some.injEq] at hknown
      omega
    · rename_i hnot
      exact ⟨hnot, hknown⟩
  have hold : ∀ {r e}, e ∈ apt.maps r → e ∈ (apt.queueAll ps).maps r := by
    intro r e he
    have := h.bound r e he
    rw [heq]
    simp only [Function.update_of_ne (show r ≠ apt.mapCount by omega)]
    exact he
  refine ⟨?_, ?_, ?_, ?_, ?_⟩
  · intro r
    by_cases hr : r = apt.mapCount
    · refine ⟨i, n, hrow.range, hrow.count, ?_⟩
      intro e he
      rcases hmaps he with ⟨-, hlt⟩ | ⟨-, hp, hhead⟩
      · omega
      · exact ⟨hhead, hrow.member _ hp⟩
    · obtain ⟨i', n', hi', hn', hmem⟩ := h.rows r
      refine ⟨i', n', hi', hn', ?_⟩
      intro e he
      rcases hmaps he with ⟨he, -⟩ | ⟨hr', -⟩
      · exact hmem e he
      · exact absurd hr' hr
  · intro r e he
    have hcount : (apt.queueAll ps).mapCount = apt.mapCount + 1 := by rw [heq]
    rcases hmaps he with ⟨-, hlt⟩ | ⟨rfl, -⟩ <;> omega
  · intro r e he e' he'
    rcases hmaps he with ⟨he, hlt⟩ | ⟨rfl, hp, -⟩
    · rcases hmaps he' with ⟨he', -⟩ | ⟨rfl, -⟩
      · exact h.together r e he e' he'
      · omega
    · rcases hmaps he' with ⟨-, hlt⟩ | ⟨-, hp', -⟩
      · omega
      · rw [hrow.fresh _ hp, hrow.fresh _ hp']
  · intro r e he hknown hopen e' he'
    rcases hmaps he with ⟨he, hlt⟩ | ⟨rfl, hp, -⟩
    · obtain ⟨hnot, hknown⟩ := hparts hlt hknown
      rcases hmaps he' with ⟨he', -⟩ | ⟨rfl, -⟩
      · -- with one head of an old map the new packages would have all of them
        have hknown' := h.known r e he hknown hopen e' he'
        obtain ⟨i', n', hi', hn', hmem⟩ := h.rows r
        obtain ⟨hhead, -, -, j, hj, hj'⟩ := hmem e he
        obtain ⟨hhead', -, -, k, hk, hk'⟩ := hmem e' he'
        rw [hhead] at hj'
        rw [hhead'] at hk'
        have hnot' : e'.1 ∉ ps.map Package.head := by
          intro hin
          rw [hk'] at hin
          exact hnot (hj' ▸ hrow.mem_of_mem hi' hn' hk hj hin)
        rw [heq]
        simp only [hnot', if_false]
        exact hknown'
      · omega
    · rcases hmaps he' with ⟨-, hlt⟩ | ⟨-, hp', hhead'⟩
      · omega
      · rw [heq]
        simp only [← hhead', List.mem_map_of_mem hp', if_true]
  · have hsub : (apt.queueAll ps).live ⊆ insert apt.mapCount apt.live := by
      intro r hr
      obtain ⟨hlt, hne, hknown⟩ := mem_live.mp hr
      have hcount : (apt.queueAll ps).mapCount = apt.mapCount + 1 := by rw [heq]
      by_cases hnew : r = apt.mapCount
      · exact hnew ▸ Finset.mem_insert_self _ _
      · have hr : r < apt.mapCount := by omega
        refine Finset.mem_insert_of_mem (mem_live.mpr ⟨hr, ?_, ?_⟩)
        · rw [heq] at hne
          simp only [Function.update_of_ne hnew] at hne
          exact hne
        · intro e he
          exact (hparts hr (hknown e (hold he))).2
    have hcard := (Finset.card_le_card hsub).trans (Finset.card_insert_le _ _)
    have hholes : (apt.queueAll ps).sendWindowHoles = apt.sendWindowHoles :=
      congrArg (fun p => p.2.2) (unqueued_place.queueAll apt ps)
    have := h.within
    rw [hholes]
    omega

/-- Nothing that the tally is about has changed. -/
theorem Tally.of_same (h : Tally budget pending apt) (hmaps : apt'.maps = apt.maps)
    (hparts : apt'.outputPackagePartsMap = apt.outputPackagePartsMap)
    (hcount : apt'.mapCount = apt.mapCount) (hholes : apt'.sendWindowHoles = apt.sendWindowHoles) :
    Tally budget pending apt' := by
  have hlive : apt'.live = apt.live := by
    ext r
    rw [mem_live, mem_live, hcount, Endpoint.Live, Endpoint.Live, hmaps, hparts]
  refine ⟨hmaps ▸ h.rows, ?_, hmaps ▸ h.together, ?_, ?_⟩
  · rw [hmaps, hcount]
    exact h.bound
  · rw [hmaps, hparts]
    exact h.known
  · rw [hholes, hlive]
    exact h.within

/-- A package that was marked loses its interest. -/
theorem Tally.markSendCompleted (h : Tally budget pending apt) {head : List UInt8}
    (hmarked : ∀ r, ∀ e ∈ apt.maps r, apt.outputPackagePartsMap head = some r → e.1 = head →
      e.2.completed = true) : Tally budget pending (apt.markSendCompleted head) := by
  have hcount : (apt.markSendCompleted head).mapCount = apt.mapCount := by
    unfold Endpoint.markSendCompleted
    split <;> rfl
  have hmaps := maps_markSendCompleted apt head
  refine ⟨hmaps ▸ h.rows, ?_, hmaps ▸ h.together, ?_, ?_⟩
  · rw [hmaps, hcount]
    exact h.bound
  · rw [hmaps]
    intro r e he hknown hopen e' he'
    obtain ⟨-, hold⟩ := partsMap_markSendCompleted.mp hknown
    have hold' := h.known r e he hold hopen e' he'
    have hne : e'.1 ≠ head := by
      intro heq
      have hdone := hmarked r e' he' (heq ▸ hold') heq
      rw [← h.together r e he e' he', hopen] at hdone
      cases hdone
    exact partsMap_markSendCompleted.mpr ⟨hne, hold'⟩
  · have hholes : (apt.markSendCompleted head).sendWindowHoles = apt.sendWindowHoles :=
      congrArg (fun p => p.2.2) (place_markSendCompleted apt head)
    have hcard : (apt.markSendCompleted head).live.card ≤ apt.live.card :=
      Finset.card_le_card (live_markSendCompleted head)
    have := h.within
    rw [hholes]
    omega

theorem mapCount_markSendCompleted (apt : Endpoint) (head : List UInt8) :
    (apt.markSendCompleted head).mapCount = apt.mapCount := by
  unfold Endpoint.markSendCompleted
  split <;> rfl

/-- The tally when one map is changed: its entries come from the old ones, and whether a
package of another map is of interest stays as it was. -/
theorem Tally.of_maps (h : Tally budget pending apt) {ref : ℕ} {map : PartsMap} {head : List UInt8}
    (href : apt.outputPackagePartsMap head = some ref)
    (hmap : ∀ e ∈ map, ∃ e' ∈ apt.maps ref, e'.1 = e.1 ∧ e.2.content = e'.2.content)
    (htogether : ∀ e ∈ map, ∀ e' ∈ map, e.2.completed = e'.2.completed)
    (hknown : ∀ e ∈ map, (apt.markSendCompleted head).outputPackagePartsMap e.1 = some ref →
      e.2.completed = false →
      ∀ e' ∈ map, (apt.markSendCompleted head).outputPackagePartsMap e'.1 = some ref)
    {pending' : ℕ}
    (hwithin : apt.sendWindowHoles.card + (apt.finish head ref map).live.card + pending' ≤ budget) :
    Tally budget pending' (apt.finish head ref map) := by
  have hcount := mapCount_markSendCompleted apt head
  have hholes : (apt.markSendCompleted head).sendWindowHoles = apt.sendWindowHoles :=
    congrArg (fun p => p.2.2) (place_markSendCompleted apt head)
  refine ⟨?_, ?_, ?_, ?_, by rw [← hholes] at hwithin; exact hwithin⟩
  · intro r
    obtain ⟨i, n, hi, hn, hmem⟩ := h.rows r
    refine ⟨i, n, hi, hn, ?_⟩
    intro e he
    simp only [Endpoint.finish, Function.update_apply] at he
    split at he
    · rename_i hr
      obtain ⟨e', he', hkey, hcontent⟩ := hmap e he
      obtain ⟨hhead, hack, hindex, hrow⟩ := hmem e' (hr ▸ he')
      have hsame : e.2.head = e'.2.head := congrArg (fun c => c.1) hcontent
      exact ⟨by rw [hsame, hhead, hkey], (congrArg (fun c => c.2.2.2) hcontent).trans hack,
        (congrArg (fun c => c.2.2.1) hcontent).trans hindex, by rw [hsame]; exact hrow⟩
    · exact hmem e he
  · intro r e he
    simp only [Endpoint.finish, Function.update_apply] at he
    show r < (apt.markSendCompleted head).mapCount
    rw [hcount]
    split at he
    · rename_i hr
      obtain ⟨e', he', -⟩ := hmap e he
      exact hr ▸ h.bound ref e' he'
    · exact h.bound r e he
  · intro r e he e' he'
    simp only [Endpoint.finish, Function.update_apply] at he he'
    split at he
    · rename_i hr
      rw [if_pos hr] at he'
      exact htogether e he e' he'
    · rename_i hr
      rw [if_neg hr] at he'
      exact h.together r e he e' he'
  · intro r e he hk hopen e' he'
    simp only [Endpoint.finish, Function.update_apply] at he he'
    split at he
    · rename_i hr
      rw [if_pos hr] at he'
      subst hr
      exact hknown e he hk hopen e' he'
    · rename_i hr
      rw [if_neg hr] at he'
      obtain ⟨-, hold⟩ := partsMap_markSendCompleted.mp hk
      have hold' := h.known r e he hold hopen e' he'
      refine partsMap_markSendCompleted.mpr ⟨?_, hold'⟩
      intro heq
      rw [heq, href] at hold'
      exact hr (Option.some.inj hold').symm

/-- What can be completed after an acknowledgement could be before, apart from the map
that is empty now. -/
theorem live_without {ref : ℕ} {buf : List UInt8} {package : Package}
    (href : apt.outputPackagePartsMap buf = some ref) (hmem : (buf, package) ∈ apt.maps ref) :
    (apt.without ref buf).live ⊆ apt.live := by
  refine live_subset (mapCount_markSendCompleted apt buf) ?_
  rintro r ⟨hne, hknown⟩
  simp only [Endpoint.without, Endpoint.finish, Function.update_apply] at hne hknown
  by_cases hr : r = ref
  · subst hr
    refine ⟨List.ne_nil_of_mem hmem, ?_⟩
    intro e he
    by_cases hkey : e.1 = buf
    · rw [hkey, href]
    · refine (partsMap_markSendCompleted.mp (hknown e ?_)).2
      rw [if_pos rfl]
      exact List.mem_filter.mpr ⟨he, by simpa using hkey⟩
  · rw [if_neg hr] at hne
    refine ⟨hne, fun e he => (partsMap_markSendCompleted.mp (hknown e ?_)).2⟩
    rw [if_neg hr]
    exact he

/-- The map that is completed could be completed before, and cannot any more. -/
theorem live_without_lt (h : Tally budget pending apt) {ref : ℕ} {buf : List UInt8}
    {package : Package} (href : apt.outputPackagePartsMap buf = some ref)
    (hmem : (buf, package) ∈ apt.maps ref)
    (hempty : ((apt.maps ref).filter fun e => e.1 ≠ buf) = []) :
    (apt.without ref buf).live.card < apt.live.card := by
  have hlive : ref ∈ apt.live := by
    refine mem_live.mpr ⟨h.bound ref _ hmem, List.ne_nil_of_mem hmem, ?_⟩
    intro e he
    have hkey := List.filter_eq_nil_iff.mp hempty e he
    simp only [ne_eq, decide_not, Bool.not_eq_eq_eq_not, Bool.not_true, decide_eq_false_iff_not,
      not_not] at hkey
    rw [hkey, href]
  have hdead : ref ∉ (apt.without ref buf).live := by
    intro hmem'
    have hne := (mem_live.mp hmem').2.1
    simp only [Endpoint.without, Endpoint.finish, Function.update_self] at hne
    exact hne hempty
  exact Finset.card_lt_card ((Finset.ssubset_iff_of_subset (live_without href hmem)).mpr
    ⟨ref, hlive, hdead⟩)

/-- **An acknowledgement**: every step of the window is paid for by a mark, and a new
mark by the map that is completed. -/
theorem Tally.onack (h : Tally budget pending apt) (buf : List UInt8) :
    (apt.passes buf).length ≤ budget ∧
      Tally (budget - (apt.passes buf).length) pending (apt.onack buf) := by
  have hwithin := h.within
  rcases apt.onack_cases buf with ⟨-, heq, hpass⟩ | ⟨ref, href, hcases⟩
  · rw [heq, hpass]
    exact ⟨Nat.zero_le _, h⟩
  · rcases hcases with ⟨hnone, heq, hpass⟩ | ⟨package, hlookup, hlast⟩
    · rw [heq, hpass]
      refine ⟨Nat.zero_le _, h.markSendCompleted ?_⟩
      intro r e he hr hkey
      rw [href] at hr
      cases hr
      have := List.lookup_eq_none_iff.mp hnone e he
      simp [hkey] at this
    · have hmem := mem_of_lookup hlookup
      have hcard := Finset.card_le_card (live_without href hmem)
      have htally : Tally budget pending (apt.without ref buf) := by
        refine h.of_maps href ?_ ?_ ?_ (by rw [Endpoint.without] at hcard; omega)
        · intro e he
          exact ⟨e, (List.mem_filter.mp he).1, rfl, rfl⟩
        · intro e he e' he'
          exact h.together ref e (List.mem_filter.mp he).1 e' (List.mem_filter.mp he').1
        · intro e he hk hopen e' he'
          obtain ⟨-, hold⟩ := partsMap_markSendCompleted.mp hk
          refine partsMap_markSendCompleted.mpr ⟨by simpa using (List.mem_filter.mp he').2, ?_⟩
          exact h.known ref e (List.mem_filter.mp he).1 hold hopen e' (List.mem_filter.mp he').1
      rcases hlast with ⟨-, heq, hpass⟩ | ⟨hempty, heq, hpass⟩
      · rw [heq, hpass]
        exact ⟨Nat.zero_le _, htally⟩
      · have hlt := live_without_lt h href hmem hempty
        obtain ⟨-, -, htrail⟩ := Serial.trail_spec nextWindow
          (insert package.outputIndex apt.sendWindowHoles).card
          (insert package.outputIndex apt.sendWindowHoles) apt.sendWindow
        have hinsert := Finset.card_insert_le package.outputIndex apt.sendWindowHoles
        have hplace := place_without apt ref buf
        have hholes : (apt.without ref buf).sendWindowHoles = apt.sendWindowHoles :=
          congrArg (fun p => p.2.2) hplace
        have hwindow : (apt.without ref buf).sendWindow = apt.sendWindow :=
          congrArg (fun p => p.2.1) hplace
        rw [heq, hpass]
        refine ⟨by omega, htally.rows, htally.bound, htally.together, htally.known, ?_⟩
        show (applyWindow (apt.without ref buf).sendWindowHoles (apt.without ref buf).sendWindow
          package.outputIndex).1.card + (apt.without ref buf).live.card + pending ≤ _
        rw [hholes, hwindow, applyWindow]
        omega

/-- The map of a message that is given up could be completed before, and cannot any
more: the package that has waited too long stays in it for ever. -/
theorem live_giveUp_lt (h : Tally budget pending apt) {ref : ℕ} {head : List UInt8}
    {package : Package} (href : apt.outputPackagePartsMap head = some ref)
    (hmem : (head, package) ∈ apt.maps ref) (hopen : package.completed = false) :
    (apt.finish head ref
      ((apt.maps ref).map fun e => (e.1, { e.2 with completed := true }))).live.card
        < apt.live.card := by
  have hlive : ref ∈ apt.live :=
    mem_live.mpr ⟨h.bound ref _ hmem, List.ne_nil_of_mem hmem, h.known ref _ hmem href hopen⟩
  have hdead : ref ∉ (apt.finish head ref
      ((apt.maps ref).map fun e => (e.1, { e.2 with completed := true }))).live := by
    intro hmem'
    obtain ⟨-, -, hknown⟩ := mem_live.mp hmem'
    simp only [Endpoint.finish, Function.update_self] at hknown
    exact (partsMap_markSendCompleted.mp (hknown _ (List.mem_map_of_mem hmem))).1 rfl
  have hsub : (apt.finish head ref
      ((apt.maps ref).map fun e => (e.1, { e.2 with completed := true }))).live ⊆ apt.live := by
    refine live_subset (mapCount_markSendCompleted apt head) ?_
    rintro r ⟨hne, hknown⟩
    simp only [Endpoint.finish, Function.update_apply] at hne hknown
    by_cases hr : r = ref
    · exact hr ▸ (mem_live.mp hlive).2
    · simp only [if_neg hr] at hne hknown
      exact ⟨hne, fun e he => (partsMap_markSendCompleted.mp (hknown e he)).2⟩
  exact Finset.card_lt_card ((Finset.ssubset_iff_of_subset hsub).mpr ⟨ref, hlive, hdead⟩)

/-- **One round of `_check_timeout`**: a message that is given up makes room for the
package that cancels it. -/
theorem Tally.visit (h : Tally budget pending apt) (v : Endpoint.Visit) :
    Tally budget (pending + (apt.visit v).2.length) (apt.visit v).1 ∧
      ∀ p ∈ (apt.visit v).2, ∃ i, InRange i ∧ p = cancelPackage i := by
  have hsame : Tally budget (pending + ([] : List Package).length) apt ∧
      ∀ p ∈ ([] : List Package), ∃ i, InRange i ∧ p = cancelPackage i := by simpa using h
  unfold Endpoint.visit
  split
  · exact hsame
  · rename_i ref href
    split
    · split
      · exact hsame
      · rename_i package hlookup
        have hmem := mem_of_lookup hlookup
        split
        · rename_i hdone
          refine ⟨h.markSendCompleted ?_, by simp⟩
          intro r e he hr _
          rw [href] at hr
          cases hr
          rw [h.together ref e he _ hmem]
          exact hdone
        · rename_i hopen
          simp only [Bool.not_eq_true] at hopen
          split
          · split
            · exact ⟨h.of_same rfl rfl rfl rfl, by simp⟩
            · refine ⟨?_, ?_⟩
              · have hlt := live_giveUp_lt h href hmem hopen
                have hwithin := h.within
                refine h.of_maps href ?_ ?_ ?_ (by rw [List.length_singleton]; omega)
                · intro e he
                  obtain ⟨e', he', rfl⟩ := List.mem_map.mp he
                  exact ⟨e', he', rfl, rfl⟩
                · intro e he e' he'
                  obtain ⟨d, -, rfl⟩ := List.mem_map.mp he
                  obtain ⟨d', -, rfl⟩ := List.mem_map.mp he'
                  rfl
                · intro e he _ hcompleted
                  obtain ⟨d, -, rfl⟩ := List.mem_map.mp he
                  cases hcompleted
              · intro p hp
                obtain ⟨i, n, hi, -, hrow⟩ := h.rows ref
                rw [List.mem_singleton.mp hp, (hrow _ hmem).2.index]
                exact ⟨i, hi, rfl⟩
          · exact hsame
    · exact hsame

theorem Tally.visitAll (visits : List Endpoint.Visit) :
    ∀ {pending : ℕ} {apt : Endpoint}, Tally budget pending apt →
      Tally budget (pending + (apt.visitAll visits).2.length) (apt.visitAll visits).1 ∧
        ∀ p ∈ (apt.visitAll visits).2, ∃ i, InRange i ∧ p = cancelPackage i := by
  induction visits with
  | nil =>
      intro pending apt h
      exact ⟨h, by simp [Endpoint.visitAll]⟩
  | cons v visits ih =>
      intro pending apt h
      obtain ⟨hv, hpv⟩ := h.visit v
      obtain ⟨hvs, hpvs⟩ := ih hv
      rw [Endpoint.visitAll]
      refine ⟨?_, ?_⟩
      · rw [List.length_append, ← Nat.add_assoc]
        exact hvs
      · intro p hp
        rcases List.mem_append.mp hp with hp | hp
        · exact hpv p hp
        · exact hpvs p hp

theorem Tally.queueCancel (h : Tally budget (pending + 1) apt) {i : ℕ} (hi : InRange i) :
    Tally budget pending (apt.queueAll [cancelPackage i]) := by
  have hqueue := h.queueAll (row_cancel hi)
  have hwithin := hqueue.within
  exact ⟨hqueue.rows, hqueue.bound, hqueue.together, hqueue.known, by omega⟩

end Tally

/-! ## Queued and sent packages -/

/-- The heads in the chain have their size, the data in the chain and on the wire has its
index in range. -/
structure Ranged (apt : Endpoint) : Prop where
  chain : ∀ p ∈ apt.outputChain, p.head.length = headSize ∧ (p.ack = false →
    InRange p.outputIndex ∧ (unpackHead p.head).outputIndex = p.outputIndex)
  wire : ∀ d ∈ apt.wire, WireInRange d

theorem Member.inRange {i n : ℕ} {p : Package} (h : Member i n p) (hi : InRange i)
    (hn : n ≤ 65535) : p.head.length = headSize ∧ (p.ack = false →
      InRange p.outputIndex ∧ (unpackHead p.head).outputIndex = p.outputIndex) := by
  obtain ⟨j, hj, hhead⟩ := h.head
  rw [hhead, h.index, unpackHead_packHead hi.lt (by omega) (hj.lt hn)]
  exact ⟨length_packHead i n j, fun _ => ⟨hi, rfl⟩⟩

section Ranged

variable {cfg : Config} {apt apt' : Endpoint}

theorem Ranged.of_same (h : Ranged apt) (hchain : apt'.outputChain = apt.outputChain)
    (hwire : apt'.wire = apt.wire) : Ranged apt' :=
  ⟨hchain ▸ h.chain, hwire ▸ h.wire⟩

theorem Ranged.push (h : Ranged apt) {p : Package} (hp : p.head.length = headSize ∧
    (p.ack = false → InRange p.outputIndex ∧ (unpackHead p.head).outputIndex = p.outputIndex)) :
    Ranged (apt.push p) := by
  refine ⟨?_, h.wire⟩
  intro q hq
  rcases List.mem_append.mp hq with hq | hq
  · exact h.chain q hq
  · rw [List.mem_singleton.mp hq]
    exact hp

theorem Ranged.connSend (h : Ranged apt) {d : List UInt8} (hd : WireInRange d) :
    Ranged (apt.connSend d) := by
  refine ⟨h.chain, ?_⟩
  intro d' hd'
  rcases List.mem_append.mp hd' with hd' | hd'
  · exact h.wire d' hd'
  · rw [List.mem_singleton.mp hd']
    exact hd

theorem wireInRange_control {p : ℕ} (hp : p < 2 ^ 16) (w : ℕ) :
    WireInRange (packHead windowCtrl 1 p ++ leBytes 4 w) := by
  right
  left
  rw [List.take_left' (length_packHead _ _ _), unpackHead_packHead (by decide) (by decide) hp]

theorem Ranged.queueAll (h : Ranged apt) {i n : ℕ} {ps : List Package} (hrow : Row i n ps) :
    Ranged (apt.queueAll ps) := by
  rw [Endpoint.queueAll_eq apt fun p hp => (hrow.member p hp).ack]
  refine ⟨?_, h.wire⟩
  intro q hq
  rcases List.mem_append.mp hq with hq | hq
  · exact h.chain q hq
  · exact (hrow.member q hq).inRange hrow.range hrow.count

theorem Ranged.sendReady (h : Ranged apt) : Ranged (apt.sendReady cfg) := by
  unfold Endpoint.sendReady
  split
  · split
    · exact h
    · rename_i p chain hpop
      obtain ⟨hp, hchain⟩ := Endpoint.mem_of_pop hpop
      have hrest : Ranged { apt with outputChain := chain } :=
        ⟨fun q hq => h.chain q (hchain q hq), h.wire⟩
      obtain ⟨hlen, hdata⟩ := h.chain p hp
      unfold Endpoint.transmit
      split
      · exact hrest.connSend (Or.inl hlen)
      · rename_i hack
        split
        · refine ⟨hrest.chain, ?_⟩
          refine (hrest.connSend (d := p.head ++ p.body.bytes) ?_).wire
          right
          right
          obtain ⟨hrange, hindex⟩ := hdata (by simpa using hack)
          rw [List.take_left' hlen, hindex]
          exact hrange
        · exact hrest
  · exact ⟨h.chain, (h.connSend (wireInRange_control (by decide) _)).wire⟩

theorem Ranged.markSendCompleted (h : Ranged apt) (head : List UInt8) :
    Ranged (apt.markSendCompleted head) := by
  unfold Endpoint.markSendCompleted
  split
  · exact ⟨h.chain, h.wire⟩
  · exact h

theorem Ranged.onack (h : Ranged apt) (buf : List UInt8) : Ranged (apt.onack buf) := by
  have hmark := h.markSendCompleted buf
  rcases apt.onack_cases buf with ⟨-, heq, -⟩ | ⟨ref, -, ⟨-, heq, -⟩ | ⟨package, -, hlast⟩⟩
  · rw [heq]
    exact h
  · rw [heq]
    exact hmark
  · rcases hlast with ⟨-, heq, -⟩ | ⟨-, heq, -⟩ <;> rw [heq] <;> exact ⟨hmark.chain, hmark.wire⟩

theorem Ranged.connRead (h : Ranged apt) (buf : List UInt8) : Ranged (apt.connRead cfg buf) := by
  have hwait : Ranged { apt with waitingCount := cfg.waitingCount } := ⟨h.chain, h.wire⟩
  unfold Endpoint.connRead Endpoint.onread
  split
  · exact hwait.onack buf
  · split
    · rename_i hlong
      have htake : (buf.take headSize).length = headSize := by
        rw [List.length_take]
        omega
      simp only
      split
      · unfold Endpoint.onControl
        split
        · split
          · split
            · exact hwait
            · split <;> exact ⟨h.chain, h.wire⟩
          · exact hwait
        · split <;> exact ⟨h.chain, h.wire⟩
      · split
        · split
          · exact hwait.connSend (wireInRange_control (by decide) _)
          · rename_i w hw
            have hack : Ranged (({ apt with waitingCount := cfg.waitingCount } : Endpoint).acknowledge
                cfg w (buf.take headSize)) := by
              unfold Endpoint.acknowledge
              simp only
              split
              · exact hwait.push (p := ackPackage _ _) ⟨htake, fun hfalse => by cases hfalse⟩
              · exact hwait
            unfold Endpoint.onPackage Endpoint.takePackage Endpoint.storePart
            simp only
            split
            · exact hack
            · split
              · exact ⟨hack.chain, hack.wire⟩
              · split
                · exact hack
                · split <;> exact ⟨hack.chain, hack.wire⟩
        · exact hwait
    · exact hwait

/-- What is queued again was queued before. -/
theorem Ranged.visit (h : Ranged apt) {budget pending : ℕ} (ht : Tally budget pending apt)
    (v : Endpoint.Visit) : Ranged (apt.visit v).1 := by
  unfold Endpoint.visit
  split
  · exact h
  · rename_i ref href
    split
    · split
      · exact h
      · rename_i package hlookup
        split
        · exact h.markSendCompleted v.head
        · split
          · split
            · obtain ⟨i, n, hi, hn, hrow⟩ := ht.rows ref
              have hpush := h.push ((hrow _ (mem_of_lookup hlookup)).2.inRange hi hn)
              exact ⟨hpush.chain, hpush.wire⟩
            · have hmark := h.markSendCompleted v.head
              exact ⟨hmark.chain, hmark.wire⟩
          · exact h
    · exact h

theorem Ranged.visitAll {budget : ℕ} (visits : List Endpoint.Visit) :
    ∀ {pending : ℕ} {apt : Endpoint}, Tally budget pending apt → Ranged apt →
      Ranged (apt.visitAll visits).1 := by
  induction visits with
  | nil =>
      intro pending apt _ h
      exact h
  | cons v visits ih =>
      intro pending apt ht h
      exact ih (ht.visit v).1 (h.visit ht v)

/-- **`_check_timeout`** keeps the tally and the range. -/
theorem tally_checkTimeout {budget : ℕ} (ht : Tally budget 0 apt) (h : Ranged apt)
    (visits : List Endpoint.Visit) :
    Tally budget 0 (apt.checkTimeout visits) ∧ Ranged (apt.checkTimeout visits) := by
  obtain ⟨hvs, hps⟩ := Tally.visitAll visits ht
  have hqueue : ∀ (ps : List Package) (apt : Endpoint), Tally budget ps.length apt → Ranged apt →
      (∀ p ∈ ps, ∃ i, InRange i ∧ p = cancelPackage i) →
      Tally budget 0 (ps.foldl (fun apt p => apt.queueAll [p]) apt) ∧
        Ranged (ps.foldl (fun apt p => apt.queueAll [p]) apt) := by
    intro ps
    induction ps with
    | nil =>
        intro apt ht h _
        exact ⟨ht, h⟩
    | cons p ps ih =>
        intro apt ht h hps
        obtain ⟨i, hi, rfl⟩ := hps p List.mem_cons_self
        exact ih _ (ht.queueCancel hi) (h.queueAll (row_cancel hi))
          fun q hq => hps q (List.mem_cons_of_mem _ hq)
  rw [Nat.zero_add] at hvs
  exact hqueue _ _ hvs (Ranged.visitAll visits ht h) hps

end Ranged

/-! ## Whole runs -/

/-- What holds in every state of a run: the window stands where the indices it has moved
off lead to, and these are paid for. -/
structure RangeInv (first : ℕ) (s : Solo) : Prop where
  numbered : Numbered first s
  passed : s.passed = (List.range s.passed.length).map (indexOf first)
  window : s.apt.sendWindow = indexOf first s.passed.length
  tally : ∃ budget, s.passed.length + budget = s.used.length ∧ Tally budget 0 s.apt
  ranged : Ranged s.apt

section Runs

variable {cfg : Config} {first : ℕ} {s s' : Solo} {a : Act}

theorem inRange_indexOf (h₁ : 1 ≤ first) (h₂ : first < maxOutputIndex) (k : ℕ) :
    InRange (indexOf first k) := by
  refine ⟨?_, Serial.nth_lt h₂ (by decide)⟩
  induction k with
  | zero => exact h₁
  | succ k ih =>
      rw [indexOf_succ, Serial.next]
      split <;> omega

theorem RangeInv.inRange (h : RangeInv first s) (h₁ : 1 ≤ first) (h₂ : first < maxOutputIndex) :
    IndicesInRange s := by
  refine ⟨h.numbered.index ▸ inRange_indexOf h₁ h₂ _, h.window ▸ inRange_indexOf h₁ h₂ _, ?_,
    h.ranged.wire, ?_⟩
  · intro p hp
    obtain ⟨hmem, hack⟩ := List.mem_filter.mp hp
    exact (h.ranged.chain p hmem).2 (by simpa using hack)
  · obtain ⟨budget, hsum, -⟩ := h.tally
    rw [h.passed, h.numbered.used]
    obtain ⟨rest, hrest⟩ := Nat.exists_eq_add_of_le (by omega : s.passed.length ≤ s.used.length)
    rw [hrest, List.range_add, List.map_append]
    exact List.prefix_append _ _

theorem rangeInv_init (cfg : Config) (first : ℕ) : RangeInv first (Solo.init cfg first) where
  numbered := numbered_init cfg first
  passed := rfl
  window := rfl
  tally := by
    refine ⟨0, rfl, ?_, ?_, ?_, ?_, ?_⟩
    · intro r
      exact ⟨1, 0, ⟨le_rfl, by decide⟩, by decide, by simp [Solo.init, initConn]⟩
    · simp [Solo.init, initConn]
    · simp [Solo.init, initConn]
    · simp [Solo.init, initConn]
    · have hlive : (initConn cfg first).live = ∅ := by
        ext r
        simp [mem_live, initConn]
      simp [Solo.init, hlive]
      simp [initConn]
  ranged := ⟨by simp [Solo.init, initConn], by simp [Solo.init, initConn]⟩

/-- The indices the window moves off, and where it stands afterwards. -/
theorem passes_eq (h₂ : first < maxOutputIndex) (apt : Endpoint) {j : ℕ}
    (hwindow : apt.sendWindow = indexOf first j) (buf : List UInt8) :
    apt.passes buf
        = (List.range (apt.passes buf).length).map (fun i => indexOf first (j + i)) ∧
      (apt.onack buf).sendWindow = indexOf first (j + (apt.passes buf).length) := by
  have hmark : (apt.markSendCompleted buf).sendWindow = apt.sendWindow :=
    congrArg (fun p => p.2.1) (place_markSendCompleted apt buf)
  rcases apt.onack_cases buf with ⟨-, heq, hpass⟩ | ⟨ref, href, hcases⟩
  · rw [heq, hpass]
    exact ⟨rfl, hwindow⟩
  · rcases hcases with ⟨-, heq, hpass⟩ | ⟨package, -, ⟨-, heq, hpass⟩ | ⟨-, heq, hpass⟩⟩
    · rw [heq, hpass]
      exact ⟨rfl, hmark.trans hwindow⟩
    · rw [heq, hpass]
      exact ⟨rfl, hmark.trans hwindow⟩
    · obtain ⟨htrail, hplace, -⟩ := Serial.trail_spec nextWindow
        (insert package.outputIndex apt.sendWindowHoles).card
        (insert package.outputIndex apt.sendWindowHoles) apt.sendWindow
      have hwithout := place_without apt ref buf
      have hholes : (apt.without ref buf).sendWindowHoles = apt.sendWindowHoles :=
        congrArg (fun p => p.2.2) hwithout
      have hstart : (apt.without ref buf).sendWindow = apt.sendWindow :=
        congrArg (fun p => p.2.1) hwithout
      rw [heq, hpass]
      refine ⟨?_, ?_⟩
      · nth_rewrite 1 [htrail]
        simp only [hwindow, nextWindow_iterate h₂]
      · show (applyWindow (apt.without ref buf).sendWindowHoles (apt.without ref buf).sendWindow
          package.outputIndex).2 = _
        rw [hholes, hstart, applyWindow, hplace, hwindow, nextWindow_iterate h₂]

/-- **Every step keeps the indices in range.** -/
theorem step_rangeInv (h₁ : 1 ≤ first) (h₂ : first < maxOutputIndex) (h : RangeInv first s)
    (hstep : s.step cfg a = some s') : RangeInv first s' := by
  have hnum := step_numbered h.numbered hstep
  obtain ⟨budget, hsum, htally⟩ := h.tally
  cases a with
  | send buf =>
      cases hstep
      by_cases hmax : buf.length > cfg.maxPayloadSize
      · simp only [if_pos hmax, Endpoint.send] at hnum ⊢
        exact ⟨hnum, h.passed, h.window, ⟨budget, hsum, htally⟩, h.ranged⟩
      · simp only [if_neg hmax] at hnum ⊢
        have hrow : Row s.apt.outputIndex (messagePackages cfg s.apt.outputIndex buf).length
            (messagePackages cfg s.apt.outputIndex buf) :=
          row_message (h.numbered.index ▸ inRange_indexOf h₁ h₂ _) (by omega)
        have hwindow : (s.apt.send cfg buf).sendWindow = s.apt.sendWindow :=
          congrArg (fun p => p.2.1) (place_send cfg s.apt (by omega))
        refine ⟨hnum, h.passed, hwindow.trans h.window, ⟨budget + 1, ?_, ?_⟩, ?_⟩
        · rw [List.length_append, List.length_singleton]
          simp only
          omega
        · simp only [Endpoint.send, if_neg hmax]
          have hnext : Tally budget _ { s.apt with
              outputIndex := Serial.next maxOutputIndex s.apt.outputIndex } :=
            htally.of_same rfl rfl rfl rfl
          exact hnext.queueAll hrow
        · simp only [Endpoint.send, if_neg hmax]
          have hnext : Ranged { s.apt with
              outputIndex := Serial.next maxOutputIndex s.apt.outputIndex } :=
            h.ranged.of_same rfl rfl
          exact hnext.queueAll hrow
  | ready =>
      cases hstep
      have hplace := unqueued_place.sendReady cfg s.apt
      refine ⟨hnum, h.passed, (congrArg (fun p => p.2.1) hplace).trans h.window,
        ⟨budget, hsum, ?_⟩, h.ranged.sendReady⟩
      obtain ⟨hmaps, hparts, hcount⟩ : (s.apt.sendReady cfg).maps = s.apt.maps ∧
          (s.apt.sendReady cfg).outputPackagePartsMap = s.apt.outputPackagePartsMap ∧
            (s.apt.sendReady cfg).mapCount = s.apt.mapCount := by
        unfold Endpoint.sendReady
        split
        · split
          · exact ⟨rfl, rfl, rfl⟩
          · unfold Endpoint.transmit
            split
            · exact ⟨rfl, rfl, rfl⟩
            · split <;> exact ⟨rfl, rfl, rfl⟩
        · exact ⟨rfl, rfl, rfl⟩
      exact htally.of_same hmaps hparts hcount (congrArg (fun p => p.2.2) hplace)
  | read buf =>
      cases hstep
      have hranged : Ranged (s.apt.connRead cfg buf) := h.ranged.connRead buf
      by_cases hlen : buf.length = headSize
      · simp only [if_pos hlen] at hnum ⊢
        have heq := connRead_of_head cfg s.apt hlen
        have hwait : Tally budget _ { s.apt with waitingCount := cfg.waitingCount } :=
          htally.of_same rfl rfl rfl rfl
        obtain ⟨hpasses, hwindow⟩ := passes_eq h₂ { s.apt with waitingCount := cfg.waitingCount } h.window buf
        obtain ⟨hle, hnew⟩ := hwait.onack buf
        have hsame : ({ s.apt with waitingCount := cfg.waitingCount } : Endpoint).passes buf
            = s.apt.passes buf := rfl
        rw [hsame] at hpasses hwindow hle hnew
        refine ⟨hnum, ?_, ?_, ⟨budget - (s.apt.passes buf).length, ?_, ?_⟩, hranged⟩
        · simp only [List.length_append, List.range_add, List.map_append, List.map_map]
          rw [← h.passed]
          congr 1
        · simp only [List.length_append]
          rw [heq]
          exact hwindow
        · simp only [List.length_append]
          omega
        · simp only [heq]
          exact hnew
      · simp only [if_neg hlen] at hnum ⊢
        have hsame := sameFlow_connRead cfg s.apt hlen
        exact ⟨hnum, h.passed, hsame.window.trans h.window, ⟨budget, hsum,
          htally.of_same hsame.maps hsame.partsMap hsame.mapCount hsame.holes⟩, hranged⟩
  | timeout visits =>
      cases hstep
      obtain ⟨hnew, hranged⟩ := tally_checkTimeout htally h.ranged visits
      exact ⟨hnum, h.passed, (congrArg (fun p => p.2.1) (place_checkTimeout s.apt visits)).trans
        h.window, ⟨budget, hsum, hnew⟩, hranged⟩

/-- **The range of the indices.**  Whatever index `init_conn` chooses, the indices stay in
range in every run, of any length, and the send window never steps over the next index,
exactly when the choice is not `MAX_OUTPUT_INDEX` itself. -/
theorem index_range (cfg : Config) (first : ℕ) (hstarts : Starts first) :
    (∀ acts s, run (Solo.step cfg) (Solo.init cfg first) acts = some s → IndicesInRange s) ↔
      first ≠ maxOutputIndex := by
  constructor
  · rintro h rfl
    exact absurd (h [] _ rfl).index.2 (lt_irrefl _)
  · intro hne acts s hrun
    have h₂ : first < maxOutputIndex := lt_of_le_of_ne hstarts.2 hne
    have hinv : RangeInv first s :=
      run_keeps (fun s a s' h hstep => step_rangeInv hstarts.1 h₂ h hstep)
        (rangeInv_init cfg first) hrun
    exact hinv.inRange hstarts.1 h₂

/-- One message, sent with index `i` and acknowledged. -/
def firstMessage (i : ℕ) : List Act := [.send [1], .ready, .ready, .read (packHead i 1 1)]

/-- The last index in range: the first message has it, and the window wraps after it. -/
theorem index_range_last : Starts (maxOutputIndex - 1) ∧ ∃ s,
    run (Solo.step .unset) (Solo.init .unset (maxOutputIndex - 1))
      (firstMessage (maxOutputIndex - 1)) = some s ∧ s.apt.sendWindow = 1 ∧ IndicesInRange s :=
  ⟨⟨by decide, by decide⟩, _, rfl, by decide +kernel,
    (index_range .unset (maxOutputIndex - 1) ⟨by decide, by decide⟩).mpr (by decide)
      (firstMessage (maxOutputIndex - 1)) _ rfl⟩

/-- A start at `MAX_OUTPUT_INDEX`: the first message is sent with an index that is out of
range, its acknowledgement would move the window out of range too, and a receiver, which
has been told the window, takes no notice of either. -/
theorem index_out_of_range : Starts maxOutputIndex ∧ ∃ s,
    run (Solo.step .unset) (Solo.init .unset maxOutputIndex)
      (firstMessage maxOutputIndex) = some s ∧
      ¬ InRange s.apt.sendWindow ∧ s.used = [maxOutputIndex] ∧ ¬ IndicesInRange s ∧
      ((s.apt.wire.foldl (Endpoint.connRead .unset) (initConn .unset 1)).recvWindow = none ∧
        (s.apt.wire.foldl (Endpoint.connRead .unset) (initConn .unset 1)).readLog = []) := by
  refine ⟨⟨by decide, le_rfl⟩, _, rfl, ?_, by decide +kernel, ?_, by decide +kernel⟩
  · rw [InRange]
    decide +kernel
  · intro h
    have hwindow := h.window
    rw [InRange] at hwindow
    revert hwindow
    decide +kernel

end Runs

end LuaFan.ReliableUdp
