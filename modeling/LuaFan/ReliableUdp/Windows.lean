/-
# The windows of both sides

`chain_mt:pop` tests a package against the send window, and `_onread` tests its index
against the receive window, which may be ahead of the other one by a window and one.
Both compute distances with the modulus `maxOutputIndex`, although the indices come
back to 1 one step earlier.

`windows_agree`: **what the one side sends the other side acknowledges**, for indices
less than a quarter of the range behind the send window or ahead of it, as long as the
window size leaves the two tests a quarter of the range (or more than half of it, when
nothing ahead is outside), and the package has a body: a datagram of 8 bytes is taken
for an acknowledgement.
-/
import LuaFan.ReliableUdp.Range

namespace LuaFan.ReliableUdp

/-! ## The property -/

/-- The window test of `chain_mt:pop`. -/
def sendable (cfg : Config) (window outputIndex : ℕ) : Bool :=
  oldPackage window outputIndex || !packageOutside cfg window outputIndex

/-- The index is behind the window by less than a quarter of the range. -/
def NearBehind (window outputIndex : ℕ) : Prop :=
  ∃ b, 4 * b < maxOutputIndex - 1 ∧ nextWindow^[b] outputIndex = window

/-- The index is at the window or ahead of it: it is reached in less than half of the
range. -/
def Ahead (window outputIndex : ℕ) : Prop :=
  ∃ f, 2 * f < maxOutputIndex - 1 ∧ nextWindow^[f] window = outputIndex

/-- `_onread` queues an acknowledgement for the package. -/
def Acknowledges (cfg : Config) (apt : Endpoint) (p : Package) : Prop :=
  (apt.onread cfg p.datagram).1.outputChain = apt.outputChain ++ [ackPackage p.head p.outputIndex]

/-- **Every package with this body that the window test of the sender lets through is
acknowledged**, wherever the two windows are. -/
def WindowsAgree (cfg : Config) (body : List UInt8) : Prop :=
  ∀ (apt : Endpoint) (p : Package) (count packageIndex window steps : ℕ),
    InRange window → InRange p.outputIndex → steps ≤ cfg.windowSize + 1 →
    apt.recvWindow = some (nextWindow^[steps] window) →
    NearBehind window p.outputIndex ∨ Ahead window p.outputIndex →
    p.head = packHead p.outputIndex count packageIndex → count < 2 ^ 16 → packageIndex < 2 ^ 16 →
    p.body.bytes = body → sendable cfg window p.outputIndex = true → Acknowledges cfg apt p

/-- The window size and one are at most a quarter of the range, or at least half of it. -/
def WindowFits (cfg : Config) : Prop :=
  4 * (cfg.windowSize + 1) ≤ maxOutputIndex ∨ maxOutputIndexHalf ≤ cfg.windowSize + 1

/-! ## What `_onread` does with a package -/

section Receiving

variable {cfg : Config} {apt : Endpoint}

theorem outputChain_takePackage (window : ℕ) (h : Head) (body : List UInt8) :
    (apt.takePackage cfg window h body).outputChain = apt.outputChain := by
  unfold Endpoint.takePackage Endpoint.storePart
  simp only
  split
  · rfl
  · split
    · rfl
    · split
      · rfl
      · split <;> rfl

/-- **A package with a body is acknowledged unless it is outside and ahead.** -/
theorem acknowledges_iff {p : Package} {count packageIndex window : ℕ}
    (hindex : p.outputIndex < maxOutputIndex) (hwindow : apt.recvWindow = some window)
    (hhead : p.head = packHead p.outputIndex count packageIndex) (hcount : count < 2 ^ 16)
    (hplace : packageIndex < 2 ^ 16) (hbody : p.body.bytes ≠ []) :
    Acknowledges cfg apt p ↔
      packageOutside cfg window p.outputIndex = false ∨ futurePackage window p.outputIndex = false := by
  have hlen : p.head.length = headSize := by rw [hhead, length_packHead]
  have hpos : 0 < p.body.bytes.length := List.length_pos_iff.mpr hbody
  have hmax : maxOutputIndex = 0x0ffffff0 := rfl
  have hhead' : unpackHead p.head = ⟨p.outputIndex, count, packageIndex⟩ := by
    rw [hhead]
    exact unpackHead_packHead (by omega) hcount hplace
  have hctrl : p.outputIndex ≠ windowCtrl := by
    have : windowCtrl = 0x0ffffffe := rfl
    omega
  have hread : (apt.onread cfg p.datagram).1 = apt.onPackage cfg window p.head p.body.bytes := by
    unfold Endpoint.onread Package.datagram
    rw [List.length_append, if_neg (by omega), if_pos (by omega), List.take_left' hlen,
      List.drop_left' hlen]
    simp only [hhead', if_neg hctrl, if_pos hindex, hwindow]
  unfold Acknowledges
  rw [hread, Endpoint.onPackage, outputChain_takePackage, Endpoint.acknowledge]
  simp only [hhead', Bool.or_eq_true, Bool.not_eq_true']
  split
  · rename_i h
    exact ⟨fun _ => h, fun _ => rfl⟩
  · rename_i h
    constructor
    · intro hchain
      have := congrArg List.length hchain
      simp at this
    · intro h'
      exact absurd h' h

/-- Without a body it is taken for an acknowledgement. -/
theorem not_acknowledges_empty {p : Package} (hlen : p.head.length = headSize)
    (hnone : apt.outputPackagePartsMap p.head = none) (hbody : p.body.bytes = []) :
    ¬Acknowledges cfg apt p := by
  unfold Acknowledges Package.datagram
  rw [hbody, List.append_nil, Endpoint.onread, if_pos hlen, Endpoint.onack, hnone]
  intro hchain
  have := congrArg List.length hchain
  simp at this

end Receiving

/-! ## Distances -/

section Distances

variable {cfg : Config} {first j k : ℕ}

/-- An index ahead of a window is not behind it, by the arithmetic of the code. -/
theorem behind_of_le (h : Starts first) (hfirst : first < maxOutputIndex)
    (hk : k < maxOutputIndexHalf) : maxOutputIndexHalf ≤ behind first (indexOf first k) := by
  have hmax : maxOutputIndexHalf = 0x07fffff8 := by decide
  have hmax' : maxOutputIndex = 0x0ffffff0 := rfl
  rw [hmax] at hk
  rw [indexOf, Serial.nth_eq h.1 hfirst (by omega), behind, hmax]
  rw [hmax'] at hfirst ⊢
  split_ifs <;> omega

/-- A window that has moved on is no further from what is still ahead of it. -/
theorem ahead_anti (h : Starts first) (hfirst : first < maxOutputIndex) (hjk : j ≤ k)
    (hk : k < maxOutputIndexHalf) :
    ahead (indexOf first j) (indexOf first k) ≤ ahead first (indexOf first k) := by
  have hmax : maxOutputIndexHalf = 0x07fffff8 := by decide
  have hmax' : maxOutputIndex = 0x0ffffff0 := rfl
  rw [hmax] at hk
  rw [indexOf, indexOf, Serial.nth_eq h.1 hfirst (by omega), Serial.nth_eq h.1 hfirst (by omega),
    ahead, ahead]
  rw [hmax'] at hfirst ⊢
  split_ifs <;> omega

theorem iterate_eq_indexOf (hfirst : first < maxOutputIndex) (t : ℕ) :
    nextWindow^[t] first = indexOf first t := by
  have := nextWindow_iterate (j := 0) hfirst t
  rwa [Nat.zero_add] at this

/-- **What is ahead and let through is not dropped**: it is still inside, or already
behind the receive window. -/
theorem agree_ahead (h : InRange first) (hj : j < maxOutputIndexHalf) (hk : k < maxOutputIndexHalf)
    (hsend : sendable cfg first (indexOf first k) = true) :
    packageOutside cfg (indexOf first j) (indexOf first k) = false ∨
      futurePackage (indexOf first j) (indexOf first k) = false := by
  have hstarts : Starts first := ⟨h.1, h.2.le⟩
  rcases Nat.lt_or_ge k j with hlt | hge
  · right
    have := ahead_of_lt hstarts h.2 hlt hj
    simp only [futurePackage, decide_eq_false_iff_not]
    omega
  · left
    have hold := behind_of_le hstarts h.2 hk
    have hanti := ahead_anti hstarts h.2 hge hk
    simp only [sendable, oldPackage, packageOutside, Bool.or_eq_true, decide_eq_true_eq,
      Bool.not_eq_true', decide_eq_false_iff_not] at hsend ⊢
    omega

/-- **What is behind stays behind**, as long as both distances are less than half of the
range. -/
theorem agree_behind (h : InRange first) (hjk : j + k < maxOutputIndexHalf) :
    packageOutside cfg (indexOf first (j + k)) first = false ∨
      futurePackage (indexOf first (j + k)) first = false := by
  have hstarts : Starts first := ⟨h.1, h.2.le⟩
  rcases Nat.eq_zero_or_pos (j + k) with hzero | hpos
  · left
    rw [hzero]
    simp [packageOutside, ahead, indexOf]
  · right
    have hle := ahead_of_lt hstarts h.2 hpos hjk
    have hfirst : indexOf first 0 = first := rfl
    rw [hfirst] at hle
    simp only [futurePackage, decide_eq_false_iff_not]
    omega

end Distances

/-- The endpoint of a receiver whose window is set. -/
def receiverAt (cfg : Config) (window : ℕ) : Endpoint :=
  { initConn cfg 1 with recvWindow := some window }

/-- A package of one datagram. -/
def lonePackage (outputIndex : ℕ) (body : List UInt8) : Package :=
  ⟨packHead outputIndex 1 1, .body body, outputIndex, false, false, false⟩

/-- **The two window tests agree exactly for packages with a body, and window sizes that
fit the range.** -/
theorem windows_agree (cfg : Config) (body : List UInt8) :
    WindowsAgree cfg body ↔ body ≠ [] ∧ WindowFits cfg := by
  have hmax : maxOutputIndex = 0x0ffffff0 := rfl
  have hhalf : maxOutputIndexHalf = 0x07fffff8 := by decide
  constructor
  · intro h
    have hbody : body ≠ [] := by
      rintro rfl
      have hack := h (receiverAt cfg 1) (lonePackage 1 []) 1 1 1 0 ⟨le_rfl, by omega⟩
        ⟨le_rfl, by show 1 < _; omega⟩ (by omega) rfl (Or.inr ⟨0, by omega, rfl⟩) rfl (by norm_num)
        (by norm_num) rfl (by simp [sendable, packageOutside, ahead, lonePackage])
      exact not_acknowledges_empty (length_packHead 1 1 1) rfl rfl hack
    refine ⟨hbody, ?_⟩
    by_contra hfits
    unfold WindowFits at hfits
    push Not at hfits
    -- half of the range from the index to the receive window, and the wrap in between
    have hlast : nextWindow^[cfg.windowSize + 1] (maxOutputIndex - 1) = cfg.windowSize + 1 := by
      rw [iterate_eq_indexOf (by omega), indexOf, Serial.nth_eq (by omega) (by omega) (by omega),
        if_neg (by omega)]
      omega
    obtain ⟨b, hb⟩ : ∃ b, b + (cfg.windowSize + 1) = maxOutputIndexHalf :=
      ⟨_, Nat.sub_add_cancel hfits.2.le⟩
    have hbehind : nextWindow^[b] (maxOutputIndex - 1 - b) = maxOutputIndex - 1 := by
      rw [iterate_eq_indexOf (by omega), indexOf, Serial.nth_eq (by omega) (by omega) (by omega),
        if_pos (by omega)]
      omega
    obtain ⟨i, hi⟩ : ∃ i, i = maxOutputIndex - 1 - b := ⟨_, rfl⟩
    rw [← hi] at hbehind
    have hold : behind (maxOutputIndex - 1) i = b := by
      rw [behind, if_neg (by omega)]
      omega
    have hsend : sendable cfg (maxOutputIndex - 1) i = true := by
      rw [sendable, oldPackage, hold, decide_eq_true (by omega)]
      rfl
    have hack := h (receiverAt cfg (cfg.windowSize + 1)) (lonePackage i body) 1 1
      (maxOutputIndex - 1) (cfg.windowSize + 1) ⟨by omega, by omega⟩
      ⟨show 1 ≤ i by omega, show i < _ by omega⟩ le_rfl (by rw [hlast]; rfl)
      (Or.inl ⟨b, by omega, hbehind⟩) rfl (by norm_num) (by norm_num) rfl hsend
    have hdrop := (acknowledges_iff (p := lonePackage i body) (show i < _ by omega) rfl rfl
      (by norm_num) (by norm_num) hbody).mp hack
    have hahead : ahead (cfg.windowSize + 1) i = maxOutputIndexHalf - 1 := by
      rw [ahead, if_pos (by omega)]
      omega
    simp only [packageOutside, futurePackage, lonePackage, hahead, decide_eq_false_iff_not] at hdrop
    omega
  · rintro ⟨hbody, hfits⟩ apt p count packageIndex window steps hwindow hindex hsteps hrecv hnear
      hhead hcount hplace rfl hsend
    rw [acknowledges_iff hindex.2 hrecv hhead hcount hplace hbody]
    rcases hfits with hsmall | hlarge
    · rcases hnear with ⟨b, hb, hplace⟩ | ⟨f, hf, hplace⟩
      · rw [← hplace, ← Function.iterate_add_apply, iterate_eq_indexOf hindex.2]
        exact agree_behind hindex (by omega)
      · rw [iterate_eq_indexOf hwindow.2] at hplace ⊢
        rw [← hplace] at hsend ⊢
        exact agree_ahead hwindow (by omega) (by omega) hsend
    · -- nothing that is ahead is outside
      simp only [packageOutside, futurePackage, decide_eq_false_iff_not]
      omega

/-- A message without bytes is sent over and over: its only package is never
acknowledged, although both windows are at its index. -/
theorem empty_package_unacknowledged :
    sendable Config.unset 1 1 = true ∧ (receiverAt Config.unset 1).recvWindow = some 1 ∧
      messagePackages Config.unset 1 [] = [lonePackage 1 []] ∧
      ¬Acknowledges Config.unset (receiverAt Config.unset 1) (lonePackage 1 []) ∧
      ¬WindowsAgree Config.unset [] := by
  refine ⟨by decide, rfl, rfl, not_acknowledges_empty (length_packHead 1 1 1) rfl rfl, ?_⟩
  intro h
  have hack := h (receiverAt Config.unset 1) (lonePackage 1 []) 1 1 1 0 ⟨le_rfl, by decide⟩
    ⟨le_rfl, by decide⟩ (by decide) rfl (Or.inr ⟨0, by decide, rfl⟩) rfl (by norm_num)
    (by norm_num) rfl (by decide)
  exact not_acknowledges_empty (length_packHead 1 1 1) rfl rfl hack

end LuaFan.ReliableUdp
