/-
# A sender and a receiver of reliable UDP

The network may lose, duplicate, delay and reorder datagrams, so a datagram that was
sent can reach the other side at any time and any number of times.

The messages are numbered from the index the sender starts with.  While fewer than half
an index cycle of messages are sent, the arithmetic of the windows tells what is ahead
of the receive window from what is behind it (`futurePackage_of_le`,
`packageOutside_of_lt`).
-/
import LuaFan.Lib.Machine
import LuaFan.ReliableUdp.Message

namespace LuaFan.ReliableUdp

open Machine

/-! ## The two sides -/

/-- The sides, the payloads given to `send` and the datagrams that have reached the
receiver. -/
structure Link where
  sender : Endpoint
  receiver : Endpoint
  payloads : List (List UInt8)
  got : List (List UInt8)

inductive Event where
  | send (buf : List UInt8)
  | senderReady
  | receiverReady
  | timeout (visits : List Endpoint.Visit)
  | toReceiver (i : ℕ)
  | toSender (i : ℕ)

namespace Link

/-- Both sides are new; their first indices are random. -/
def init (cfg : Config) (first first' : ℕ) : Link :=
  ⟨initConn cfg first, initConn cfg first', [], []⟩

/-- The network hands over any datagram that was sent, by its place among all of
them. -/
def step (cfg : Config) (s : Link) : Event → Option Link
  | .send buf => some
      { s with
        sender := s.sender.send cfg buf
        payloads := if buf.length > cfg.maxPayloadSize then s.payloads else s.payloads ++ [buf] }
  | .senderReady => some { s with sender := s.sender.sendReady cfg }
  | .receiverReady => some { s with receiver := s.receiver.sendReady cfg }
  | .timeout visits => some { s with sender := s.sender.checkTimeout visits }
  | .toReceiver i => s.sender.wire[i]?.map fun buf =>
      { s with receiver := s.receiver.connRead cfg buf, got := s.got ++ [buf] }
  | .toSender i => s.receiver.wire[i]?.map fun buf =>
      { s with sender := s.sender.connRead cfg buf }

end Link

/-! ## Indices -/

/-- The index of the `k`-th message. -/
def indexOf (first k : ℕ) : ℕ := Serial.nth maxOutputIndex first k

/-- An index that the sender can start with. -/
def Starts (first : ℕ) : Prop := 1 ≤ first ∧ first ≤ maxOutputIndex

section Indices

variable {cfg : Config} {first j k n : ℕ}

theorem indexOf_succ : indexOf first (k + 1) = Serial.next maxOutputIndex (indexOf first k) :=
  Serial.nth_succ

theorem indexOf_le (h : Starts first) : indexOf first k ≤ maxOutputIndex :=
  Serial.nth_le h.2 (by decide)

theorem indexOf_inj (h : Starts first) (hj : j ≤ maxOutputIndexHalf) (hk : k ≤ maxOutputIndexHalf)
    (heq : indexOf first j = indexOf first k) : j = k := by
  have hhalf : maxOutputIndexHalf < maxOutputIndex - 1 := by decide
  exact Serial.nth_inj h.1 h.2 (by omega) (by omega) heq

/-- The windows count as the messages do. -/
theorem nextWindow_iterate (hfirst : first < maxOutputIndex) (t : ℕ) :
    nextWindow^[t] (indexOf first j) = indexOf first (j + t) := by
  induction t with
  | zero => rfl
  | succ t ih =>
      have hlt : indexOf first (j + t) < maxOutputIndex := Serial.nth_lt hfirst (by decide)
      rw [Function.iterate_succ_apply', ih, ← Nat.add_assoc, indexOf_succ, nextWindow, Serial.next]
      split_ifs <;> omega

theorem ahead_of_le (h : Starts first) (hfirst : first < maxOutputIndex) (hjk : j ≤ k)
    (hk : k < maxOutputIndexHalf) : ahead (indexOf first j) (indexOf first k) ≤ k - j + 1 := by
  have hmax : maxOutputIndexHalf = 0x07fffff8 := by decide
  have hmax' : maxOutputIndex = 0x0ffffff0 := rfl
  rw [hmax] at hk
  rw [indexOf, indexOf, Serial.nth_eq h.1 hfirst (by omega), Serial.nth_eq h.1 hfirst (by omega),
    ahead]
  rw [hmax'] at hfirst ⊢
  split_ifs <;> omega

theorem ahead_of_lt (h : Starts first) (hfirst : first < maxOutputIndex) (hkj : k < j)
    (hj : j < maxOutputIndexHalf) :
    maxOutputIndexHalf ≤ ahead (indexOf first j) (indexOf first k) := by
  have hmax : maxOutputIndexHalf = 0x07fffff8 := by decide
  have hmax' : maxOutputIndex = 0x0ffffff0 := rfl
  rw [hmax] at hj
  rw [indexOf, indexOf, Serial.nth_eq h.1 hfirst (by omega), Serial.nth_eq h.1 hfirst (by omega),
    ahead, hmax]
  rw [hmax'] at hfirst ⊢
  split_ifs <;> omega

/-- **A message that is not behind the window is seen to be ahead.** -/
theorem futurePackage_of_le (h : Starts first) (hfirst : first < maxOutputIndex) (hjk : j ≤ k)
    (hk : k < n) (hn : n < maxOutputIndexHalf) :
    futurePackage (indexOf first j) (indexOf first k) = true := by
  have := ahead_of_le h hfirst hjk (by omega)
  simp only [futurePackage, decide_eq_true_eq]
  omega

/-- **A message behind the window is seen to be outside.** -/
theorem packageOutside_of_lt (h : Starts first) (hfirst : first < maxOutputIndex)
    (hwindow : cfg.windowSize < maxOutputIndexHalf) (hkj : k < j) (hj : j < maxOutputIndexHalf) :
    packageOutside cfg (indexOf first j) (indexOf first k) = true := by
  have := ahead_of_lt h hfirst hkj hj
  simp only [packageOutside, decide_eq_true_eq]
  omega

/-- **How a window moves**: it passes messages that are marked or settled, and the marks
that go are of messages it has passed. -/
theorem applyWindow_spec (h : Starts first) (hfirst : first < maxOutputIndex) {S : ℕ → Prop}
    {holes : Finset ℕ} (hn : n < maxOutputIndexHalf) (hj : j ≤ n) (hk : k < n) (hS : S k)
    (hpast : ∀ i < j, S i) (hholes : ∀ x ∈ holes, ∃ i < n, x = indexOf first i ∧ S i) :
    ∃ j', j' ≤ n ∧ (applyWindow holes (indexOf first j) (indexOf first k)).2 = indexOf first j' ∧
      (∀ i < j', S i) ∧ j ≤ j' ∧
      (∀ x ∈ (applyWindow holes (indexOf first j) (indexOf first k)).1,
        ∃ i < n, x = indexOf first i ∧ S i) ∧
      ∀ x ∈ insert (indexOf first k) holes,
        x ∈ (applyWindow holes (indexOf first j) (indexOf first k)).1 ∨
          ∃ i < j', x = indexOf first i := by
  have hmarks : ∀ x ∈ insert (indexOf first k) holes, ∃ i < n, x = indexOf first i ∧ S i := by
    intro x hx
    rcases Finset.mem_insert.mp hx with rfl | hx
    · exact ⟨k, hk, rfl, hS⟩
    · exact hholes x hx
  obtain ⟨t, hplace, hpassed, hsub, hrest⟩ := Serial.slide_spec nextWindow
    (insert (indexOf first k) holes).card (insert (indexOf first k) holes) (indexOf first j)
  -- the window has passed only messages that were sent
  have hsettled : ∀ i < t, j + i ≤ n → j + i < n ∧ S (j + i) := by
    intro i hi hle
    have hmem := hpassed i hi
    rw [nextWindow_iterate hfirst] at hmem
    obtain ⟨i', hi', heq, hS'⟩ := hmarks _ hmem
    obtain rfl := indexOf_inj h (by omega) (by omega) heq
    exact ⟨hi', hS'⟩
  have hle : ∀ i ≤ t, j + i ≤ n := by
    intro i
    induction i with
    | zero =>
        intro _
        exact hj
    | succ i ih =>
        intro hi
        have := (hsettled i (by omega) (ih (by omega))).1
        omega
  refine ⟨j + t, hle t le_rfl, ?_, ?_, by omega, fun x hx => hmarks x (hsub hx), ?_⟩
  · rw [← nextWindow_iterate hfirst]
    exact hplace
  · intro i hi
    by_cases hij : i < j
    · exact hpast i hij
    · have := (hsettled (i - j) (by omega) (hle _ (by omega))).2
      rwa [Nat.add_sub_cancel' (by omega)] at this
  · intro x hx
    rcases hrest x hx with h | ⟨i, hi, rfl⟩
    · exact Or.inl h
    · exact Or.inr ⟨j + i, by omega, nextWindow_iterate hfirst i⟩

/-- The loop of the windows has come to its end: the window stands at a message that is
not marked. -/
theorem applyWindow_stops (holes : Finset ℕ) (window outputIndex : ℕ) :
    (applyWindow holes window outputIndex).2 ∉ (applyWindow holes window outputIndex).1 :=
  Serial.slide_stops nextWindow _ _ _ le_rfl

end Indices

end LuaFan.ReliableUdp
