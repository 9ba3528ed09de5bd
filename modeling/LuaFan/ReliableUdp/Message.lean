/-
# Messages and their packages

The head of a package can be read back (`unpackHead_packHead`), the bodies of the
packages of a message are the message (`flatMap_bytes`), and the items of a message
whose packages have all arrived are put together to the message again
(`tableConcat_of_parts`).
-/
import LuaFan.Lua.Value
import LuaFan.ReliableUdp.Endpoint

namespace LuaFan.ReliableUdp

/-! ## Heads -/

@[simp] theorem length_packHead (i c p : ℕ) : (packHead i c p).length = headSize := by
  simp [packHead, headSize]

/-- **A head can be read back.** -/
theorem unpackHead_packHead {i c p : ℕ} (hi : i < 2 ^ 32) (hc : c < 2 ^ 16) (hp : p < 2 ^ 16) :
    unpackHead (packHead i c p) = ⟨i, c, p⟩ := by
  have h₁ : (packHead i c p).take 4 = leBytes 4 i := by
    rw [packHead, List.append_assoc]
    exact List.take_left' (length_leBytes 4 i)
  have h₂ : ((packHead i c p).drop 4).take 2 = leBytes 2 c := by
    rw [packHead, List.append_assoc, List.drop_left' (length_leBytes 4 i)]
    exact List.take_left' (length_leBytes 2 c)
  have h₃ : ((packHead i c p).drop 6).take 2 = leBytes 2 p := by
    rw [packHead, List.drop_left' (by simp)]
    exact List.take_of_length_le (by simp)
  have hi' : i % 256 ^ 4 = i := Nat.mod_eq_of_lt (by omega)
  have hc' : c % 256 ^ 2 = c := Nat.mod_eq_of_lt (by omega)
  have hp' : p % 256 ^ 2 = p := Nat.mod_eq_of_lt (by omega)
  rw [unpackHead, h₁, h₂, h₃, ofLe_leBytes, ofLe_leBytes, ofLe_leBytes, hi', hc', hp']

theorem ofLe_lt (s : List UInt8) : ofLe s < 256 ^ s.length := by
  induction s with
  | nil => simp [ofLe]
  | cons b s ih =>
      have hb := b.toNat_lt
      rw [ofLe, List.length_cons, pow_succ]
      omega

/-- The place of a package has 16 bits. -/
theorem packageIndex_unpackHead_le (head : List UInt8) : (unpackHead head).packageIndex ≤ 65535 := by
  have hlt := ofLe_lt ((head.drop 6).take 2)
  have hlen : ((head.drop 6).take 2).length ≤ 2 := List.length_take_le _ _
  have hpow : 256 ^ ((head.drop 6).take 2).length ≤ 256 ^ 2 :=
    Nat.pow_le_pow_right (by norm_num) hlen
  show ofLe ((head.drop 6).take 2) ≤ 65535
  omega

/-! ## The packages of a message -/

/-- A package as it is sent. -/
def Package.datagram (p : Package) : List UInt8 := p.head ++ p.body.bytes

section Packages

variable {cfg : Config} {outputIndex : ℕ} {buf : List UInt8}

/-- The last of several packages begins within the message. -/
theorem indexCount_mul_lt (hlen : buf.length > cfg.bodySize) (hpos : 0 < cfg.bodySize) :
    indexCount cfg buf * cfg.bodySize < buf.length ∧
      buf.length ≤ (indexCount cfg buf + 1) * cfg.bodySize := by
  have hdiv := Nat.div_add_mod buf.length cfg.bodySize
  have hmod := Nat.mod_lt buf.length hpos
  rw [Nat.mul_comm] at hdiv
  unfold indexCount
  split
  · rename_i hzero
    have hone : 1 ≤ buf.length / cfg.bodySize := Nat.div_pos hlen.le hpos
    obtain ⟨q, hq⟩ := Nat.exists_eq_add_of_le' hone
    rw [hq] at hdiv ⊢
    rw [Nat.add_sub_cancel]
    rw [Nat.succ_mul] at hdiv ⊢
    omega
  · rw [Nat.succ_mul]
    omega

theorem bodySize_pos (hmax : buf.length ≤ cfg.maxPayloadSize) (hlen : buf.length > cfg.bodySize) :
    0 < cfg.bodySize := by
  by_contra hzero
  rw [Config.maxPayloadSize, show cfg.bodySize = 0 by omega] at hmax
  omega

/-- **The number and the form of the packages.** -/
theorem getElem?_messagePackages {i : ℕ} {p : Package}
    (h : (messagePackages cfg outputIndex buf)[i]? = some p) :
    p.head = packHead outputIndex (messagePackages cfg outputIndex buf).length (i + 1) ∧
      p.outputIndex = outputIndex ∧ p.ack = false := by
  unfold messagePackages at h ⊢
  by_cases hlen : buf.length > cfg.bodySize
  · rw [if_pos hlen] at h ⊢
    rw [List.getElem?_map] at h
    obtain ⟨j, hj, rfl⟩ := Option.map_eq_some_iff.mp h
    obtain ⟨hlt, rfl⟩ := List.getElem?_eq_some_iff.mp hj
    simp
  · rw [if_neg hlen] at h ⊢
    cases i with
    | zero =>
        cases h
        simp
    | succ i => simp at h

theorem length_messagePackages (hmax : buf.length ≤ cfg.maxPayloadSize) :
    0 < (messagePackages cfg outputIndex buf).length ∧
      (messagePackages cfg outputIndex buf).length ≤ 65535 := by
  unfold messagePackages
  split
  · rename_i hlen
    have hpos := bodySize_pos hmax hlen
    obtain ⟨hlt, -⟩ := indexCount_mul_lt hlen hpos
    rw [List.length_map, List.length_range]
    refine ⟨Nat.succ_pos _, ?_⟩
    rw [Config.maxPayloadSize, Nat.mul_comm] at hmax
    exact Nat.lt_of_mul_lt_mul_right (hlt.trans_le hmax)
  · simp

/-- **The bodies of the packages are the message.** -/
theorem flatMap_bytes (hmax : buf.length ≤ cfg.maxPayloadSize) :
    (messagePackages cfg outputIndex buf).flatMap (fun p => p.body.bytes) = buf := by
  unfold messagePackages
  split
  · rename_i hlen
    have hpos := bodySize_pos hmax hlen
    have hslices := flatten_slices cfg.bodySize buf (indexCount cfg buf + 1)
    rw [List.take_of_length_le (indexCount_mul_lt hlen hpos).2] at hslices
    rw [List.flatMap_map, List.flatMap_def]
    have hbytes : ∀ i, (Body.part buf (i * cfg.bodySize + 1)
        (i * cfg.bodySize + cfg.bodySize)).bytes = (buf.drop (i * cfg.bodySize)).take cfg.bodySize := by
      intro i
      rw [Body.bytes, Nat.add_sub_cancel, show i * cfg.bodySize + cfg.bodySize + 1 -
        (i * cfg.bodySize + 1) = cfg.bodySize by omega]
    simp only [hbytes]
    exact hslices
  · simp [Body.bytes]

end Packages

/-! ## Items -/

theorem full_iff {items : ℕ → Option (List UInt8)} {count : ℕ} :
    Endpoint.full items count = true ↔ ∀ i < count, (items (i + 1)).isSome = true := by
  simp [Endpoint.full]

theorem concatFrom_eq (items : ℕ → Option (List UInt8)) (bodies : List (List UInt8)) :
    ∀ (fuel i : ℕ), bodies.length ≤ fuel →
      (∀ t, (h : t < bodies.length) → items (i + t) = some bodies[t]) →
      items (i + bodies.length) = none → Endpoint.concatFrom items fuel i = bodies.flatten := by
  induction bodies with
  | nil =>
      intro fuel i _ _ hnone
      cases fuel with
      | zero => rfl
      | succ fuel =>
          rw [List.length_nil, Nat.add_zero] at hnone
          simp [Endpoint.concatFrom, hnone]
  | cons b bodies ih =>
      intro fuel i hfuel hitems hnone
      cases fuel with
      | zero => simp at hfuel
      | succ fuel =>
          have hfirst : items i = some b := hitems 0 (by simp)
          have hrest := ih fuel (i + 1) (by simpa using hfuel) (fun t ht => by
            have := hitems (t + 1) (by simpa using ht)
            rw [Nat.add_assoc, Nat.add_comm 1 t]
            exact this) (by
            rw [List.length_cons] at hnone
            rw [Nat.add_assoc, Nat.add_comm 1]
            exact hnone)
          simp [Endpoint.concatFrom, hfirst, hrest]

/-- **All items of a message give the message.** -/
theorem tableConcat_of_parts {cfg : Config} {outputIndex : ℕ} {buf : List UInt8}
    (hmax : buf.length ≤ cfg.maxPayloadSize) {items : ℕ → Option (List UInt8)}
    (hitems : ∀ t b, items t = some b → ∃ i p, t = i + 1 ∧
      (messagePackages cfg outputIndex buf)[i]? = some p ∧ b = p.body.bytes)
    (hfull : Endpoint.full items (messagePackages cfg outputIndex buf).length = true) :
    Endpoint.tableConcat items = buf := by
  have hconcat := concatFrom_eq items
    ((messagePackages cfg outputIndex buf).map fun p => p.body.bytes) 65535 1
    (by simpa using (length_messagePackages hmax).2) (fun t ht => by
      rw [List.length_map] at ht
      obtain ⟨b, hb⟩ := Option.isSome_iff_exists.mp (full_iff.mp hfull t ht)
      obtain ⟨i, p, hi, hp, rfl⟩ := hitems _ _ hb
      obtain rfl : t = i := by omega
      obtain ⟨hlt, hget⟩ := List.getElem?_eq_some_iff.mp hp
      rw [Nat.add_comm, hb, List.getElem_map, hget]) (by
      cases hnone : items (1 + (List.map (fun p => p.body.bytes)
          (messagePackages cfg outputIndex buf)).length) with
      | none => rfl
      | some b =>
          obtain ⟨i, p, hi, hp, -⟩ := hitems _ _ hnone
          obtain ⟨hlt, -⟩ := List.getElem?_eq_some_iff.mp hp
          rw [List.length_map] at hi
          omega)
  rw [Endpoint.tableConcat, hconcat, ← List.flatMap_def, flatMap_bytes hmax]

end LuaFan.ReliableUdp
