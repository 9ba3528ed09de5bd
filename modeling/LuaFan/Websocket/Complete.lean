/-
# When a WebSocket frame is complete (`src/httpd_websocket.c`)

`websocket_parse_frame` compares the number of bytes in the buffer with the sum of the
header size and the payload length, a sum of 64-bit numbers, and then asks for memory for
the payload.

* `websocket_parse_exact`: **the test is exact unless the sum wraps around to what the
  buffer holds.**
-/
import LuaFan.Websocket.Frame

namespace LuaFan

/-! ## The code -/

/-- What `websocket_parse_frame` returns (0, -1 or 1), and what it leaves in the buffer;
when it returns 0 it has taken nothing. -/
inductive WsParse where
  | more
  | failed (left : List UInt8)
  | frame (f : WsFrame) (left : List UInt8)
  deriving DecidableEq

/-- The size of the header up to the mask key, from its second byte. -/
def wsLengthSize (b : UInt8) : ℕ :=
  let len := (b &&& 0x7F).toNat
  if len = 126 then 4 else if len = 127 then 10 else 2

/-- The size of the header. -/
def wsHeaderSize (b : UInt8) : ℕ := if b &&& 0x80 ≠ 0 then wsLengthSize b + 4 else wsLengthSize b

/-- `websocket_parse_frame` with its call of `malloc`, which comes after the header has been
taken. -/
def websocketParse (malloc : ℕ → Bool) (input : List UInt8) : WsParse :=
  match websocketParseFrame input with
  | none => .more
  | some (f, rest) =>
      if f.payloadLen > 0 ∧ malloc f.payloadLen = false then
        .failed (input.drop (wsHeaderSize (input.getD 1 0)))
      else .frame f rest

/-! ## What complete means -/

/-- The payload length in the header. -/
def wsPayloadLen (input : List UInt8) : ℕ :=
  let len := (input.getD 1 0 &&& 0x7F).toNat
  if len = 126 then ofBe ((input.drop 2).take 2)
  else if len = 127 then ofBe ((input.drop 2).take 8)
  else len

/-- The size of the whole frame, a natural number. -/
def wsFrameSize (input : List UInt8) : ℕ := wsHeaderSize (input.getD 1 0) + wsPayloadLen input

/-- The buffer holds fewer bytes than the frame has.  A length that has not come whole is
behind the end of the buffer, and so is the payload. -/
def WsIncomplete (input : List UInt8) : Prop := input.length < 2 ∨ input.length < wsFrameSize input

instance (input : List UInt8) : Decidable (WsIncomplete input) :=
  inferInstanceAs (Decidable (_ ∨ _))

/-- Nothing is returned and nothing taken exactly if the frame is not complete, and a frame
that is returned has the length of the payload that is taken. -/
structure ParsesExactly (malloc : ℕ → Bool) (input : List UInt8) : Prop where
  more_iff : websocketParse malloc input = .more ↔ WsIncomplete input
  removed : ∀ f left, websocketParse malloc input = .frame f left →
    input.length = wsHeaderSize (input.getD 1 0) + f.payloadLen + left.length

/-! ## The test -/

theorem wsLengthSize_cases (b : UInt8) :
    2 ≤ wsLengthSize b ∧ wsLengthSize b ≤ 10 ∧ wsLengthSize b ≤ wsHeaderSize b := by
  unfold wsHeaderSize wsLengthSize
  simp only
  split_ifs <;> omega

theorem ofLe_lt (bs : List UInt8) : ofLe bs < 256 ^ bs.length := by
  induction bs with
  | nil => exact Nat.one_pos
  | cons b bs ih =>
      have hb := b.toNat_lt
      rw [ofLe, List.length_cons, pow_succ]
      omega

/-- A length that has not come whole is small. -/
theorem wsPayloadLen_lt {input : List UInt8} (h : input.length < 10) : wsPayloadLen input < 2 ^ 56 := by
  have hbytes : ∀ k, k ≤ 8 → ofBe ((input.drop 2).take k) < 2 ^ 56 := by
    intro k hk
    have hlt := ofLe_lt ((input.drop 2).take k).reverse
    have hle : ((input.drop 2).take k).reverse.length ≤ 7 := by
      simp only [List.length_reverse, List.length_take, List.length_drop]
      omega
    exact lt_of_lt_of_le hlt ((Nat.pow_le_pow_right (by norm_num) hle).trans (by norm_num))
  have hseven : (input.getD 1 0 &&& 0x7F).toNat < 256 := UInt8.toNat_lt _
  unfold wsPayloadLen
  simp only
  split_ifs
  · exact hbytes 2 (by norm_num)
  · exact hbytes 8 le_rfl
  · omega

/-- The length is read once its bytes are there. -/
theorem wsLength_take {input : List UInt8} (h2 : 2 ≤ input.length) :
    wsLength (input.take 14) =
      if input.length < wsLengthSize (input.getD 1 0) then none
      else some (wsPayloadLen input, wsLengthSize (input.getD 1 0)) := by
  have hb : (input.take 14).getD 1 0 = input.getD 1 0 := by
    rw [List.getD_eq_getElem?_getD, List.getD_eq_getElem?_getD, List.getElem?_take_of_lt (by omega)]
  unfold wsLength wsPayloadLen wsLengthSize
  rw [hb, WireFrame.take_drop_peek input (i := 2) (j := 2) (by omega),
    WireFrame.take_drop_peek input (i := 2) (j := 8) (by omega), List.length_take]
  simp only
  split_ifs <;> first | rfl | omega

/-- **What the parser does**: it waits for the length, and then for the sum modulo 2^64. -/
theorem websocketParseFrame_cases (input : List UInt8) :
    (websocketParseFrame input = none ∧ (input.length < 2 ∨
        input.length < wsLengthSize (input.getD 1 0) ∨ input.length < wsFrameSize input % 2 ^ 64)) ∨
      (2 ≤ input.length ∧ wsFrameSize input % 2 ^ 64 ≤ input.length ∧
        ∃ f, websocketParseFrame input = some (f, input.drop (wsFrameSize input)) ∧
          f.payloadLen = wsPayloadLen input) := by
  unfold websocketParseFrame
  by_cases h2 : input.length < 2
  · rw [if_pos h2]
    exact Or.inl ⟨rfl, Or.inl h2⟩
  · have hb : (input.take 14).getD 1 0 = input.getD 1 0 := by
      rw [List.getD_eq_getElem?_getD, List.getD_eq_getElem?_getD, List.getElem?_take_of_lt (by omega)]
    rw [if_neg h2]
    simp only [wsLength_take (not_lt.mp h2), hb]
    by_cases hlen : input.length < wsLengthSize (input.getD 1 0)
    · rw [if_pos hlen]
      exact Or.inl ⟨rfl, Or.inr (Or.inl hlen)⟩
    · rw [if_neg hlen]
      have hsize : (if input.getD 1 0 &&& 0x80 ≠ 0 then wsLengthSize (input.getD 1 0) + 4
          else wsLengthSize (input.getD 1 0)) + wsPayloadLen input = wsFrameSize input := rfl
      simp only [decide_eq_true_eq, hsize, List.drop_drop]
      by_cases hsum : input.length < wsFrameSize input % 2 ^ 64
      · rw [if_pos hsum]
        exact Or.inl ⟨rfl, Or.inr (Or.inr hsum)⟩
      · rw [if_neg hsum]
        exact Or.inr ⟨not_lt.mp h2, not_lt.mp hsum, _, rfl, rfl⟩

/-- **The completeness test is exact unless the sum wraps around to what the buffer holds.** -/
theorem websocket_parse_exact (malloc : ℕ → Bool) (input : List UInt8) :
    ParsesExactly malloc input ↔
      ¬(wsFrameSize input % 2 ^ 64 ≤ input.length ∧ input.length < wsFrameSize input) := by
  obtain ⟨htwo, hten, hheader⟩ := wsLengthSize_cases (input.getD 1 0)
  have hmod := Nat.mod_le (wsFrameSize input) (2 ^ 64)
  have hsize : wsFrameSize input = wsHeaderSize (input.getD 1 0) + wsPayloadLen input := rfl
  rcases websocketParseFrame_cases input with ⟨hnone, hshort⟩ | ⟨h2, hsum, f, hsome, hlen⟩
  · have hmore : websocketParse malloc input = .more := by rw [websocketParse, hnone]
    have hincomplete : WsIncomplete input := by
      unfold WsIncomplete
      omega
    refine iff_of_true ⟨iff_of_true hmore hincomplete, fun f left hf => ?_⟩ ?_
    · rw [hmore] at hf
      cases hf
    · intro hwrap
      have hlt := wsPayloadLen_lt (show input.length < 10 by omega)
      have hle : wsHeaderSize (input.getD 1 0) ≤ 14 := by
        unfold wsHeaderSize
        split <;> omega
      rw [Nat.mod_eq_of_lt (by omega)] at hwrap
      omega
  · have hmore : websocketParse malloc input ≠ .more := by
      rw [websocketParse, hsome]
      simp only
      split <;> simp
    constructor
    · rintro ⟨hiff, -⟩ ⟨-, hlt⟩
      exact hmore (hiff.mpr (Or.inr hlt))
    · intro hwhole
      have hle : wsFrameSize input ≤ input.length := by omega
      refine ⟨iff_of_false hmore ?_, fun f' left hf => ?_⟩
      · unfold WsIncomplete
        omega
      · rw [websocketParse, hsome] at hf
        simp only at hf
        split at hf
        · cases hf
        · cases hf
          rw [hlen, ← hsize, List.length_drop]
          omega

/-- A frame of 2^64 - 1 bytes: the sum of the sizes is 9, less than the ten bytes of the
header, which is taken before the memory is refused. -/
theorem header_taken_of_incomplete :
    WsIncomplete [0x82, 0x7F, 0xFF, 0xFF, 0xFF, 0xFF, 0xFF, 0xFF, 0xFF, 0xFF] ∧
      websocketParse (fun n => decide (n < 2 ^ 63))
        [0x82, 0x7F, 0xFF, 0xFF, 0xFF, 0xFF, 0xFF, 0xFF, 0xFF, 0xFF] = .failed [] ∧
      ¬ParsesExactly (fun n => decide (n < 2 ^ 63))
        [0x82, 0x7F, 0xFF, 0xFF, 0xFF, 0xFF, 0xFF, 0xFF, 0xFF, 0xFF] := by
  refine ⟨by decide +kernel, by decide +kernel, fun h => ?_⟩
  exact absurd (h.more_iff.mpr (by decide +kernel)) (by decide +kernel)

end LuaFan
