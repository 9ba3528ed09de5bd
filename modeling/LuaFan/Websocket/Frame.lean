/-
# WebSocket frames (`src/httpd_websocket.c`)

`websocket_parse_frame` takes one frame from the input buffer if it is complete, and
nothing otherwise; `websocket_create_frame` builds an unmasked frame.

`websocket_chunking`: **the frames that are parsed do not depend on how the bytes are
cut into reads**, whatever length form, mask and flags each frame uses, and of an
incomplete last frame nothing is taken.
-/
import LuaFan.Stream.Ffi

namespace LuaFan

/-! ## The code -/

/-- `websocket_frame_t`. -/
structure WsFrame where
  fin : Bool
  rsv1 : Bool
  rsv2 : Bool
  rsv3 : Bool
  opcode : UInt8
  masked : Bool
  payloadLen : ℕ
  maskKey : List UInt8
  payload : List UInt8
  deriving DecidableEq

/-- The bytes of a number in network order, and back. -/
def beBytes (width n : ℕ) : List UInt8 := (leBytes width n).reverse

def ofBe (bs : List UInt8) : ℕ := ofLe bs.reverse

/-- `websocket_mask_unmask`. -/
def websocketMaskUnmask (data key : List UInt8) : List UInt8 :=
  data.mapIdx fun i b => b ^^^ key.getD (i % 4) 0

/-- The length in the header, and the size of the header without a mask key. -/
def wsLength (peek : List UInt8) : Option (ℕ × ℕ) :=
  let len := (peek.getD 1 0 &&& 0x7F).toNat
  if len = 126 then
    if peek.length < 4 then none else some (ofBe ((peek.drop 2).take 2), 4)
  else if len = 127 then
    if peek.length < 10 then none else some (ofBe ((peek.drop 2).take 8), 10)
  else some (len, 2)

/-- `websocket_parse_frame`: the frame and the input left, or nothing.  The sizes are
added as 64-bit numbers. -/
def websocketParseFrame (input : List UInt8) : Option (WsFrame × List UInt8) :=
  if input.length < 2 then none
  else
    let peek := input.take 14
    let b0 := peek.getD 0 0
    let masked : Bool := peek.getD 1 0 &&& 0x80 ≠ 0
    match wsLength peek with
    | none => none
    | some (payloadLen, size) =>
        let headerSize := if masked then size + 4 else size
        if input.length < (headerSize + payloadLen) % 2 ^ 64 then none
        else
          let maskKey := if masked then (peek.drop (headerSize - 4)).take 4 else [0, 0, 0, 0]
          let data := (input.drop headerSize).take payloadLen
          some
            ({ fin := b0 &&& 0x80 ≠ 0
               rsv1 := b0 &&& 0x40 ≠ 0
               rsv2 := b0 &&& 0x20 ≠ 0
               rsv3 := b0 &&& 0x10 ≠ 0
               opcode := b0 &&& 0x0F
               masked := masked
               payloadLen := payloadLen
               maskKey := maskKey
               payload := if masked then websocketMaskUnmask data maskKey else data },
              (input.drop headerSize).drop payloadLen)

/-- `websocket_create_frame`. -/
def websocketCreateFrame (opcode : UInt8) (payload : List UInt8) (fin : Bool) : List UInt8 :=
  let first := (if fin then 0x80 else 0) ||| (opcode &&& 0x0F)
  let n := payload.length
  let length :=
    if n < 126 then [UInt8.ofNat n]
    else if n ≤ 65535 then 126 :: beBytes 2 n
    else 127 :: beBytes 8 n
  first :: length ++ payload

/-- The loop of `ws_readcb`: frames are parsed while there are complete ones.  A frame
has at least two bytes, so the length of the input bounds the rounds. -/
def wsParseLoop : ℕ → List UInt8 → List WsFrame × List UInt8
  | 0, input => ([], input)
  | fuel + 1, input =>
      match websocketParseFrame input with
      | none => ([], input)
      | some (f, rest) =>
          let r := wsParseLoop fuel rest
          (f :: r.1, r.2)

/-- A read adds bytes to the buffer, and the loop runs. -/
def wsRead (st : List WsFrame × List UInt8) (chunk : List UInt8) : List WsFrame × List UInt8 :=
  let r := wsParseLoop (st.2 ++ chunk).length (st.2 ++ chunk)
  (st.1 ++ r.1, r.2)

/-- The frames parsed and the bytes left after some reads. -/
def wsReadAll (chunks : List (List UInt8)) : List WsFrame × List UInt8 := chunks.foldl wsRead ([], [])

/-! ## Frames on the wire -/

/-- The three forms of the length field. -/
inductive LengthForm where
  | short
  | medium
  | long

/-- A frame as a peer may send it: the length in any form that can hold it, and the
payload masked with a key of four bytes or not. -/
structure WireFrame where
  fin : Bool
  rsv1 : Bool
  rsv2 : Bool
  rsv3 : Bool
  opcode : Fin 16
  key : Option (List UInt8)
  payload : List UInt8
  form : LengthForm
  key_length : ∀ k ∈ key, k.length = 4
  form_fits : match form with
    | .short => payload.length < 126
    | .medium => payload.length < 2 ^ 16
    | .long => True
  payload_lt : payload.length < 2 ^ 63

namespace WireFrame

/-- The first byte of a frame. -/
def firstByte (fin rsv1 rsv2 rsv3 : Bool) (opcode : Fin 16) : UInt8 :=
  (if fin then 0x80 else 0) ||| (if rsv1 then 0x40 else 0) ||| (if rsv2 then 0x20 else 0) |||
    (if rsv3 then 0x10 else 0) ||| UInt8.ofNat opcode

/-- The length in the second byte. -/
def len7 (f : WireFrame) : ℕ :=
  match f.form with
  | .short => f.payload.length
  | .medium => 126
  | .long => 127

/-- The length after it. -/
def ext (f : WireFrame) : List UInt8 :=
  match f.form with
  | .short => []
  | .medium => beBytes 2 f.payload.length
  | .long => beBytes 8 f.payload.length

/-- The second byte of a frame. -/
def secondByte (f : WireFrame) : UInt8 :=
  (if f.key.isSome then 0x80 else 0) ||| UInt8.ofNat f.len7

/-- Bytes are masked one after the other, each with the byte of the key whose turn it is: the key goes round. -/
def masked : List UInt8 → List UInt8 → List UInt8
  | _, [] => []
  | key, b :: bs => (b ^^^ key.headD 0) :: masked (key.rotate 1) bs

/-- The payload as it is sent. -/
def body (f : WireFrame) : List UInt8 :=
  match f.key with
  | some k => masked k f.payload
  | none => f.payload

/-- The bytes of a frame. -/
def bytes (f : WireFrame) : List UInt8 :=
  firstByte f.fin f.rsv1 f.rsv2 f.rsv3 f.opcode :: f.secondByte :: (f.ext ++ (f.key.getD [] ++ f.body))

/-- The frame that should be parsed: with the payload unmasked. -/
def parsed (f : WireFrame) : WsFrame where
  fin := f.fin
  rsv1 := f.rsv1
  rsv2 := f.rsv2
  rsv3 := f.rsv3
  opcode := UInt8.ofNat f.opcode
  masked := f.key.isSome
  payloadLen := f.payload.length
  maskKey := f.key.getD [0, 0, 0, 0]
  payload := f.payload

/-! ## Parsing one frame -/

theorem firstByte_bits : ∀ (fin rsv1 rsv2 rsv3 : Bool) (opcode : Fin 16),
    (decide (firstByte fin rsv1 rsv2 rsv3 opcode &&& 0x80 ≠ 0)) = fin ∧
    (decide (firstByte fin rsv1 rsv2 rsv3 opcode &&& 0x40 ≠ 0)) = rsv1 ∧
    (decide (firstByte fin rsv1 rsv2 rsv3 opcode &&& 0x20 ≠ 0)) = rsv2 ∧
    (decide (firstByte fin rsv1 rsv2 rsv3 opcode &&& 0x10 ≠ 0)) = rsv3 ∧
    firstByte fin rsv1 rsv2 rsv3 opcode &&& 0x0F = UInt8.ofNat opcode := by
  decide +kernel

theorem secondByte_bits' : ∀ (masked : Bool) (n : Fin 128),
    (((if masked then 0x80 else 0) ||| UInt8.ofNat n) &&& 0x7F : UInt8).toNat = n ∧
    (decide (((if masked then 0x80 else 0) ||| UInt8.ofNat n) &&& 0x80 ≠ (0 : UInt8))) = masked := by
  decide +kernel

theorem len7_lt (f : WireFrame) : f.len7 < 128 := by
  have hfits := f.form_fits
  unfold len7
  split
  · simp_all
    omega
  · omega
  · omega

theorem secondByte_bits (f : WireFrame) :
    (f.secondByte &&& 0x7F).toNat = f.len7 ∧
      (decide (f.secondByte &&& 0x80 ≠ 0)) = f.key.isSome :=
  secondByte_bits' f.key.isSome ⟨f.len7, f.len7_lt⟩

theorem ofBe_beBytes (width n : ℕ) : ofBe (beBytes width n) = n % 256 ^ width := by
  rw [ofBe, beBytes, List.reverse_reverse, ofLe_leBytes]

@[simp] theorem length_beBytes (width n : ℕ) : (beBytes width n).length = width := by
  simp [beBytes]

theorem take_drop_peek {α : Type} (l : List α) {i j : ℕ} (h : i + j ≤ 14) :
    ((l.take 14).drop i).take j = (l.drop i).take j := by
  rw [List.drop_take, List.take_take, Nat.min_eq_left (by omega)]

/-- The length field that follows the second byte holds the length of the payload. -/
theorem ofBe_ext (f : WireFrame) (h : f.form ≠ .short) : ofBe f.ext = f.payload.length := by
  have hfits := f.form_fits
  have hlt := f.payload_lt
  rcases hform : f.form with _ | _ | _
  · exact absurd hform h
  · rw [hform] at hfits
    rw [ext, hform]
    exact (ofBe_beBytes 2 _).trans (Nat.mod_eq_of_lt hfits)
  · rw [ext, hform]
    exact (ofBe_beBytes 8 _).trans (Nat.mod_eq_of_lt (by omega))

/-- The length is known as soon as its bytes are there. -/
theorem wsLength_of_prefix (f : WireFrame) (b : UInt8) {u : List UInt8} (h : f.ext <+: u) :
    wsLength ((b :: f.secondByte :: u).take 14) = some (f.payload.length, 2 + f.ext.length) := by
  obtain ⟨v, rfl⟩ := h
  have hbits := f.secondByte_bits.1
  have hfits := f.form_fits
  have hext := f.ofBe_ext
  rcases hform : f.form with _ | _ | _ <;> rw [hform] at hfits hext <;>
    simp only [len7, ext, hform] at hbits hext ⊢
  · have h126 : f.payload.length ≠ 126 := by omega
    have h127 : f.payload.length ≠ 127 := by omega
    simp [wsLength, hbits, h126, h127]
  · have hpeek := take_drop_peek (b :: f.secondByte :: (beBytes 2 f.payload.length ++ v))
      (i := 2) (j := 2) (by omega)
    rw [wsLength, hpeek]
    simp [hbits, hext]
  · have hpeek := take_drop_peek (b :: f.secondByte :: (beBytes 8 f.payload.length ++ v))
      (i := 2) (j := 8) (by omega)
    rw [wsLength, hpeek]
    simp [hbits, hext]

/-- It is not known before. -/
theorem wsLength_of_lt (f : WireFrame) (b : UInt8) {u : List UInt8}
    (h : u.length < f.ext.length) : wsLength ((b :: f.secondByte :: u).take 14) = none := by
  have hbits := f.secondByte_bits.1
  rcases hform : f.form with _ | _ | _ <;> simp only [len7, ext, hform] at hbits h
  · simp at h
  · have hlen : u.length < 2 := by simpa using h
    simp [wsLength, hbits]
    omega
  · have hlen : u.length < 8 := by simpa using h
    simp [wsLength, hbits]
    omega

/-- After one byte the key has gone one place further. -/
theorem getD_rotate {key : List UInt8} (h : key.length = 4) (i : ℕ) :
    (key.rotate 1).getD (i % 4) 0 = key.getD ((i + 1) % 4) 0 := by
  obtain ⟨a, b, c, d, rfl⟩ := List.length_eq_four.mp h
  have hlt : i % 4 < 4 := Nat.mod_lt i (by omega)
  rw [Nat.add_mod]
  interval_cases i % 4 <;> rfl

/-- **The places modulo four are those of a key that goes round**, so masked bytes are unmasked. -/
theorem unmask_masked {key : List UInt8} (h : key.length = 4) (data : List UInt8) :
    websocketMaskUnmask (masked key data) key = data := by
  induction data generalizing key with
  | nil => rfl
  | cons b bs ih =>
      have hrest := @ih (key.rotate 1) (by rw [List.length_rotate, h])
      simp only [websocketMaskUnmask, masked, List.mapIdx_cons] at hrest ⊢
      simp only [getD_rotate h] at hrest
      rw [hrest]
      cases key with
      | nil => cases h
      | cons k key => simp

theorem length_masked (key data : List UInt8) : (masked key data).length = data.length := by
  induction data generalizing key with
  | nil => rfl
  | cons b bs ih => exact congrArg (· + 1) (ih _)

@[simp] theorem length_body (f : WireFrame) : f.body.length = f.payload.length := by
  unfold body
  split
  · exact length_masked _ _
  · rfl

theorem ext_length_le (f : WireFrame) : f.ext.length ≤ 8 := by
  unfold ext
  split <;> simp

/-- The bytes before the payload. -/
def headerSize (f : WireFrame) : ℕ := if f.key.isSome then 2 + f.ext.length + 4 else 2 + f.ext.length

theorem length_bytes (f : WireFrame) : f.bytes.length = f.headerSize + f.payload.length := by
  rcases hkey : f.key with _ | k
  · simp [bytes, headerSize, hkey]
    omega
  · have hk := f.key_length k hkey
    simp [bytes, headerSize, hkey, hk]
    omega

/-- No 64-bit sum overflows on the way. -/
theorem size_mod (f : WireFrame) :
    (f.headerSize + f.payload.length) % 2 ^ 64 = f.headerSize + f.payload.length := by
  have hext := f.ext_length_le
  have hlt := f.payload_lt
  apply Nat.mod_eq_of_lt
  unfold headerSize
  split <;> omega

/-- A frame is parsed once its header is there, if the input is long enough. -/
theorem parse_header (f : WireFrame) {u : List UInt8} (h : f.ext <+: u) :
    websocketParseFrame (firstByte f.fin f.rsv1 f.rsv2 f.rsv3 f.opcode :: f.secondByte :: u)
      = if u.length + 2 < f.headerSize + f.payload.length then none
        else
          let input := firstByte f.fin f.rsv1 f.rsv2 f.rsv3 f.opcode :: f.secondByte :: u
          let key := if f.key.isSome then (u.drop f.ext.length).take 4 else [0, 0, 0, 0]
          let data := (input.drop f.headerSize).take f.payload.length
          some ({ f.parsed with
                    maskKey := key
                    payload := if f.key.isSome then websocketMaskUnmask data key else data },
            (input.drop f.headerSize).drop f.payload.length) := by
  have hbits := f.secondByte_bits.2
  obtain ⟨hfin, h1, h2, h3, hop⟩ := firstByte_bits f.fin f.rsv1 f.rsv2 f.rsv3 f.opcode
  have hlength := f.wsLength_of_prefix (firstByte f.fin f.rsv1 f.rsv2 f.rsv3 f.opcode) h
  have hsize := f.size_mod
  -- the key lies within the fourteen bytes that were looked at
  have hkey : ∀ hd : f.key.isSome,
      (((firstByte f.fin f.rsv1 f.rsv2 f.rsv3 f.opcode :: f.secondByte :: u).take 14).drop
        (f.headerSize - 4)).take 4 = (u.drop f.ext.length).take 4 := by
    intro hd
    have hext := f.ext_length_le
    have hh : f.headerSize - 4 = f.ext.length + 2 := by
      simp [headerSize, hd]
      omega
    rw [hh, take_drop_peek _ (by omega)]
    rfl
  generalize hb : firstByte f.fin f.rsv1 f.rsv2 f.rsv3 f.opcode = b at *
  have hb0 : ((b :: f.secondByte :: u).take 14).getD 0 0 = b := rfl
  have hb1 : ((b :: f.secondByte :: u).take 14).getD 1 0 = f.secondByte := rfl
  rw [websocketParseFrame, if_neg (by simp)]
  simp only [hlength, hb0, hb1, hbits, hfin, h1, h2, h3, hop]
  change (if (b :: f.secondByte :: u).length < (f.headerSize + f.payload.length) % 2 ^ 64
    then none else _) = _
  rw [hsize]
  refine if_congr Iff.rfl rfl ?_
  rcases hd : f.key.isSome with _ | _
  · simp [parsed, hd, headerSize]
  · have hh : f.headerSize = 2 + f.ext.length + 4 := by simp [headerSize, hd]
    have hk := hkey hd
    rw [hh] at hk ⊢
    simp only [parsed, hd, if_true, hk]

/-- A complete frame at the front of the input is taken whole. -/
theorem parse_append (f : WireFrame) (rest : List UInt8) :
    websocketParseFrame (f.bytes ++ rest) = some (f.parsed, rest) := by
  have hcons : f.bytes ++ rest = firstByte f.fin f.rsv1 f.rsv2 f.rsv3 f.opcode :: f.secondByte ::
      (f.ext ++ (f.key.getD [] ++ (f.body ++ rest))) := by simp [bytes]
  have hlong : ¬ (f.ext ++ (f.key.getD [] ++ (f.body ++ rest))).length + 2
      < f.headerSize + f.payload.length := by
    have hlen := congrArg List.length hcons
    rw [List.length_append, f.length_bytes] at hlen
    simp only [List.length_cons] at hlen
    omega
  have hdrop : (firstByte f.fin f.rsv1 f.rsv2 f.rsv3 f.opcode :: f.secondByte ::
      (f.ext ++ (f.key.getD [] ++ (f.body ++ rest)))).drop f.headerSize = f.body ++ rest := by
    have hlen : f.headerSize = (firstByte f.fin f.rsv1 f.rsv2 f.rsv3 f.opcode :: f.secondByte ::
        (f.ext ++ f.key.getD [])).length := by
      rcases hkey : f.key with _ | k
      · simp [headerSize, hkey]
        omega
      · simp [headerSize, hkey, f.key_length k hkey]
        omega
    have happ : firstByte f.fin f.rsv1 f.rsv2 f.rsv3 f.opcode :: f.secondByte ::
        (f.ext ++ (f.key.getD [] ++ (f.body ++ rest)))
          = (firstByte f.fin f.rsv1 f.rsv2 f.rsv3 f.opcode :: f.secondByte ::
              (f.ext ++ f.key.getD [])) ++ (f.body ++ rest) := by simp
    rw [happ, hlen, List.drop_left]
  rw [hcons, parse_header f (List.prefix_append _ _), if_neg hlong]
  simp only [hdrop]
  rw [List.take_left' f.length_body, List.drop_left' f.length_body, List.drop_left]
  rcases hkey : f.key with _ | k
  · simp [parsed, hkey, body]
  · simp [parsed, hkey, body, unmask_masked (f.key_length k hkey), List.take_left' (f.key_length k hkey)]

/-- Of a frame that is not complete nothing is taken. -/
theorem parse_prefix (f : WireFrame) {u : List UInt8} (hu : u <+: f.bytes) (hne : u ≠ f.bytes) :
    websocketParseFrame u = none := by
  have hlen : u.length < f.bytes.length := by
    refine lt_of_le_of_ne hu.length_le fun h => hne (hu.eq_of_length h)
  rw [f.length_bytes] at hlen
  rcases u with _ | ⟨b, _ | ⟨c, v⟩⟩
  · rfl
  · simp [websocketParseFrame]
  · rw [bytes, List.cons_prefix_cons, List.cons_prefix_cons] at hu
    obtain ⟨rfl, rfl, hv⟩ := hu
    -- either the length is cut, or it is there and the rest is too short
    rcases lt_or_ge v.length f.ext.length with hcut | hge
    · rw [websocketParseFrame, if_neg (by simp)]
      simp only [f.wsLength_of_lt _ hcut]
    · have hext : f.ext <+: v := List.prefix_of_prefix_length_le (List.prefix_append _ _) hv hge
      rw [f.parse_header hext, if_pos (by simpa using hlen)]

end WireFrame

/-! ## The reads -/

/-- The bytes of some frames, one after the other. -/
def wires (fs : List WireFrame) : List UInt8 := (fs.map WireFrame.bytes).flatten

@[simp] theorem wires_nil : wires [] = [] := rfl

@[simp] theorem wires_cons (f : WireFrame) (fs : List WireFrame) :
    wires (f :: fs) = f.bytes ++ wires fs := rfl

theorem wsParseLoop_none {fuel : ℕ} {input : List UInt8} (h : websocketParseFrame input = none) :
    wsParseLoop fuel input = ([], input) := by
  rcases fuel with _ | fuel
  · rfl
  · simp [wsParseLoop, h]

/-- The loop over a part of the stream takes the frames that are complete in it, and
what it leaves goes on as the rest of the stream does. -/
theorem wsParseLoop_split (g : WireFrame) {u : List UInt8} (hu : u <+: g.bytes) (hne : u ≠ g.bytes)
    (fs : List WireFrame) (p q : List UInt8) (h : p ++ q = wires fs ++ u) :
    ∃ done left v, fs = done ++ left ∧
      (∀ fuel, p.length ≤ fuel → wsParseLoop fuel p = (done.map WireFrame.parsed, v)) ∧
      websocketParseFrame v = none ∧ v ++ q = wires left ++ u := by
  induction fs generalizing p with
  | nil =>
    -- only the incomplete frame is left, and the part is a part of it
    have hp : p <+: u := ⟨q, by simpa using h⟩
    have hpne : p ≠ g.bytes := by
      rintro rfl
      exact hne (hu.eq_of_length (le_antisymm hu.length_le hp.length_le))
    have hnone := g.parse_prefix (hp.trans hu) hpne
    exact ⟨[], [], p, rfl, fun fuel _ => wsParseLoop_none hnone, hnone, h⟩
  | cons f fs ih =>
    rw [wires_cons, List.append_assoc] at h
    by_cases hf : f.bytes <+: p
    · -- the first frame is complete
      obtain ⟨p', rfl⟩ := hf
      rw [List.append_assoc, List.append_cancel_left_eq] at h
      obtain ⟨done, left, v, rfl, hloop, hv, hvq⟩ := ih p' h
      refine ⟨f :: done, left, v, rfl, ?_, hv, hvq⟩
      intro fuel hfuel
      have hlen : 2 ≤ f.bytes.length := by simp [WireFrame.bytes]
      rw [List.length_append] at hfuel
      rcases fuel with _ | fuel
      · omega
      · simp [wsParseLoop, f.parse_append, hloop fuel (by omega)]
    · -- it is not, and the loop stops
      have hp : p <+: f.bytes := by
        rcases List.prefix_or_prefix_of_prefix (List.prefix_append p q)
          (h ▸ List.prefix_append f.bytes _) with hp | hp
        · exact hp
        · exact absurd hp hf
      have hpne : p ≠ f.bytes := by
        rintro rfl
        exact hf List.prefix_rfl
      have hnone := f.parse_prefix hp hpne
      exact ⟨[], f :: fs, p, rfl, fun fuel _ => wsParseLoop_none hnone, hnone, by simpa using h⟩

/-- The reads go on from a buffer with no complete frame. -/
theorem foldl_wsRead (g : WireFrame) {u : List UInt8} (hu : u <+: g.bytes) (hne : u ≠ g.bytes)
    (chunks : List (List UInt8)) (fs : List WireFrame) (acc : List WsFrame) (v : List UInt8)
    (hv : websocketParseFrame v = none) (h : v ++ chunks.flatten = wires fs ++ u) :
    chunks.foldl wsRead (acc, v) = (acc ++ fs.map WireFrame.parsed, u) := by
  induction chunks generalizing fs acc v with
  | nil =>
    rcases fs with _ | ⟨f, fs⟩
    · simpa using h
    · -- a complete frame would have been taken
      simp only [List.flatten_nil, List.append_nil, wires_cons, List.append_assoc] at h
      rw [h, f.parse_append] at hv
      simp at hv
  | cons chunk chunks ih =>
    rw [List.flatten_cons, ← List.append_assoc] at h
    obtain ⟨done, left, w, rfl, hloop, hw, hwq⟩ := wsParseLoop_split g hu hne fs _ _ h
    have hread : wsRead (acc, v) chunk = (acc ++ done.map WireFrame.parsed, w) := by
      simp only [wsRead, hloop _ le_rfl]
    rw [List.foldl_cons, hread, ih left _ w hw hwq]
    simp

/-- A frame built by the server. -/
def WireFrame.created (opcode : Fin 16) (payload : List UInt8) (fin : Bool)
    (h : payload.length < 2 ^ 63) : WireFrame where
  fin := fin
  rsv1 := false
  rsv2 := false
  rsv3 := false
  opcode := opcode
  key := none
  payload := payload
  form := if payload.length < 126 then .short else if payload.length ≤ 65535 then .medium else .long
  key_length := by simp
  form_fits := by
    split_ifs with h₁ h₂
    · exact h₁
    · show payload.length < 2 ^ 16
      omega
    · trivial
  payload_lt := h

theorem createFrame_eq (opcode : Fin 16) (payload : List UInt8) (fin : Bool)
    (h : payload.length < 2 ^ 63) :
    websocketCreateFrame (UInt8.ofNat opcode) payload fin
      = (WireFrame.created opcode payload fin h).bytes := by
  have hfirst : ∀ (fin : Bool) (opcode : Fin 16),
      (if fin then 0x80 else 0) ||| (UInt8.ofNat opcode &&& 0x0F)
        = WireFrame.firstByte fin false false false opcode := by decide
  rw [websocketCreateFrame, hfirst]
  simp only [WireFrame.bytes, WireFrame.secondByte, WireFrame.len7, WireFrame.ext, WireFrame.body,
    WireFrame.created]
  by_cases h₁ : payload.length < 126
  · simp [h₁]
  · by_cases h₂ : payload.length ≤ 65535
    · simp [h₁, h₂]
    · simp [h₁, h₂]

/-- **Frames and chunking.**  However the bytes of some frames, followed by a part of one
more, are cut into reads, exactly these frames are parsed, in order and with their
payloads unmasked, and of the incomplete one nothing is taken.  In particular a frame the
server builds is read back. -/
theorem websocket_chunking (fs : List WireFrame) (g : WireFrame) (u : List UInt8)
    (hu : u <+: g.bytes) (hne : u ≠ g.bytes) (chunks : List (List UInt8))
    (h : chunks.flatten = wires fs ++ u) :
    wsReadAll chunks = (fs.map WireFrame.parsed, u) ∧
      ∀ (opcode : Fin 16) (payload : List UInt8) (fin : Bool), payload.length < 2 ^ 63 →
        ∃ f, websocketParseFrame (websocketCreateFrame (UInt8.ofNat opcode) payload fin)
            = some (f, []) ∧
          f.opcode = UInt8.ofNat opcode ∧ f.fin = fin ∧ f.payload = payload := by
  constructor
  · have hread := foldl_wsRead g hu hne chunks fs [] [] (by decide) (by simpa using h)
    simpa [wsReadAll] using hread
  · intro opcode payload fin hlt
    have hparse := (WireFrame.created opcode payload fin hlt).parse_append []
    rw [List.append_nil, ← createFrame_eq] at hparse
    exact ⟨_, hparse, rfl, rfl, rfl⟩

/-- A masked text frame, longer than its key. -/
def WireFrame.maskedHello : WireFrame where
  fin := true
  rsv1 := false
  rsv2 := false
  rsv3 := false
  opcode := 1
  key := some [0x37, 0xfa, 0x21, 0x3d]
  payload := [72, 101, 108, 108, 111]
  form := .short
  key_length := by simp
  form_fits := by simp
  payload_lt := by decide

/-- It arrives in two reads, followed by another frame and one byte of a third. -/
theorem websocket_chunking_cut :
    wsReadAll [[0x81, 0x85, 0x37, 0xfa], [0x21, 0x3d, 0x7f, 0x9f, 0x4d, 0x51, 0x58, 2], [1, 7, 137]]
      = ([WireFrame.maskedHello.parsed, (WireFrame.created 2 [7] false (by decide)).parsed], [137]) :=
  (websocket_chunking [.maskedHello, .created 2 [7] false (by decide)] (.created 9 [] true (by decide))
    [137] (by decide) (by decide)
    [[0x81, 0x85, 0x37, 0xfa], [0x21, 0x3d, 0x7f, 0x9f, 0x4d, 0x51, 0x58, 2], [1, 7, 137]] (by decide)).1

end LuaFan
