/-
# The bounds of a stream (`src/bytearray.c`, `src/stream_ffi.c`)

All checks before a read or a write of the buffer compare with `total - offset`, so they
mean something only while `offset ≤ total ≤ buflen`.  A traced stream remembers every
stretch of a buffer that its methods touched.

* `stream_bounded`: whatever methods are called in whatever mode, the bounds hold and only
  bytes of the buffer are touched, **exactly if** no `empty` is called while reading with a
  mark that was set; `bytearray_empty` leaves `mark` alone;
* `stream_reads_outside`: a reset to such a mark, and a read behind the buffer.
-/
import LuaFan.Lib.Machine
import LuaFan.Stream.Ffi

namespace LuaFan

open Machine

/-! ## What the methods touch -/

/-- A stretch of a buffer that is read or written, and the size of the buffer then. -/
structure Access where
  start : ℕ
  len : ℕ
  size : ℕ
  deriving DecidableEq

/-- The stretch lies inside the buffer. -/
def Access.Inside (a : Access) : Prop := a.start + a.len ≤ a.size

instance (a : Access) : Decidable a.Inside := inferInstanceAs (Decidable (a.start + a.len ≤ a.size))

namespace Bytearray

/-- `len` bytes from `start` on. -/
def touch (ba : Bytearray) (start len : ℕ) : Access := ⟨start, len, ba.buffer.length⟩

/-- `write_value_optimized`. -/
def writeValueAccesses (ba : Bytearray) (size : ℕ) : List Access :=
  if size ≤ sizeSub ba.total ba.offset then [ba.touch ba.offset size]
  else
    match ensureCapacityOptimized ba size with
    | (false, _) => []
    | (true, ba') => [ba'.touch ba'.offset size]

/-- `bytearray_write8`. -/
def write8Accesses (ba : Bytearray) : List Access :=
  if ba.offset < ba.total then [ba.touch ba.offset 1] else ba.writeValueAccesses 1

/-- The loop of `ffi_stream_add_u30`. -/
def addU30Accesses : ℕ → Bytearray → UInt32 → List Access
  | 0, _, _ => []
  | n + 1, ba, u =>
      ba.write8Accesses ++
        if u >>> 7 ≠ 0 then addU30Accesses n (bytearrayWrite8 ba (u30Byte u)).2 (u >>> 7) else []

/-- `read_value_optimized`. -/
def readValueAccesses (ba : Bytearray) (size : ℕ) : List Access :=
  if size ≤ sizeSub ba.total ba.offset then [ba.touch ba.offset size] else []

/-- `bytearray_read8`. -/
def read8Accesses (ba : Bytearray) : List Access :=
  if ba.offset < ba.total then [ba.touch ba.offset 1] else []

/-- The loop of `ffi_stream_get_u30`. -/
def getU30Accesses : ℕ → Bytearray → ℕ → List Access
  | 0, _, _ => []
  | n + 1, ba, shift =>
      ba.read8Accesses ++
        match bytearrayRead8 ba with
        | (none, _) => []
        | (some b, ba) =>
            if b &&& 128 = 0 ∨ 30 < shift + 7 then [] else getU30Accesses n ba (shift + 7)

/-- `ffi_stream_get_string`, and the copy that is pushed. -/
def getStringAccesses (ba : Bytearray) : List Access :=
  ba.getU30Accesses 5 0 ++
    match ffiStreamGetU30 ba with
    | (none, _) => []
    | (some len, ba) =>
        if bytearrayReadAvailable ba < len.toNat then [] else [ba.touch ba.offset len.toNat]

/-- `ffi_stream_get_bytes` and `ffi_stream_test_bytes`, and the copy that is pushed. -/
def bytesAccesses (ba : Bytearray) (len : ℤ) : List Access :=
  if toSize len = 0 then [] else [ba.touch ba.offset (bytesLen ba (toSize len)).toNat]

/-- The `memmove` of `bytearray_write_ready`. -/
def writeReadyAccesses (ba : Bytearray) : List Access :=
  if ba.reading ∧ 0 < ba.offset then
    let unreadleft := sizeSub ba.total ba.offset
    [ba.touch ba.offset unreadleft, ba.touch 0 unreadleft]
  else []

/-- What a method reads and writes of the buffer. -/
def accesses (ba : Bytearray) : StreamOp → List Access
  | .addU8 _ => ba.write8Accesses
  | .addU16 _ => ba.writeValueAccesses 2
  | .addU24 _ => ba.writeValueAccesses 3
  | .addU30 v => addU30Accesses 5 ba v
  | .addD64 _ => ba.writeValueAccesses 8
  | .addString v =>
      addU30Accesses 5 ba (UInt32.ofNat v.length) ++
        (ffiStreamAddU30 ba (UInt32.ofNat v.length)).writeValueAccesses v.length
  | .addBytes v => ba.writeValueAccesses v.length
  | .getU8 => ba.read8Accesses
  | .getU16 => ba.readValueAccesses 2
  | .getU24 => ba.readValueAccesses 3
  | .getS24 => ba.readValueAccesses 3
  | .getU32 => ba.readValueAccesses 4
  | .getU30 => ba.getU30Accesses 5 0
  | .getD64 => ba.readValueAccesses 8
  | .getString => ba.getStringAccesses
  | .getBytes len => ba.bytesAccesses len
  | .testBytes len => ba.bytesAccesses len
  | .prepareAdd => ba.writeReadyAccesses
  | .package => [(ffiStreamPackage ba).2.touch 0 (ffiStreamPackage ba).2.total]
  | .available => []
  | .mark => []
  | .reset => []
  | .prepareGet => []
  | .empty => []

/-! ## The bounds -/

/-- The order of the positions that every check relies on. -/
structure Bounded (ba : Bytearray) : Prop where
  offset_le : ba.offset ≤ ba.total
  total_le : ba.total ≤ ba.buflen
  mark_le : ba.reading = true → ba.mark ≤ ba.total

/-- The bounds, over memory of its own, and no mark while writing. -/
structure Sound (ba : Bytearray) : Prop extends Bounded ba where
  length_buffer : ba.buffer.length = ba.buflen
  not_wrapped : ba.wrapbuffer = false
  mark_of_writing : ba.reading = false → ba.mark = 0

/-- What a method leaves is sound, and it touches nothing outside the buffer. -/
structure Fine (ba : Bytearray) (touched : List Access) : Prop where
  sound : ba.Sound
  inside : ∀ a ∈ touched, a.Inside

variable {ba : Bytearray}

theorem Sound.sizeSub_eq (h : ba.Sound) : sizeSub ba.total ba.offset = ba.total - ba.offset :=
  sizeSub_of_le h.offset_le

/-- A stretch up to the end of the buffer. -/
theorem Sound.inside (h : ba.Sound) {start len : ℕ} (hle : start + len ≤ ba.buflen) :
    (ba.touch start len).Inside := by
  rw [touch, Access.Inside, h.length_buffer]
  exact hle

theorem Fine.of_sound (h : ba.Sound) : ba.Fine [] := ⟨h, fun _ h => by cases h⟩

/-- Moving the position within the bounds. -/
theorem Sound.move (h : ba.Sound) {offset : ℕ} (hle : offset ≤ ba.total) :
    { ba with offset := offset }.Sound where
  offset_le := hle
  total_le := h.total_le
  mark_le := h.mark_le
  length_buffer := h.length_buffer
  not_wrapped := h.not_wrapped
  mark_of_writing := h.mark_of_writing

/-! ### Writing -/

/-- A copy to the position, and past it. -/
theorem Sound.write (h : ba.Sound) (value : List UInt8) (hle : ba.offset + value.length ≤ ba.total) :
    Fine { ba with
        buffer := memcpyTo ba.buffer ba.offset value
        offset := ba.offset + value.length } [ba.touch ba.offset value.length] := by
  have htotal := h.total_le
  constructor
  · refine ⟨⟨hle, htotal, h.mark_le⟩, ?_, h.not_wrapped, h.mark_of_writing⟩
    show (memcpyTo ba.buffer ba.offset value).length = ba.buflen
    rw [length_memcpyTo (by rw [h.length_buffer]; omega), h.length_buffer]
  · intro a ha
    rw [List.mem_singleton.mp ha]
    exact h.inside (by omega)

/-- The buffer grows past the position, and nothing moves. -/
theorem Sound.grow (h : ba.Sound) {n : ℕ} (hfull : ba.total < ba.offset + n) :
    { ba with
      buffer := realloc ba.buffer (growSize (ba.offset + n))
      buflen := growSize (ba.offset + n)
      total := growSize (ba.offset + n) }.Sound ∧
      ba.offset + n ≤ growSize (ba.offset + n) := by
  have hle := le_growSize (ba.offset + n)
  have hoffset := h.offset_le
  refine ⟨⟨⟨?_, le_refl _, fun hr => ?_⟩, length_realloc _ _, h.not_wrapped, h.mark_of_writing⟩, hle⟩
  · show ba.offset ≤ growSize (ba.offset + n)
    omega
  · have hmark := h.mark_le hr
    show ba.mark ≤ growSize (ba.offset + n)
    omega

theorem Sound.writeValue (h : ba.Sound) (value : List UInt8) :
    Fine (writeValueOptimized ba value).2 (ba.writeValueAccesses value.length) := by
  rw [writeValueOptimized, writeValueAccesses, h.sizeSub_eq]
  have hoffset := h.offset_le
  by_cases hfits : value.length ≤ ba.total - ba.offset
  · rw [if_pos hfits, if_pos hfits]
    exact h.write value (by omega)
  · obtain ⟨hsound, hle⟩ := h.grow (n := value.length) (by omega)
    rw [if_neg hfits, if_neg hfits, ensureCapacityOptimized, h.sizeSub_eq, if_neg hfits,
      if_neg (by simp [h.not_wrapped])]
    exact hsound.write value hle

theorem Sound.write8 (h : ba.Sound) (value : UInt8) :
    Fine (bytearrayWrite8 ba value).2 ba.write8Accesses := by
  rw [bytearrayWrite8, write8Accesses]
  by_cases hroom : ba.offset < ba.total
  · rw [if_pos hroom, if_pos hroom]
    exact h.write [value] hroom
  · rw [if_neg hroom, if_neg hroom]
    exact h.writeValue [value]

theorem Fine.append {ba' : Bytearray} {touched touched' : List Access} (h : ba.Fine touched)
    (h' : ba'.Fine touched') : ba'.Fine (touched ++ touched') := by
  refine ⟨h'.sound, fun a ha => ?_⟩
  rcases List.mem_append.mp ha with ha | ha
  · exact h.inside a ha
  · exact h'.inside a ha

theorem Sound.addU30 (n : ℕ) (h : ba.Sound) (u : UInt32) :
    Fine (addU30Loop n ba u) (addU30Accesses n ba u) := by
  induction n generalizing ba u with
  | zero => exact Fine.of_sound h
  | succ n ih =>
      have hfirst := h.write8 (u30Byte u)
      simp only [addU30Loop, addU30Accesses]
      by_cases hmore : u >>> 7 ≠ 0
      · rw [if_pos hmore, if_pos hmore]
        exact hfirst.append (ih hfirst.sound (u >>> 7))
      · rw [if_neg hmore, if_neg hmore]
        exact hfirst.append (Fine.of_sound hfirst.sound)

/-! ### Reading -/

/-- A stretch that is read, and passed. -/
theorem Sound.read (h : ba.Sound) {n : ℕ} (hle : ba.offset + n ≤ ba.total) :
    Fine { ba with offset := ba.offset + n } [ba.touch ba.offset n] := by
  refine ⟨h.move hle, fun a ha => ?_⟩
  rw [List.mem_singleton.mp ha]
  exact h.inside (hle.trans h.total_le)

theorem Sound.readValue (h : ba.Sound) (n : ℕ) :
    Fine (readValueOptimized ba n).2 (ba.readValueAccesses n) := by
  rw [readValueOptimized, readValueAccesses, h.sizeSub_eq]
  have hoffset := h.offset_le
  by_cases hthere : n ≤ ba.total - ba.offset
  · rw [if_pos hthere, if_pos hthere]
    exact h.read (by omega)
  · rw [if_neg hthere, if_neg hthere]
    exact Fine.of_sound h

theorem Sound.read8 (h : ba.Sound) : Fine (bytearrayRead8 ba).2 ba.read8Accesses := by
  rw [bytearrayRead8, read8Accesses]
  by_cases hthere : ba.offset < ba.total
  · rw [if_pos hthere, if_pos hthere]
    exact h.read hthere
  · rw [if_neg hthere, if_neg hthere]
    exact Fine.of_sound h

theorem Sound.getU30 (n : ℕ) (h : ba.Sound) (shift : ℕ) (value : UInt32) :
    Fine (getU30Loop n ba shift value).2 (getU30Accesses n ba shift) := by
  induction n generalizing ba shift value with
  | zero => exact Fine.of_sound h
  | succ n ih =>
      have hfirst := h.read8
      rw [getU30Loop, getU30Accesses]
      generalize bytearrayRead8 ba = res at *
      obtain ⟨b, ba'⟩ := res
      cases b with
      | none => exact hfirst.append (Fine.of_sound hfirst.sound)
      | some b =>
          simp only
          split
          · exact hfirst.append (Fine.of_sound hfirst.sound)
          · exact hfirst.append (ih hfirst.sound _ _)

/-- The loop moves the position and nothing else. -/
theorem getU30Loop_frame (n : ℕ) (ba : Bytearray) (shift : ℕ) (value : UInt32) :
    (getU30Loop n ba shift value).2 = { ba with offset := (getU30Loop n ba shift value).2.offset } := by
  induction n generalizing ba shift value with
  | zero => rfl
  | succ n ih =>
      rw [getU30Loop, bytearrayRead8]
      split
      case h_1 heq =>
        split at heq
        · cases heq
        · cases heq
          rfl
      case h_2 heq =>
        split at heq
        · cases heq
          dsimp only
          split
          · rfl
          · exact ih _ _ _
        · cases heq

theorem getU24_frame (ba : Bytearray) : (ffiStreamGetU24 ba).2 = (readValueOptimized ba 3).2 := by
  rw [ffiStreamGetU24, bytearrayReadbuffer, show (3 : UInt32).toNat = 3 from rfl]
  cases hread : readValueOptimized ba 3 with
  | mk r ba' => cases r <;> rfl

theorem getS24_frame (ba : Bytearray) : (ffiStreamGetS24 ba).2 = (readValueOptimized ba 3).2 := by
  rw [ffiStreamGetS24, bytearrayReadbuffer, show (3 : UInt32).toNat = 3 from rfl]
  cases hread : readValueOptimized ba 3 with
  | mk r ba' =>
      cases r with
      | none => rfl
      | some v =>
          dsimp only
          split <;> rfl

/-- What is available lies between the position and `total`. -/
theorem Sound.available_le (h : ba.Sound) : ba.offset + bytearrayReadAvailable ba ≤ ba.total := by
  have hoffset := h.offset_le
  rw [bytearrayReadAvailable, h.sizeSub_eq]
  split <;> omega

theorem Sound.getString (h : ba.Sound) : Fine (ffiStreamGetString ba).2 ba.getStringAccesses := by
  have hloop := h.getU30 5 0 0
  have hframe := getU30Loop_frame 5 ba 0 0
  rw [ffiStreamGetString, getStringAccesses, ffiStreamGetU30]
  generalize getU30Loop 5 ba 0 0 = res at *
  obtain ⟨len, ba'⟩ := res
  dsimp only at hloop hframe
  have hback : { ba' with offset := ba.offset }.Sound := by
    refine hloop.sound.move ?_
    have htotal := congrArg Bytearray.total hframe
    exact htotal ▸ h.offset_le
  cases len with
  | none => exact hloop.append (Fine.of_sound hback)
  | some len =>
      have havailable := hloop.sound.available_le
      simp only
      by_cases hshort : bytearrayReadAvailable ba' < len.toNat
      · rw [if_pos hshort, if_pos hshort]
        exact hloop.append (Fine.of_sound hback)
      · rw [if_neg hshort, if_neg hshort]
        refine hloop.append ⟨(hloop.sound.readValue len.toNat).sound, fun a ha => ?_⟩
        rw [List.mem_singleton.mp ha]
        have htotal := hloop.sound.total_le
        exact hloop.sound.inside (by omega)

theorem Sound.bytesLen_le (h : ba.Sound) (n : ℕ) : ba.offset + (bytesLen ba n).toNat ≤ ba.total := by
  have havailable := h.available_le
  have hmod : (bytesLen ba n).toNat ≤ bytearrayReadAvailable ba := by
    rw [bytesLen, UInt32.toNat_ofNat']
    refine (Nat.mod_le _ _).trans ?_
    split_ifs <;> omega
  omega

theorem Sound.bytes (h : ba.Sound) (len : ℤ) : ∀ a ∈ ba.bytesAccesses len, a.Inside := by
  intro a ha
  rw [bytesAccesses] at ha
  split at ha
  · cases ha
  · rw [List.mem_singleton.mp ha]
    exact h.inside ((h.bytesLen_le _).trans h.total_le)

/-! ### Modes and marks -/

theorem Sound.readReady (h : ba.Sound) : (bytearrayReadReady ba).2.Sound := by
  rw [bytearrayReadReady]
  split
  case isTrue => exact h
  case isFalse hw =>
    rw [Bool.not_eq_true] at hw
    refine ⟨⟨Nat.zero_le _, h.offset_le.trans h.total_le, fun _ => ?_⟩, h.length_buffer, h.not_wrapped,
      fun hr => (by cases hr)⟩
    show ba.mark ≤ ba.offset
    rw [h.mark_of_writing hw]
    exact Nat.zero_le _

/-- The unread bytes move to the front, where they fit. -/
theorem Sound.writeReady (h : ba.Sound) : Fine (bytearrayWriteReady ba).2 ba.writeReadyAccesses := by
  rw [bytearrayWriteReady, writeReadyAccesses, h.sizeSub_eq]
  have hoffset := h.offset_le
  have htotal := h.total_le
  by_cases hr : ba.reading = true
  · by_cases hpos : 0 < ba.offset
    · simp only [hr, hpos, and_self, if_true]
      refine ⟨⟨⟨?_, le_refl _, fun hr => (by cases hr)⟩, ?_, h.not_wrapped, fun _ => rfl⟩, fun a ha => ?_⟩
      · show ba.total - ba.offset ≤ ba.buflen
        omega
      · show (memcpyTo ba.buffer 0 (bytesAt ba.buffer ba.offset (ba.total - ba.offset))).length = ba.buflen
        rw [length_memcpyTo, h.length_buffer]
        rw [bytesAt, List.length_take, List.length_drop, h.length_buffer]
        omega
      · rcases List.mem_pair.mp ha with rfl | rfl
        · exact h.inside (by omega)
        · exact h.inside (by omega)
    · simp only [hr, hpos, and_false, if_true, if_false]
      exact Fine.of_sound ⟨⟨htotal, le_refl _, fun hr => (by cases hr)⟩, h.length_buffer, h.not_wrapped,
        fun _ => rfl⟩
  · simp only [hr, Bool.false_eq_true, false_and, if_false]
    exact Fine.of_sound h

theorem Sound.mark (h : ba.Sound) : (bytearrayMark ba).2.Sound := by
  rw [bytearrayMark]
  split
  case isTrue hr =>
    refine ⟨⟨h.offset_le, h.total_le, fun _ => h.offset_le⟩, h.length_buffer, h.not_wrapped, fun hw => ?_⟩
    exact absurd hr (by rw [hw]; simp)
  case isFalse => exact h

theorem Sound.reset (h : ba.Sound) : (bytearrayReset ba).2.Sound := by
  rw [bytearrayReset]
  split
  case isTrue hr => exact h.move (h.mark_le hr)
  case isFalse => exact h

/-- Without a mark, an empty stream is sound. -/
theorem Sound.empty (h : ba.Sound) (hmark : ba.reading = true → ba.mark = 0) : (bytearrayEmpty ba).2.Sound where
  offset_le := le_refl 0
  total_le := Nat.zero_le _
  mark_le := fun hr => (hmark hr).le
  length_buffer := h.length_buffer
  not_wrapped := h.not_wrapped
  mark_of_writing := h.mark_of_writing

/-! ### All methods -/

/-- The one call that breaks the bounds: `empty`, while reading, with a mark that was set. -/
def Clears (ba : Bytearray) (op : StreamOp) : Prop := op = .empty ∧ ba.reading = true ∧ ba.mark ≠ 0

instance (ba : Bytearray) (op : StreamOp) : Decidable (ba.Clears op) :=
  inferInstanceAs (Decidable (op = .empty ∧ ba.reading = true ∧ ba.mark ≠ 0))

/-- **Every other method leaves a sound stream sound, and touches only its buffer.** -/
theorem Sound.step (h : ba.Sound) {op : StreamOp} (hop : ¬ba.Clears op) :
    Fine (streamStep ba op).1 (ba.accesses op) := by
  cases op with
  | addU8 v => exact h.write8 v
  | addU16 v =>
      have hwrite := h.writeValue (leBytes 2 v.toNat)
      rw [length_leBytes] at hwrite
      exact hwrite
  | addU24 v => exact h.writeValue (u24Bytes v)
  | addU30 v => exact h.addU30 5 v
  | addD64 v =>
      have hwrite := h.writeValue (leBytes 8 v.toNat)
      rw [length_leBytes] at hwrite
      exact hwrite
  | addString v =>
      have hlen := h.addU30 5 (UInt32.ofNat v.length)
      exact hlen.append (hlen.sound.writeValue v)
  | addBytes v => exact h.writeValue v
  | getU8 => exact h.read8
  | getU16 => exact h.readValue 2
  | getU24 =>
      have hread := h.readValue 3
      rw [← getU24_frame] at hread
      exact hread
  | getS24 =>
      have hread := h.readValue 3
      rw [← getS24_frame] at hread
      exact hread
  | getU32 => exact h.readValue 4
  | getU30 => exact h.getU30 5 0 0
  | getD64 => exact h.readValue 8
  | getString => exact h.getString
  | getBytes len =>
      refine ⟨?_, h.bytes len⟩
      simp only [streamStep]
      split
      · exact h
      · exact (h.readValue _).sound
  | testBytes len =>
      refine ⟨?_, h.bytes len⟩
      simp only [streamStep]
      split <;> exact h
  | available => exact Fine.of_sound h
  | mark => exact Fine.of_sound h.mark
  | reset => exact Fine.of_sound h.reset
  | prepareGet => exact Fine.of_sound h.readReady
  | prepareAdd => exact h.writeReady
  | package =>
      have hready := h.readReady
      refine ⟨hready, fun a ha => ?_⟩
      rw [List.mem_singleton.mp ha]
      exact hready.inside (by rw [Nat.zero_add]; exact hready.total_le)
  | empty =>
      refine Fine.of_sound (h.empty fun hr => ?_)
      by_contra hmark
      exact hop ⟨rfl, hr, hmark⟩

/-- That call breaks them. -/
theorem not_bounded_of_clears {op : StreamOp} (hop : ba.Clears op) : ¬(streamStep ba op).1.Bounded := by
  obtain ⟨rfl, hr, hmark⟩ := hop
  intro h
  exact hmark (Nat.le_zero.mp (h.mark_le hr))

theorem alloc_sound (length : UInt32) : (bytearrayAlloc length).Sound where
  offset_le := Nat.zero_le _
  total_le := le_refl _
  mark_le := fun h => by cases h
  length_buffer := length_malloc _
  not_wrapped := rfl
  mark_of_writing := fun _ => rfl

theorem new_sound (data : List UInt8) : (ffiStreamNew data).Sound := by
  rw [ffiStreamNew]
  split
  · exact ((alloc_sound _).writeValue data).sound.readReady
  · exact alloc_sound 0

end Bytearray

/-! ## Runs -/

/-- A stream, and all that its methods touched. -/
structure TracedStream where
  ba : Bytearray
  touched : List Access

namespace TracedStream

/-- `new`. -/
def new (data : List UInt8) : TracedStream := ⟨ffiStreamNew data, []⟩

/-- Any method can be called in any mode. -/
def step (s : TracedStream) (op : StreamOp) : Option TracedStream :=
  some ⟨(streamStep s.ba op).1, s.touched ++ s.ba.accesses op⟩

/-- The positions are in order, and everything that was touched lay in the buffer. -/
def Safe (s : TracedStream) : Prop := s.ba.Bounded ∧ ∀ a ∈ s.touched, a.Inside

theorem step_safe {s s' : TracedStream} {op : StreamOp} (h : s.ba.Fine s.touched)
    (hstep : step s op = some s') :
    (¬s.ba.Clears op → s'.ba.Fine s'.touched) ∧ (s'.Safe ↔ ¬s.ba.Clears op) := by
  obtain rfl := Option.some.inj hstep
  have hfine : ¬s.ba.Clears op → (streamStep s.ba op).1.Fine (s.touched ++ s.ba.accesses op) :=
    fun hop => h.append (h.sound.step hop)
  refine ⟨hfine, fun hsafe hop => ?_, fun hop => ?_⟩
  · exact Bytearray.not_bounded_of_clears hop hsafe.1
  · exact ⟨(hfine hop).sound.toBounded, (hfine hop).inside⟩

theorem exists_run (s : TracedStream) (ops : List StreamOp) : ∃ s', run step s ops = some s' := by
  induction ops generalizing s with
  | nil => exact ⟨s, rfl⟩
  | cons op ops ih => exact ih _

end TracedStream

/-- **The bounds hold in every state of a run, and nothing outside the buffer is touched**,
exactly when `empty` is not called while reading with a mark that was set. -/
theorem stream_bounded (data : List UInt8) (ops : List StreamOp) :
    Always TracedStream.step TracedStream.Safe (.new data) ops ↔
      Meets TracedStream.step (fun s op => ¬s.ba.Clears op) (.new data) ops := by
  obtain ⟨s, hrun⟩ := TracedStream.exists_run (.new data) ops
  have hnew : (TracedStream.new data).ba.Fine (TracedStream.new data).touched :=
    Bytearray.Fine.of_sound (Bytearray.new_sound data)
  exact always_iff (P := fun s => s.ba.Fine s.touched)
    (fun _ _ _ hP _ hstep => TracedStream.step_safe hP hstep) hnew
    ⟨hnew.sound.toBounded, hnew.inside⟩ hrun

/-- A mark behind the first byte, `empty`, and back to the mark. -/
def resetsToMark : List StreamOp := [.getU8, .mark, .empty, .reset, .getU16]

/-- **Two bytes are read from the second on, of a buffer of two.** -/
theorem stream_reads_outside : ∃ s : TracedStream,
    run TracedStream.step (.new [1, 2]) resetsToMark = some s ∧ ¬s.ba.Bounded ∧
      ⟨1, 2, 2⟩ ∈ s.touched ∧ ¬(⟨1, 2, 2⟩ : Access).Inside := by
  refine ⟨_, rfl, fun h => ?_, by decide, by decide⟩
  exact absurd h.offset_le (by decide)

end LuaFan
