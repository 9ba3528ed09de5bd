/-
# Reads that fail (`src/stream_ffi.c`)

A typed read fails when too few bytes are there.  A caller then adds what comes next to
the stream and reads again.

* `failed_read_unchanged`: a read that fails leaves the stream as it was, and reading again
  gives what all bytes together would have given at first, **exactly unless** the read is a
  `GetU30` and between one and four bytes of a longer number are there: it keeps the
  position behind them;
* `failed_getU30_moves`: one byte that announces more.
-/
import LuaFan.Stream.ByteFifo
import LuaFan.Stream.Bounds

namespace LuaFan

open Fifo

/-- The typed reads. -/
def StreamOp.isTypedRead : StreamOp → Bool
  | .getU8 | .getU16 | .getU24 | .getS24 | .getU32 | .getU30 | .getD64 | .getString => true
  | _ => false

/-- No value is returned: nothing, or nil and the size to wait for. -/
def StreamResult.failed : StreamResult → Bool
  | .nothing => true
  | .expect _ => true
  | _ => false

namespace Bytearray

/-- A stream that is read gets more bytes behind what it has. -/
def topUp (ba : Bytearray) (more : List UInt8) : Bytearray :=
  (streamRun ba [.prepareAdd, .addBytes more, .prepareGet]).1

/-- If the read fails, the position and the bytes that are left are as before, and the same
read with more bytes there answers as it would have answered with these bytes at first; on
a sound stream that is the answer to all bytes together. -/
def Retriable (ba : Bytearray) (op : StreamOp) : Prop :=
  (streamStep ba op).2.failed = true →
    (streamStep ba op).1.offset = ba.offset ∧
      storedBytes (streamStep ba op).1 = storedBytes ba ∧
      ∀ more, (streamStep ((streamStep ba op).1.topUp more) op).2 = (streamStep (ba.topUp more) op).2 ∧
        (ba.Sound → (streamStep ((streamStep ba op).1.topUp more) op).2 =
          (op.readSpec (storedBytes ba ++ more)).1)

/-- From one to four bytes are left to read, and each announces another one. -/
def CutU30 (ba : Bytearray) : Prop :=
  ba.offset < ba.total ∧ ba.total - ba.offset < 5 ∧
    ∀ i, ba.offset ≤ i → i < ba.total → ba.buffer.getD i 0 &&& 128 ≠ 0

variable {ba : Bytearray}

/-! ## The loop of a `U30` -/

theorem read8_none (h : ¬ba.offset < ba.total) : bytearrayRead8 ba = (none, ba) := by
  rw [bytearrayRead8, if_neg h]

theorem read8_some (h : ba.offset < ba.total) :
    bytearrayRead8 ba = (some (ba.buffer.getD ba.offset 0), { ba with offset := ba.offset + 1 }) := by
  rw [bytearrayRead8, if_pos h]

/-- The loop runs out of bytes when fewer are left than rounds, and all announce more. -/
theorem getU30Loop_none_iff (n : ℕ) {shift : ℕ} (hshift : shift + 7 * n = 35) (value : UInt32) :
    (getU30Loop n ba shift value).1 = none ↔
      ba.total - ba.offset < n ∧
        ∀ i, ba.offset ≤ i → i < ba.total → ba.buffer.getD i 0 &&& 128 ≠ 0 := by
  induction n generalizing ba shift value with
  | zero => simp [getU30Loop]
  | succ n ih =>
      rw [getU30Loop]
      by_cases hthere : ba.offset < ba.total
      · rw [read8_some hthere]
        dsimp only
        by_cases hlast : ba.buffer.getD ba.offset 0 &&& 128 = 0
        · rw [if_pos (Or.inl hlast)]
          refine iff_of_false (by simp) fun h => ?_
          exact h.2 ba.offset le_rfl hthere hlast
        · by_cases hround : 30 < shift + 7
          · rw [if_pos (Or.inr hround)]
            exact iff_of_false (by simp) (by omega)
          · rw [if_neg (not_or.mpr ⟨hlast, hround⟩), ih (by omega)]
            dsimp only
            constructor
            · rintro ⟨hfew, hmore⟩
              refine ⟨by omega, fun i hi hlt => ?_⟩
              rcases Nat.eq_or_lt_of_le hi with rfl | hi
              · exact hlast
              · exact hmore i hi hlt
            · rintro ⟨hfew, hmore⟩
              exact ⟨by omega, fun i hi hlt => hmore i (by omega) hlt⟩
      · rw [read8_none hthere]
        refine iff_of_true rfl ⟨by omega, fun i hi hlt => ?_⟩
        omega

/-- The bytes the loop has read are passed all the same. -/
theorem getU30Loop_none_offset (n : ℕ) {shift : ℕ} {value : UInt32}
    (h : (getU30Loop n ba shift value).1 = none) :
    (getU30Loop n ba shift value).2.offset = max ba.offset ba.total := by
  induction n generalizing ba shift value with
  | zero => cases h
  | succ n ih =>
      rw [getU30Loop] at h ⊢
      by_cases hthere : ba.offset < ba.total
      · rw [read8_some hthere] at h ⊢
        dsimp only at h ⊢
        split at h
        · cases h
        · rw [if_neg ‹_›, ih h]
          dsimp only
          omega
      · rw [read8_none hthere]
        dsimp only
        omega

/-! ## What a failed read leaves -/

theorem readValue_failed {n : ℕ} (h : (readValueOptimized ba n).1 = none) :
    (readValueOptimized ba n).2 = ba := by
  rw [readValueOptimized] at h ⊢
  split
  · rw [if_pos ‹_›] at h
    cases h
  · rfl

theorem getU24_none_iff : (ffiStreamGetU24 ba).1 = none ↔ (readValueOptimized ba 3).1 = none := by
  rw [ffiStreamGetU24, bytearrayReadbuffer, show (3 : UInt32).toNat = 3 from rfl]
  cases hread : readValueOptimized ba 3 with
  | mk r ba' => cases r <;> simp

theorem getS24_none_iff : (ffiStreamGetS24 ba).1 = none ↔ (readValueOptimized ba 3).1 = none := by
  rw [ffiStreamGetS24, bytearrayReadbuffer, show (3 : UInt32).toNat = 3 from rfl]
  cases hread : readValueOptimized ba 3 with
  | mk r ba' =>
      cases r with
      | none => simp
      | some v =>
          dsimp only
          split <;> simp

theorem failed_ofOption {α : Type} {f : α → StreamResult} (hf : ∀ a, (f a).failed = false) {r : Option α} :
    (StreamResult.ofOption f r).failed = true ↔ r = none := by
  cases r with
  | none => exact iff_of_true rfl rfl
  | some a => simp [StreamResult.ofOption, hf]

/-- A failed `GetString` goes back to where it began. -/
theorem getString_failed {n : ℕ} (h : (ffiStreamGetString ba).1 = .need n) : (ffiStreamGetString ba).2 = ba := by
  have hframe := getU30Loop_frame 5 ba 0 0
  rw [ffiStreamGetString, ffiStreamGetU30] at h ⊢
  generalize getU30Loop 5 ba 0 0 = res at *
  obtain ⟨len, ba'⟩ := res
  dsimp only at hframe
  cases len with
  | none =>
      dsimp only
      rw [hframe]
  | some len =>
      dsimp only at h ⊢
      split at h
      · rw [if_pos ‹_›, hframe]
      · cases h

theorem failed_ofGetString {r : GetString} :
    (StreamResult.ofGetString r).failed = true ↔ ∃ n, r = .need n := by
  cases r with
  | ok bs => simp [StreamResult.ofGetString, StreamResult.failed]
  | need n => simp [StreamResult.ofGetString, StreamResult.failed]

/-- **Every typed read but `GetU30` restores the stream when it fails, and `GetU30` does so
when it found no byte at all.** -/
theorem streamStep_failed {op : StreamOp} (hop : op.isTypedRead = true)
    (hfail : (streamStep ba op).2.failed = true) (hcut : ¬(op = .getU30 ∧ ba.CutU30)) :
    (streamStep ba op).1 = ba := by
  cases op with
  | getU8 =>
      by_cases hthere : ba.offset < ba.total
      · simp only [streamStep, read8_some hthere, StreamResult.ofOption, StreamResult.failed] at hfail
        cases hfail
      · simp only [streamStep, read8_none hthere]
  | getU16 => exact readValue_failed ((failed_ofOption fun _ => rfl).mp hfail)
  | getU24 =>
      simp only [streamStep] at hfail ⊢
      have hnone : (ffiStreamGetU24 ba).1 = none :=
        Option.eq_none_iff_forall_ne_some.mpr (by simpa using (failed_ofOption fun _ => rfl).mp hfail)
      rw [getU24_frame, readValue_failed (getU24_none_iff.mp hnone)]
  | getS24 =>
      simp only [streamStep] at hfail ⊢
      rw [failed_ofOption fun _ => rfl, getS24_none_iff] at hfail
      rw [getS24_frame, readValue_failed hfail]
  | getU32 => exact readValue_failed ((failed_ofOption fun _ => rfl).mp hfail)
  | getD64 => exact readValue_failed ((failed_ofOption fun _ => rfl).mp hfail)
  | getU30 =>
      have hnone : (getU30Loop 5 ba 0 0).1 = none := (failed_ofOption fun _ => rfl).mp hfail
      have hempty : ¬ba.offset < ba.total := fun hthere =>
        hcut ⟨rfl, hthere, (getU30Loop_none_iff 5 rfl 0).mp hnone⟩
      show (getU30Loop 5 ba 0 0).2 = ba
      rw [getU30Loop, read8_none hempty]
  | getString =>
      obtain ⟨n, hneed⟩ := failed_ofGetString.mp hfail
      exact getString_failed hneed
  | _ => cases hop

/-- Behind a cut `U30` nothing is left to read. -/
theorem getU30_moves (h : ba.CutU30) :
    (streamStep ba .getU30).2.failed = true ∧ (streamStep ba .getU30).1.offset = ba.total := by
  have hnone : (getU30Loop 5 ba 0 0).1 = none := (getU30Loop_none_iff 5 rfl 0).mpr h.2
  have hoffset := getU30Loop_none_offset 5 hnone
  rw [max_eq_right h.1.le] at hoffset
  exact ⟨(failed_ofOption fun _ => rfl).mpr hnone, hoffset⟩

/-! ## Reading again -/

theorem zero_le_zero : 0 ≤ 0 := le_rfl

/-- The tape of a stream that is read, without a mark. -/
def tape (ba : Bytearray) (h : ba.offset ≤ ba.total) (hlen : ba.total ≤ ba.buffer.length) : Tape UInt8 where
  appended := ba.buffer.take ba.total
  base := 0
  mark := 0
  pos := ba.offset
  reading := true
  base_le_mark := zero_le_zero
  mark_le_pos := Nat.zero_le _
  pos_le_length := by
    rw [List.length_take]
    omega
  pos_of_writing := fun h => by cases h

/-- What a sound stream holds, and what it is topped up with, is read as one. -/
theorem Sound.topUp_read (h : ba.Sound) (hr : ba.reading = true) {op : StreamOp} (hop : op.isRead = true)
    (more : List UInt8) :
    (streamStep (ba.topUp more) op).2 = (op.readSpec (storedBytes ba ++ more)).1 := by
  have hlen : ba.total ≤ ba.buffer.length := by
    rw [h.length_buffer]
    exact h.total_le
  have hrep : Represents { ba with mark := 0 } (ba.tape h.offset_le hlen) := by
    refine ⟨hr, h.not_wrapped, h.length_buffer, h.total_le, fun _ => ⟨rfl, rfl, rfl⟩, fun hw => ?_⟩
    rw [show ba.reading = false from hw] at hr
    cases hr
  -- `prepare_add` forgets the mark
  have hmark : ba.topUp more = { ba with mark := 0 }.topUp more := by
    simp only [topUp, streamRun, streamStep, bytearrayWriteReady, hr, if_true]
    split <;> rfl
  have hops : admissible { ba with mark := 0 } [.prepareAdd, .addBytes more, .prepareGet] = true := by
    simp [admissible, StreamOp.allowed, StreamOp.isAdd, streamStep, bytearrayWriteReady, hr]
  obtain ⟨-, hrep'⟩ := streamRun_represents _ hrep hops
  have hstored : storedBytes { ba with mark := 0 } = (ba.tape h.offset_le hlen).unread :=
    storedBytes_eq hrep
  have hunread : (tapeRun (ba.tape h.offset_le hlen) [.prepareAdd, .addBytes more, .prepareGet]).1.unread =
      storedBytes ba ++ more := by
    rw [show storedBytes ba = (ba.tape h.offset_le hlen).unread from hstored]
    exact List.drop_append_of_le_length (ba.tape h.offset_le hlen).pos_le_length
  rw [hmark, ← hunread]
  exact (streamStep_read hrep' hrep'.reading_eq hop).1

theorem isRead_of_typed {op : StreamOp} (hop : op.isTypedRead = true) : op.isRead = true := by
  cases op <;> first | rfl | cases hop

end Bytearray

open Bytearray in
/-- **A read that fails leaves the stream as it was, and can be made again**, in every state
of a stream that is read, exactly unless it is a `GetU30` that finds a part of a number. -/
theorem failed_read_unchanged {ba : Bytearray} {op : StreamOp} (hr : ba.reading = true)
    (hop : op.isTypedRead = true) : ba.Retriable op ↔ ¬(op = .getU30 ∧ ba.CutU30) := by
  constructor
  · rintro hretry ⟨rfl, hcut⟩
    obtain ⟨hfail, hoffset⟩ := getU30_moves hcut
    exact hcut.1.ne ((hretry hfail).1.symm.trans hoffset)
  · intro hcut hfail
    rw [streamStep_failed hop hfail hcut]
    exact ⟨rfl, rfl, fun more => ⟨rfl, fun h => h.topUp_read hr (isRead_of_typed hop) more⟩⟩

/-- A string whose length prefix is there, and not all of its bytes. -/
theorem failed_read_unchanged_string :
    (ffiStreamNew [3, 104]).reading = true ∧ (ffiStreamNew [3, 104]).Retriable .getString :=
  ⟨rfl, (failed_read_unchanged rfl rfl).mpr (by rintro ⟨h, -⟩; cases h)⟩

/-- **`GetU30` on one byte of two moves behind it**, and reads on from there when the other
byte comes. -/
theorem failed_getU30_moves : ∃ ba : Bytearray, ba = ffiStreamNew [0x81] ∧ ba.reading = true ∧
    (streamStep ba .getU30).2 = .nothing ∧ (streamStep ba .getU30).1.offset = 1 ∧
      (streamStep (ba.topUp [2]) .getU30).2 = .integer 257 ∧
      (streamStep ((streamStep ba .getU30).1.topUp [2]) .getU30).2 = .integer 2 := by
  refine ⟨_, rfl, rfl, rfl, rfl, ?_, ?_⟩ <;> decide +kernel

end LuaFan
