/-
# The receiving side of a connector (`modules/fan/connector/tcp.lua`)

A connector buffers what arrives in a stream.  A coroutine that calls
`receive(expect)` gets the stream at once when `expect` bytes are there, and is
parked otherwise; `onread` adds a chunk to the stream and resumes the parked
coroutine when its `expect` is met.

`FrameReader` is the reader loop of `fan.worker` on top of it: `receive` with
the last expectation, then `GetString`, keeping the returned expectation when it
fails.
-/
import LuaFan.Stream.Frame

namespace LuaFan

open Fifo

/-! ## The connector -/

/-- The fields of a connector that its receiving side uses. -/
structure TcpRead where
  readstream : Bytearray
  receiving : Bool
  receivingExpect : ℕ
  disconnected : Bool
  deriving DecidableEq, Repr

/-- A connector as `connect` and `bind` build it. -/
def TcpRead.new : TcpRead :=
  { readstream := ffiStreamNew [], receiving := false, receivingExpect := 0, disconnected := false }

/-- What a call of `receive` comes to: `nil`, the stream, or a parked coroutine. -/
inductive Received where
  | closed
  | input
  | parked
  deriving DecidableEq, Repr

/-- `apt_mt:receive(expect)`, up to its `coroutine.yield`. -/
def TcpRead.receive (apt : TcpRead) (expect : ℕ) : Received × TcpRead :=
  if apt.disconnected then (.closed, apt)
  else if expect ≤ bytearrayReadAvailable apt.readstream then (.input, apt)
  else (.parked, { apt with receivingExpect := expect, receiving := true })

/-- The two assignments of `receive` after its `coroutine.yield` returns. -/
def TcpRead.resumed (apt : TcpRead) : TcpRead :=
  { apt with receivingExpect := 0, receiving := false }

/-- The stream calls of the `onread` callback: `prepare_add`, `AddBytes`,
`prepare_get`. -/
def feedStream (ba : Bytearray) (buf : List UInt8) : Bytearray :=
  let ba := (bytearrayWriteReady ba).2
  let ba := (bytearrayWritebuffer ba buf).2
  (bytearrayReadReady ba).2

/-- The connector with a chunk added to its stream. -/
def TcpRead.fed (apt : TcpRead) (chunk : List UInt8) : TcpRead :=
  { apt with readstream := feedStream apt.readstream chunk }

section Fed

variable (apt : TcpRead) (chunk : List UInt8)

@[simp] theorem TcpRead.fed_readstream : (apt.fed chunk).readstream = feedStream apt.readstream chunk := rfl

@[simp] theorem TcpRead.fed_receiving : (apt.fed chunk).receiving = apt.receiving := rfl

@[simp] theorem TcpRead.fed_receivingExpect : (apt.fed chunk).receivingExpect = apt.receivingExpect := rfl

@[simp] theorem TcpRead.fed_disconnected : (apt.fed chunk).disconnected = apt.disconnected := rfl

end Fed

/-- The test of `apt_mt:_onread(input)` on a chunk. -/
def TcpRead.wakes (apt : TcpRead) : Bool :=
  apt.receiving && decide (apt.receivingExpect ≤ bytearrayReadAvailable apt.readstream)

/-- A chunk added to the stream adds to the unread bytes. -/
theorem feedStream_represents {ba : Bytearray} {t : Tape UInt8} (h : Represents ba t)
    (buf : List UInt8) :
    ∃ t' : Tape UInt8, Represents (feedStream ba buf) t' ∧ (feedStream ba buf).reading = true ∧
      t'.unread = t.unread ++ buf := by
  obtain ⟨t₁, h₁, hw₁, hu₁⟩ : ∃ t₁, Represents (bytearrayWriteReady ba).2 t₁ ∧
      (bytearrayWriteReady ba).2.reading = false ∧ t₁.unread = t.unread := by
    by_cases hr : ba.reading = true
    · obtain ⟨-, hrep⟩ := writeReady_represents h hr
      exact ⟨t.beginWrite, hrep, hrep.reading_eq, rfl⟩
    · have hw : ba.reading = false := by simpa using hr
      have hsame : (bytearrayWriteReady ba).2 = ba := by
        simp [bytearrayWriteReady, hw]
      exact ⟨t, hsame.symm ▸ h, hsame.symm ▸ hw, rfl⟩
  have h₂ := writeValue_represents buf h₁ hw₁
  have hw₂ : (bytearrayWritebuffer (bytearrayWriteReady ba).2 buf).2.reading = false :=
    h₂.reading_eq.trans (h₁.reading_eq ▸ hw₁)
  have h₃ := readReady_represents h₂ hw₂
  refine ⟨(t₁.append buf).beginRead, ?_, ?_, ?_⟩
  · rw [feedStream, bytearrayReadReady, if_neg (by simp [hw₂])]
    exact h₃
  · rw [feedStream, bytearrayReadReady, if_neg (by simp [hw₂])]
  · rw [← hu₁]
    show (t₁.appended ++ buf).drop t₁.pos = t₁.appended.drop t₁.pos ++ buf
    exact List.drop_append_of_le_length t₁.pos_le_length

/-! ## The frame reader -/

/-- The reader loop: its connector and the strings `GetString` has returned. -/
structure FrameReader where
  apt : TcpRead
  strings : List (List UInt8)
  deriving DecidableEq, Repr

/-- The loop body from a received input on: `GetString`, then `receive` with the
next expectation, and around again while that does not park.  Each round but the
last takes a byte, so the number of rounds is bounded; running out of `fuel` is
reported as `none`. -/
def FrameReader.loop : ℕ → FrameReader → Option FrameReader
  | 0, _ => none
  | fuel + 1, r =>
      let (res, ba) := ffiStreamGetString r.apt.readstream
      let apt := { r.apt with readstream := ba }
      match res with
      | .ok str =>
          match apt.receive 1 with
          | (.input, apt) => loop fuel { apt := apt, strings := r.strings ++ [str] }
          | (_, apt) => some { apt := apt, strings := r.strings ++ [str] }
      | .need expect =>
          match apt.receive expect with
          | (.input, apt) => loop fuel { apt := apt, strings := r.strings }
          | (_, apt) => some { apt := apt, strings := r.strings }

/-- A chunk arrives: it is added to the stream, and the parked loop is resumed if
its expectation is met. -/
def FrameReader.onread (r : FrameReader) (buf : List UInt8) : Option FrameReader :=
  let apt := r.apt.fed buf
  if apt.wakes then
    loop (bytearrayReadAvailable apt.readstream + 1) { r with apt := apt.resumed }
  else some { r with apt := apt }

/-- The reader after its first `receive(1)`. -/
def FrameReader.start : FrameReader :=
  { apt := (TcpRead.new.receive 1).2, strings := [] }

/-- The strings read when the chunks arrive one after the other. -/
def FrameReader.readAll (chunks : List (List UInt8)) : Option (List (List UInt8)) :=
  (chunks.foldlM FrameReader.onread FrameReader.start).map FrameReader.strings

/-! ## The invariant of a parked reader -/

/-- With `rest` still to be read as frames and `u` of it buffered, `e` is an
expectation that is not met yet and will be met. -/
def Awaits (u : List UInt8) (rest : List (List UInt8)) (e : ℕ) : Prop :=
  match rest with
  | [] => u = [] ∧ e = 1
  | s :: _ => u.length < e ∧ e ≤ (frame s).length

/-- A reader parked with `u` buffered and the frames `rest` to come. -/
structure Parked (r : FrameReader) (u : List UInt8) (rest : List (List UInt8)) : Prop where
  represented : ∃ t, Represents r.apt.readstream t ∧ t.unread = u
  receiving : r.apt.receiving = true
  connected : r.apt.disconnected = false
  awaits : Awaits u rest r.apt.receivingExpect

/-- `receive` on a connected stream with fewer bytes than expected parks. -/
theorem receive_parked (apt : TcpRead) (expect : ℕ) (hconn : apt.disconnected = false)
    (h : bytearrayReadAvailable apt.readstream < expect) :
    apt.receive expect = (.parked, { apt with receivingExpect := expect, receiving := true }) := by
  rw [TcpRead.receive, if_neg (by simp [hconn]), if_neg (by omega)]

/-- `receive` on a connected stream with the expected bytes returns it. -/
theorem receive_input (apt : TcpRead) (expect : ℕ) (hconn : apt.disconnected = false)
    (h : expect ≤ bytearrayReadAvailable apt.readstream) :
    apt.receive expect = (.input, apt) := by
  rw [TcpRead.receive, if_neg (by simp [hconn]), if_pos h]

/-- The reader parked with expectation `e`. -/
def FrameReader.park (r : FrameReader) (e : ℕ) : FrameReader :=
  ⟨{ r.apt with receivingExpect := e, receiving := true }, r.strings⟩

/-- The reader after a string of `n` frame bytes. -/
def FrameReader.take (r : FrameReader) (n : ℕ) (str : List UInt8) : FrameReader :=
  ⟨{ r.apt with readstream :=
      { r.apt.readstream with offset := r.apt.readstream.offset + n } }, r.strings ++ [str]⟩

/-- A round in which `GetString` fails with an expectation that is not met. -/
theorem loop_need {fuel : ℕ} {r : FrameReader} {t : Tape UInt8} {e : ℕ}
    (hrep : Represents r.apt.readstream t) (hread : r.apt.readstream.reading = true)
    (hconn : r.apt.disconnected = false) (hneed : takeString t.unread = (.need e, 0))
    (hlt : t.unread.length < e) : FrameReader.loop (fuel + 1) r = some (r.park e) := by
  have hget := (getString_eq hrep hread).1
  rw [hneed] at hget
  have hrecv := receive_parked r.apt e hconn
    (by rw [hrep.available_eq hread]; exact hlt)
  simp only [FrameReader.loop, hget, Nat.add_zero, hrecv]
  rfl

/-- A round in which `GetString` returns a string of `n` frame bytes: the loop
goes on with the rest, or parks if there is none. -/
theorem loop_ok (fuel : ℕ) {r : FrameReader} {t : Tape UInt8} {n : ℕ} {str : List UInt8}
    (hrep : Represents r.apt.readstream t) (hread : r.apt.readstream.reading = true)
    (hconn : r.apt.disconnected = false) (hok : takeString t.unread = (.ok str, n)) :
    Represents (r.take n str).apt.readstream (t.advance n) ∧
      (t.advance n).unread = t.unread.drop n ∧
      FrameReader.loop (fuel + 1) r =
        if (t.unread.drop n).length = 0 then some ((r.take n str).park 1)
        else FrameReader.loop fuel (r.take n str) := by
  obtain ⟨hget, hk⟩ := getString_eq hrep hread
  rw [hok] at hget hk
  simp only at hget hk
  have hrep' : Represents (r.take n str).apt.readstream (t.advance n) := hrep.advance hread hk
  have hunread := t.unread_advance (hrep.reading_eq ▸ hread) hk
  have hav := hrep'.available_eq hread
  rw [hunread] at hav
  refine ⟨hrep', hunread, ?_⟩
  by_cases hempty : (t.unread.drop n).length = 0
  · have hrecv := receive_parked (r.take n str).apt 1 hconn (by omega)
    rw [if_pos hempty]
    simp only [FrameReader.take] at hrecv
    simp only [FrameReader.loop, hget, hrecv]
    rfl
  · have hrecv := receive_input (r.take n str).apt 1 hconn (by omega)
    rw [if_neg hempty]
    simp only [FrameReader.take] at hrecv
    simp only [FrameReader.loop, hget, hrecv]
    rfl

/-- Cutting the front frame off a stream of frames. -/
theorem exists_frame_append {u later wire : List UInt8} {s : List UInt8}
    (hwire : u ++ later = frame s ++ wire) (hwhole : (frame s).length ≤ u.length) :
    ∃ u', u = frame s ++ u' ∧ u' ++ later = wire := by
  refine ⟨u.drop (frame s).length, ?_, ?_⟩
  · have htake := congrArg (List.take (frame s).length) hwire
    rw [List.take_append_of_le_length hwhole, List.take_left] at htake
    nth_rewrite 1 [← List.take_append_drop (frame s).length u]
    rw [htake]
  · have hdrop := congrArg (List.drop (frame s).length) hwire
    rwa [List.drop_append_of_le_length hwhole, List.drop_left] at hdrop

/-- A front frame that is not whole is cut. -/
theorem eq_take_frame {u later wire : List UInt8} {s : List UInt8}
    (hwire : u ++ later = frame s ++ wire) (hcut : u.length < (frame s).length) :
    u = (frame s).take u.length := by
  have htake := congrArg (List.take u.length) hwire
  rwa [List.take_left, List.take_append_of_le_length (by omega)] at htake

/-- The loop of a reader that has input: it reads every whole frame and parks. -/
theorem loop_parks (fuel : ℕ) (r : FrameReader) (t : Tape UInt8) (rest : List (List UInt8))
    (later : List UInt8) (hrep : Represents r.apt.readstream t)
    (hread : r.apt.readstream.reading = true) (hconn : r.apt.disconnected = false)
    (hshort : ∀ s ∈ rest, s.length < 2 ^ 32)
    (hwire : t.unread ++ later = rest.flatMap frame) (hfuel : t.unread.length < fuel) :
    ∃ r' done rest' u', FrameReader.loop fuel r = some r' ∧ rest = done ++ rest' ∧
      r'.strings = r.strings ++ done ∧ u' ++ later = rest'.flatMap frame ∧ Parked r' u' rest' := by
  induction fuel generalizing r t rest with
  | zero => omega
  | succ fuel ih =>
      cases rest with
      | nil =>
          -- nothing more will come: `GetString` asks for one byte
          have hempty : t.unread = [] := by
            have hlen := congrArg List.length hwire
            simp only [List.length_append, List.flatMap_nil, List.length_nil] at hlen
            exact List.length_eq_zero_iff.mp (by omega)
          have hneed : takeString t.unread = (.need 1, 0) := by rw [hempty]; rfl
          refine ⟨r.park 1, [], [], t.unread, ?_, rfl, by simp [FrameReader.park], hwire, ?_⟩
          · exact loop_need hrep hread hconn hneed (by simp [hempty])
          · exact ⟨⟨t, hrep, rfl⟩, rfl, hconn, hempty, rfl⟩
      | cons s rest =>
          have hs : s.length < 2 ^ 32 := hshort s (by simp)
          rw [List.flatMap_cons] at hwire
          by_cases hwhole : (frame s).length ≤ t.unread.length
          · obtain ⟨u, hu, hwire'⟩ := exists_frame_append hwire hwhole
            have hok := takeString_frame hs u
            rw [← hu] at hok
            obtain ⟨hrep', hunread, hloop⟩ := loop_ok fuel hrep hread hconn hok
            have hdrop : t.unread.drop (frame s).length = u := by rw [hu, List.drop_left]
            rw [hdrop] at hunread hloop
            by_cases hnil : u.length = 0
            · rw [if_pos hnil] at hloop
              refine ⟨_, [s], rest, u, hloop, rfl, rfl, hwire', ⟨_, hrep', hunread⟩, rfl, hconn, ?_⟩
              cases rest with
              | nil => exact ⟨List.length_eq_zero_iff.mp hnil, rfl⟩
              | cons s' rest => exact ⟨by rw [hnil]; exact Nat.one_pos, length_frame_pos s'⟩
            · rw [if_neg hnil] at hloop
              have hlen := congrArg List.length hu
              have hpos := length_frame_pos s
              rw [List.length_append] at hlen
              obtain ⟨r', done, rest', u', hloop', hsplit, hstr, hw, hpark⟩ :=
                ih _ _ rest hrep' hread hconn (fun s' hs' => hshort s' (by simp [hs']))
                  (by rw [hunread]; exact hwire') (by rw [hunread]; omega)
              refine ⟨r', s :: done, rest', u', by rw [hloop, hloop'], by rw [hsplit]; rfl, ?_, hw,
                hpark⟩
              rw [hstr]
              simp [FrameReader.take]
          · have hcut := eq_take_frame hwire (by omega)
            obtain ⟨e, hneed, hlt, hle, -⟩ := takeString_cut hs (k := t.unread.length) (by omega)
            rw [← hcut] at hneed
            refine ⟨r.park e, [], s :: rest, t.unread, loop_need hrep hread hconn hneed hlt, rfl,
              by simp [FrameReader.park], by rw [List.flatMap_cons]; exact hwire, ?_⟩
            exact ⟨⟨t, hrep, rfl⟩, rfl, hconn, hlt, hle⟩

/-- **A chunk keeps the reader's invariant**: the whole frames are read in order
and the reader parks again. -/
theorem onread_parks {r : FrameReader} {u : List UInt8} {rest : List (List UInt8)}
    {buf later : List UInt8} (hpark : Parked r u rest) (hshort : ∀ s ∈ rest, s.length < 2 ^ 32)
    (hwire : u ++ (buf ++ later) = rest.flatMap frame) :
    ∃ r' done rest' u', r.onread buf = some r' ∧ rest = done ++ rest' ∧
      r'.strings = r.strings ++ done ∧ u' ++ later = rest'.flatMap frame ∧ Parked r' u' rest' := by
  obtain ⟨t, hrep, rfl⟩ := hpark.represented
  obtain ⟨t', hrep', hread, hunread⟩ := feedStream_represents hrep buf
  have hav := hrep'.available_eq hread
  have hwire' : t'.unread ++ later = rest.flatMap frame := by
    rw [hunread, List.append_assoc]
    exact hwire
  rw [FrameReader.onread]
  by_cases hmet : r.apt.receivingExpect ≤ t'.unread.length
  · rw [if_pos (by simp [TcpRead.wakes, hpark.receiving, hav, hmet])]
    exact loop_parks _ _ t' rest later hrep' hread hpark.connected hshort hwire'
      (by rw [TcpRead.fed_readstream, hav]; exact Nat.lt_succ_self _)
  · rw [if_neg (by simp [TcpRead.wakes, hav, hmet])]
    refine ⟨_, [], rest, t'.unread, rfl, rfl, by simp, hwire', ⟨t', hrep', rfl⟩, hpark.receiving,
      hpark.connected, ?_⟩
    have hawaits := hpark.awaits
    cases rest with
    | nil =>
        -- no byte can arrive any more
        have hlen := congrArg List.length hwire'
        simp only [List.length_append, List.flatMap_nil, List.length_nil] at hlen
        exact ⟨List.length_eq_zero_iff.mp (by omega), hawaits.2⟩
    | cons s rest => exact ⟨by simpa using hmet, hawaits.2⟩

theorem foldlM_onread_parks (chunks : List (List UInt8)) {r : FrameReader} {u : List UInt8}
    {rest : List (List UInt8)} (hpark : Parked r u rest) (hshort : ∀ s ∈ rest, s.length < 2 ^ 32)
    (hwire : u ++ chunks.flatten = rest.flatMap frame) :
    (chunks.foldlM FrameReader.onread r).map FrameReader.strings = some (r.strings ++ rest) := by
  induction chunks generalizing r u rest with
  | nil =>
      -- everything has arrived, so nothing is awaited
      have hawaits := hpark.awaits
      cases rest with
      | nil => simp
      | cons s rest =>
          have hlen := congrArg List.length hwire
          simp only [List.flatten_nil, List.append_nil, List.flatMap_cons, List.length_append] at hlen
          have hlt := hawaits.1
          have hle := hawaits.2
          omega
  | cons buf chunks ih =>
      obtain ⟨r', done, rest', u', hread, hsplit, hstr, hw, hpark'⟩ :=
        onread_parks hpark hshort hwire
      subst hsplit
      have hrest := ih hpark' (fun s hs => hshort s (by simp [hs])) hw
      rw [hstr, List.append_assoc] at hrest
      rw [List.foldlM_cons, hread]
      exact hrest

/-- The reader starts parked for one byte. -/
theorem start_parked (rest : List (List UInt8)) : Parked FrameReader.start [] rest where
  represented := ⟨newTape [], new_represents [], rfl⟩
  receiving := rfl
  connected := rfl
  awaits := by
    cases rest with
    | nil => exact ⟨rfl, rfl⟩
    | cons s rest => exact ⟨Nat.one_pos, length_frame_pos s⟩

/-! ## Framing does not depend on chunking -/

/-- What a sender hands to `send` for a string: a new stream, `AddString`,
`package`. -/
def packaged (s : List UInt8) : List UInt8 :=
  (ffiStreamPackage (ffiStreamAddString (ffiStreamNew []) s)).1

theorem packaged_eq_frame (s : List UInt8) : packaged s = frame s := by
  have hadd := (streamStep_add (.addString s) (new_represents []) rfl rfl).2
  have hw : (ffiStreamAddString (ffiStreamNew []) s).reading = false := hadd.reading_eq
  have hdata := (hadd.of_writing hw).1
  rw [packaged, ffiStreamPackage, bytearrayReadReady, if_neg (by simp [hw])]
  show bytesAt _ 0 _ = _
  rw [bytesAt, List.drop_zero]
  exact hdata

/-- **Length-prefixed framing.**  For every sequence of strings shorter than
`2 ^ 32` bytes and every way its packages are cut into chunks, the reader loop
returns exactly that sequence.  And whenever `GetString` fails on a stream that
holds a prefix of what was sent, the buffer is unchanged and the size asked for
is more than what is available and not more than the pending frame, or its
length prefix while that is incomplete. -/
theorem framing_chunks (ss : List (List UInt8)) (hshort : ∀ s ∈ ss, s.length < 2 ^ 32) :
    (∀ chunks : List (List UInt8), chunks.flatten = ss.flatMap packaged →
      FrameReader.readAll chunks = some ss) ∧
    ∀ (ba : Bytearray) (t : Tape UInt8) (s : List UInt8) (rest : List (List UInt8)) (e : ℕ)
      (later : List UInt8),
      Represents ba t → ba.reading = true → s :: rest <:+ ss →
      t.unread ++ later = (s :: rest).flatMap packaged →
      (ffiStreamGetString ba).1 = .need e →
      (ffiStreamGetString ba).2 = ba ∧ bytearrayReadAvailable ba < e ∧
        e ≤ (packaged s).length ∧
        (bytearrayReadAvailable ba < (u30Bytes (UInt32.ofNat s.length)).length →
          e ≤ (u30Bytes (UInt32.ofNat s.length)).length) := by
  have hpack : packaged = frame := funext packaged_eq_frame
  rw [hpack]
  refine ⟨?_, ?_⟩
  · intro chunks hchunks
    exact foldlM_onread_parks chunks (start_parked ss) hshort hchunks
  · intro ba t s rest e later hrep hread hsuffix hwire hneed
    have hs : s.length < 2 ^ 32 := hshort s (hsuffix.subset (by simp))
    obtain ⟨hget, -⟩ := getString_eq hrep hread
    rw [List.flatMap_cons] at hwire
    by_cases hwhole : (frame s).length ≤ t.unread.length
    · obtain ⟨u, hu, -⟩ := exists_frame_append hwire hwhole
      rw [hget, hu, takeString_frame hs] at hneed
      simp at hneed
    · have hcut := eq_take_frame hwire (by omega)
      obtain ⟨e', hneed', hlt, hle, hpre⟩ := takeString_cut hs (k := t.unread.length) (by omega)
      rw [← hcut] at hneed'
      rw [hget, hneed'] at hneed ⊢
      rw [hrep.available_eq hread]
      obtain rfl : e' = e := by simpa using hneed
      exact ⟨rfl, hlt, hle, hpre⟩

/-- Two packages cut inside a frame and between frames. -/
theorem framing_chunks_cut_twice :
    (∀ s ∈ ([[7, 8], []] : List (List UInt8)), s.length < 2 ^ 32) ∧
      FrameReader.readAll [[2], [7, 8, 0]] = some [[7, 8], []] :=
  ⟨by decide, (framing_chunks [[7, 8], []] (by decide)).1 [[2], [7, 8, 0]] (by decide +kernel)⟩

/-! ## Strings too long for the length prefix -/

/-- The loop only adds strings. -/
theorem strings_prefix_loop (fuel : ℕ) {r r' : FrameReader}
    (h : FrameReader.loop fuel r = some r') : r.strings <+: r'.strings := by
  induction fuel generalizing r with
  | zero => simp [FrameReader.loop] at h
  | succ fuel ih =>
      simp only [FrameReader.loop] at h
      split at h
      · -- a string was read
        split at h
        · exact (List.prefix_append _ _).trans (ih h)
        · obtain rfl := Option.some.inj h
          exact List.prefix_append _ _
      · split at h
        · rename_i apt _
          exact ih (r := ⟨apt, r.strings⟩) h
        · obtain rfl := Option.some.inj h
          exact List.prefix_refl _

/-- When a frame is there, it is the next string. -/
theorem loop_prefix {fuel : ℕ} {r r' : FrameReader} {t : Tape UInt8} {str : List UInt8} {n : ℕ}
    (hrep : Represents r.apt.readstream t) (hread : r.apt.readstream.reading = true)
    (hconn : r.apt.disconnected = false) (hok : takeString t.unread = (.ok str, n))
    (h : FrameReader.loop (fuel + 1) r = some r') : r.strings ++ [str] <+: r'.strings := by
  rw [(loop_ok fuel hrep hread hconn hok).2.2] at h
  split at h
  · obtain rfl := Option.some.inj h
    exact List.prefix_refl _
  · exact strings_prefix_loop _ h

/-- When a chunk meets the expectation and a frame is there, that frame is the
next string. -/
theorem onread_prefix {r r' : FrameReader} {t : Tape UInt8} {buf str : List UInt8} {n : ℕ}
    (hrep : Represents r.apt.readstream t) (hrecv : r.apt.receiving = true)
    (hconn : r.apt.disconnected = false)
    (hmet : r.apt.receivingExpect ≤ (t.unread ++ buf).length)
    (hok : takeString (t.unread ++ buf) = (.ok str, n)) (h : r.onread buf = some r') :
    r.strings ++ [str] <+: r'.strings := by
  obtain ⟨t', hrep', hread, hunread⟩ := feedStream_represents hrep buf
  have hav := hrep'.available_eq hread
  rw [← hunread] at hmet hok
  rw [FrameReader.onread, if_pos (by simp [TcpRead.wakes, hrecv, hav, hmet])] at h
  refine loop_prefix (r := ⟨TcpRead.resumed { r.apt with readstream := _ }, r.strings⟩) hrep' hread
    hconn hok h

/-- A package of `2 ^ 32` bytes or more is never read back: the first string
returned is shorter. -/
theorem readAll_long {s : List UInt8} (hs : 2 ^ 32 ≤ s.length) :
    FrameReader.readAll [packaged s] ≠ some [s] := by
  have hok := takeString_frame_append s []
  rw [List.append_nil] at hok
  intro h
  rw [FrameReader.readAll, List.foldlM_cons, packaged_eq_frame] at h
  cases hread : FrameReader.start.onread (frame s) with
  | none => simp [hread] at h
  | some r' =>
      have hstr : r'.strings = [s] := by simpa [hread] using h
      have hprefix := onread_prefix (r := FrameReader.start) (new_represents []) rfl rfl
        (length_frame_pos s) hok hread
      rw [hstr] at hprefix
      have heq : s.take (s.length % 2 ^ 32) = s := by
        have := hprefix.eq_of_length rfl
        simpa [FrameReader.start] using this
      have hlen := congrArg List.length heq
      rw [List.length_take] at hlen
      have hlt : s.length % 2 ^ 32 < 2 ^ 32 := Nat.mod_lt _ (by decide)
      omega

/-- A string of `2 ^ 32` zero bytes is lost. -/
theorem framing_loses_long_string :
    ([packaged (List.replicate (2 ^ 32) 0)] : List (List UInt8)).flatten =
        ([List.replicate (2 ^ 32) 0] : List (List UInt8)).flatMap packaged ∧
      FrameReader.readAll [packaged (List.replicate (2 ^ 32) 0)] ≠
        some [List.replicate (2 ^ 32) 0] :=
  ⟨by rw [List.flatten_singleton, List.flatMap_singleton],
    readAll_long (le_of_eq List.length_replicate.symm)⟩

end LuaFan
