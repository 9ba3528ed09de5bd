/-
# The HTTP client (`modules/fan/http/http.lua`, `request`)

How `request` receives a response: the head line by line, then a body of a given length or one
in chunks, with another `receive` wherever something is missing.  The request was sent without
the callbacks `onheader` and `onbody`.

`ClientRun.step` is one round of one of its three loops.  A parked `receive` takes the chunks
that arrive until its expectation is met; when all have come, the peer closes.
-/
import LuaFan.Httpd.Head
import LuaFan.Lua.Value
import LuaFan.Lib.Segments

namespace LuaFan

open Fifo Fp Segments

/-! ## The connection -/

/-- The connector, the chunks that have not arrived, and the message with which the peer will
close. -/
structure ClientConn where
  apt : TcpRead
  chunks : List (List UInt8)
  message : List UInt8

namespace ClientConn

/-- Chunks arrive at a parked `receive`. -/
def arrive (apt : TcpRead) (message : List UInt8) : List (List UInt8) → Bool × ClientConn
  | [] => (false, ⟨{ apt.resumed with disconnected := true }, [], message⟩)
  | c :: cs =>
      let apt := apt.fed c
      if apt.wakes then (true, ⟨apt.resumed, cs, message⟩) else arrive apt message cs

/-- `conn:receive(expect)`: whether it returned the stream. -/
def receive (conn : ClientConn) (expect : ℕ) : Bool × ClientConn :=
  match conn.apt.receive expect with
  | (.closed, apt) => (false, { conn with apt := apt })
  | (.input, apt) => (true, { conn with apt := apt })
  | (.parked, apt) => arrive apt conn.message conn.chunks

def input (conn : ClientConn) : Bytearray := conn.apt.readstream

def withInput (conn : ClientConn) (input : Bytearray) : ClientConn :=
  { conn with apt := { conn.apt with readstream := input } }

/-- `conn.disconnected_message`. -/
def disconnectedMessage (conn : ClientConn) : Option (List UInt8) :=
  if conn.apt.disconnected then some conn.message else none

end ClientConn

/-! ## Matching a line -/

/-- `"HTTP/([0-9.]+) (%d+) (.+)"` at the front: version, code and message. -/
def matchStatusAt (s : List UInt8) : Option (List UInt8 × List UInt8 × List UInt8) :=
  let version := (s.drop 5).takeWhile fun b => isDigit b || b == ascii '.'
  let afterVersion := s.drop (5 + version.length)
  let code := (afterVersion.drop 1).takeWhile isDigit
  let afterCode := afterVersion.drop (1 + code.length)
  let message := afterCode.drop 1
  if s.take 5 = bytesOf "HTTP/" ∧ version ≠ [] ∧ afterVersion.head? = some 32 ∧ code ≠ []
      ∧ afterCode.head? = some 32 ∧ message ≠ [] then
    some (version, code, message)
  else none

/-- `string.match` with the pattern of the status line, which is not anchored. -/
def matchStatus (line : List UInt8) : Option (List UInt8 × List UInt8 × List UInt8) :=
  line.tails.findSome? matchStatusAt

/-- `"([^:]+):[ ]*(.*)"` at the front: name and value. -/
def matchFieldAt (s : List UInt8) : Option (List UInt8 × List UInt8) :=
  let name := s.takeWhile (· ≠ ascii ':')
  match s.drop name.length with
  | _ :: rest => if name ≠ [] then some (name, rest.dropWhile (· = 32)) else none
  | [] => none

/-- `string.match` with the pattern of a header line. -/
def matchField (line : List UInt8) : Option (List UInt8 × List UInt8) :=
  line.tails.findSome? matchFieldAt

/-- `tonumber(s, 16)`, which wraps around. -/
def tonumber16 (s : List UInt8) : Option Int64 :=
  let s := s.dropWhile isSpace
  let sign := takeSign s
  let s := s.drop sign.2
  let digits := s.takeWhile isXDigit
  if digits = [] ∨ (s.drop digits.length).dropWhile isSpace ≠ [] then none
  else some (Int64.ofInt (if sign.1 then -(digitsValue 16 digits) else digitsValue 16 digits))

/-! ## The code -/

/-- The table that `request` returns. -/
structure HttpRet where
  responseCode : Option LuaNumber
  responseMessage : Option (List UInt8)
  headers : List (List UInt8 × HeaderValue)
  body : Option (List UInt8)
  error : Option (List UInt8)
  deriving DecidableEq

/-- Where `request` is: in the loop over the head, in one of those over the body, with the body so
far and what is left of the current chunk, or at an end. -/
inductive ClientPhase where
  | head
  | length (t : List UInt8)
  | chunks (t : List UInt8) (lineTotal : Option ℤ)
  | returned
  | raised
  deriving DecidableEq

/-- The connection and the local variables of `request`. -/
structure ClientRun where
  conn : ClientConn
  ret : HttpRet
  firstLineCompleted : Bool
  contentLength : Option LuaNumber
  chunked : Bool
  phase : ClientPhase

/-- The bytes of a string that a stream call returned. -/
def StreamResult.bytes : StreamResult → List UInt8
  | .string bs => bs
  | _ => []

namespace ClientRun

/-- The request was sent, and the chunks will arrive. -/
def start (chunks : List (List UInt8)) (message : List UInt8) : ClientRun :=
  ⟨⟨TcpRead.new, chunks, message⟩, ⟨some (.integer 0), none, [], none, none⟩, false,
    some (.integer 0), false, .head⟩

/-- `request` returns with `ret.error`. -/
def fail (r : ClientRun) (error : Option (List UInt8)) : ClientRun :=
  { r with ret := { r.ret with error := error }, phase := .returned }

/-- `request` returns with `ret.body`. -/
def finish (r : ClientRun) (body : List UInt8) : ClientRun :=
  { r with ret := { r.ret with body := some body }, phase := .returned }

/-- A line of the head. -/
def headLine (r : ClientRun) (line : List UInt8) : ClientRun :=
  if line = [] then { r with phase := if r.chunked then .chunks [] (some 0) else .length [] }
  else if r.firstLineCompleted then
    match matchField line with
    -- `string.lower` of nil
    | none => { r with phase := .raised }
    | some (k, v) =>
        let k := k.map toLower
        { r with
          contentLength := if k = bytesOf "content-length" then str2num v else r.contentLength
          chunked := r.chunked || decide (k = bytesOf "transfer-encoding" ∧ v = bytesOf "chunked")
          ret := { r.ret with headers := addHeaderValue r.ret.headers k v } }
  else
    let status := matchStatus line
    { r with
      firstLineCompleted := true
      ret := { r.ret with
        responseCode := status.bind fun m => str2num m.2.1
        responseMessage := status.map fun m => m.2.2 } }

/-- A round of the loop over the head. -/
def headRound (r : ClientRun) : ClientRun :=
  match r.conn.receive 1 with
  | (false, conn) => { r with conn := conn }.fail conn.disconnectedMessage
  | (true, conn) =>
      match readline conn.input with
      -- `#line` of nil
      | (none, input) => { r with conn := conn.withInput input, phase := .raised }
      | (some (line, _), input) => { r with conn := conn.withInput input }.headLine line

/-- A round of the loop over a body of a given length, where `t` has been read. -/
def lengthRound (r : ClientRun) (t : List UInt8) : ClientRun :=
  let (input, buff) := streamStep r.conn.input (.getBytes (-1))
  let t := t ++ buff.bytes
  let (more, conn) := (r.conn.withInput input).receive 1
  let r := { r with conn := conn }
  match r.contentLength with
  -- a number is compared with nil
  | none => { r with phase := .raised }
  | some n =>
      if n.value.le (intValue t.length) || !more then
        if n.value = intValue t.length then r.finish t else r.fail conn.disconnectedMessage
      else { r with phase := .length t }

/-- The end of a round of the loop over chunks. -/
def nextChunk (r : ClientRun) (t : List UInt8) (lineTotal : Option ℤ) : ClientRun :=
  match r.conn.receive 1 with
  | (true, conn) => { r with conn := conn, phase := .chunks t lineTotal }
  | (false, conn) => { r with conn := conn }.fail (some (bytesOf "chunked error 3."))

/-- A round inside a chunk of which `n` bytes are missing. -/
def chunkData (r : ClientRun) (t : List UInt8) (n : ℤ) : ClientRun :=
  match streamStep r.conn.input (.getBytes n) with
  | (input, .string buff) =>
      match (r.conn.withInput input).receive 2 with
      | (false, conn) => { r with conn := conn }.fail (some (bytesOf "chunked error 4."))
      | (true, conn) =>
          if n - buff.length = 0 then
            let (line, input) := readline conn.input
            let r := { r with conn := conn.withInput input }
            if line.map Prod.snd = some [cr, lf] then r.nextChunk (t ++ buff) (some 0)
            else r.fail (some (bytesOf "chunked error 1."))
          else { r with conn := conn }.nextChunk (t ++ buff) (some (n - buff.length))
  | (input, _) => { r with conn := r.conn.withInput input }.nextChunk t (some n)

/-- The chunk of size 0: a line is read after it. -/
def lastChunk (r : ClientRun) (t : List UInt8) : ClientRun :=
  match r.conn.receive 2 with
  | (true, conn) =>
      let (line, input) := readline conn.input
      let r := { r with conn := conn.withInput input }
      if line.map Prod.snd = some [cr, lf] then r.finish t
      else r.fail (some (bytesOf "chunked error 2."))
  | (false, conn) => { r with conn := conn }.fail conn.disconnectedMessage

/-- A round at the size of a chunk. -/
def chunkSize (r : ClientRun) (t : List UInt8) (n : ℤ) : ClientRun :=
  let (line, input) := readline r.conn.input
  let r := { r with conn := r.conn.withInput input }
  match line with
  | some (line, flag) =>
      if flag = [cr, lf] then
        let lineTotal := (tonumber16 line).map Int64.toInt
        if lineTotal = some 0 then r.lastChunk t else r.nextChunk t lineTotal
      else r.nextChunk t (some n)
  | none => r.nextChunk t (some n)

/-- A round of the loop over chunks. -/
def chunkRound (r : ClientRun) (t : List UInt8) : Option ℤ → ClientRun
  -- nil is compared with a number
  | none => { r with phase := .raised }
  | some n => if 0 < n then r.chunkData t n else r.chunkSize t n

def step (r : ClientRun) : ClientRun :=
  match r.phase with
  | .head => r.headRound
  | .length t => r.lengthRound t
  | .chunks t lineTotal => r.chunkRound t lineTotal
  | .returned => r
  | .raised => r

end ClientRun

/-- What has become of a call of `request`. -/
inductive ClientOutcome where
  | running
  | returned (ret : HttpRet)
  | raised
  deriving DecidableEq

def ClientRun.outcome (r : ClientRun) : ClientOutcome :=
  match r.phase with
  | .returned => .returned r.ret
  | .raised => .raised
  | _ => .running

/-! ## What a `receive` takes in -/

/-- `GetBytes`, on the unread bytes. -/
theorem Reads.getBytes {ba : Bytearray} {u : List UInt8} {n : ℤ} (h : Reads ba u) (hn : toSize n ≠ 0) :
    ∃ ba', streamStep ba (.getBytes n) = (ba', .ofBytes (u.take (takeLen n u))) ∧
      Reads ba' (u.drop (takeLen n u)) := by
  obtain ⟨back, t, hrep, hread, rfl, hback⟩ := h
  obtain ⟨hres, hstep⟩ := streamStep_tapeStep_read hrep (rfl : (StreamOp.getBytes n).isRead = true) hread
  simp only [StreamOp.readSpec, hn, if_false] at hres hstep
  refine ⟨_, Prod.ext rfl hres, back, t.advance (takeLen n t.unread), hstep, ?_, ?_, hback⟩
  · exact hstep.reading_eq.trans (hrep.reading_eq ▸ hread)
  · exact t.unread_advance (hrep.reading_eq ▸ hread) (takeLen_le n t.unread)

namespace ClientConn

variable {conn : ClientConn} {u : List UInt8} {e : ℕ}

/-- The parked coroutine gets the stream, if enough is to come. -/
theorem arrive_some (apt : TcpRead) (message : List UInt8) (cs : List (List UInt8))
    {t : Tape UInt8} (hrep : Represents apt.readstream t) (hreceiving : apt.receiving = true)
    (hconn : apt.disconnected = false) (hlt : t.unread.length < apt.receivingExpect)
    (hle : apt.receivingExpect ≤ (t.unread ++ cs.flatten).length) :
    ∃ conn cs₁, arrive apt message cs = (true, conn) ∧ Reads conn.input (t.unread ++ cs₁.flatten) ∧
      conn.apt.disconnected = false ∧ cs = cs₁ ++ conn.chunks ∧
      apt.receivingExpect ≤ (t.unread ++ cs₁.flatten).length ∧
      ∃ c ∈ cs, (t.unread ++ cs₁.flatten).length < apt.receivingExpect + c.length := by
  induction cs generalizing apt t with
  | nil =>
      rw [List.flatten_nil, List.append_nil] at hle
      omega
  | cons c cs ih =>
      obtain ⟨t', hrep', hread, hunread⟩ := feedStream_represents hrep c
      have hav := hrep'.available_eq hread
      rw [List.flatten_cons, ← List.append_assoc, ← hunread] at hle
      rw [arrive]
      by_cases hmet : apt.receivingExpect ≤ t'.unread.length
      · have hwakes : (apt.fed c).wakes = true := by
          simp [TcpRead.wakes, hreceiving, hav, hmet]
        rw [if_pos hwakes]
        refine ⟨_, [c], rfl, ?_, hconn, rfl, ?_, c, List.mem_cons_self, ?_⟩
        · rw [List.flatten_singleton, ← hunread]
          exact ⟨_, t', hrep', hread, rfl, rfl⟩
        · rw [List.flatten_singleton, ← hunread]
          exact hmet
        · rw [List.flatten_singleton, List.length_append]
          omega
      · have hsleeps : (apt.fed c).wakes = false := by
          simp [TcpRead.wakes, hav, hmet]
        rw [hsleeps]
        obtain ⟨conn, cs₁, harrive, hreads, hdisc, hcs, henough, c', hc', hlast⟩ :=
          ih (apt.fed c) hrep' hreceiving hconn
            (by simpa using hmet) hle
        rw [hunread, List.append_assoc, ← List.flatten_cons] at hreads henough hlast
        exact ⟨conn, c :: cs₁, harrive, hreads, hdisc, by rw [hcs]; rfl, henough, c',
          List.mem_cons_of_mem c hc', hlast⟩

/-- Of the segments `ts` that are still to be read, the bytes `u` are buffered. -/
structure At (conn : ClientConn) (ts : List (Segment UInt8)) (u : List UInt8) : Prop where
  reads : Reads conn.input u
  connected : conn.apt.disconnected = false
  bytes : u ++ conn.chunks.flatten = spell ts
  aligned : Aligned ts u conn.chunks
  short : u.length < 2 ^ 32
  chunks_short : ∀ c ∈ conn.chunks, c.length + 1 < 2 ^ 32

variable {t : Segment UInt8} {ts : List (Segment UInt8)}

theorem At.withInput {ts' : List (Segment UInt8)} {input : Bytearray} {v : List UInt8} (h : conn.At ts u)
    (hinput : Reads input v) (hbytes : v ++ conn.chunks.flatten = spell ts')
    (haligned : Aligned ts' v conn.chunks) (hle : v.length ≤ u.length) :
    (conn.withInput input).At ts' v :=
  ⟨hinput, h.connected, hbytes, haligned, lt_of_le_of_lt hle h.short, h.chunks_short⟩

/-- What the parked coroutine gets. -/
theorem arrive_at (apt : TcpRead) (message : List UInt8) (cs : List (List UInt8)) {t : Tape UInt8}
    (hrep : Represents apt.readstream t) (hreceiving : apt.receiving = true)
    (hconn : apt.disconnected = false) (hlt : t.unread.length < apt.receivingExpect)
    (he : apt.receivingExpect ≤ 2) (hle : apt.receivingExpect ≤ (spell ts).length)
    (hbytes : t.unread ++ cs.flatten = spell ts) (haligned : Aligned ts t.unread cs)
    (hshort : ∀ c ∈ cs, c.length + 1 < 2 ^ 32) :
    ∃ conn u, arrive apt message cs = (true, conn) ∧ conn.At ts u ∧ apt.receivingExpect ≤ u.length := by
  obtain ⟨conn, cs₁, harrive, hreads, hdisc, hcs, henough, c, hc, hlast⟩ :=
    arrive_some apt message cs hrep hreceiving hconn hlt (by rw [hbytes]; exact hle)
  refine ⟨conn, _, harrive, ⟨hreads, hdisc, ?_, ?_, ?_, ?_⟩, henough⟩
  · rw [List.append_assoc, ← List.flatten_append, ← hcs, hbytes]
  · rw [hcs] at haligned
    exact haligned.feed
  · have hfits := hshort c hc
    omega
  · intro c hc
    exact hshort c (by rw [hcs]; exact List.mem_append_right cs₁ hc)

/-- **`receive` returns the stream** when what is expected is still to be read. -/
theorem At.receive (h : conn.At ts u) (he : e ≤ 2) (hle : e ≤ (spell ts).length) :
    ∃ conn' u', conn.receive e = (true, conn') ∧ conn'.At ts u' ∧ e ≤ u'.length := by
  have hav := h.reads.available_eq
  by_cases hready : e ≤ u.length
  · refine ⟨conn, u, ?_, h, hready⟩
    rw [ClientConn.receive, receive_input conn.apt e h.connected (by
      rw [show bytearrayReadAvailable conn.apt.readstream = u.length from hav]
      exact hready)]
  · obtain ⟨reads, connected, bytes, aligned, -, chunks_short⟩ := h
    obtain ⟨back, t, hrep, -, rfl, -⟩ := reads
    have hpark := receive_parked conn.apt e connected (by
      rw [show bytearrayReadAvailable conn.apt.readstream = t.unread.length from hav]
      omega)
    rw [ClientConn.receive, hpark]
    exact arrive_at { conn.apt with receivingExpect := e, receiving := true } conn.message conn.chunks
      hrep rfl connected (by simpa using hready) he hle bytes aligned chunks_short

/-- A line that has begun is read, with its end. -/
theorem At.line {l : List UInt8} (h : conn.At (⟨true, l ++ [cr, lf]⟩ :: ts) u) (hne : u ≠ [])
    (hl : hasLineEnd l = false) :
    ∃ input v, readline conn.input = (some (l, [cr, lf]), input) ∧ (conn.withInput input).At ts v := by
  obtain ⟨v, rfl, hv⟩ := h.aligned.covers rfl hne h.bytes
  obtain ⟨input, hline, hreads⟩ := readline_line (Or.inl rfl) hl h.reads
  refine ⟨input, v, hline, h.withInput hreads hv h.aligned.drop ?_⟩
  rw [List.length_append]
  omega

/-- A segment that is buffered whole is read. -/
theorem At.line_of_le {l : List UInt8} {b : Bool} (h : conn.At (⟨b, l ++ [cr, lf]⟩ :: ts) u)
    (hle : l.length + 2 ≤ u.length) (hl : hasLineEnd l = false) :
    ∃ input v, readline conn.input = (some (l, [cr, lf]), input) ∧ (conn.withInput input).At ts v := by
  obtain ⟨v, rfl, hv⟩ := split_of_length_le (x := l ++ [cr, lf]) h.bytes (by simpa using hle)
  obtain ⟨input, hline, hreads⟩ := readline_line (Or.inl rfl) hl h.reads
  refine ⟨input, v, hline, h.withInput hreads hv h.aligned.drop ?_⟩
  rw [List.length_append]
  omega

end ClientConn

end LuaFan
