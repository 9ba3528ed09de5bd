/-
# Requests back to back

`KeepRun` drives the whole loop of `onaccept` over the chunks of a connection, with a service
that replies once to each request, and logs its calls.

* `requests_framed`: requests that are sent back to back are served one by one, each with its
  own body and no byte of another, **exactly when no request has a body, every chunk ends at
  the end of a line, and no request but the last ends the connection**;
* `request_body_smuggled`: a body is read as the next request.
-/
import LuaFan.Httpd.KeepAlive
import LuaFan.Lib.Lines

namespace LuaFan

open Fp Run Lines

/-! ## The requests -/

/-- The headers with the one of a line added. -/
def addLine (headers : List (List UInt8 × HeaderValue)) (line : List UInt8) :
    List (List UInt8 × HeaderValue) :=
  match matchHeader line with
  | some (k, v) => addHeaderValue headers (k.map toLower) (trimRight v)
  | none => headers

def headerTable (lines : List (List UInt8)) : List (List UInt8 × HeaderValue) := lines.foldl addLine []

/-- A header line as a client sends it. -/
structure IsHeaderLine (line : List UInt8) : Prop where
  no_end : hasLineEnd line = false
  field : ∃ k v, matchHeader line = some (k, v) ∧ (trimRight v).length ≤ 8192

/-- A well-formed HTTP/1.1 request: its request line and header lines, among them `Host` and,
for a body, its length. -/
structure Request where
  line : List UInt8
  method : List UInt8
  target : List UInt8
  headers : List (List UInt8)
  body : List UInt8
  line_eq : matchRequestLine line = some (method, target, bytesOf "1.1")
  line_end : hasLineEnd line = false
  target_le : target.length ≤ 2048
  header : ∀ l ∈ headers, IsHeaderLine l
  host : getHeader (headerTable headers) (bytesOf "host") ≠ none
  length : match getHeader (headerTable headers) (bytesOf "content-length") with
    | none => body = []
    | some (.single text) => text ≠ [] ∧ text.all isDigit = true ∧ digitsValue 10 text = body.length
    | some (.many _) => False

namespace Request

variable (q : Request)

/-- The lines of the head, with the empty one. -/
def lines : List (List UInt8) := q.line :: (q.headers ++ [[]])

def bytes : List UInt8 := terminated cr lf q.lines ++ q.body

/-- The context when the request line and some header lines were read. -/
def after (hs : List (List UInt8)) : Context :=
  { Context.new with
    method := some q.method
    path := some (splitQuery q.target).1
    query := (splitQuery q.target).2
    version := some (bytesOf "1.1")
    headers := headerTable hs
    firstLine := true }

/-- The context that the service is given. -/
def served : Context := { q.after q.headers with headerComplete := true }

end Request

/-- The bytes of requests back to back. -/
def wire (qs : List Request) : List UInt8 := qs.flatMap Request.bytes

@[simp] theorem wire_nil : wire [] = [] := rfl

@[simp] theorem wire_cons (q : Request) (qs : List Request) : wire (q :: qs) = q.bytes ++ wire qs := rfl

/-! ## The run -/

/-- A call of the service: the head, what `ctx.body` is, and the bytes that have not been read,
those still to arrive included. -/
structure ServiceCall where
  fields : HeadFields
  body : BodyAccess
  left : List UInt8
  deriving DecidableEq

inductive KeepMode where
  | running
  | parked
  | ended
  deriving DecidableEq

/-- The coroutine of `onaccept`, the chunks that have not arrived yet and the calls so far. -/
structure KeepRun where
  accept : Accept
  chunks : List (List UInt8)
  mode : KeepMode
  log : List ServiceCall

namespace KeepRun

variable {σ : Type} (config : HttpdConfig) (z : Zlib σ) (limit : LuaNumber)
  (handler : ℕ → Context → Handling)

/-- The second half of a round, with a complete head. -/
def serveHead (r : KeepRun) (ctx : Context) (apt : TcpRead) : KeepRun :=
  let log := if ctx.httpError = none then
      r.log ++ [⟨ctx.fields, indexBody limit ctx apt, unreadOf apt.readstream ++ r.chunks.flatten⟩]
    else r.log
  match serve ((handler r.log.length ctx).service config z) ctx apt with
  | .next s => { r with accept := s, log := log }
  | _ => { r with mode := .ended, log := log }

/-- One round of a running loop, or the arrival of a chunk at a parked one. -/
def step (r : KeepRun) : KeepRun :=
  match r.mode with
  | .running =>
      match headPhase r.accept with
      | .closed => { r with mode := .ended }
      | .raised _ _ => { r with mode := .ended }
      | .parked ctx apt => { r with accept := ⟨some ctx, apt⟩, mode := .parked }
      | .ready ctx apt =>
          if ctx.headerComplete then r.serveHead config z limit handler ctx apt
          else { r with accept := ⟨some ctx, apt⟩ }
  | .parked =>
      match r.chunks with
      | [] => r
      | c :: cs =>
          let apt := r.accept.apt.fed c
          if apt.wakes then
            { r with accept := { r.accept with apt := apt.resumed }, chunks := cs, mode := .running }
          else { r with accept := { r.accept with apt := apt }, chunks := cs }
  | .ended => r

/-- A new connection on which the chunks will arrive. -/
def start (chunks : List (List UInt8)) : KeepRun := ⟨⟨none, TcpRead.new⟩, chunks, .running, []⟩

end KeepRun

/-- The calls that requests should lead to. -/
def calls : List Request → List ServiceCall
  | [] => []
  | q :: qs => ⟨q.served.fields, .body q.body, q.body ++ wire qs⟩ :: calls qs

/-- The requests are served in order, each with its own body, and at each call exactly what
comes behind the head is still unread. -/
def Framed {σ : Type} (config : HttpdConfig) (z : Zlib σ) (limit : LuaNumber)
    (handler : ℕ → Context → Handling) (qs : List Request) (chunks : List (List UInt8)) : Prop :=
  Settles (KeepRun.step config z limit handler) KeepRun.log (KeepRun.start chunks) (calls qs)

/-! ## When they are -/

/-- A chunk that ends at the end of a line, or is empty. -/
def EndsLine (c : List UInt8) : Prop := c = [] ∨ c.getLast? = some lf

/-- The buffered bytes and the chunks to come end at the ends of lines. -/
def EndsLines (u : List UInt8) (chunks : List (List UInt8)) : Prop :=
  EndsLine u ∧ ∀ c ∈ chunks, EndsLine c

/-- The request lets the connection go on: it does not ask for its end, and it can be
answered. -/
def Request.Continues (q : Request) (answer : Answer) : Prop :=
  (match getHeader (headerTable q.headers) (bytesOf "connection") with
    | none => True
    | some (.single connection) => connection.map toLower ≠ bytesOf "close"
    | some (.many _) => False) ∧
  (Handling.hasText answer = true →
    match getHeader (headerTable q.headers) (bytesOf "accept-encoding") with
    | some (.many _) => False
    | _ => True)

/-- All requests but the last let the connection go on; `k` were served before. -/
def AllContinue (handler : ℕ → Context → Handling) : ℕ → List Request → Prop
  | k, q :: q' :: qs => q.Continues (handler k q.served).answer ∧ AllContinue handler (k + 1) (q' :: qs)
  | _, _ => True

/-- The condition, for requests of which the bytes `u` are buffered. -/
def InStep (handler : ℕ → Context → Handling) (k : ℕ) (qs : List Request) (u : List UInt8)
    (chunks : List (List UInt8)) : Prop :=
  (∀ q ∈ qs, q.body = []) ∧ EndsLines u chunks ∧ AllContinue handler k qs

/-! ## Lines of requests -/

theorem splitLine_append_end {l : List UInt8} (h : hasLineEnd l = false) (u : List UInt8) :
    splitLine (l ++ cr :: u) = some (l, dropLf u) := by
  induction l with
  | nil => rw [List.nil_append, splitLine, if_pos rfl]
  | cons b l ih =>
      simp only [hasLineEnd, List.any_cons, Bool.or_eq_false_iff, decide_eq_false_iff_not] at h
      obtain ⟨⟨hcr, hlf⟩, hl⟩ := h
      rw [List.cons_append, splitLine, if_neg hcr, if_neg hlf, ih hl]
      rfl

/-- A complete line is taken off. -/
theorem splitLine_line {l : List UInt8} (h : hasLineEnd l = false) (u : List UInt8) :
    splitLine (l ++ cr :: lf :: u) = some (l, u) := by
  rw [splitLine_append_end h, dropLf, if_pos rfl]

theorem length_takeWhile_le {p q : UInt8 → Bool} (h : ∀ b, p b = true → q b = true) (l : List UInt8) :
    (l.takeWhile p).length ≤ (l.takeWhile q).length := by
  induction l with
  | nil => exact le_rfl
  | cons b l ih =>
      rw [List.takeWhile_cons, List.takeWhile_cons]
      cases hp : p b with
      | false => simp
      | true =>
          rw [h b hp]
          simpa using ih

/-- A header line is no request line: where the colon is due there is no blank. -/
theorem matchRequestLine_header {l k v : List UInt8} (h : matchHeader l = some (k, v)) :
    matchRequestLine l = none := by
  have hupper : ∀ b : UInt8, isUpper b = true → isTokenChar b = true := by decide +kernel
  have hblank : isTokenChar 32 = false := by decide +kernel
  have hle := length_takeWhile_le hupper l
  have hchar : l.getD (l.takeWhile isUpper).length 0 ≠ 32 := by
    rw [matchHeader] at h
    split at h
    · rename_i b rest hdrop
      rw [Option.ite_none_right_eq_some] at h
      obtain ⟨⟨-, rfl⟩, -⟩ := h
      have hl : l = l.takeWhile isTokenChar ++ ascii ':' :: rest := by
        rw [← hdrop]
        exact (List.prefix_iff_eq_append.mp (List.takeWhile_prefix _)).symm
      generalize (l.takeWhile isUpper).length = n at hle ⊢
      have hget : l.getD n 0 = (l.takeWhile isTokenChar ++ ascii ':' :: rest).getD n 0 := by
        rw [← hl]
      rw [hget]
      rcases Nat.lt_or_eq_of_le hle with hlt | heq
      · -- inside the name
        have htoken := List.mem_takeWhile_imp (List.getElem_mem hlt)
        rw [List.getD_append _ _ _ _ hlt, List.getD_eq_getElem _ _ hlt]
        intro hbad
        rw [hbad, hblank] at htoken
        cases htoken
      · rw [List.getD_append_right _ _ _ _ heq.ge, heq, Nat.sub_self, List.getD_cons_zero]
        decide
    · cases h
  rw [matchRequestLine, if_neg]
  rintro ⟨-, hbad, -⟩
  exact hchar hbad

/-! ### Where the reading of a head is -/

/-- The context while a request is read, and the lines of its head that are still to come. -/
inductive AtLines (q : Request) : Context → List (List UInt8) → Prop
  | start : AtLines q Context.new q.lines
  | inside (hs hs' : List (List UInt8)) (headers : q.headers = hs ++ hs') :
      AtLines q (q.after hs) (hs' ++ [[]])

section AtLines

variable {q : Request} {ctx : Context} {l : List UInt8} {ls ls' : List (List UInt8)}

theorem AtLines.facts (h : AtLines q ctx ls) :
    ctx.headerComplete = false ∧ ctx.replyStatus = none ∧ ls ≠ [] ∧ ∀ l ∈ ls, hasLineEnd l = false := by
  have hheaders : ∀ l ∈ q.headers ++ [[]], hasLineEnd l = false := by
    intro l hl
    rcases List.mem_append.mp hl with hmem | hmem
    · exact (q.header l hmem).no_end
    · rw [List.mem_singleton.mp hmem]
      rfl
  cases h with
  | start =>
      refine ⟨rfl, rfl, by simp [Request.lines], ?_⟩
      intro l hl
      rcases List.mem_cons.mp hl with rfl | hmem
      · exact q.line_end
      · exact hheaders l hmem
  | inside hs hs' headers =>
      refine ⟨rfl, rfl, by simp, ?_⟩
      intro l hl
      apply hheaders l
      rw [headers, List.append_assoc]
      exact List.mem_append_right hs hl

theorem headerLine_request (q : Request) : headerLine Context.new q.line = .next (q.after []) := by
  have hne : q.line ≠ [] := by
    intro hnil
    have hmatch := q.line_eq
    rw [hnil] at hmatch
    cases hmatch
  have hversion : ¬(bytesOf "1.1" ≠ bytesOf "1.0" ∧ bytesOf "1.1" ≠ bytesOf "1.1") := fun h => h.2 rfl
  have hlen : ¬2048 < q.target.length := Nat.not_lt.mpr q.target_le
  rw [headerLine, if_neg hne, if_neg (by simp [Context.new]), requestLine, q.line_eq]
  simp only [hversion, hlen, if_false, Request.after]
  have htarget : (splitQuery q.target).2 = none → (splitQuery q.target).1 = q.target := by
    rw [splitQuery]
    split <;> simp
  cases hsplit : splitQuery q.target with
  | mk path query =>
      rw [hsplit] at htarget
      cases query with
      | some query => rfl
      | none =>
          have hpath : path = q.target := htarget rfl
          rw [hpath]
          rfl

theorem headerLine_field (q : Request) {hs : List (List UInt8)} (hl : IsHeaderLine l) :
    headerLine (q.after hs) l = .next (q.after (hs ++ [l])) := by
  obtain ⟨k, v, hmatch, hle⟩ := hl.field
  have hne : l ≠ [] := by
    rintro rfl
    cases hmatch
  rw [headerLine, if_neg hne, if_pos (show (q.after hs).firstLine = true from rfl), headerField, hmatch]
  simp only [Nat.not_lt.mpr hle, if_false]
  simp only [Request.after, headerTable, List.foldl_append, List.foldl_cons, List.foldl_nil]
  rw [addLine, hmatch]

/-- A line that is not the last one is taken. -/
theorem AtLines.next (h : AtLines q ctx (l :: ls)) (hne : ls ≠ []) :
    ∃ hs hs', headerLine ctx l = .next (q.after hs) ∧ q.headers = hs ++ hs' ∧ ls = hs' ++ [[]] := by
  generalize hall : l :: ls = lines at h
  cases h with
  | start =>
      cases hall
      exact ⟨[], q.headers, headerLine_request q, rfl, rfl⟩
  | inside hs hs' headers =>
      cases hs' with
      | nil =>
          cases hall
          exact absurd rfl hne
      | cons l' hs' =>
          cases hall
          have hmem : l ∈ q.headers := by
            rw [headers]
            exact List.mem_append_right hs List.mem_cons_self
          exact ⟨hs ++ [l], hs', headerLine_field q (q.header l hmem), by rw [headers]; simp, rfl⟩

/-- The last line is the empty one, and completes the head. -/
theorem AtLines.last (h : AtLines q ctx [l]) : l = [] ∧ headerLine ctx l = .next q.served := by
  generalize hall : [l] = lines at h
  cases h with
  | start =>
      have hlen := congrArg List.length hall
      simp [Request.lines] at hlen
  | inside hs hs' headers =>
      cases hs' with
      | cons l' hs' =>
          have hlen := congrArg List.length hall
          simp at hlen
      | nil =>
          cases hall
          rw [List.append_nil] at headers
          refine ⟨rfl, ?_⟩
          have hhost : getHeader (q.after hs).headers (bytesOf "host") ≠ none := by
            rw [← headers]
            exact q.host
          rw [headerLine, if_pos rfl, completeHead, if_neg (by simp [hhost]), Request.served, headers]

/-- Whole lines are read one after the other. -/
theorem AtLines.readLines_append (h : AtLines q ctx (ls ++ ls')) (hne : ls' ≠ []) (p : List UInt8) :
    ∃ ctx', AtLines q ctx' ls' ∧ readLines ctx (terminated cr lf ls ++ p) = readLines ctx' p := by
  induction ls generalizing ctx with
  | nil => exact ⟨ctx, h, rfl⟩
  | cons l ls ih =>
      obtain ⟨hopen, -, -, hends⟩ := h.facts
      obtain ⟨hs, hs', hhead, hheaders, hrest⟩ := h.next (by simp [hne])
      have h₁ : AtLines q (q.after hs) (ls ++ ls') := by
        rw [show ls ++ ls' = hs' ++ [[]] from hrest]
        exact .inside hs hs' hheaders
      obtain ⟨ctx', h', hread⟩ := ih h₁
      refine ⟨ctx', h', ?_⟩
      have hsplit : splitLine (terminated cr lf (l :: ls) ++ p) = some (l, terminated cr lf ls ++ p) := by
        rw [terminated_cons, List.append_assoc]
        exact splitLine_line (hends l List.mem_cons_self) _
      rw [readLines_some hopen hsplit, hhead]
      exact hread

/-- The rest of the head is read, and what is behind it is left. -/
theorem AtLines.readLines_all (h : AtLines q ctx ls) (v : List UInt8) :
    readLines ctx (terminated cr lf ls ++ v) = (true, q.served, v) := by
  obtain ⟨ls₁, l, rfl⟩ : ∃ ls₁ l, ls = ls₁ ++ [l] :=
    ⟨ls.dropLast, ls.getLast h.facts.2.2.1, (List.dropLast_append_getLast _).symm⟩
  obtain ⟨ctx', h', hread⟩ := h.readLines_append (by simp) (terminated cr lf [l] ++ v)
  obtain ⟨hnil, hhead⟩ := h'.last
  have hsplit : splitLine (terminated cr lf [l] ++ v) = some (l, v) := by
    rw [terminated_cons, List.append_assoc]
    exact splitLine_line (h'.facts.2.2.2 l List.mem_cons_self) _
  rw [terminated_append, List.append_assoc, hread, readLines_some h'.facts.1 hsplit, hhead]
  exact readLines_complete rfl

end AtLines

/-! ## One step of the run -/

namespace KeepRun

variable {σ : Type} (config : HttpdConfig) (z : Zlib σ) (limit : LuaNumber)
  (handler : ℕ → Context → Handling) {r : KeepRun} {ctx ctx' : Context} {u rest : List UInt8}

/-- A loop in the middle of a head, with `u` unread. -/
structure RunsWith (r : KeepRun) (ctx : Context) (u : List UInt8) : Prop where
  mode : r.mode = .running
  context : renew r.accept.context = ctx
  opened : ctx.headerComplete = false
  pending : ctx.replyStatus = none
  connected : r.accept.apt.disconnected = false
  reads : Reads r.accept.apt.readstream u

/-- A loop that waits for the next chunk. -/
structure WaitsWith (r : KeepRun) (ctx : Context) : Prop where
  mode : r.mode = .parked
  context : r.accept.context = some ctx
  opened : ctx.headerComplete = false
  pending : ctx.replyStatus = none
  connected : r.accept.apt.disconnected = false
  receiving : r.accept.apt.receiving = true
  expect : r.accept.apt.receivingExpect = 1
  empty : ∃ t, Represents r.accept.apt.readstream t ∧ t.unread = []

/-- With nothing to read the loop parks. -/
theorem RunsWith.park (h : RunsWith r ctx []) :
    WaitsWith (r.step config z limit handler) ctx ∧ (r.step config z limit handler).chunks = r.chunks ∧
      (r.step config z limit handler).log = r.log := by
  have hav : r.accept.available = 0 := h.reads.available_eq
  have hstep : r.step config z limit handler = { r with
      accept := ⟨some ctx, { r.accept.apt with receivingExpect := 1, receiving := true }⟩
      mode := .parked } := by
    rw [step, h.mode]
    simp only [headPhase_empty h.connected hav, h.context]
  rw [hstep]
  obtain ⟨back, t, hrep, -, hunread, -⟩ := h.reads
  exact ⟨⟨rfl, rfl, h.opened, h.pending, h.connected, rfl, rfl, t, hrep, hunread⟩, rfl, rfl⟩

/-- A chunk that arrives wakes the loop, unless it is empty. -/
theorem WaitsWith.arrive {c : List UInt8} {cs : List (List UInt8)} (h : WaitsWith r ctx)
    (hchunks : r.chunks = c :: cs) :
    (if c = [] then WaitsWith (r.step config z limit handler) ctx
      else RunsWith (r.step config z limit handler) ctx c) ∧
      (r.step config z limit handler).chunks = cs ∧ (r.step config z limit handler).log = r.log := by
  obtain ⟨t, hrep, hunread⟩ := h.empty
  obtain ⟨t', hrep', hread', hunread'⟩ := feedStream_represents hrep c
  rw [hunread, List.nil_append] at hunread'
  have hreads : Reads (feedStream r.accept.apt.readstream c) c := ⟨_, t', hrep', hread', hunread', rfl⟩
  rw [step, h.mode]
  simp only [hchunks, TcpRead.fed, TcpRead.wakes, h.receiving, h.expect, hreads.available_eq, Bool.true_and]
  by_cases hc : c = []
  · subst hc
    simp only [if_true]
    exact ⟨⟨rfl, h.context, h.opened, h.pending, h.connected, rfl, rfl, t', hrep', hunread'⟩, rfl, rfl⟩
  · have hpos : 1 ≤ c.length := List.length_pos_of_ne_nil hc
    simp only [hpos, decide_true, if_true, hc, if_false]
    refine ⟨⟨rfl, ?_, h.opened, h.pending, h.connected, hreads⟩, trivial, trivial⟩
    simp only [h.context]
    exact renew_pending h.pending

/-- With bytes to read, the loop reads lines. -/
theorem RunsWith.phase (h : RunsWith r ctx u) (hne : u ≠ []) :
    ∃ input, Reads input (readLines ctx u).2.2 ∧
      headPhase r.accept = if (readLines ctx u).1 then
          .ready (readLines ctx u).2.1 { r.accept.apt with readstream := input }
        else .raised (readLines ctx u).2.1 { r.accept.apt with readstream := input } := by
  have hphase := headPhase_open h.connected h.reads hne (by rw [h.context]; exact h.opened)
  rw [h.context] at hphase
  exact hphase

/-- A head that stays open. -/
theorem RunsWith.read (h : RunsWith r ctx u) (hne : u ≠ [])
    (hread : readLines ctx u = (true, ctx', rest)) (hopen : ctx'.headerComplete = false) :
    RunsWith (r.step config z limit handler) ctx' rest ∧
      (r.step config z limit handler).chunks = r.chunks ∧ (r.step config z limit handler).log = r.log := by
  obtain ⟨input, hinput, hphase⟩ := h.phase hne
  have hstatus : ctx'.replyStatus = none := by
    have hsame := replyStatus_readLines ctx u
    rw [hread] at hsame
    exact hsame.trans h.pending
  rw [hread] at hinput hphase
  rw [step, h.mode]
  simp only [hphase, if_true, hopen, Bool.false_eq_true, if_false]
  exact ⟨⟨rfl, renew_pending hstatus, hopen, hstatus, h.connected, hinput⟩, trivial, trivial⟩

/-- A head that is rejected ends the loop. -/
theorem RunsWith.reject (h : RunsWith r ctx u) (hne : u ≠ []) (hread : (readLines ctx u).1 = false) :
    (r.step config z limit handler).mode = .ended ∧ (r.step config z limit handler).log = r.log := by
  obtain ⟨input, -, hphase⟩ := h.phase hne
  rw [hread] at hphase
  rw [step, h.mode]
  simp only [hphase, Bool.false_eq_true, if_false, and_self]

/-- A complete head without an error is a call of the service. -/
theorem RunsWith.call (h : RunsWith r ctx u) (hne : u ≠ [])
    (hread : readLines ctx u = (true, ctx', rest)) (hdone : ctx'.headerComplete = true)
    (herr : ctx'.httpError = none) :
    ∃ input, Reads input rest ∧
      r.step config z limit handler =
        r.serveHead config z limit handler ctx' { r.accept.apt with readstream := input } ∧
      (r.step config z limit handler).log = r.log ++ [⟨ctx'.fields,
        if contentLengthRaises ctx' then .raised else .body [], rest ++ r.chunks.flatten⟩] := by
  obtain ⟨input, hinput, hphase⟩ := h.phase hne
  rw [hread] at hinput hphase
  have hstep : r.step config z limit handler =
      r.serveHead config z limit handler ctx' { r.accept.apt with readstream := input } := by
    rw [step, h.mode]
    simp only [hphase, if_true, hdone]
  refine ⟨input, hinput, hstep, ?_⟩
  rw [hstep, serveHead]
  simp only [herr, if_true, indexBody_eq, hinput.unreadOf_eq]
  split <;> rfl

end KeepRun

/-! ### The request that is served -/

namespace Request

/-- The length of a request raises no error: it consists of digits. -/
theorem contentLengthRaises_served (q : Request) : contentLengthRaises q.served = false := by
  have hlength := q.length
  have hheaders : q.served.headers = headerTable q.headers := rfl
  rw [contentLengthRaises, hheaders]
  cases hvalue : getHeader (headerTable q.headers) (bytesOf "content-length") with
  | none => rfl
  | some value =>
      cases value with
      | many values => rfl
      | single text =>
          rw [hvalue] at hlength
          obtain ⟨-, hdigits, -⟩ := hlength
          have htake : text.take 2 ≠ bytesOf "0|" := by
            intro htake
            have hmem : (124 : UInt8) ∈ text := by
              apply List.mem_of_mem_take (i := 2)
              rw [htake]
              decide +kernel
            have hbar := List.all_eq_true.mp hdigits 124 hmem
            exact absurd hbar (by decide)
          simp only [matchContentLength]
          split
          · simp [htake]
          · rfl

/-- A request lets the connection go on when it is kept alive and its answer does not fail. -/
theorem continues_iff {σ : Type} (q : Request) (answer : Answer) :
    q.Continues answer ↔ shouldKeepAlive q.served = some true ∧
      ¬(Handling.hasText answer = true ∧ (ReplyContext.ofContext (σ := σ) q.served).acceptsGzip = none) := by
  have hheaders : q.served.headers = headerTable q.headers := rfl
  obtain ⟨version, hversion, hle, -⟩ := versionNumber_oneOne
    (show q.served.version = some (bytesOf "1.1") from rfl)
  have halive : shouldKeepAlive q.served = some true ↔
      (match getHeader (headerTable q.headers) (bytesOf "connection") with
        | none => True
        | some (.single connection) => connection.map toLower ≠ bytesOf "close"
        | some (.many _) => False) := by
    rw [shouldKeepAlive, hversion]
    simp only [hle, hheaders]
    cases getHeader (headerTable q.headers) (bytesOf "connection") with
    | none => simp
    | some value => cases value <;> simp
  have hgzip : (ReplyContext.ofContext (σ := σ) q.served).acceptsGzip = none ↔
      ¬(match getHeader (headerTable q.headers) (bytesOf "accept-encoding") with
        | some (.many _) => False
        | _ => True) := by
    have hof : (ReplyContext.ofContext (σ := σ) q.served).headers = headerTable q.headers := rfl
    rw [ReplyContext.acceptsGzip, hof]
    cases getHeader (headerTable q.headers) (bytesOf "accept-encoding") with
    | none => simp
    | some value => cases value <;> simp
  rw [Continues, halive, hgzip, not_and_not_right]

end Request

namespace KeepRun

variable {σ : Type} (config : HttpdConfig) (z : Zlib σ) (limit : LuaNumber)
  (handler : ℕ → Context → Handling) {r : KeepRun}

/-- **After a call the loop is at the next request, or at its end.** -/
theorem serveHead_served {q : Request} (apt : TcpRead) {v : List UInt8} (hmode : r.mode = .running)
    (hconn : apt.disconnected = false) (hreads : Reads apt.readstream v) :
    (r.serveHead config z limit handler q.served apt).chunks = r.chunks ∧
      (q.Continues (handler r.log.length q.served).answer →
        RunsWith (r.serveHead config z limit handler q.served apt) Context.new v) ∧
      (¬q.Continues (handler r.log.length q.served).answer →
        (r.serveHead config z limit handler q.served apt).mode = .ended) := by
  obtain ⟨hraises, hreplies⟩ := Handling.service_replies config z
    (handler r.log.length q.served) apt (show q.served.replyStatus = none from rfl)
    q.contentLengthRaises_served
  have hserve : serve ((handler r.log.length q.served).service config z) q.served apt =
      callService ((handler r.log.length q.served).service config z) q.served apt := rfl
  have hcont := Request.continues_iff (σ := σ) q (handler r.log.length q.served).answer
  rw [serveHead]
  simp only [hserve, callService]
  cases hraised : ((handler r.log.length q.served).service config z q.served apt).raised with
  | true =>
      refine ⟨rfl, ?_, fun _ => rfl⟩
      intro hgo
      rw [hraised] at hraises
      rw [hcont] at hgo
      rcases hraises.mp rfl with hnone | htext
      · rw [hnone] at hgo
        cases hgo.1
      · exact absurd htext hgo.2
  | false =>
      obtain ⟨hcompleted, halive⟩ := hreplies hraised
      have hfine : ¬(Handling.hasText (handler r.log.length q.served).answer = true ∧
          (ReplyContext.ofContext (σ := σ) q.served).acceptsGzip = none) := by
        intro htext
        rw [hraises.mpr (Or.inr htext)] at hraised
        cases hraised
      simp only [Bool.false_eq_true, if_false, halive]
      rw [hcont]
      simp only [hfine, not_false_eq_true, and_true]
      cases hkeep : shouldKeepAlive q.served with
      | none => exact ⟨rfl, (fun h => by cases h), fun _ => rfl⟩
      | some alive =>
          cases alive with
          | false => exact ⟨rfl, (fun h => by cases h), fun _ => rfl⟩
          | true =>
              refine ⟨rfl, fun _ => ?_, fun h => absurd rfl h⟩
              refine ⟨hmode, renew_completed hcompleted, rfl, rfl, ?_, hreads⟩
              simp [ServiceResult.apt, hconn, Handling.service]

/-! ## What the log settles at -/

variable {config z limit handler}

/-- A call is never taken back. -/
theorem log_step (r : KeepRun) : r.log <+: (r.step config z limit handler).log := by
  rw [step]
  split
  · split
    · exact List.prefix_rfl
    · exact List.prefix_rfl
    · exact List.prefix_rfl
    · split
      · rw [serveHead]
        split
        · dsimp only
          split
          · exact List.prefix_append _ _
          · exact List.prefix_rfl
        · dsimp only
          split
          · exact List.prefix_append _ _
          · exact List.prefix_rfl
      · exact List.prefix_rfl
  · split
    · exact List.prefix_rfl
    · dsimp only
      split
      · exact List.prefix_rfl
      · exact List.prefix_rfl
  · exact List.prefix_rfl

theorem prefix_of_settles {v : List ServiceCall} (h : Settles (step config z limit handler) log r v) : r.log <+: v :=
  h.reached (R := (· <+: ·)) (fun _ => List.prefix_rfl) (fun _ _ _ => List.IsPrefix.trans) log_step

/-- The next call is the one it settles at. -/
theorem call_of_settles {c c' : ServiceCall} {cs : List ServiceCall}
    (hlog : (r.step config z limit handler).log = r.log ++ [c])
    (h : Settles (step config z limit handler) log r (r.log ++ c' :: cs)) : c = c' := by
  have hprefix := prefix_of_settles (settles_step_iff.mpr h)
  rw [hlog, List.prefix_append_right_inj] at hprefix
  obtain ⟨t, ht⟩ := hprefix
  exact (List.cons.inj ht).1

theorem settles_ended {v : List ServiceCall} (h : r.mode = .ended) :
    Settles (step config z limit handler) log r v ↔ v = r.log := by
  refine settles_iff_of_invariant (fun r' => r' = r) ?_ ?_ rfl
  · rintro r' rfl
    rw [step, h]
  · rintro r' rfl
    rfl

/-- A loop whose bytes hold no line runs on without a call. -/
theorem RunsWith.settles_spin {ctx : Context} {u : List UInt8} {v : List ServiceCall} (h : RunsWith r ctx u)
    (hne : u ≠ []) (hnone : splitLine u = none) :
    Settles (step config z limit handler) log r v ↔ v = r.log := by
  refine settles_iff_of_invariant (fun r' => RunsWith r' ctx u ∧ r'.log = r.log) ?_ ?_ ⟨h, rfl⟩
  · rintro r' ⟨h', hlog⟩
    obtain ⟨hnext, -, hsame⟩ := h'.read config z limit handler
      hne (readLines_none h'.opened hnone) h'.opened
    exact ⟨hnext, hsame.trans hlog⟩
  · rintro r' ⟨-, hlog⟩
    exact hlog

/-- The loop is in the middle of a head with `u` unread, or waits for more. -/
def At (r : KeepRun) (ctx : Context) (u : List UInt8) : Prop :=
  RunsWith r ctx u ∨ u = [] ∧ WaitsWith r ctx

/-- With nothing more to come, nothing more is called. -/
theorem At.settles_idle {ctx : Context} {v : List ServiceCall} (h : At r ctx []) (hnil : r.chunks.flatten = []) :
    Settles (step config z limit handler) log r v ↔ v = r.log := by
  refine settles_iff_of_invariant
    (fun r' => At r' ctx [] ∧ r'.chunks.flatten = [] ∧ r'.log = r.log) ?_ ?_ ⟨h, hnil, rfl⟩
  · rintro r' ⟨hrun | ⟨-, hwait⟩, hnil', hlog⟩
    · obtain ⟨hwait, hchunks, hsame⟩ := hrun.park config z limit handler
      exact ⟨Or.inr ⟨rfl, hwait⟩, by rw [hchunks]; exact hnil', hsame.trans hlog⟩
    · cases hcs : r'.chunks with
      | nil =>
          have hstay : r'.step config z limit handler = r' := by
            rw [step, hwait.mode]
            simp only [hcs]
          rw [hstay]
          exact ⟨Or.inr ⟨rfl, hwait⟩, hnil', hlog⟩
      | cons c cs =>
          rw [hcs, List.flatten_cons, List.append_eq_nil_iff] at hnil'
          obtain ⟨hnext, hchunks, hsame⟩ := hwait.arrive config z limit handler hcs
          rw [if_pos hnil'.1] at hnext
          exact ⟨Or.inr ⟨rfl, hnext⟩, by rw [hchunks]; exact hnil'.2, hsame.trans hlog⟩
  · rintro r' ⟨-, -, hlog⟩
    exact hlog

variable (config z limit handler)

/-- A waiting loop is woken by the first chunk with a byte. -/
theorem WaitsWith.wake {ctx : Context} (cs : List (List UInt8)) :
    ∀ {r : KeepRun}, WaitsWith r ctx → r.chunks = cs → cs.flatten ≠ [] →
      ∃ r' u, RunsWith r' ctx u ∧ u ≠ [] ∧ u ++ r'.chunks.flatten = cs.flatten ∧ r'.log = r.log ∧
        (∀ v, Settles (step config z limit handler) log r v ↔ Settles (step config z limit handler) log r' v) ∧
        (EndsLines [] cs ↔ EndsLines u r'.chunks) := by
  induction cs with
  | nil =>
      intro r _ _ hne
      exact absurd rfl hne
  | cons c cs ih =>
      intro r h hcs hne
      obtain ⟨hnext, hchunks, hlog⟩ := h.arrive config z limit handler hcs
      by_cases hc : c = []
      · subst hc
        rw [if_pos rfl] at hnext
        obtain ⟨r', u, hrun, hu, hbytes, hsame, hsettles, hends⟩ := ih hnext hchunks hne
        refine ⟨r', u, hrun, hu, hbytes, hsame.trans hlog, ?_, ?_⟩
        · intro v
          rw [← hsettles v, settles_step_iff]
        · rw [← hends]
          simp [EndsLines, EndsLine]
      · rw [if_neg hc] at hnext
        refine ⟨_, c, hnext, hc, by rw [hchunks]; rfl, hlog, fun v => settles_step_iff.symm, ?_⟩
        rw [hchunks]
        simp [EndsLines, EndsLine]

theorem At.wake {ctx : Context} {u : List UInt8} (h : At r ctx u) (hne : u ++ r.chunks.flatten ≠ []) :
    ∃ r' u', RunsWith r' ctx u' ∧ u' ≠ [] ∧ u' ++ r'.chunks.flatten = u ++ r.chunks.flatten ∧
      r'.log = r.log ∧
      (∀ v, Settles (step config z limit handler) log r v ↔ Settles (step config z limit handler) log r' v) ∧
      (EndsLines u r.chunks ↔ EndsLines u' r'.chunks) := by
  rcases h with hrun | ⟨rfl, hwait⟩
  · by_cases hu : u = []
    · subst hu
      obtain ⟨hwait, hchunks, hlog⟩ := hrun.park config z limit handler
      obtain ⟨r', u', hrun', hu', hbytes, hsame, hsettles, hends⟩ :=
        WaitsWith.wake config z limit handler r.chunks hwait
          hchunks hne
      refine ⟨r', u', hrun', hu', hbytes, hsame.trans hlog, ?_, hends⟩
      intro v
      rw [← hsettles v, settles_step_iff]
    · exact ⟨r, u, hrun, hu, rfl, rfl, fun _ => Iff.rfl, Iff.rfl⟩
  · exact WaitsWith.wake config z limit handler r.chunks hwait rfl hne

/-! ## Heads that end too early -/

/-- A complete head with an error is answered, without a call. -/
theorem RunsWith.error {ctx ctx' : Context} {u rest : List UInt8} {err : HttpError} (h : RunsWith r ctx u)
    (hne : u ≠ []) (hread : readLines ctx u = (true, ctx', rest)) (hdone : ctx'.headerComplete = true)
    (herr : ctx'.httpError = some err) (hversion : ctx'.version = some (bytesOf "1.1")) :
    (r.step config z limit handler).log = r.log ∧
      ((r.step config z limit handler).mode = .ended ∨
        RunsWith (r.step config z limit handler) Context.new rest ∧
          (r.step config z limit handler).chunks = r.chunks) := by
  obtain ⟨input, hinput, hphase⟩ := h.phase hne
  have hstatus : ctx'.replyStatus = none := by
    have hsame := replyStatus_readLines ctx u
    rw [hread] at hsame
    exact hsame.trans h.pending
  obtain ⟨version, hnumber, -, hlt⟩ := versionNumber_oneOne hversion
  rw [hread] at hinput hphase
  have hstep : r.step config z limit handler =
      r.serveHead config z limit handler ctx' { r.accept.apt with readstream := input } := by
    rw [step, h.mode]
    simp only [hphase, if_true, hdone]
  rw [hstep, serveHead]
  simp only [herr, reduceCtorEq, if_false]
  split
  · rename_i s hserve
    rw [serve, herr] at hserve
    obtain ⟨hstream, version', hnumber', hdisc, hctx⟩ := replyError_next hserve
    rw [hnumber] at hnumber'
    cases hnumber'
    have hrenew : renew s.context = Context.new := by
      rw [hctx]
      exact renew_completed (by simp [hstatus])
    refine ⟨rfl, Or.inr ⟨⟨h.mode, hrenew, rfl, rfl, ?_, ?_⟩, rfl⟩⟩
    · simp only [hdisc, hlt, h.connected, Bool.or_self]
    · simp only [hstream]
      exact hinput
  · exact ⟨rfl, Or.inl rfl⟩

variable {config z limit handler}

/-- A loop that takes a header line, or the end of a head, for a new request calls the service
with no method, or not at all. -/
theorem At.not_settles_lost {u l t : List UInt8} {c : ServiceCall} {cs : List ServiceCall} (h : At r Context.new u)
    (hl : l = [] ∨ IsHeaderLine l) (hbytes : u ++ r.chunks.flatten = terminated cr lf [l] ++ t)
    (hc : c.fields.method ≠ none) :
    ¬Settles (step config z limit handler) log r (r.log ++ c :: cs) := by
  have hend : hasLineEnd l = false := by
    rcases hl with rfl | hl
    · rfl
    · exact hl.no_end
  obtain ⟨r', u', hrun, hne, hbytes', hlog, hsettles, -⟩ := h.wake config z limit handler (by rw [hbytes]; simp)
  rw [hbytes] at hbytes'
  rw [hsettles, ← hlog]
  intro hset
  -- if the line is there, it is no request line
  have hline : ∀ w, splitLine u' ≠ some (l, w) := by
    intro w hsplit
    rcases hl with rfl | hl
    · have hread : readLines Context.new u' = (true, completeHead Context.new, w) := by
        rw [readLines_some rfl hsplit, headerLine, if_pos rfl]
        exact readLines_complete (headerComplete_completeHead _)
      obtain ⟨input, -, -, hcall⟩ := hrun.call config z limit handler hne hread (headerComplete_completeHead _) rfl
      rw [← call_of_settles hcall hset] at hc
      exact hc rfl
    · obtain ⟨k, v, hmatch, -⟩ := hl.field
      have hneq : l ≠ [] := by
        rintro rfl
        cases hmatch
      have hread : (readLines Context.new u').1 = false := by
        rw [readLines_some rfl hsplit, headerLine, if_neg hneq, if_neg (by simp [Context.new]),
          requestLine, matchRequestLine_header hmatch]
      obtain ⟨hmode, hsame⟩ := hrun.reject config z limit handler hne hread
      have hfinal := (settles_ended hmode).mp (settles_step_iff.mpr hset)
      rw [hsame] at hfinal
      simp at hfinal
  cases cut_of_append hbytes' with
  | behind v before after =>
      refine hline v ?_
      rw [before, terminated_cons, List.append_assoc]
      exact splitLine_line hend _
  | between ls₁ ls₂ l' lines before after =>
      cases ls₁ with
      | cons _ _ => simp at lines
      | nil =>
          cases lines
          refine hline [] ?_
          rw [before, terminated_nil, List.nil_append]
          exact splitLine_append_end hend []
  | inside ls₁ ls₂ p p' lines before after =>
      cases ls₁ with
      | cons _ _ => simp at lines
      | nil =>
          cases lines
          rw [before, terminated_nil, List.nil_append] at hrun hne
          have hnone : splitLine p = none := by
            rw [splitLine_eq_none_iff]
            rw [hasLineEnd_append, Bool.or_eq_false_iff] at hend
            exact hend.1
          have hfinal := (hrun.settles_spin hne hnone).mp hset
          simp at hfinal

/-- A line feed in front of the rest of a head ends it too early. -/
theorem At.not_settles_cut {q : Request} {hs hs' : List (List UInt8)} {u t : List UInt8} {b : BodyAccess}
    {cs : List ServiceCall} (h : At r (q.after hs) u) (hheaders : q.headers = hs ++ hs')
    (hbytes : u ++ r.chunks.flatten = lf :: (terminated cr lf (hs' ++ [[]]) ++ t)) :
    ¬Settles (step config z limit handler) log r (r.log ++ ⟨q.served.fields, b, t⟩ :: cs) := by
  obtain ⟨r', u', hrun, hne, hbytes', hlog, hsettles, -⟩ := h.wake config z limit handler (by rw [hbytes]; simp)
  rw [hbytes] at hbytes'
  rw [hsettles, ← hlog]
  intro hset
  cases u' with
  | nil => exact hne rfl
  | cons byte u' =>
      rw [List.cons_append, List.cons.injEq] at hbytes'
      obtain ⟨rfl, hbytes'⟩ := hbytes'
      have hsplit : splitLine (lf :: u') = some ([], u') := by
        rw [splitLine, if_neg (by decide), if_pos rfl]
      have hread : readLines (q.after hs) (lf :: u') = (true, completeHead (q.after hs), u') := by
        rw [readLines_some rfl hsplit, headerLine, if_pos rfl]
        exact readLines_complete (headerComplete_completeHead _)
      cases herr : (completeHead (q.after hs)).httpError with
      | none =>
          obtain ⟨input, -, -, hcall⟩ := hrun.call config z limit handler hne hread (headerComplete_completeHead _) herr
          have hleft := congrArg (fun c => c.left.length) (call_of_settles hcall hset)
          have hpos : 0 < (terminated cr lf (hs' ++ [[]])).length := length_terminated_pos (by simp)
          simp only [hbytes', List.length_append] at hleft
          omega
      | some err =>
          -- the `Host` header comes later: the request is answered, and its rest is left
          have hversion : (completeHead (q.after hs)).version = some (bytesOf "1.1") := by
            rw [completeHead]
            split <;> rfl
          obtain ⟨hsame, hended | ⟨hrun', hchunks⟩⟩ := hrun.error config z limit handler hne hread (headerComplete_completeHead _) herr hversion
          · have hfinal := (settles_ended hended).mp (settles_step_iff.mpr hset)
            rw [hsame] at hfinal
            simp at hfinal
          · obtain ⟨l, ls, hls, hl⟩ : ∃ l ls, hs' ++ [[]] = l :: ls ∧ (l = [] ∨ IsHeaderLine l) := by
              cases hs' with
              | nil => exact ⟨[], [], rfl, Or.inl rfl⟩
              | cons l hs' =>
                  refine ⟨l, hs' ++ [[]], rfl, Or.inr (q.header l ?_)⟩
                  rw [hheaders]
                  exact List.mem_append_right hs List.mem_cons_self
            rw [← settles_step_iff, ← hsame] at hset
            refine At.not_settles_lost (Or.inl hrun') hl (t := terminated cr lf ls ++ t) ?_ ?_ hset
            · rw [hchunks, hbytes', hls]
              simp
            · simp [Request.served, Request.after, Context.fields]

/-! ## Requests are served in order -/

theorem endsLine_append {u v : List UInt8} (h : EndsLine u) : EndsLine (u ++ v) ↔ EndsLine v := by
  by_cases hv : v = []
  · subst hv
    simp only [List.append_nil, h, true_iff]
    exact Or.inl rfl
  · simp [EndsLine, hv]

theorem endsLine_terminated (ls : List (List UInt8)) : EndsLine (terminated cr lf ls) := by
  by_cases hls : ls = []
  · exact Or.inl (by rw [hls]; rfl)
  · exact Or.inr (getLast?_terminated hls)

/-- What holds no line end does not end a line, unless it is empty. -/
theorem endsLine_iff_of_no_end {p : List UInt8} (h : hasLineEnd p = false) : EndsLine p ↔ p = [] := by
  refine or_iff_left_of_imp ?_
  intro hlast
  have hmem := List.mem_of_getLast? hlast
  rw [hasLineEnd, List.any_eq_false] at h
  exact absurd (by decide) (h lf hmem)

/-- **The head of a request has come whole**: the service is called, and the requests behind it
are served in turn exactly if they are in step. -/
theorem RunsWith.settles_served {ctx : Context} {u v : List UInt8} {q : Request} {qs : List Request}
    (h : RunsWith r ctx u) (hne : u ≠ []) (hread : readLines ctx u = (true, q.served, v))
    (hends : EndsLine u ↔ EndsLine v) (hbytes : v ++ r.chunks.flatten = q.body ++ wire qs)
    (hnext : ∀ (r' : KeepRun) (q' : Request) (qs' : List Request), q.body = [] → qs = q' :: qs' →
      RunsWith r' Context.new v → r'.chunks = r.chunks →
      (Settles (step config z limit handler) log r' (r'.log ++ calls qs) ↔
        InStep handler r'.log.length qs v r'.chunks)) :
    Settles (step config z limit handler) log r (r.log ++ calls (q :: qs)) ↔
      InStep handler r.log.length (q :: qs) u r.chunks := by
  obtain ⟨input, hinput, hstep, hcall⟩ := h.call config z limit handler hne hread rfl rfl
  rw [q.contentLengthRaises_served, hbytes] at hcall
  by_cases hbody : q.body = []
  · obtain ⟨hchunks, hgo, hstop⟩ := serveHead_served config z limit handler
      (r := r) (q := q) { r.accept.apt with readstream := input } h.mode
      h.connected hinput
    rw [← hstep] at hchunks hgo hstop
    have htarget : r.log ++ calls (q :: qs) = (r.step config z limit handler).log ++ calls qs := by
      rw [hcall, calls, hbody]
      simp
    rw [htarget, ← settles_step_iff]
    by_cases hcont : q.Continues (handler r.log.length q.served).answer
    · have hrun := hgo hcont
      cases qs with
      | nil =>
          -- nothing is left
          rw [hbody, wire_nil, List.append_nil, List.append_eq_nil_iff] at hbytes
          obtain ⟨rfl, hnil⟩ := hbytes
          have hidle : At (r.step config z limit handler) Context.new [] := Or.inl hrun
          rw [hidle.settles_idle (by rw [hchunks]; exact hnil)]
          refine iff_of_true (by simp [calls]) ⟨by simpa using hbody, ⟨?_, ?_⟩, trivial⟩
          · rw [hends]
            exact Or.inl rfl
          · intro c hc
            exact Or.inl (List.flatten_eq_nil_iff.mp hnil c hc)
      | cons q' qs =>
          rw [hnext _ q' qs hbody rfl hrun hchunks, hchunks, hcall]
          simp only [InStep, EndsLines, hends, AllContinue, hcont, true_and, List.length_append,
            List.length_singleton, List.forall_mem_cons, hbody]
    · have hended := hstop hcont
      rw [settles_ended hended]
      cases qs with
      | nil =>
          rw [hbody, wire_nil, List.append_nil, List.append_eq_nil_iff] at hbytes
          obtain ⟨rfl, hnil⟩ := hbytes
          refine iff_of_true (by simp [calls]) ⟨by simpa using hbody, ⟨?_, ?_⟩, trivial⟩
          · rw [hends]
            exact Or.inl rfl
          · intro c hc
            exact Or.inl (List.flatten_eq_nil_iff.mp hnil c hc)
      | cons q' qs =>
          refine iff_of_false (by simp [calls]) ?_
          rintro ⟨-, -, hall, -⟩
          exact hcont hall
  · refine iff_of_false ?_ fun hin => hbody (hin.1 q List.mem_cons_self)
    intro hset
    have hcalls := congrArg ServiceCall.body (call_of_settles hcall hset)
    simp only [Bool.false_eq_true, if_false, BodyAccess.body.injEq] at hcalls
    exact hbody hcalls.symm

variable (config z limit handler)

/-- **A loop in the middle of a request settles at the calls of all of them exactly when they
are in step.** -/
theorem At.settles_iff (n : ℕ) : ∀ {r : KeepRun} {ctx : Context} {u : List UInt8} {q : Request}
    {qs : List Request} {ls : List (List UInt8)}, At r ctx u → AtLines q ctx ls →
    u ++ r.chunks.flatten = terminated cr lf ls ++ (q.body ++ wire qs) →
    (u ++ r.chunks.flatten).length < n →
    (Settles (step config z limit handler) log r (r.log ++ calls (q :: qs)) ↔
      InStep handler r.log.length (q :: qs) u r.chunks) := by
  induction n with
  | zero =>
      intro r ctx u q qs ls _ _ _ hlen
      exact absurd hlen (Nat.not_lt_zero _)
  | succ n ih =>
      intro r₀ ctx u₀ q qs ls h₀ hat hbytes₀ hlen₀
      have hls : ls ≠ [] := hat.facts.2.2.1
      have hpos := length_terminated_pos (a := cr) (b := lf) hls
      obtain ⟨r, u, h, hne, hbytes, hlog, hsettles, hends₀⟩ := h₀.wake config z limit handler (by
          rw [hbytes₀]
          exact List.append_ne_nil_of_left_ne_nil (List.ne_nil_of_length_pos hpos) _)
      have hlen : (u ++ r.chunks.flatten).length < n + 1 := by rw [hbytes]; exact hlen₀
      rw [hbytes₀] at hbytes
      have hin : InStep handler r₀.log.length (q :: qs) u₀ r₀.chunks ↔
          InStep handler r.log.length (q :: qs) u r.chunks := by
        rw [InStep, InStep, hends₀, hlog]
      rw [hin, hsettles, ← hlog]
      clear hin hends₀ hsettles hlog hlen₀ hbytes₀ h₀
      cases cut_of_append hbytes with
      | behind v before after =>
          have hends : EndsLine u ↔ EndsLine v := by
            rw [before, endsLine_append (endsLine_terminated ls)]
          refine h.settles_served hne (by rw [before, hat.readLines_all]) hends after ?_
          rintro r' q' qs hbody rfl hrun hchunks
          rw [← hchunks, hbody, List.nil_append, wire_cons, Request.bytes, List.append_assoc] at after
          refine ih (Or.inl hrun) .start after ?_
          rw [hchunks]
          rw [before, List.append_assoc, List.length_append] at hlen
          omega
      | inside ls₁ ls₂ p p' lines before after =>
          rw [lines] at hat
          obtain ⟨ctx', hat', hread⟩ := hat.readLines_append (by simp) p
          have hend : hasLineEnd p = false := by
            have hline := hat'.facts.2.2.2 (p ++ p') List.mem_cons_self
            rw [hasLineEnd_append, Bool.or_eq_false_iff] at hline
            exact hline.1
          have hnone : splitLine p = none := (splitLine_eq_none_iff p).mpr hend
          rw [readLines_none hat'.facts.1 hnone, ← before] at hread
          obtain ⟨hrun, hchunks, hlog⟩ := h.read config z limit handler hne hread hat'.facts.1
          have hends : EndsLine u ↔ EndsLine p := by
            rw [before, endsLine_append (endsLine_terminated ls₁)]
          rw [← settles_step_iff, ← hlog]
          by_cases hp : p = []
          · -- all that has come is read
            have hless : p.length < u.length := by
              rw [hp]
              exact List.length_pos_of_ne_nil hne
            rw [ih (Or.inl hrun) hat' ?_ ?_, hchunks, InStep, InStep, EndsLines, EndsLines, hends]
            · rw [hchunks, after, terminated_cons]
              simp
            · rw [hchunks, List.length_append]
              rw [List.length_append] at hlen
              omega
          · -- the line is cut, and the loop runs on
            rw [hrun.settles_spin hp hnone]
            refine iff_of_false (by simp [calls]) ?_
            rintro ⟨-, ⟨hu, -⟩, -⟩
            rw [hends, endsLine_iff_of_no_end hend] at hu
            exact hp hu
      | between ls₁ ls₂ l lines before after =>
          -- the line feed that follows will be taken for an empty line
          refine iff_of_false ?_ ?_
          · rw [lines] at hat
            obtain ⟨ctx', hat', hread⟩ := hat.readLines_append (by simp) (l ++ [cr])
            obtain ⟨hopen', -, -, hends'⟩ := hat'.facts
            have hsplit : splitLine (l ++ [cr]) = some (l, []) :=
              splitLine_append_end (hends' l List.mem_cons_self) []
            rw [← List.append_assoc, ← before, readLines_some hopen' hsplit] at hread
            intro hset
            cases ls₂ with
            | nil =>
                rw [hat'.last.2] at hread
                simp only at hread
                rw [readLines_complete (show q.served.headerComplete = true from rfl)] at hread
                obtain ⟨input, -, -, hcall⟩ := h.call config z limit handler hne hread rfl rfl
                have hleft := congrArg (fun c => c.left.length) (call_of_settles hcall hset)
                simp [after] at hleft
            | cons l' ls₂ =>
                obtain ⟨hs, hs', hhead, hheaders, hrest⟩ := hat'.next (by simp)
                rw [hhead] at hread
                simp only at hread
                rw [readLines_none rfl (rfl : splitLine [] = none)] at hread
                obtain ⟨hrun, hchunks, hlog⟩ := h.read config z limit handler hne hread rfl
                rw [← settles_step_iff, ← hlog] at hset
                refine At.not_settles_cut (Or.inl hrun) hheaders ?_ hset
                rw [hchunks, after, hrest]
                rfl
          · rintro ⟨-, ⟨hu, -⟩, -⟩
            rw [before] at hu
            rcases hu with hnil | hlast
            · simp at hnil
            · rw [List.getLast?_append_of_ne_nil _ (by simp)] at hlast
              exact absurd hlast (by decide)

end KeepRun

/-- **Requests sent back to back are served one by one**, each with its own body and no byte of
another, exactly when no request has a body, every chunk ends at the end of a line, and no request
but the last ends the connection or cannot be answered. -/
theorem requests_framed {σ : Type} (config : HttpdConfig) (z : Zlib σ) (limit : LuaNumber)
    (handler : ℕ → Context → Handling) (qs : List Request) (chunks : List (List UInt8))
    (hbytes : chunks.flatten = wire qs) :
    Framed config z limit handler qs chunks ↔
      (∀ q ∈ qs, q.body = []) ∧ (∀ c ∈ chunks, EndsLine c) ∧ AllContinue handler 0 qs := by
  have hstep : (KeepRun.start chunks).step config z limit handler =
      ⟨⟨some Context.new, (TcpRead.new.receive 1).2⟩, chunks, .parked, []⟩ := rfl
  have hwait : KeepRun.At ((KeepRun.start chunks).step config z limit handler) Context.new [] := by
    rw [hstep]
    exact Or.inr ⟨rfl, rfl, rfl, rfl, rfl, rfl, rfl, rfl, newTape [], new_represents [], rfl⟩
  rw [Framed, ← settles_step_iff]
  cases qs with
  | nil =>
      rw [hwait.settles_idle (by rw [hstep]; exact hbytes)]
      refine iff_of_true (by rw [hstep]; rfl) ⟨by simp, ?_, trivial⟩
      intro c hc
      exact Or.inl (List.flatten_eq_nil_iff.mp hbytes c hc)
  | cons q qs =>
      have hsent : [] ++ ((KeepRun.start chunks).step config z limit handler).chunks.flatten =
          terminated cr lf q.lines ++ (q.body ++ wire qs) := by
        rw [hstep, List.nil_append]
        simp only [hbytes, wire_cons, Request.bytes, List.append_assoc]
      have hiff := hwait.settles_iff config z limit handler _ .start hsent (Nat.lt_succ_self _)
      rw [hstep] at hiff ⊢
      simp only [List.nil_append] at hiff
      rw [hiff, InStep, EndsLines]
      simp only [List.length_nil, EndsLine, true_or, true_and]

theorem isHeaderLine_host : IsHeaderLine (bytesOf "Host: a") :=
  ⟨by decide +kernel, bytesOf "Host", bytesOf "a", by decide +kernel, by decide +kernel⟩

/-- A request without a body. -/
def getRequest : Request where
  line := bytesOf "GET / HTTP/1.1"
  method := bytesOf "GET"
  target := bytesOf "/"
  headers := [bytesOf "Host: a"]
  body := []
  line_eq := by decide +kernel
  line_end := by decide +kernel
  target_le := by decide +kernel
  header := by
    intro l hl
    rw [List.mem_singleton.mp hl]
    exact isHeaderLine_host
  host := by decide +kernel
  length := by
    rw [show getHeader (headerTable [bytesOf "Host: a"]) (bytesOf "content-length") = none by decide +kernel]

/-- A request with a body of one byte. -/
def postRequest : Request where
  line := bytesOf "POST / HTTP/1.1"
  method := bytesOf "POST"
  target := bytesOf "/"
  headers := [bytesOf "Host: a", bytesOf "Content-Length: 1"]
  body := bytesOf "x"
  line_eq := by decide +kernel
  line_end := by decide +kernel
  target_le := by decide +kernel
  header := by
    intro l hl
    rcases List.mem_pair.mp hl with rfl | rfl
    · exact isHeaderLine_host
    · exact ⟨by decide +kernel, bytesOf "Content-Length", bytesOf "1", by decide +kernel, by decide +kernel⟩
  host := by decide +kernel
  length := by
    rw [show getHeader (headerTable [bytesOf "Host: a", bytesOf "Content-Length: 1"])
      (bytesOf "content-length") = some (.single (bytesOf "1")) by decide +kernel]
    decide +kernel

/-- A service that looks at the body and answers with a text. -/
def replyOk : Handling := ⟨true, [], .whole 200 (bytesOf "OK") (bytesOf "hi")⟩

/-- Two requests without bodies, the second in two chunks. -/
theorem requests_framed_twice :
    [wire [getRequest] ++ bytesOf "GET / HTTP/1.1\r\n", bytesOf "Host: a\r\n\r\n"].flatten =
        wire [getRequest, getRequest] ∧
      Framed {} noZlib (.integer 10485760) (fun _ _ => replyOk) [getRequest, getRequest]
        [wire [getRequest] ++ bytesOf "GET / HTTP/1.1\r\n", bytesOf "Host: a\r\n\r\n"] := by
  have hbytes : [wire [getRequest] ++ bytesOf "GET / HTTP/1.1\r\n", bytesOf "Host: a\r\n\r\n"].flatten =
      wire [getRequest, getRequest] := by
    decide +kernel
  refine ⟨hbytes, (requests_framed {} noZlib _ _ _ _ hbytes).mpr ⟨?_, ?_, ?_, trivial⟩⟩
  · intro q hq
    rcases List.mem_pair.mp hq with rfl | rfl <;> rfl
  · intro c hc
    rcases List.mem_pair.mp hc with rfl | rfl
    · exact Or.inr (by decide +kernel)
    · exact Or.inr (by decide +kernel)
  · refine ⟨?_, fun _ => ?_⟩
    · rw [show getHeader (headerTable getRequest.headers) (bytesOf "connection") = none by decide +kernel]
      trivial
    · rw [show getHeader (headerTable getRequest.headers) (bytesOf "accept-encoding") = none by
        decide +kernel]
      trivial

/-- **The body of a request is not its `ctx.body`**, and is left to be read as the next request. -/
theorem request_body_smuggled :
    [wire [postRequest, getRequest]].flatten = wire [postRequest, getRequest] ∧
      ¬Framed {} noZlib (.integer 10485760) (fun _ _ => replyOk) [postRequest, getRequest]
        [wire [postRequest, getRequest]] := by
  refine ⟨by simp, ?_⟩
  intro h
  have hlog : ((KeepRun.step {} noZlib (.integer 10485760) (fun _ _ => replyOk))^[3]
      (KeepRun.start [wire [postRequest, getRequest]])).log.map ServiceCall.body = [.body []] := by
    decide +kernel
  have hprefix := (KeepRun.prefix_of_settles ((settles_iterate_iff 3).mpr h)).map ServiceCall.body
  rw [hlog, calls, List.map_cons, List.cons_prefix_cons] at hprefix
  exact absurd hprefix.1 (by decide +kernel)

end LuaFan
