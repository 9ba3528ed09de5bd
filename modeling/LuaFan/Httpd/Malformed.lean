/-
# Malformed requests (`modules/fan/httpd/httpd.lua`, `readheader` and `onaccept`)

`readheader` tells its caller about a malformed head in three ways: it returns false with
a text where a size is expected, it returns true with `_http_error` set and the head still
open, or it sets `_http_error` together with `header_complete`.  An `Acceptor` is the
coroutine of `onaccept` taking half rounds of its loop, with chunks arriving while it waits,
and for every request a record of whether it was rejected and what it was answered.

* `malformed_requests_answered`: a run raises no error and answers every rejected request
  exactly once, or closes its connection, **exactly when every step is tame**;
* `bad_request_line_raises`: a line that is no request line ends the coroutine with an error
  and without an answer.
-/
import LuaFan.Httpd.Loop
import LuaFan.Lib.Machine

namespace LuaFan

open Fp Machine

/-! ## The coroutine of a connection -/

/-- A service that leaves `header_complete` alone. -/
structure Handler where
  service : Service
  keeps_head : ∀ ctx apt, ctx.headerComplete = true → (service ctx apt).ctx.headerComplete = true

/-- What became of a request: did `readheader` reject it, the codes `onaccept` answered it
with, and how often the service was called for it. -/
structure Exchange where
  rejected : Bool
  answers : List ℕ
  served : ℕ
  deriving DecidableEq

def Exchange.new : Exchange := ⟨false, [], 0⟩

/-- Where the coroutine is: before a round, in `receive`, between the two halves of a round
with a complete head, in a loop that it never leaves, or past its loop. -/
inductive Activity where
  | running (s : Accept)
  | waiting (s : Accept)
  | serving (ctx : Context) (apt : TcpRead)
  | spinning
  | left
  | raised

/-- The coroutine, the request it is at and those before. -/
structure Acceptor where
  activity : Activity
  exchange : Exchange
  past : List Exchange

namespace Acceptor

/-- A connection that was just accepted. -/
def new : Acceptor := ⟨.running ⟨none, TcpRead.new⟩, .new, []⟩

/-- Was the last request answered? -/
def answered (s : Accept) : Bool :=
  match s.context with
  | none => false
  | some ctx => decide (ctx.replyStatus = some .completed)

/-- With a new context a new request begins. -/
def renewed (c : Acceptor) (s : Accept) : Acceptor :=
  if answered s then { c with exchange := .new, past := c.past ++ [c.exchange] } else c

/-- The first half of a round.  If the head is open and holds no line end, the round has
changed nothing; the loop does not yield either, so that nothing ever changes. -/
def headHalf (c : Acceptor) (s : Accept) : Acceptor :=
  match headPhase s with
  | .closed => { c with activity := .left }
  | .raised _ _ => { c.renewed s with activity := .raised }
  | .parked ctx apt => { c.renewed s with activity := .waiting ⟨some ctx, apt⟩ }
  | .ready ctx apt =>
      let c := c.renewed s
      { c with
        exchange := { c.exchange with
          rejected := c.exchange.rejected || (!(renew s.context).headerComplete && ctx.httpError.isSome) }
        activity :=
          if ctx.headerComplete then .serving ctx apt
          else if hasLineEnd (unreadOf s.apt.readstream) then .running ⟨some ctx, apt⟩
          else .spinning }

/-- The text of the answer to a service that failed is not empty. -/
def errorId : String := "Error ID: "

/-- Does the second half of a round raise an error?  A protocol error is answered, if no
reply was begun, and the version compared.  A service that failed is answered too, and
`reply_chunk` needs a connection. -/
def serveRaises (service : Service) (ctx : Context) (apt : TcpRead) : Bool :=
  match ctx.httpError with
  | some err =>
      (decide (ctx.replyStatus = none) && replyRaises ctx (err.details.getD ""))
        || (versionNumber ctx).isNone
  | none =>
      let r := service ctx apt
      if r.raised then
        match r.ctx.replyStatus with
        | none => replyRaises r.ctx errorId
        | some .started => (r.apt apt).disconnected
        | some _ => false
      else (shouldKeepAlive r.ctx).isNone

/-- What the second half of a round does for the request. -/
def Exchange.serve (e : Exchange) (service : Service) (ctx : Context) (apt : TcpRead) : Exchange :=
  match ctx.httpError with
  | some err =>
      if ctx.replyStatus = none ∧ apt.disconnected = false then
        { e with answers := e.answers ++ [err.code] }
      else e
  | none =>
      let r := service ctx apt
      if r.raised = true ∧ r.ctx.replyStatus = none ∧ (r.apt apt).disconnected = false then
        { e with served := e.served + 1, answers := e.answers ++ [500] }
      else { e with served := e.served + 1 }

/-- The second half of a round. -/
def serveHalf (c : Acceptor) (h : Handler) (ctx : Context) (apt : TcpRead) : Acceptor :=
  if serveRaises h.service ctx apt then { c with activity := .raised }
  else
    { c with
      exchange := Exchange.serve c.exchange h.service ctx apt
      activity :=
        match serve h.service ctx apt with
        | .next s => .running s
        | _ => .left }

/-- Half a round, the arrival of a chunk, and the peer closing the connection. -/
inductive Event where
  | go (h : Handler)
  | arrive (chunk : List UInt8)
  | hangup

/-- The step of a connection.  The coroutine yields in `receive`, and in the second half of a
round, where a reply is sent and the service is called. -/
def step (c : Acceptor) : Event → Option Acceptor
  | .go h =>
      match c.activity with
      | .running s => some (c.headHalf s)
      | .serving ctx apt => some (c.serveHalf h ctx apt)
      | .spinning => some c
      | _ => none
  | .arrive chunk =>
      match c.activity with
      | .waiting s =>
          let apt := s.apt.fed chunk
          some { c with activity :=
            if apt.wakes then .running { s with apt := apt.resumed } else .waiting { s with apt := apt } }
      | .serving ctx apt => some { c with activity := .serving ctx (apt.fed chunk) }
      | _ => none
  | .hangup =>
      match c.activity with
      | .waiting _ => some { c with activity := .left }
      | .serving ctx apt => some { c with activity := .serving ctx { apt with disconnected := true } }
      | _ => none

/-! ## One answer, and the steps that keep to it -/

/-- The request was answered with one error, if it was rejected. -/
def Answered (e : Exchange) : Prop :=
  e.rejected = true → e.served = 0 ∧ ∃ code, e.answers = [code] ∧ 400 ≤ code ∧ code < 600

/-- The request was not answered yet, if it was rejected. -/
def Pending (e : Exchange) : Prop := e.rejected = true → e.served = 0 ∧ e.answers = []

/-- No error was raised, every rejected request of the past was answered, and the present one
will be: its head is open, or it is about to be answered, or it was, or the connection is
closed. -/
def Decent (c : Acceptor) : Prop :=
  (∀ e ∈ c.past, Answered e) ∧
    match c.activity with
    | .raised => False
    | .spinning => c.exchange.rejected = false
    | .left => True
    | .waiting _ => Pending c.exchange
    | .serving _ _ => Pending c.exchange
    | .running s =>
        if answered s then Answered c.exchange ∨ s.apt.disconnected = true else Pending c.exchange

/-- A header that was sent more than once. -/
def repeated (ctx : Context) (key : String) : Bool :=
  match getHeader ctx.headers (bytesOf key) with
  | some (.many _) => true
  | _ => false

/-- A context that can be answered: it has a version, and none of the headers that are
looked at has an unexpected form. -/
def Answerable (ctx : Context) (body : String) : Prop :=
  (versionNumber ctx).isSome = true ∧ repeated ctx "connection" = false ∧
    contentLengthRaises ctx = false ∧ (body ≠ "" → repeated ctx "accept-encoding" = false)

/-- While no request line was accepted the next line must be one, or empty; and once
`_http_error` is set, the buffered bytes of an open head must hold a line end. -/
def HeadTame (s : Accept) : Prop :=
  s.apt.disconnected = false → 0 < s.available → (renew s.context).headerComplete = false →
    (hasLineEnd (unreadOf s.apt.readstream) = false → (renew s.context).httpError = none) ∧
    ((renew s.context).firstLine = false → ∀ line rest,
      splitLine (unreadOf s.apt.readstream) = some (line, rest) →
        line = [] ∨ (matchRequestLine line).isSome = true)

/-- With a complete head, the context must be one that can be answered, for a service that
failed as well; and the connection must be there for the rest of a begun reply. -/
def ServeTame (service : Service) (ctx : Context) (apt : TcpRead) : Prop :=
  match ctx.httpError with
  | some err =>
      (versionNumber ctx).isSome = true ∧
        (ctx.replyStatus = none → Answerable ctx (err.details.getD ""))
  | none =>
      let r := service ctx apt
      if r.raised then
        match r.ctx.replyStatus with
        | none => Answerable r.ctx errorId
        | some .started => (r.apt apt).disconnected = false
        | some _ => True
      else (versionNumber r.ctx).isSome = true ∧ repeated r.ctx "connection" = false

/-- The condition on a step. -/
def Tame (c : Acceptor) : Event → Prop
  | .go h =>
      match c.activity with
      | .running s => HeadTame s
      | .serving ctx apt => ServeTame h.service ctx apt
      | _ => True
  | _ => True

/-! ## What a head that is read records -/

/-- Reading lines begins no reply; an error they record has a code of its class, and no error
is forgotten. -/
def Records (ctx ctx' : Context) : Prop :=
  ctx'.replyStatus = ctx.replyStatus ∧
    (ctx'.httpError = ctx.httpError ∨ ∃ err, ctx'.httpError = some err ∧ 400 ≤ err.code ∧ err.code < 600)

theorem Records.refl (ctx : Context) : Records ctx ctx := ⟨rfl, Or.inl rfl⟩

theorem Records.trans {ctx ctx' ctx'' : Context} (h : Records ctx ctx') (h' : Records ctx' ctx'') :
    Records ctx ctx'' := by
  refine ⟨h'.1.trans h.1, ?_⟩
  rcases h'.2 with hsame | hnew
  · rw [hsame]
    exact h.2
  · exact Or.inr hnew

theorem headerLine_records (ctx : Context) (line : List UInt8) :
    Records ctx (headerLine ctx line).ctx := by
  rw [headerLine]
  split
  · rw [HeaderLine.ctx, completeHead]
    split
    · exact ⟨rfl, Or.inr ⟨_, rfl, by decide, by decide⟩⟩
    · exact ⟨rfl, Or.inl rfl⟩
  · split
    · rw [headerField]
      split
      · simp only
        split
        · exact ⟨rfl, Or.inr ⟨_, rfl, by decide, by decide⟩⟩
        · exact ⟨rfl, Or.inl rfl⟩
      · simp only
        split
        · exact ⟨rfl, Or.inr ⟨_, rfl, by decide, by decide⟩⟩
        · exact ⟨rfl, Or.inl rfl⟩
    · rw [requestLine]
      split
      · exact ⟨rfl, Or.inl rfl⟩
      · simp only
        split
        · exact ⟨rfl, Or.inr ⟨_, rfl, by decide, by decide⟩⟩
        · split
          · exact ⟨rfl, Or.inr ⟨_, rfl, by decide, by decide⟩⟩
          · split
            · exact ⟨rfl, Or.inl rfl⟩
            · exact ⟨rfl, Or.inl rfl⟩

theorem readLines_records (ctx : Context) (u : List UInt8) :
    Records ctx (readLines ctx u).2.1 :=
  readLines_relates Records.refl Records.trans headerLine_records ctx u

/-- Behind an accepted request line, every line is taken. -/
theorem headerLine_started {ctx : Context} (hfirst : ctx.firstLine = true) (line : List UInt8) :
    (∃ ctx', headerLine ctx line = .next ctx' ∧
      (ctx'.headerComplete = true ∨ ctx'.firstLine = true)) ∨ ∃ ctx', headerLine ctx line = .stop ctx' := by
  rw [headerLine]
  split
  · refine Or.inl ⟨_, rfl, Or.inl ?_⟩
    rw [completeHead]
    split <;> rfl
  · rw [headerField]
    split
    · simp only
      split
      · exact Or.inr ⟨_, rfl⟩
      · exact Or.inl ⟨_, rfl, Or.inr hfirst⟩
    · simp only
      split
      · exact Or.inr ⟨_, rfl⟩
      · exact Or.inl ⟨_, rfl, Or.inr hfirst⟩

theorem readLines_started (u : List UInt8) :
    ∀ ctx : Context, ctx.headerComplete = true ∨ ctx.firstLine = true → (readLines ctx u).1 = true := by
  induction hn : u.length using Nat.strong_induction_on generalizing u with
  | _ n ih =>
      subst hn
      intro ctx hctx
      cases hdone : ctx.headerComplete with
      | true => rw [readLines, if_pos hdone]
      | false =>
          have hfirst : ctx.firstLine = true := by simpa [hdone] using hctx
          cases hsplit : splitLine u with
          | none => rw [readLines_none hdone hsplit]
          | some p =>
              obtain ⟨line, rest⟩ := p
              rw [readLines_some hdone hsplit]
              obtain ⟨ctx', hnext, hctx'⟩ | ⟨ctx', hstop⟩ := headerLine_started hfirst line
              · rw [hnext]
                exact ih rest.length (length_splitLine hsplit) rest rfl ctx' hctx'
              · rw [hstop]

/-- **A head is rejected exactly at its first line**: where a request line is due there is
another line. -/
theorem readLines_rejects_iff {ctx : Context} {u : List UInt8} (hdone : ctx.headerComplete = false) :
    (readLines ctx u).1 = true ↔ (ctx.firstLine = false → ∀ line rest,
      splitLine u = some (line, rest) → line = [] ∨ (matchRequestLine line).isSome = true) := by
  cases hfirst : ctx.firstLine with
  | true => simp [readLines_started u ctx (Or.inr hfirst)]
  | false =>
      simp only [true_imp_iff]
      cases hsplit : splitLine u with
      | none => simp [readLines_none hdone hsplit]
      | some p =>
          obtain ⟨line, rest⟩ := p
          have hall : (∀ line' rest', some (line, rest) = some (line', rest') →
              line' = [] ∨ (matchRequestLine line').isSome = true) ↔
                line = [] ∨ (matchRequestLine line).isSome = true :=
            ⟨fun h => h line rest rfl, fun h _ _ heq => by cases heq; exact h⟩
          rw [hall, readLines_some hdone hsplit, headerLine]
          by_cases hline : line = []
          · rw [if_pos hline]
            simp only [hline, true_or, iff_true]
            refine readLines_started rest _ (Or.inl ?_)
            rw [completeHead]
            split <;> rfl
          · rw [if_neg hline, hfirst]
            simp only [Bool.false_eq_true, if_false, requestLine, hline, false_or]
            cases hmatch : matchRequestLine line with
            | none => simp
            | some m =>
                obtain ⟨method, path, version⟩ := m
                simp only [Option.isSome_some, iff_true]
                split_ifs with hversion hpath
                · rfl
                · rfl
                · rcases splitQuery path with ⟨before, _ | query⟩ <;>
                    exact readLines_started rest _ (Or.inr rfl)

/-! ## The invariant -/

/-- The record of the present request goes with its context: while the head is open nothing
was answered and an error is a rejection, and a rejected request has an error to reply
with. -/
structure Tracks (e : Exchange) (ctx : Context) : Prop where
  opened : ctx.headerComplete = false → e.served = 0 ∧ e.answers = [] ∧ ctx.replyStatus = none ∧
    (ctx.httpError.isSome = true → e.rejected = true)
  rejected : e.rejected = true → e.served = 0 ∧ e.answers = [] ∧ ctx.replyStatus = none ∧
    ∃ err, ctx.httpError = some err ∧ 400 ≤ err.code ∧ err.code < 600

theorem Tracks.pending {e : Exchange} {ctx : Context} (h : Tracks e ctx) : Pending e :=
  fun hrej => ⟨(h.rejected hrej).1, (h.rejected hrej).2.1⟩

theorem tracks_new : Tracks .new Context.new where
  opened := fun _ => ⟨rfl, rfl, rfl, fun h => by cases h⟩
  rejected := fun h => by cases h

/-- An open head is rejected exactly when it has an error. -/
theorem Tracks.rejected_eq {e : Exchange} {ctx : Context} (h : Tracks e ctx)
    (hopen : ctx.headerComplete = false) : e.rejected = ctx.httpError.isSome := by
  cases hrej : e.rejected with
  | true =>
      obtain ⟨-, -, -, err, herr, -⟩ := h.rejected hrej
      rw [herr]
      rfl
  | false =>
      have himp := (h.opened hopen).2.2.2
      cases hsome : ctx.httpError.isSome with
      | true =>
          rw [himp hsome] at hrej
          cases hrej
      | false => rfl

/-- Reading more of a head is recorded. -/
theorem Tracks.read {e : Exchange} {ctx ctx' : Context} (h : Tracks e ctx)
    (hopen : ctx.headerComplete = false) (hrec : Records ctx ctx') :
    Tracks { e with rejected := e.rejected || (!ctx.headerComplete && ctx'.httpError.isSome) } ctx' := by
  obtain ⟨hserved, hanswers, hstatus, hmark⟩ := h.opened hopen
  have hcode : e.rejected = true ∨ ctx'.httpError.isSome = true →
      ∃ err, ctx'.httpError = some err ∧ 400 ≤ err.code ∧ err.code < 600 := by
    rcases hrec.2 with hsame | hnew
    · rw [hsame]
      intro hor
      exact (h.rejected (hor.elim id hmark)).2.2.2
    · exact fun _ => hnew
  constructor
  · intro _
    refine ⟨hserved, hanswers, hrec.1.trans hstatus, ?_⟩
    intro hsome
    simp [hopen, hsome]
  · simp only [hopen, Bool.not_false, Bool.true_and, Bool.or_eq_true]
    intro hor
    exact ⟨hserved, hanswers, hrec.1.trans hstatus, hcode hor⟩

/-- The invariant of a connection. -/
def Inv (c : Acceptor) : Prop :=
  match c.activity with
  | .running s => (∃ t, Represents s.apt.readstream t) ∧
      (answered s = false → Tracks c.exchange (renew s.context))
  | .waiting s => (∃ t, Represents s.apt.readstream t) ∧ answered s = false ∧
      Tracks c.exchange (renew s.context)
  | .serving ctx apt => (∃ u, Reads apt.readstream u) ∧ ctx.headerComplete = true ∧
      Tracks c.exchange ctx
  | _ => True

section Steps

variable {c : Acceptor} {s : Accept}

/-- A stream with bytes is being read. -/
theorem exists_reads {apt : TcpRead} (h : ∃ t, Represents apt.readstream t)
    (hpos : 0 < bytearrayReadAvailable apt.readstream) : ∃ u, Reads apt.readstream u := by
  obtain ⟨t, hrep⟩ := h
  have hread : apt.readstream.reading = true := by
    by_contra hno
    rw [bytearrayReadAvailable, if_neg hno] at hpos
    exact absurd hpos (lt_irrefl _)
  exact ⟨_, _, t, hrep, hread, rfl, rfl⟩

theorem Reads.represents {ba : Bytearray} {u : List UInt8} (h : Reads ba u) : ∃ t, Represents ba t := by
  obtain ⟨back, t, hrep, -⟩ := h
  exact ⟨t, hrep⟩

/-- The answered request is put to the past, and the present one has its record. -/
theorem renewed_decent (hinv : Inv c) (hdec : Decent c) (hact : c.activity = .running s)
    (hconn : s.apt.disconnected = false) :
    (∀ e ∈ (c.renewed s).past, Answered e) ∧ Tracks (c.renewed s).exchange (renew s.context) := by
  obtain ⟨hpast, hnow⟩ := hdec
  simp only [Inv, hact] at hinv
  simp only [hact] at hnow
  rw [renewed]
  cases hans : answered s with
  | false =>
      simp only [Bool.false_eq_true, if_false]
      exact ⟨hpast, hinv.2 hans⟩
  | true =>
      simp only [hans, if_true, hconn, Bool.false_eq_true, or_false] at hnow ⊢
      refine ⟨?_, ?_⟩
      · intro e he
        rcases List.mem_append.mp he with hmem | hmem
        · exact hpast e hmem
        · rw [List.mem_singleton.mp hmem]
          exact hnow
      · have hnew : renew s.context = Context.new := by
          unfold answered at hans
          cases hctx : s.context with
          | none => rfl
          | some ctx =>
              rw [hctx] at hans
              exact renew_completed (of_decide_eq_true hans)
        rw [hnew]
        exact tracks_new

theorem answered_of_status {s : Accept} {ctx : Context} (hctx : s.context = some ctx)
    (hstatus : ctx.replyStatus ≠ some .completed) : answered s = false := by
  simp [answered, hctx, hstatus]

/-- With an open head the lines are read: a bad first line raises an error, and bytes without
a line end keep the loop busy. -/
theorem headHalf_open {u : List UInt8} (hpast : ∀ e ∈ (c.renewed s).past, Answered e)
    (htracks : Tracks (c.renewed s).exchange (renew s.context)) (hconn : s.apt.disconnected = false)
    (hpos : 0 < s.available) (hreads : Reads s.apt.readstream u)
    (hopen : (renew s.context).headerComplete = false) :
    (HeadTame s → Inv (c.headHalf s)) ∧ (Decent (c.headHalf s) ↔ HeadTame s) := by
  have hne : u ≠ [] := List.ne_nil_of_length_pos (hreads.available_eq ▸ hpos)
  obtain ⟨input, hinput, hphase⟩ := headPhase_open hconn hreads hne hopen
  have htame : HeadTame s ↔ (hasLineEnd u = false → (renew s.context).httpError = none) ∧
      (readLines (renew s.context) u).1 = true := by
    simp only [HeadTame, hconn, hpos, hopen, true_imp_iff, hreads.unreadOf_eq,
      readLines_rejects_iff hopen]
  have hread := htracks.read hopen (readLines_records (renew s.context) u)
  have hstatus : (readLines (renew s.context) u).2.1.replyStatus = none :=
    (readLines_records (renew s.context) u).1.trans (htracks.opened hopen).2.2.1
  rw [htame, headHalf, hphase]
  cases hok : (readLines (renew s.context) u).1 with
  | false =>
      simp only [Bool.false_eq_true, if_false, and_false, false_imp_iff, true_and, iff_false]
      exact fun hdec => hdec.2
  | true =>
      simp only [if_true, and_true, hreads.unreadOf_eq]
      cases hdone : (readLines (renew s.context) u).2.1.headerComplete with
      | true =>
          -- the head was completed by an empty line
          have hend : hasLineEnd u = true := by
            by_contra hno
            rw [Bool.not_eq_true, ← splitLine_eq_none_iff] at hno
            rw [readLines_none hopen hno] at hdone
            rw [hopen] at hdone
            cases hdone
          simp only [if_true, hend, Bool.true_eq_false, false_imp_iff, iff_true, true_imp_iff]
          exact ⟨⟨⟨_, hinput⟩, hdone, hread⟩, hpast, hread.pending⟩
      | false =>
          simp only [Bool.false_eq_true, if_false]
          cases hend : hasLineEnd u with
          | true =>
              have hans : answered ⟨some (readLines (renew s.context) u).2.1,
                  { s.apt with readstream := input }⟩ = false :=
                answered_of_status rfl (by simp [hstatus])
              have hsame : renew (some (readLines (renew s.context) u).2.1) =
                  (readLines (renew s.context) u).2.1 := by
                rw [renew, if_neg (by simp [hstatus])]
              simp only [if_true, Bool.true_eq_false, false_imp_iff, iff_true, true_imp_iff]
              refine ⟨⟨Reads.represents hinput, fun _ => ?_⟩, hpast, ?_⟩
              · simp only [hsame]
                exact hread
              · simp only [hans, Bool.false_eq_true, if_false]
                exact hread.pending
          | false =>
              -- nothing was read: the loop goes round for ever
              have hnone : splitLine u = none := (splitLine_eq_none_iff u).mpr hend
              simp only [Bool.false_eq_true, if_false, true_imp_iff]
              refine ⟨fun _ => trivial, ?_⟩
              rw [readLines_none hopen hnone] at hread ⊢
              have hrej := htracks.rejected_eq hopen
              simp only [Decent, hopen, Bool.not_false, Bool.true_and, hrej, Bool.or_self,
                Option.isSome_eq_false_iff, Option.isNone_iff_eq_none]
              exact ⟨fun h => h.2, fun h => ⟨hpast, h⟩⟩

/-- **The first half of a round keeps the connection decent exactly when the head is
tame.** -/
theorem headHalf_decent (hinv : Inv c) (hdec : Decent c) (hact : c.activity = .running s) :
    (HeadTame s → Inv (c.headHalf s)) ∧ (Decent (c.headHalf s) ↔ HeadTame s) := by
  cases hconn : s.apt.disconnected with
  | true =>
      rw [headHalf, headPhase_disconnected hconn]
      exact ⟨fun _ => trivial, iff_of_true ⟨hdec.1, trivial⟩ (by simp [HeadTame, hconn])⟩
  | false =>
      obtain ⟨hpast, htracks⟩ := renewed_decent hinv hdec hact hconn
      have hrep : ∃ t, Represents s.apt.readstream t := by
        simp only [Inv, hact] at hinv
        exact hinv.1
      have hkeep : answered ⟨some (renew s.context),
          { s.apt with receivingExpect := 1, receiving := true }⟩ = false :=
        answered_of_status rfl (renew_not_completed s.context)
      rcases Nat.eq_zero_or_pos s.available with hzero | hpos
      · -- nothing is buffered
        have htame : HeadTame s := by simp [HeadTame, hzero]
        have hsame : renew (some (renew s.context)) = renew s.context := by
          rw [renew, if_neg (renew_not_completed s.context)]
        rw [headHalf, headPhase_empty hconn hzero]
        refine ⟨fun _ => ⟨hrep, hkeep, ?_⟩, iff_of_true ⟨hpast, htracks.pending⟩ htame⟩
        simp only [hsame]
        exact htracks
      · obtain ⟨u, hreads⟩ := exists_reads hrep hpos
        cases hdone : (renew s.context).headerComplete with
        | false => exact headHalf_open hpast htracks hconn hpos hreads hdone
        | true =>
            have htame : HeadTame s := by simp [HeadTame, hdone]
            rw [headHalf, headPhase_complete hconn hpos hdone]
            simp only [hdone, Bool.not_true, Bool.false_and, Bool.or_false, if_true]
            exact ⟨fun _ => ⟨⟨u, hreads⟩, hdone, htracks⟩, iff_of_true ⟨hpast, htracks.pending⟩ htame⟩

/-- **A loop that found no line end goes round for ever**: a whole round hands on a state in
which the next one finds none either. -/
theorem iterate_spinning (service : Service) (hrep : ∃ t, Represents s.apt.readstream t)
    (hspin : (c.headHalf s).activity = .spinning) :
    ∃ s', iterate service s = .next s' ∧ (∃ t, Represents s'.apt.readstream t) ∧
      ∀ c : Acceptor, (c.headHalf s').activity = .spinning := by
  cases hconn : s.apt.disconnected with
  | true =>
      rw [headHalf, headPhase_disconnected hconn] at hspin
      cases hspin
  | false =>
      rcases Nat.eq_zero_or_pos s.available with hzero | hpos
      · rw [headHalf, headPhase_empty hconn hzero] at hspin
        cases hspin
      · obtain ⟨u, hreads⟩ := exists_reads hrep hpos
        have hne : u ≠ [] := List.ne_nil_of_length_pos (hreads.available_eq ▸ hpos)
        cases hdone : (renew s.context).headerComplete with
        | true =>
            rw [headHalf, headPhase_complete hconn hpos hdone] at hspin
            simp only [hdone, if_true] at hspin
            cases hspin
        | false =>
            have hend : hasLineEnd u = false := by
              obtain ⟨input, -, hphase⟩ := headPhase_open hconn hreads hne hdone
              rw [headHalf, hphase, hreads.unreadOf_eq] at hspin
              split at hspin
              · cases hspin
              · cases hspin
              · cases hspin
              · simp only at hspin
                split at hspin
                · cases hspin
                · split at hspin
                  · cases hspin
                  · simpa using ‹¬hasLineEnd u = true›
            have hnone : splitLine u = none := (splitLine_eq_none_iff u).mpr hend
            obtain ⟨input, hinput, hround⟩ := iterate_partial service hconn hreads hne hdone hnone
            refine ⟨_, hround, Reads.represents hinput, ?_⟩
            intro c
            have hsame : renew (some (renew s.context)) = renew s.context := by
              rw [renew, if_neg (renew_not_completed s.context)]
            obtain ⟨input', -, hphase⟩ := headPhase_open
              (s := ⟨some (renew s.context), { s.apt with readstream := input }⟩) hconn hinput hne
              (by rw [hsame]; exact hdone)
            rw [headHalf, hphase]
            simp only [hsame, readLines_none hdone hnone, if_true, hdone, Bool.false_eq_true, if_false,
              hinput.unreadOf_eq, hend]

/-! ## The second half of a round -/

theorem shouldKeepAlive_isSome_iff (ctx : Context) :
    (shouldKeepAlive ctx).isSome = true ↔
      (versionNumber ctx).isSome = true ∧ repeated ctx "connection" = false := by
  rw [shouldKeepAlive, repeated]
  cases versionNumber ctx with
  | none => simp
  | some version =>
      simp only [Option.isSome_some, true_and]
      cases getHeader ctx.headers (bytesOf "connection") with
      | none => simp
      | some value => cases value <;> simp

/-- A reply raises no error exactly in a context that can be answered. -/
theorem replyRaises_iff (ctx : Context) (body : String) :
    replyRaises ctx body = false ↔ Answerable ctx body := by
  have halive : (shouldKeepAlive ctx = none) ↔ ¬((versionNumber ctx).isSome = true ∧
      repeated ctx "connection" = false) := by
    rw [← shouldKeepAlive_isSome_iff, Bool.not_eq_true, Option.isSome_eq_false_iff,
      Option.isNone_iff_eq_none]
  have hdef : replyRaises ctx body = (contentLengthRaises ctx
      || (decide (body ≠ "") && repeated ctx "accept-encoding")
      || decide (shouldKeepAlive ctx = none)) := rfl
  rw [hdef, Answerable]
  simp only [Bool.or_eq_false_iff, Bool.and_eq_false_iff, decide_eq_false_iff_not, halive, ne_eq,
    not_not]
  tauto

/-- **The second half raises an error exactly when it is not tame.** -/
theorem serveRaises_iff (service : Service) (ctx : Context) (apt : TcpRead) :
    serveRaises service ctx apt = false ↔ ServeTame service ctx apt := by
  rw [serveRaises, ServeTame]
  cases ctx.httpError with
  | some err =>
      simp only [Bool.or_eq_false_iff, Bool.and_eq_false_iff, decide_eq_false_iff_not,
        replyRaises_iff, Option.isNone_eq_false_iff]
      tauto
  | none =>
      simp only
      split
      · split
        · rw [replyRaises_iff]
        · rfl
        · simp
      · rw [Option.isNone_eq_false_iff, shouldKeepAlive_isSome_iff]

/-- An error ends the round. -/
theorem serve_of_raises {service : Service} {ctx : Context} {apt : TcpRead}
    (h : serveRaises service ctx apt = true) : serve service ctx apt = .ended := by
  rw [serveRaises] at h
  rw [serve]
  cases herr : ctx.httpError with
  | some err =>
      simp only [herr, Bool.or_eq_true, Bool.and_eq_true, decide_eq_true_eq,
        Option.isNone_iff_eq_none] at h
      simp only [replyError]
      split
      · rfl
      · rename_i hno
        have hversion : ctx.version.bind str2num = none := h.resolve_left hno
        by_cases hnone : ctx.replyStatus = none
        · simp only [hnone, if_true, versionNumber, hversion]
        · simp only [hnone, if_false, versionNumber, hversion]
  | none =>
      simp only [herr] at h
      simp only [callService]
      split
      · rfl
      · rename_i hraised
        simp only [hraised, Bool.false_eq_true, if_false, Option.isNone_iff_eq_none] at h
        simp only [h]

theorem tracks_complete {e : Exchange} {ctx : Context} (hrej : e.rejected = false)
    (hdone : ctx.headerComplete = true) : Tracks e ctx where
  opened := fun hopen => by rw [hdone] at hopen; cases hopen
  rejected := fun h => by rw [hrej] at h; cases h

/-- A request that was not rejected is none of ours. -/
theorem decent_of_not_rejected {c : Acceptor} (hpast : ∀ e ∈ c.past, Answered e)
    (hrej : c.exchange.rejected = false) (hact : c.activity ≠ .raised) : Decent c := by
  have hvacuous : Answered c.exchange ∧ Pending c.exchange := by
    simp [Answered, Pending, hrej]
  refine ⟨hpast, ?_⟩
  split
  · contradiction
  · exact hrej
  · trivial
  · exact hvacuous.2
  · exact hvacuous.2
  · split
    · exact Or.inl hvacuous.1
    · exact hvacuous.2

@[simp] theorem rejected_serve (e : Exchange) (service : Service) (ctx : Context) (apt : TcpRead) :
    (Exchange.serve e service ctx apt).rejected = e.rejected := by
  rw [Exchange.serve]
  cases ctx.httpError with
  | some err =>
      simp only
      split <;> rfl
  | none =>
      simp only
      split <;> rfl

/-- The rounds that go on are running with a stream in use, and with the context of the
second half. -/
theorem serve_running {h : Handler} {ctx : Context} {apt : TcpRead} {u : List UInt8}
    (hreads : Reads apt.readstream u) (hdone : ctx.headerComplete = true)
    (hnext : serve h.service ctx apt = .next s) :
    (∃ t, Represents s.apt.readstream t) ∧ ∃ ctx', s.context = some ctx' ∧ ctx'.headerComplete = true := by
  obtain ⟨v, hv, -⟩ := serve_next hreads hnext
  refine ⟨Reads.represents hv, ?_⟩
  rw [serve] at hnext
  split at hnext
  · obtain ⟨-, version, -, -, hctx⟩ := replyError_next hnext
    exact ⟨_, hctx, hdone⟩
  · obtain ⟨-, -, rfl⟩ := callService_next hnext
    exact ⟨_, rfl, h.keeps_head ctx apt hdone⟩

/-- A rejected request is answered, unless the connection is gone. -/
theorem serve_answers {h : Handler} {ctx : Context} {apt : TcpRead} (htracks : Tracks c.exchange ctx)
    (hrej : c.exchange.rejected = true) (hnext : serve h.service ctx apt = .next s) :
    answered s = true ∧
      (Answered (Exchange.serve c.exchange h.service ctx apt) ∨ s.apt.disconnected = true) := by
  obtain ⟨hserved, hanswers, hstatus, err, herr, hcode⟩ := htracks.rejected hrej
  rw [serve, herr] at hnext
  obtain ⟨-, version, -, hdisc, hctx⟩ := replyError_next hnext
  refine ⟨by simp [answered, hctx, hstatus], ?_⟩
  cases hconn : apt.disconnected with
  | true => exact Or.inr (by simp [hdisc, hconn])
  | false =>
      refine Or.inl fun _ => ?_
      simp only [Exchange.serve, herr, hstatus, hconn, and_self, if_true, hanswers]
      exact ⟨hserved, err.code, rfl, hcode⟩

/-- **The second half of a round keeps the connection decent exactly when it is tame.** -/
theorem serveHalf_decent {h : Handler} {ctx : Context} {apt : TcpRead} (hinv : Inv c)
    (hdec : Decent c) (hact : c.activity = .serving ctx apt) :
    (ServeTame h.service ctx apt → Inv (c.serveHalf h ctx apt)) ∧
      (Decent (c.serveHalf h ctx apt) ↔ ServeTame h.service ctx apt) := by
  simp only [Inv, hact] at hinv
  obtain ⟨⟨u, hreads⟩, hdone, htracks⟩ := hinv
  rw [← serveRaises_iff, serveHalf]
  cases hraises : serveRaises h.service ctx apt with
  | true =>
      simp only [if_true, Bool.true_eq_false, false_imp_iff, true_and, iff_false]
      exact fun hd => hd.2
  | false =>
      simp only [Bool.false_eq_true, if_false, true_imp_iff, iff_true]
      cases hserve : serve h.service ctx apt with
      | parked s => exact absurd hserve (serve_not_parked _ _ _ s)
      | ended => exact ⟨trivial, hdec.1, trivial⟩
      | next s =>
          obtain ⟨hrep, ctx', hctx, hdone'⟩ := serve_running hreads hdone hserve
          cases hrej : c.exchange.rejected with
          | true =>
              obtain ⟨hans, hfate⟩ := serve_answers htracks hrej hserve
              refine ⟨⟨hrep, fun hopen => ?_⟩, hdec.1, ?_⟩
              · rw [hans] at hopen
                cases hopen
              · simp only [hans, if_true]
                exact hfate
          | false =>
              refine ⟨⟨hrep, fun hopen => ?_⟩, decent_of_not_rejected hdec.1 (by simp [hrej]) (by simp)⟩
              have hpending : ctx'.replyStatus ≠ some .completed := by
                simpa [answered, hctx] using hopen
              simp only [hctx, renew, if_neg hpending]
              exact tracks_complete (by simp [hrej]) hdone'

end Steps

/-! ## Runs -/

/-- A chunk that arrives. -/
theorem represents_fed {apt : TcpRead} (h : ∃ t, Represents apt.readstream t) (chunk : List UInt8) :
    ∃ u, Reads (apt.fed chunk).readstream u := by
  obtain ⟨t, hrep⟩ := h
  obtain ⟨t', hrep', hread, -⟩ := feedStream_represents hrep chunk
  exact ⟨_, _, t', hrep', hread, rfl, rfl⟩

/-- **A step keeps a connection decent exactly when it is tame.** -/
theorem step_decent (c : Acceptor) (e : Event) (c' : Acceptor) (hinv : Inv c) (hdec : Decent c)
    (hstep : step c e = some c') : (Tame c e → Inv c') ∧ (Decent c' ↔ Tame c e) := by
  obtain ⟨act, ex, past⟩ := c
  cases e with
  | go h =>
      cases act with
      | running s =>
          cases hstep
          exact headHalf_decent hinv hdec rfl
      | serving ctx apt =>
          cases hstep
          exact serveHalf_decent hinv hdec rfl
      | spinning =>
          cases hstep
          exact ⟨fun _ => hinv, iff_of_true hdec trivial⟩
      | waiting s => cases hstep
      | left => cases hstep
      | raised => cases hstep
  | arrive chunk =>
      cases act with
      | waiting s =>
          cases hstep
          obtain ⟨hrep, hans, htracks⟩ := hinv
          obtain ⟨u, hreads⟩ := represents_fed hrep chunk
          by_cases hwakes : (s.apt.fed chunk).wakes = true
          · have hans' : answered { s with apt := (s.apt.fed chunk).resumed } = false := hans
            simp only [hwakes, if_true]
            refine ⟨fun _ => ⟨Reads.represents hreads, fun _ => htracks⟩, iff_of_true ⟨hdec.1, ?_⟩ trivial⟩
            simp only [hans', Bool.false_eq_true, if_false]
            exact htracks.pending
          · simp only [hwakes]
            exact ⟨fun _ => ⟨Reads.represents hreads, hans, htracks⟩,
              iff_of_true ⟨hdec.1, htracks.pending⟩ trivial⟩
      | serving ctx apt =>
          cases hstep
          obtain ⟨⟨u, hreads⟩, hdone, htracks⟩ := hinv
          exact ⟨fun _ => ⟨represents_fed (Reads.represents hreads) chunk, hdone, htracks⟩,
            iff_of_true hdec trivial⟩
      | running s => cases hstep
      | spinning => cases hstep
      | left => cases hstep
      | raised => cases hstep
  | hangup =>
      cases act with
      | waiting s =>
          cases hstep
          exact ⟨fun _ => trivial, iff_of_true ⟨hdec.1, trivial⟩ trivial⟩
      | serving ctx apt =>
          cases hstep
          exact ⟨fun _ => hinv, iff_of_true hdec trivial⟩
      | running s => cases hstep
      | spinning => cases hstep
      | left => cases hstep
      | raised => cases hstep

theorem inv_new : Inv new :=
  ⟨⟨_, new_represents []⟩, fun _ => tracks_new⟩

theorem decent_new : Decent new := by
  refine ⟨fun e he => absurd he List.not_mem_nil, ?_⟩
  exact tracks_new.pending

end Acceptor

open Acceptor

/-- **Malformed requests are answered.**  In every run of a connection no error is raised and
every rejected request is answered with exactly one error, or its connection closed, exactly
when every step of the run is tame. -/
theorem malformed_requests_answered (es : List Event) (c : Acceptor)
    (hrun : run step Acceptor.new es = some c) :
    Always step Decent Acceptor.new es ↔ Meets step Tame Acceptor.new es :=
  always_iff step_decent inv_new decent_new hrun

/-- A service that does nothing. -/
def idle : Handler := ⟨fun ctx _ => ⟨false, ctx, [], false⟩, fun _ _ h => h⟩

/-- A request without a `Host` header is answered with a 400. -/
theorem malformed_requests_answered_host :
    ∃ c, run step Acceptor.new [.go idle, .arrive (bytesOf "GET / HTTP/1.1\r\n\r\n"), .go idle, .go idle,
        .go idle] = some c ∧ c.past = [⟨true, [400], 0⟩] ∧
      (Always step Decent Acceptor.new [.go idle, .arrive (bytesOf "GET / HTTP/1.1\r\n\r\n"), .go idle,
          .go idle, .go idle] ↔
        Meets step Tame Acceptor.new [.go idle, .arrive (bytesOf "GET / HTTP/1.1\r\n\r\n"), .go idle,
          .go idle, .go idle]) := by
  have hpast : ((run step Acceptor.new [.go idle, .arrive (bytesOf "GET / HTTP/1.1\r\n\r\n"), .go idle,
      .go idle, .go idle]).map Acceptor.past) = some [⟨true, [400], 0⟩] := by
    decide +kernel
  obtain ⟨c, hrun, hc⟩ := Option.map_eq_some_iff.mp hpast
  exact ⟨c, hrun, hc, malformed_requests_answered _ c hrun⟩

/-- Has the coroutine ended with an error? -/
def Activity.isRaised : Activity → Bool
  | raised => true
  | _ => false

/-- A line that is no request line ends the coroutine with an error. -/
theorem bad_request_line_raises :
    ∃ c, run step Acceptor.new [.go idle, .arrive (bytesOf "BAD\r\n"), .go idle] = some c ∧
      c.activity = .raised ∧ c.exchange.answers = [] ∧
      ¬Always step Decent Acceptor.new [.go idle, .arrive (bytesOf "BAD\r\n"), .go idle] := by
  have hend : ((run step Acceptor.new [.go idle, .arrive (bytesOf "BAD\r\n"), .go idle]).map
      fun c => (c.activity.isRaised, c.exchange.answers)) = some (true, []) := by
    decide +kernel
  obtain ⟨c, hrun, hc⟩ := Option.map_eq_some_iff.mp hend
  obtain ⟨hraised, hanswers⟩ := Prod.mk.inj hc
  have hact : c.activity = .raised := by
    cases hact : c.activity with
    | raised => rfl
    | _ =>
        rw [hact] at hraised
        cases hraised
  refine ⟨c, hrun, hact, hanswers, ?_⟩
  intro h
  have hdecent := (h.last hrun).2
  rw [hact] at hdecent
  exact hdecent

end LuaFan
