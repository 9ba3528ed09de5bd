/-
# The request loop (`modules/fan/httpd/httpd.lua`, `onaccept`)

`iterate` is one round of the loop of `onaccept`: the first half reads the head,
and with a complete head a protocol error is answered or the service is called.
The service is a parameter; it may read from the stream, write any field of the
context, close the connection or raise an error.

The loop is meant to wait whenever it cannot go on.  `request_loop_progress` says
when a round makes progress: **exactly when the state is not stuck**, that is not
in the middle of a line with no line end buffered, and not at a complete head with
bytes behind it that neither the error branch nor the service does anything about.
Without stuck states the loop stops after a number of rounds that the buffered
bytes bound.
-/
import LuaFan.Httpd.Accept
import LuaFan.Lua.Value

namespace LuaFan

open Fp

/-! ## Keep-alive and replies -/

/-- `tonumber(self.version)`. -/
def versionNumber (ctx : Context) : Option LuaNumber := ctx.version.bind str2num

/-- The constant 1.1. -/
def onePointOne : Value := (ofRatio false 11 10).value

/-- The two versions that are accepted, compared with 1.1. -/
theorem versionNumber_oneOne {ctx : Context} (h : ctx.version = some (bytesOf "1.1")) :
    ∃ version, versionNumber ctx = some version ∧ Value.le onePointOne version.value = true ∧
      Value.lt version.value onePointOne = false := by
  have hnum : ((str2num (bytesOf "1.1")).map fun v =>
      (Value.le onePointOne v.value, Value.lt v.value onePointOne)) = some (true, false) := by
    decide +kernel
  obtain ⟨version, hversion, hcompare⟩ := Option.map_eq_some_iff.mp hnum
  exact ⟨version, by rw [versionNumber, h]; exact hversion, Prod.mk.inj hcompare⟩

/-- `context_mt:should_keep_alive`, none if it raises an error: without a version
there is nothing to compare, and the list of a repeated header has no method
`lower`. -/
def shouldKeepAlive (ctx : Context) : Option Bool :=
  match versionNumber ctx with
  | none => none
  | some version =>
      let atLeast := Value.le onePointOne version.value
      match getHeader ctx.headers (bytesOf "connection") with
      | none => some atLeast
      | some (.many _) => none
      | some (.single connection) =>
          let connection := connection.map toLower
          some (if atLeast then decide (connection ≠ bytesOf "close")
            else decide (connection = bytesOf "keep-alive"))

/-- The match of `"^(0|[1-9][0-9]*)$"`. -/
def matchContentLength (text : List UInt8) : Option (List UInt8) :=
  match text.drop 2 with
  | b :: digits =>
      if text.take 2 = bytesOf "0|" && isDigit b && b != ascii '0' && digits.all isDigit then some text
      else none
  | [] => none

/-- Does `context_index_content_length` raise an error?  Its pattern has no
alternation, so that it matches `0|` and digits, which are no number; every other
text is recorded as an error and counts as 0. -/
def contentLengthRaises (ctx : Context) : Bool :=
  match getHeader ctx.headers (bytesOf "content-length") with
  | some (.single text) => (matchContentLength text).isSome
  | _ => false

/-- Does `context_mt:reply` raise an error?  A body is compressed if the client
accepts that, and a list has no method `find`. -/
def replyRaises (ctx : Context) (body : String) : Bool :=
  contentLengthRaises ctx
    || (body ≠ "" && match getHeader ctx.headers (bytesOf "accept-encoding") with
        | some (.many _) => true
        | _ => false)
    || shouldKeepAlive ctx = none

/-! ## A round of the loop -/

/-- What a call of the service comes to: did it raise an error, the context and
the read methods it called on the stream, and did it close the connection. -/
structure ServiceResult where
  raised : Bool
  ctx : Context
  calls : List { op : StreamOp // op.isRead = true }
  disconnected : Bool

/-- The service of a server. -/
abbrev Service := Context → TcpRead → ServiceResult

/-- The connector after a call of the service. -/
def ServiceResult.apt (r : ServiceResult) (apt : TcpRead) : TcpRead :=
  { apt with
    readstream := (streamRun apt.readstream (r.calls.map Subtype.val)).1
    disconnected := apt.disconnected || r.disconnected }

/-- How a round ends: parked in `receive`, with the loop left (by `break`, by
`return` or by an error), or at the end of the loop body. -/
inductive Round where
  | parked (s : Accept)
  | ended
  | next (s : Accept)

/-- The branch for a protocol error. -/
def replyError (ctx : Context) (apt : TcpRead) (err : HttpError) : Round :=
  if ctx.replyStatus = none ∧ replyRaises ctx (err.details.getD "") = true then .ended
  else
    let ctx := if ctx.replyStatus = none then { ctx with replyStatus := some .completed } else ctx
    match versionNumber ctx with
    | none => .ended
    | some version =>
        .next ⟨some { ctx with httpError := none },
          { apt with disconnected := apt.disconnected || Value.lt version.value onePointOne }⟩

/-- The branch that calls the service.  An error is answered, and then the
connection is closed. -/
def callService (service : Service) (ctx : Context) (apt : TcpRead) : Round :=
  let r := service ctx apt
  if r.raised then .ended
  else
    match shouldKeepAlive r.ctx with
    | none => .ended
    | some false => .ended
    | some true => .next ⟨some r.ctx, r.apt apt⟩

/-- The second half of the loop body, with a complete head. -/
def serve (service : Service) (ctx : Context) (apt : TcpRead) : Round :=
  match ctx.httpError with
  | some err => replyError ctx apt err
  | none => callService service ctx apt

/-- The loop body of `onaccept`. -/
def iterate (service : Service) (s : Accept) : Round :=
  match headPhase s with
  | .closed => .ended
  | .raised _ _ => .ended
  | .parked ctx apt => .parked ⟨some ctx, apt⟩
  | .ready ctx apt =>
      if ctx.headerComplete then serve service ctx apt
      else .next ⟨some ctx, apt⟩

/-- The loop after `n` rounds in which nothing arrives, with the service of each
round. -/
def rounds (services : ℕ → Service) (s : Accept) : ℕ → Round
  | 0 => .next s
  | n + 1 =>
      match rounds services s n with
      | .next s => iterate (services n) s
      | r => r

/-! ## Progress -/

/-- The number of buffered bytes. -/
def Accept.available (s : Accept) : ℕ := bytearrayReadAvailable s.apt.readstream

/-- A round consumes a byte, completes the head or the reply, ends the connection,
or waits for more bytes than there are. -/
def Progress (service : Service) (s : Accept) : Prop :=
  match iterate service s with
  | .ended => True
  | .parked s' => s'.available < s'.apt.receivingExpect
  | .next s' => s'.available < s.available ∨
      ((renew s.context).headerComplete = false ∧
        ∃ ctx, s'.context = some ctx ∧ ctx.headerComplete = true) ∨
      ((renew s.context).replyStatus ≠ some .completed ∧
        ∃ ctx, s'.context = some ctx ∧ ctx.replyStatus = some .completed) ∨
      s'.apt.disconnected = true

/-- A call of the service that changes nothing the loop would wait for. -/
def Idle (r : ServiceResult) (apt : TcpRead) : Prop :=
  r.raised = false ∧ shouldKeepAlive r.ctx = some true ∧ r.ctx.replyStatus ≠ some .completed ∧
    r.disconnected = false ∧
    bytearrayReadAvailable (r.apt apt).readstream = bytearrayReadAvailable apt.readstream

/-- The states in which a round does nothing although there are bytes: they hold no
line end and the head is open; or the head is complete, and it has an error that
cannot be answered because a reply was begun, or its service is idle. -/
def Stuck (service : Service) (s : Accept) : Prop :=
  s.apt.disconnected = false ∧ 0 < s.available ∧
    if (renew s.context).headerComplete then
      match (renew s.context).httpError with
      | some _ => (renew s.context).replyStatus ≠ none ∧
          ∃ version, versionNumber (renew s.context) = some version ∧
            Value.lt version.value onePointOne = false
      | none => Idle (service (renew s.context) s.apt) s.apt
    else hasLineEnd (unreadOf s.apt.readstream) = false

/-- A connection of the server: its stream is being read, or holds nothing. -/
structure Connection extends Accept where
  buffered : (∃ u, Reads apt.readstream u) ∨ bytearrayReadAvailable apt.readstream = 0

/-! ## What a round does -/

/-- Read methods leave a stream that is being read with no more bytes. -/
theorem streamRun_reads (calls : List { op : StreamOp // op.isRead = true }) :
    ∀ {ba : Bytearray} {u : List UInt8}, Reads ba u →
      ∃ v, Reads (streamRun ba (calls.map Subtype.val)).1 v ∧ v.length ≤ u.length := by
  induction calls with
  | nil =>
      intro ba u h
      exact ⟨u, h, le_rfl⟩
  | cons op calls ih =>
      intro ba u h
      obtain ⟨back, t, hrep, hread, rfl, -⟩ := h
      obtain ⟨-, hstep⟩ := streamStep_tapeStep_read hrep op.2 hread
      have hle := (streamStep_read hrep hread op.2).2.2
      have hread' := hstep.reading_eq.trans (hrep.reading_eq ▸ hread)
      have hunread := t.unread_advance (hrep.reading_eq ▸ hread) hle
      obtain ⟨v, hv, hlen⟩ := ih ⟨_, _, hstep, hread', rfl, rfl⟩
      refine ⟨v, hv, hlen.trans ?_⟩
      rw [hunread, List.length_drop]
      omega

theorem renew_not_completed (ctx : Option Context) :
    (renew ctx).replyStatus ≠ some .completed := by
  cases ctx with
  | none => simp [renew, Context.new]
  | some ctx =>
      rw [renew]
      split
      · simp [Context.new]
      · assumption

section Phases

variable {s : Accept} {u : List UInt8}

theorem headPhase_disconnected (h : s.apt.disconnected = true) : headPhase s = .closed := by
  simp [headPhase, TcpRead.receive, h]

theorem headPhase_empty (hconn : s.apt.disconnected = false) (h : s.available = 0) :
    headPhase s = .parked (renew s.context)
      { s.apt with receivingExpect := 1, receiving := true } := by
  simp only [headPhase]
  rw [receive_parked s.apt 1 hconn (by rw [Accept.available] at h; omega)]

theorem headPhase_complete (hconn : s.apt.disconnected = false) (h : 0 < s.available)
    (hdone : (renew s.context).headerComplete = true) :
    headPhase s = .ready (renew s.context) s.apt := by
  simp only [headPhase]
  rw [receive_input s.apt 1 hconn h]
  simp only [hdone, if_true]

/-- With an open head the first half of a round reads lines. -/
theorem headPhase_open (hconn : s.apt.disconnected = false) (hreads : Reads s.apt.readstream u)
    (hne : u ≠ []) (hopen : (renew s.context).headerComplete = false) :
    ∃ input, Reads input (readLines (renew s.context) u).2.2 ∧
      headPhase s = if (readLines (renew s.context) u).1 then
          .ready (readLines (renew s.context) u).2.1 { s.apt with readstream := input }
        else .raised (readLines (renew s.context) u).2.1 { s.apt with readstream := input } := by
  have hpos : 1 ≤ bytearrayReadAvailable s.apt.readstream := by
    rw [hreads.available_eq]
    exact List.length_pos_of_ne_nil hne
  obtain ⟨hstatus, hctx, hleft⟩ := readheader_reads (renew s.context) hreads
  refine ⟨_, hleft, ?_⟩
  simp only [headPhase]
  rw [receive_input s.apt 1 hconn hpos]
  simp only [hopen, Bool.false_eq_true, if_false, hstatus, hctx]

end Phases

/-- The state a round hands to the next one. -/
theorem replyError_next {ctx : Context} {apt : TcpRead} {err : HttpError} {s' : Accept}
    (h : replyError ctx apt err = .next s') :
    s'.apt.readstream = apt.readstream ∧ ∃ version, versionNumber ctx = some version ∧
      s'.apt.disconnected = (apt.disconnected || Value.lt version.value onePointOne) ∧
      s'.context = some { ctx with
        replyStatus := if ctx.replyStatus = none then some .completed else ctx.replyStatus
        httpError := none } := by
  rw [replyError] at h
  split at h
  · cases h
  · simp only at h
    by_cases hnone : ctx.replyStatus = none
    · simp only [hnone, if_true, versionNumber] at h
      cases hversion : ctx.version.bind str2num with
      | none =>
          rw [hversion] at h
          cases h
      | some version =>
          rw [hversion] at h
          cases h
          refine ⟨rfl, version, hversion, rfl, ?_⟩
          simp [hnone]
    · simp only [hnone, if_false, versionNumber] at h
      cases hversion : ctx.version.bind str2num with
      | none =>
          rw [hversion] at h
          cases h
      | some version =>
          rw [hversion] at h
          cases h
          refine ⟨rfl, version, hversion, rfl, ?_⟩
          simp [hnone]

theorem callService_next {service : Service} {ctx : Context} {apt : TcpRead} {s' : Accept}
    (h : callService service ctx apt = .next s') :
    (service ctx apt).raised = false ∧ shouldKeepAlive (service ctx apt).ctx = some true ∧
      s' = ⟨some (service ctx apt).ctx, (service ctx apt).apt apt⟩ := by
  simp only [callService] at h
  split at h
  · cases h
  · rename_i hraised
    split at h
    · cases h
    · cases h
    · rename_i halive
      cases h
      exact ⟨by simpa using hraised, halive, rfl⟩

/-- The second half of a round never parks. -/
theorem serve_not_parked (service : Service) (ctx : Context) (apt : TcpRead) (s' : Accept) :
    serve service ctx apt ≠ .parked s' := by
  intro h
  rw [serve] at h
  split at h
  · rw [replyError] at h
    split at h
    · cases h
    · simp only at h
      split at h <;> cases h
  · simp only [callService] at h
    split at h
    · cases h
    · split at h <;> cases h

/-- **What the second half of a round leaves.**  No byte comes back, and the stream
stays in use. -/
theorem serve_next {service : Service} {ctx : Context} {apt : TcpRead} {u : List UInt8}
    {s' : Accept} (hreads : Reads apt.readstream u) (h : serve service ctx apt = .next s') :
    ∃ v, Reads s'.apt.readstream v ∧ v.length ≤ u.length := by
  rw [serve] at h
  split at h
  · exact ⟨u, (replyError_next h).1.symm ▸ hreads, le_rfl⟩
  · obtain ⟨-, -, rfl⟩ := callService_next h
    exact streamRun_reads _ hreads

section Rounds

variable (service : Service) {s : Accept} {u : List UInt8}

theorem iterate_complete (hconn : s.apt.disconnected = false) (h : 0 < s.available)
    (hdone : (renew s.context).headerComplete = true) :
    iterate service s = serve service (renew s.context) s.apt := by
  simp only [iterate, headPhase_complete hconn h hdone, hdone, if_true]

/-- With no line end buffered, a round leaves the state as it was. -/
theorem iterate_partial (hconn : s.apt.disconnected = false) (hreads : Reads s.apt.readstream u)
    (hne : u ≠ []) (hopen : (renew s.context).headerComplete = false)
    (hnone : splitLine u = none) :
    ∃ input, Reads input u ∧
      iterate service s = .next ⟨some (renew s.context), { s.apt with readstream := input }⟩ := by
  obtain ⟨input, hinput, hphase⟩ := headPhase_open hconn hreads hne hopen
  rw [readLines_none hopen hnone] at hinput hphase
  simp only [if_true] at hphase
  refine ⟨input, hinput, ?_⟩
  simp only [iterate, hphase, hopen, Bool.false_eq_true, if_false]

/-- With a line buffered, a round takes it. -/
theorem iterate_line (hconn : s.apt.disconnected = false) (hreads : Reads s.apt.readstream u)
    (hopen : (renew s.context).headerComplete = false) (hline : splitLine u ≠ none) :
    iterate service s = .ended ∨
      ∃ s' v, iterate service s = .next s' ∧ Reads s'.apt.readstream v ∧ v.length < u.length := by
  have hne : u ≠ [] := by
    rintro rfl
    exact hline rfl
  obtain ⟨input, hinput, hphase⟩ := headPhase_open hconn hreads hne hopen
  have hshort := (parseHead_readLines (renew s.context) u hopen).2 hline
  cases hstatus : (readLines (renew s.context) u).1 with
  | false =>
      rw [hstatus] at hphase
      left
      simp only [iterate, hphase, Bool.false_eq_true, if_false]
  | true =>
      simp only [hstatus, if_true] at hphase
      simp only [iterate, hphase]
      by_cases hdone : (readLines (renew s.context) u).2.1.headerComplete = true
      · rw [if_pos hdone]
        cases hserve : serve service (readLines (renew s.context) u).2.1
            { s.apt with readstream := input } with
        | ended => exact Or.inl rfl
        | parked s' => exact absurd hserve (serve_not_parked _ _ _ s')
        | next s' =>
            obtain ⟨v, hv, hle⟩ := serve_next hinput hserve
            exact Or.inr ⟨s', v, rfl, hv, by omega⟩
      · rw [if_neg hdone]
        exact Or.inr ⟨_, _, rfl, hinput, hshort⟩

end Rounds

/-! ## Progress and stuck states -/

theorem progress_next_iff {service : Service} {s s' : Accept} (h : iterate service s = .next s') :
    Progress service s ↔ s'.available < s.available ∨
      ((renew s.context).headerComplete = false ∧
        ∃ ctx, s'.context = some ctx ∧ ctx.headerComplete = true) ∨
      (∃ ctx, s'.context = some ctx ∧ ctx.replyStatus = some .completed) ∨
      s'.apt.disconnected = true := by
  simp [Progress, h, renew_not_completed]

/-- The branch for a protocol error makes progress unless a reply was begun and
the connection is kept. -/
theorem progress_error_iff {service : Service} {s : Accept} {err : HttpError}
    (hconn : s.apt.disconnected = false) (hpos : 0 < s.available)
    (hdone : (renew s.context).headerComplete = true)
    (herr : (renew s.context).httpError = some err) :
    Progress service s ↔ ¬((renew s.context).replyStatus ≠ none ∧
      ∃ version, versionNumber (renew s.context) = some version ∧
        Value.lt version.value onePointOne = false) := by
  have hround : iterate service s = replyError (renew s.context) s.apt err := by
    rw [iterate_complete service hconn hpos hdone, serve, herr]
  cases hnext : replyError (renew s.context) s.apt err with
  | parked s' =>
      have hnot := serve_not_parked service (renew s.context) s.apt s'
      rw [serve, herr] at hnot
      exact absurd hnext hnot
  | ended =>
      -- the loop is left: the reply raised an error, or there is no version
      simp only [Progress, hround, hnext, true_iff]
      rintro ⟨hbegun, version, hversion, -⟩
      rw [replyError, if_neg (by simp [hbegun])] at hnext
      simp only [hbegun, if_false, hversion] at hnext
      cases hnext
  | next s' =>
      rw [hnext] at hround
      obtain ⟨hstream, version, hversion, hclosed, hctx⟩ := replyError_next hnext
      have hsame : s'.available = s.available := by
        rw [Accept.available, hstream, Accept.available]
      rw [progress_next_iff hround, hsame, hdone, hctx, hclosed, hconn]
      by_cases hnone : (renew s.context).replyStatus = none
      · simp [hnone]
      · have hcompleted := renew_not_completed s.context
        simp [hnone, hcompleted, hversion]

/-- The branch that calls the service makes progress unless the service is idle. -/
theorem progress_service_iff {service : Service} {s : Accept} {u : List UInt8}
    (hconn : s.apt.disconnected = false) (hpos : 0 < s.available)
    (hreads : Reads s.apt.readstream u) (hdone : (renew s.context).headerComplete = true)
    (herr : (renew s.context).httpError = none) :
    Progress service s ↔ ¬ Idle (service (renew s.context) s.apt) s.apt := by
  have hround : iterate service s = callService service (renew s.context) s.apt := by
    rw [iterate_complete service hconn hpos hdone, serve, herr]
  cases hnext : callService service (renew s.context) s.apt with
  | parked s' =>
      have hnot := serve_not_parked service (renew s.context) s.apt s'
      rw [serve, herr] at hnot
      exact absurd hnext hnot
  | ended =>
      simp only [Progress, hround, hnext, true_iff]
      rintro ⟨hraised, halive, -, -, -⟩
      simp only [callService, hraised, halive, Bool.false_eq_true, if_false] at hnext
      cases hnext
  | next s' =>
      rw [hnext] at hround
      obtain ⟨hraised, halive, rfl⟩ := callService_next hnext
      have hle : bytearrayReadAvailable
          ((service (renew s.context) s.apt).apt s.apt).readstream
            ≤ bytearrayReadAvailable s.apt.readstream := by
        obtain ⟨v, hv, hlen⟩ := streamRun_reads (service (renew s.context) s.apt).calls hreads
        rw [hreads.available_eq]
        exact hv.available_eq.trans_le hlen
      have hclosed : ((service (renew s.context) s.apt).apt s.apt).disconnected
          = (service (renew s.context) s.apt).disconnected := by
        simp [ServiceResult.apt, hconn]
      rw [progress_next_iff hround]
      simp only [Idle, hraised, halive, hdone, hclosed, Accept.available, true_and,
        Bool.true_eq_false, false_and, false_or, Option.some.injEq, exists_eq_left']
      constructor
      · rintro (hlt | hreply | hdisc) ⟨hpending, hopen, hsame⟩
        · omega
        · exact hpending hreply
        · rw [hopen] at hdisc
          cases hdisc
      · intro hnot
        by_contra hno
        push Not at hno
        exact hnot ⟨hno.2.1, by simpa using hno.2.2, by omega⟩

/-- **A round makes progress exactly when the state is not stuck.** -/
theorem progress_iff_not_stuck (service : Service) (c : Connection) :
    Progress service c.toAccept ↔ ¬ Stuck service c.toAccept := by
  cases hconn : c.apt.disconnected with
  | true => simp [Progress, Stuck, iterate, headPhase_disconnected hconn, hconn]
  | false =>
      rcases Nat.eq_zero_or_pos c.toAccept.available with hzero | hpos
      · -- nothing buffered: the round parks in `receive`
        have havail : bytearrayReadAvailable c.apt.readstream = 0 := hzero
        simp [Progress, Stuck, iterate, headPhase_empty hconn hzero, Accept.available, havail]
      · obtain ⟨u, hreads⟩ : ∃ u, Reads c.apt.readstream u := by
          rcases c.buffered with h | h
          · exact h
          · rw [Accept.available] at hpos
            omega
        have hlen : c.toAccept.available = u.length := hreads.available_eq
        have hne : u ≠ [] := List.ne_nil_of_length_pos (hlen ▸ hpos)
        simp only [Stuck, hconn, hpos, true_and]
        cases hdone : (renew c.context).headerComplete with
        | true =>
            simp only [if_true]
            cases herr : (renew c.context).httpError with
            | some err => exact progress_error_iff hconn hpos hdone herr
            | none => exact progress_service_iff hconn hpos hreads hdone herr
        | false =>
            simp only [Bool.false_eq_true, if_false, hreads.unreadOf_eq, ← splitLine_eq_none_iff]
            by_cases hnone : splitLine u = none
            · obtain ⟨input, hinput, hround⟩ :=
                iterate_partial service hconn hreads hne hdone hnone
              have hpending := renew_not_completed c.context
              rw [progress_next_iff hround]
              simp [Accept.available, hinput.available_eq, hreads.available_eq, hdone, hpending,
                hconn, hnone]
            · simp only [hnone, not_false_eq_true, iff_true]
              rcases iterate_line service hconn hreads hdone hnone with
                hround | ⟨s', v, hround, hv, hlt⟩
              · simp [Progress, hround]
              · rw [progress_next_iff hround, hlen, Accept.available, hv.available_eq]
                exact Or.inl hlt

/-! ## Runs -/

/-- What bounds the rounds to come: every byte may be part of a head and of a
body, and a complete head is answered once. -/
def Accept.budget (s : Accept) : ℕ :=
  if s.apt.disconnected then 0
  else 2 * s.available + (if (renew s.context).headerComplete then 1 else 0) + 1

theorem renew_completed {ctx : Context} (h : ctx.replyStatus = some .completed) :
    renew (some ctx) = Context.new := by
  rw [renew, if_pos h]

/-- **A round that is not stuck leaves a connection with a smaller budget.** -/
theorem iterate_next {service : Service} {c : Connection} {s' : Accept}
    (hround : iterate service c.toAccept = .next s') (hfree : ¬ Stuck service c.toAccept) :
    (∃ v, Reads s'.apt.readstream v) ∧ s'.budget < c.toAccept.budget := by
  have hprogress := (progress_iff_not_stuck service c).mpr hfree
  rw [progress_next_iff hround] at hprogress
  have hconn : c.apt.disconnected = false := by
    cases hd : c.apt.disconnected with
    | false => rfl
    | true =>
        rw [iterate, headPhase_disconnected hd] at hround
        cases hround
  have hpos : 0 < c.toAccept.available := by
    apply Nat.pos_of_ne_zero
    intro hzero
    rw [iterate, headPhase_empty hconn hzero] at hround
    cases hround
  obtain ⟨u, hreads⟩ : ∃ u, Reads c.apt.readstream u := by
    rcases c.buffered with h | h
    · exact h
    · rw [Accept.available] at hpos
      omega
  have hlen : c.toAccept.available = u.length := hreads.available_eq
  have hbudget : c.toAccept.budget
      = 2 * c.toAccept.available + (if (renew c.context).headerComplete then 1 else 0) + 1 := by
    rw [Accept.budget, if_neg (by simp [hconn])]
  have hsmall : s'.available < c.toAccept.available → s'.budget < c.toAccept.budget := by
    intro hlt
    rw [hbudget, Accept.budget]
    split_ifs <;> omega
  cases hdone : (renew c.context).headerComplete with
  | false =>
      -- an open head: a line was taken
      have hline : splitLine u ≠ none := by
        intro hnone
        apply hfree
        simp only [Stuck, hconn, hpos, hdone, Bool.false_eq_true, if_false, true_and]
        rwa [hreads.unreadOf_eq, ← splitLine_eq_none_iff]
      rcases iterate_line service hconn hreads hdone hline with
        hended | ⟨s'', v, hnext, hv, hlt⟩
      · rw [hround] at hended
        cases hended
      · rw [hround] at hnext
        cases hnext
        refine ⟨⟨v, hv⟩, hsmall ?_⟩
        rw [hlen, Accept.available, hv.available_eq]
        exact hlt
  | true =>
      have hserve := hround
      rw [iterate_complete service hconn hpos hdone] at hserve
      obtain ⟨v, hv, hle⟩ := serve_next hreads hserve
      have havail : s'.available = v.length := hv.available_eq
      refine ⟨⟨v, hv⟩, ?_⟩
      rcases hprogress with hlt | ⟨hopen, -⟩ | ⟨ctx, hctx, hreply⟩ | hclosed
      · exact hsmall hlt
      · rw [hdone] at hopen
        cases hopen
      · -- the reply is complete: the next round has a new context
        have hnew : (renew s'.context).headerComplete = false := by
          rw [hctx, renew_completed hreply]
          rfl
        rw [hbudget, Accept.budget, hdone, hnew]
        simp only [if_true, Bool.false_eq_true, if_false]
        split_ifs <;> omega
      · rw [hbudget, Accept.budget, if_pos hclosed]
        omega

/-- A run that meets no stuck state has left its loop, or waits, when the budget is
used up. -/
theorem rounds_budget (services : ℕ → Service) (c : Connection)
    (hfree : ∀ n s, rounds services c.toAccept n = .next s → ¬ Stuck (services n) s) (n : ℕ) :
    ∀ s, rounds services c.toAccept n = .next s →
      ((∃ u, Reads s.apt.readstream u) ∨ bytearrayReadAvailable s.apt.readstream = 0) ∧
        s.budget + n ≤ c.toAccept.budget := by
  induction n with
  | zero =>
      intro s hs
      cases hs
      exact ⟨c.buffered, le_rfl⟩
  | succ n ih =>
      intro s hs
      rw [rounds] at hs
      cases hprev : rounds services c.toAccept n with
      | parked s₀ =>
          rw [hprev] at hs
          cases hs
      | ended =>
          rw [hprev] at hs
          cases hs
      | next s₀ =>
          rw [hprev] at hs
          obtain ⟨hbuffered, hle⟩ := ih s₀ hprev
          obtain ⟨hreads, hlt⟩ :=
            iterate_next (c := ⟨s₀, hbuffered⟩) hs (hfree n s₀ hprev)
          exact ⟨Or.inl hreads, by simp only at hlt; omega⟩

/-- **The request loop makes progress in every round unless it is stuck**, and a run
that meets no stuck state stops: after a number of rounds that the buffered bytes
bound it waits for more, or is left. -/
theorem request_loop_progress (service : Service) (services : ℕ → Service) (c : Connection) :
    (Progress service c.toAccept ↔ ¬ Stuck service c.toAccept) ∧
      ((∀ n s, rounds services c.toAccept n = .next s → ¬ Stuck (services n) s) →
        ∃ n ≤ 2 * c.toAccept.available + 3, ∀ s, rounds services c.toAccept n ≠ .next s) := by
  refine ⟨progress_iff_not_stuck service c, ?_⟩
  intro hfree
  refine ⟨_, le_rfl, ?_⟩
  intro s hs
  obtain ⟨-, hle⟩ := rounds_budget services c hfree _ s hs
  have hbound : c.toAccept.budget ≤ 2 * c.toAccept.available + 2 := by
    rw [Accept.budget]
    split_ifs <;> omega
  omega

/-- A connection on which a whole request has arrived. -/
def wholeRequest : Connection where
  context := none
  apt := TcpRead.new.fed (bytesOf "GET / HTTP/1.1\r\n\r\n")
  buffered := by
    obtain ⟨t, hrep, hread, -⟩ :=
      feedStream_represents (new_represents []) (bytesOf "GET / HTTP/1.1\r\n\r\n")
    exact Or.inl ⟨_, _, t, hrep, hread, rfl, rfl⟩

/-- A service that replies. -/
def answering : Service := fun ctx _ => ⟨false, { ctx with replyStatus := some .completed }, [], false⟩

/-- The bytes that are left where the loop goes on. -/
def Round.left : Round → Option ℕ
  | .next s => some s.available
  | _ => none

theorem left_answered (n : ℕ) : (rounds (fun _ => answering) wholeRequest.toAccept (n + 2)).left = none := by
  induction n with
  | zero => decide +kernel
  | succ n ih =>
      rw [rounds]
      cases h : rounds (fun _ => answering) wholeRequest.toAccept (n + 2) with
      | next s =>
          rw [h] at ih
          cases ih
      | _ => rfl

/-- The request is answered, and then the loop waits. -/
theorem request_loop_progress_answered :
    Progress answering wholeRequest.toAccept ∧
      ∃ n ≤ 2 * wholeRequest.toAccept.available + 3,
        ∀ s, rounds (fun _ => answering) wholeRequest.toAccept n ≠ .next s := by
  have hfirst : ¬Stuck answering wholeRequest.toAccept := by
    rintro ⟨-, -, hstuck⟩
    rw [if_neg (by decide +kernel)] at hstuck
    exact absurd hstuck (by decide +kernel)
  obtain ⟨hprogress, hrun⟩ := request_loop_progress answering (fun _ => answering) wholeRequest
  refine ⟨hprogress.mpr hfirst, hrun fun n s hs => ?_⟩
  rcases n with _ | _ | n
  · cases hs
    exact hfirst
  · have hleft : (rounds (fun _ => answering) wholeRequest.toAccept 1).left = some 0 := by
      decide +kernel
    rw [hs] at hleft
    rintro ⟨-, hpos, -⟩
    exact absurd (Option.some.inj hleft) hpos.ne'
  · have hleft := left_answered n
    rw [hs] at hleft
    cases hleft

/-- A connection on which the first bytes of a request line have arrived. -/
def partialRequest : Connection where
  context := none
  apt := TcpRead.new.fed (bytesOf "GET")
  buffered := by
    obtain ⟨t, hrep, hread, -⟩ := feedStream_represents (new_represents []) (bytesOf "GET")
    exact Or.inl ⟨_, _, t, hrep, hread, rfl, rfl⟩

/-- Half a request line keeps the loop busy for ever. -/
theorem partial_request_spins :
    ¬(∀ (service : Service) (c : Connection), Progress service c.toAccept) ∧
      ∀ (services : ℕ → Service) (n : ℕ), ∃ s, rounds services partialRequest.toAccept n = .next s := by
  obtain ⟨t, hrep, hread, hunread⟩ := feedStream_represents (new_represents []) (bytesOf "GET")
  have hreads : Reads partialRequest.apt.readstream (bytesOf "GET") :=
    ⟨_, t, hrep, hread, by rw [hunread]; rfl, rfl⟩
  have hne : bytesOf "GET" ≠ [] := by decide +kernel
  have hnone : splitLine (bytesOf "GET") = none := by decide +kernel
  constructor
  · intro h
    have hprogress := h (fun ctx _ => ⟨false, ctx, [], false⟩) partialRequest
    rw [progress_iff_not_stuck] at hprogress
    apply hprogress
    refine ⟨rfl, ?_, ?_⟩
    · rw [Accept.available, hreads.available_eq]
      exact List.length_pos_of_ne_nil hne
    · rw [if_neg (by decide), hreads.unreadOf_eq, ← splitLine_eq_none_iff]
      exact hnone
  · intro services n
    -- every round gives back an open head with the same bytes
    have hinv : ∃ s, rounds services partialRequest.toAccept n = .next s ∧
        s.apt.disconnected = false ∧ Reads s.apt.readstream (bytesOf "GET") ∧
        renew s.context = Context.new := by
      induction n with
      | zero => exact ⟨_, rfl, rfl, hreads, rfl⟩
      | succ n ih =>
          obtain ⟨s, hs, hconn, hr, hctx⟩ := ih
          obtain ⟨input, hinput, hround⟩ := iterate_partial (services n) hconn hr hne
            (by rw [hctx]; rfl) hnone
          refine ⟨⟨some (renew s.context), { s.apt with readstream := input }⟩, ?_, hconn, hinput, ?_⟩
          · rw [rounds, hs]
            exact hround
          · rw [hctx]
            rfl
    obtain ⟨s, hs, -⟩ := hinv
    exact ⟨s, hs⟩

end LuaFan
