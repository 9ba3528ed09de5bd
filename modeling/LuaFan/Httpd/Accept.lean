/-
# The first half of the request loop (`modules/fan/httpd/httpd.lua`, `onaccept`)

An iteration of the loop of `onaccept` renews the context if the last request was
answered, waits for input, and reads the head of the request as far as it has come
(`headPhase`).  `readheader_reads` says what that does to the unread bytes, in
terms of `parseHead`.
-/
import LuaFan.Httpd.Head

namespace LuaFan

/-- The local variable `context` and the connector of a connection. -/
structure Accept where
  context : Option Context
  apt : TcpRead

/-- A new context, if there is none or it was answered. -/
def renew : Option Context → Context
  | none => Context.new
  | some ctx => if ctx.replyStatus = some .completed then Context.new else ctx

/-- How the first half of an iteration ends: the loop is left because `receive`
returned nil, it is parked in `receive`, it raised an error, or it goes on. -/
inductive HeadPhase where
  | closed
  | parked (ctx : Context) (apt : TcpRead)
  | raised (ctx : Context) (apt : TcpRead)
  | ready (ctx : Context) (apt : TcpRead)

/-- The loop body of `onaccept` up to the test of `header_complete`.  A rejected
head makes it call `receive` with a string, and comparing that with a number is an
error. -/
def headPhase (s : Accept) : HeadPhase :=
  let ctx := renew s.context
  match s.apt.receive 1 with
  | (.closed, _) => .closed
  | (.parked, apt) => .parked ctx apt
  | (.input, apt) =>
      if ctx.headerComplete then .ready ctx apt
      else
        let r := readheader ctx apt.readstream
        let apt := { apt with readstream := r.input }
        if r.status then .ready r.ctx apt else .raised r.ctx apt

/-! ## Reading the head of the unread bytes -/

/-- What one call of `readheader` makes of unread bytes: its status, the context
and what is left. -/
def readLines (ctx : Context) (u : List UInt8) : Bool × Context × List UInt8 :=
  if ctx.headerComplete then (true, ctx, u)
  else
    match _hsplit : splitLine u with
    | none => (true, ctx, u)
    | some (line, rest) =>
        match headerLine ctx line with
        | .next ctx => readLines ctx rest
        | .stop ctx => (true, ctx, rest)
        | .reject ctx => (false, ctx, rest)
termination_by u.length
decreasing_by exact length_splitLine _hsplit

section Equations

variable {ctx : Context} {u line rest : List UInt8}

theorem readLines_complete (hdone : ctx.headerComplete = true) : readLines ctx u = (true, ctx, u) := by
  rw [readLines, if_pos hdone]

theorem readLines_none (hdone : ctx.headerComplete = false) (hsplit : splitLine u = none) :
    readLines ctx u = (true, ctx, u) := by
  rw [readLines, if_neg (by simp [hdone])]
  split
  · rfl
  · rename_i hsome
    rw [hsplit] at hsome
    cases hsome

theorem readLines_some (hdone : ctx.headerComplete = false)
    (hsplit : splitLine u = some (line, rest)) :
    readLines ctx u = match headerLine ctx line with
      | .next ctx => readLines ctx rest
      | .stop ctx => (true, ctx, rest)
      | .reject ctx => (false, ctx, rest) := by
  rw [readLines, if_neg (by simp [hdone])]
  split
  · rename_i hnone
    rw [hsplit] at hnone
    cases hnone
  · rename_i hsome
    rw [hsplit] at hsome
    cases hsome
    rfl

/-- What each line keeps, all of them keep. -/
theorem readLines_relates {R : Context → Context → Prop} (hrefl : ∀ ctx, R ctx ctx)
    (htrans : ∀ {ctx ctx' ctx''}, R ctx ctx' → R ctx' ctx'' → R ctx ctx'')
    (hline : ∀ ctx line, R ctx (headerLine ctx line).ctx) (ctx : Context) (u : List UInt8) :
    R ctx (readLines ctx u).2.1 := by
  induction hn : u.length using Nat.strong_induction_on generalizing ctx u with
  | _ n ih =>
      subst hn
      cases hdone : ctx.headerComplete with
      | true =>
          rw [readLines, if_pos hdone]
          exact hrefl ctx
      | false =>
          cases hsplit : splitLine u with
          | none =>
              rw [readLines_none hdone hsplit]
              exact hrefl ctx
          | some p =>
              obtain ⟨line, rest⟩ := p
              have hfirst := hline ctx line
              rw [readLines_some hdone hsplit]
              cases hhead : headerLine ctx line with
              | next ctx' =>
                  rw [hhead] at hfirst
                  exact htrans hfirst (ih rest.length (length_splitLine hsplit) ctx' rest rfl)
              | stop ctx' =>
                  rw [hhead] at hfirst
                  exact hfirst
              | reject ctx' =>
                  rw [hhead] at hfirst
                  exact hfirst

end Equations

theorem readheaderLoop_reads (rounds : ℕ) :
    ∀ (ctx : Context) (input : Bytearray) (u : List UInt8), Reads input u → u.length < rounds →
      (readheaderLoop rounds ctx input).status = (readLines ctx u).1 ∧
      (readheaderLoop rounds ctx input).ctx = (readLines ctx u).2.1 ∧
      Reads (readheaderLoop rounds ctx input).input (readLines ctx u).2.2 := by
  induction rounds with
  | zero =>
      intro ctx input u _ hlen
      omega
  | succ rounds ih =>
      intro ctx input u hreads hlen
      have hline := readline_reads hreads
      rw [readheaderLoop]
      cases hdone : ctx.headerComplete with
      | true =>
          rw [readLines, if_pos hdone]
          exact ⟨rfl, rfl, hreads⟩
      | false =>
          simp only [Bool.false_eq_true, if_false]
          cases hsplit : splitLine u with
          | none =>
              rw [hsplit] at hline
              obtain ⟨hnone, hsame⟩ := hline
              rw [show readline input = (none, (readline input).2) by rw [← hnone],
                readLines_none hdone hsplit]
              exact ⟨rfl, rfl, hsame⟩
          | some p =>
              obtain ⟨line, rest⟩ := p
              rw [hsplit] at hline
              obtain ⟨⟨flag, hsome⟩, hrest⟩ := hline
              have hshort := length_splitLine hsplit
              rw [show readline input = (some (line, flag), (readline input).2) by rw [← hsome],
                readLines_some hdone hsplit]
              cases hhead : headerLine ctx line with
              | next ctx' =>
                  simp only [hhead]
                  exact ih ctx' _ rest hrest (by omega)
              | stop ctx' =>
                  simp only [hhead]
                  exact ⟨trivial, trivial, hrest⟩
              | reject ctx' =>
                  simp only [hhead]
                  exact ⟨trivial, trivial, hrest⟩

/-- **`readheader` takes whole lines off the unread bytes.** -/
theorem readheader_reads (ctx : Context) {input : Bytearray} {u : List UInt8}
    (h : Reads input u) :
    (readheader ctx input).status = (readLines ctx u).1 ∧
      (readheader ctx input).ctx = (readLines ctx u).2.1 ∧
      Reads (readheader ctx input).input (readLines ctx u).2.2 :=
  readheaderLoop_reads _ ctx input u h (by rw [h.available_eq]; omega)

/-- What one call leaves has the head that the whole had, and a call that takes
nothing found no whole line. -/
theorem parseHead_readLines (ctx : Context) (u : List UInt8) (hdone : ctx.headerComplete = false) :
    (parseHead ctx u = if (readLines ctx u).1 then
        parseHead (readLines ctx u).2.1 (readLines ctx u).2.2 else .rejected) ∧
      (splitLine u ≠ none → (readLines ctx u).2.2.length < u.length) := by
  induction hn : u.length using Nat.strong_induction_on generalizing ctx u with
  | _ n ih =>
      subst hn
      cases hsplit : splitLine u with
      | none =>
          rw [readLines_none hdone hsplit]
          simp
      | some p =>
          obtain ⟨line, rest⟩ := p
          have hshort := length_splitLine hsplit
          rw [readLines_some hdone hsplit, parseHead_some hdone hsplit]
          cases hhead : headerLine ctx line with
          | stop ctx' =>
              simp only [if_true]
              exact ⟨trivial, fun _ => hshort⟩
          | reject ctx' =>
              simp only [Bool.false_eq_true, if_false]
              exact ⟨trivial, fun _ => hshort⟩
          | next ctx' =>
              simp only
              cases hdone' : ctx'.headerComplete with
              | true =>
                  rw [readLines, if_pos hdone']
                  exact ⟨rfl, fun _ => hshort⟩
              | false =>
                  obtain ⟨heq, hlt⟩ := ih rest.length hshort ctx' rest hdone' rfl
                  refine ⟨heq, fun _ => ?_⟩
                  by_cases hrest : splitLine rest = none
                  · rw [readLines_none hdone' hrest]
                    exact hshort
                  · exact (hlt hrest).trans hshort

end LuaFan
