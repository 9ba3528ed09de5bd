/-
# Request heads and chunk boundaries

`HeadRun` drives the first half of the request loop over the chunks of a request:
a running loop iterates, a parked one is given the next chunk.  What it shows of
the head settles (`settles_headOf`), and `head_chunking` says exactly when that is
what one chunk with all the bytes gives: **no chunk boundary inside the head falls
between a CR and its LF, or inside a line that later bytes complete.**

At the first kind of boundary the LF is taken for the empty line that ends the
head.  At the second kind `readline` finds no line end, `receive` returns at once
because there are bytes, and the loop runs on without ever being given the rest.
-/
import LuaFan.Httpd.Accept
import LuaFan.Lib.Settle

namespace LuaFan

open Run

/-! ## Driving the loop -/

/-- What the head says about the request. -/
structure HeadFields where
  method : Option (List UInt8)
  path : Option (List UInt8)
  query : Option (List UInt8)
  version : Option (List UInt8)
  headers : List (List UInt8 × HeaderValue)
  deriving DecidableEq, Repr

def Context.fields (ctx : Context) : HeadFields :=
  ⟨ctx.method, ctx.path, ctx.query, ctx.version, ctx.headers⟩

/-- Where the coroutine of `onaccept` is: in its loop, in `receive`, past the test
of `header_complete`, dead of an error, or at its end. -/
inductive HeadMode where
  | running
  | parked
  | complete
  | failed
  | closed
  deriving DecidableEq, Repr

/-- The loop and the chunks that have not arrived yet. -/
structure HeadRun where
  ctx : Context
  apt : TcpRead
  chunks : List (List UInt8)
  mode : HeadMode

/-- One iteration of a running loop, or the arrival of a chunk at a parked one. -/
def HeadRun.step (r : HeadRun) : HeadRun :=
  match r.mode with
  | .running =>
      match headPhase ⟨some r.ctx, r.apt⟩ with
      | .closed => { r with mode := .closed }
      | .parked ctx apt => { r with ctx := ctx, apt := apt, mode := .parked }
      | .raised ctx apt => { r with ctx := ctx, apt := apt, mode := .failed }
      | .ready ctx apt =>
          { r with ctx := ctx, apt := apt,
                   mode := if ctx.headerComplete then .complete else .running }
  | .parked =>
      match r.chunks with
      | [] => r
      | c :: cs =>
          let apt := r.apt.fed c
          if apt.wakes then { r with apt := apt.resumed, chunks := cs, mode := .running }
          else { r with apt := apt, chunks := cs }
  | _ => r

/-- What there is to see of a head: its fields, whether it is complete, and the
bytes it has left for the body, those still to arrive included. -/
inductive HeadView where
  | complete (fields : HeadFields) (left : List UInt8)
  | opened (fields : HeadFields) (left : List UInt8)
  | rejected
  deriving DecidableEq, Repr

def HeadRun.view (r : HeadRun) : HeadView :=
  let left := unreadOf r.apt.readstream ++ r.chunks.flatten
  match r.mode with
  | .complete => .complete r.ctx.fields left
  | .failed => .rejected
  | _ => .opened r.ctx.fields left

/-- A new connection on which the chunks will arrive. -/
def HeadRun.start (chunks : List (List UInt8)) : HeadRun :=
  ⟨Context.new, TcpRead.new, chunks, .running⟩

/-- The chunks give the same head as one chunk with all their bytes. -/
def SameHead (chunks : List (List UInt8)) : Prop :=
  ∃ v, Settles HeadRun.step HeadRun.view (HeadRun.start chunks) v ∧
    Settles HeadRun.step HeadRun.view (HeadRun.start [chunks.flatten]) v

/-- Does a line start a request?  It is no request line (none), or one that is
refused for its version or length (false), or a good one (true). -/
def startsRequest (line : List UInt8) : Option Bool :=
  (matchRequestLine line).map fun m =>
    decide ((m.2.2 = Fp.bytesOf "1.0" ∨ m.2.2 = Fp.bytesOf "1.1") ∧ m.2.1.length ≤ 2048)

/-- The lines of a request head at the front of `u`: was the empty line among
them, and what is left.  None if there is another line where the request line is
due. -/
def headLines (started : Bool) (u : List UInt8) : Option (Bool × List UInt8) :=
  match _hsplit : splitLine u with
  | none => some (false, u)
  | some (line, rest) =>
      if line = [] then some (true, rest)
      else if started then headLines true rest
      else
        match startsRequest line with
        | none => none
        | some good => headLines good rest
termination_by u.length
decreasing_by
  all_goals exact length_splitLine _hsplit

/-- A boundary with `p` before and `q` after it does no harm: the head was decided
before it; or it falls at the end of a line and not between CR and LF; or inside a
line that is never completed. -/
def harmless (p q : List UInt8) : Prop :=
  match headLines false p with
  | none => True
  | some (ended, left) =>
      if left = [] then cutsCrLf p q = false else ended = true ∨ hasLineEnd q = false

theorem headerComplete_completeHead (ctx : Context) : (completeHead ctx).headerComplete = true := by
  unfold completeHead
  split <;> rfl

/-- What is left by a head, and whether it is complete. -/
def HeadState.lines : HeadState → Option (Bool × List UInt8)
  | .complete _ left => some (true, left)
  | .opened _ left => some (false, left)
  | .rejected => none

/-- The lines of a head are what `parseHead` goes by. -/
theorem headLines_eq (ctx : Context) (u : List UInt8) (hdone : ctx.headerComplete = false) :
    headLines ctx.firstLine u = (parseHead ctx u).lines := by
  induction hn : u.length using Nat.strong_induction_on generalizing ctx u with
  | _ n ih =>
      subst hn
      rw [headLines]
      split
      · rename_i hsplit
        rw [parseHead_none hdone hsplit]
        rfl
      · rename_i line rest hsplit
        have hshort := length_splitLine hsplit
        have hgo : ∀ (good : Bool) (ctx' : Context), ctx'.headerComplete = false →
            ctx'.firstLine = good → headLines good rest = (parseHead ctx' rest).lines := by
          rintro good ctx' hdone' rfl
          exact ih rest.length hshort ctx' rest hdone' rfl
        rw [parseHead_some hdone hsplit, headerLine]
        by_cases hline : line = []
        · rw [if_pos hline, if_pos hline]
          simp only
          rw [parseHead_complete (headerComplete_completeHead ctx)]
          rfl
        · rw [if_neg hline, if_neg hline]
          cases hfirst : ctx.firstLine with
          | true =>
              -- every header line is taken, also one that cannot be used
              simp only [if_true, headerField]
              cases matchHeader line with
              | none =>
                  by_cases hmany : 100 < ctx.invalidHeaders + 1
                  · simp only [hmany, if_true]
                    exact hgo true _ hdone hfirst
                  · simp only [hmany, if_false]
                    exact hgo true _ hdone hfirst
              | some kv =>
                  by_cases hlarge : 8192 < (trimRight kv.2).length
                  · simp only [hlarge, if_true]
                    exact hgo true _ hdone hfirst
                  · simp only [hlarge, if_false]
                    exact hgo true _ hdone hfirst
          | false =>
              simp only [Bool.false_eq_true, if_false, requestLine, startsRequest]
              cases matchRequestLine line with
              | none => rfl
              | some m =>
                  obtain ⟨method, path, version⟩ := m
                  simp only [Option.map_some]
                  by_cases hversion : version ≠ Fp.bytesOf "1.0" ∧ version ≠ Fp.bytesOf "1.1"
                  · rw [if_pos hversion, decide_eq_false (by tauto)]
                    exact hgo false _ hdone hfirst
                  · rw [if_neg hversion]
                    by_cases hpath : 2048 < path.length
                    · rw [if_pos hpath, decide_eq_false (by omega)]
                      exact hgo false _ hdone hfirst
                    · rw [if_neg hpath, decide_eq_true ⟨by tauto, by omega⟩]
                      rcases splitQuery path with ⟨before, _ | query⟩ <;>
                        exact hgo true _ hdone rfl

theorem harmless_iff (p q : List UInt8) :
    harmless p q ↔ match parseHead Context.new p with
      | .rejected => True
      | .complete _ left => left = [] → cutsCrLf p q = false
      | .opened _ left => if left = [] then cutsCrLf p q = false else hasLineEnd q = false := by
  have hlines : headLines false p = (parseHead Context.new p).lines :=
    headLines_eq Context.new p rfl
  rw [harmless, hlines]
  cases parseHead Context.new p with
  | rejected => rfl
  | complete ctx left => by_cases hleft : left = [] <;> simp [HeadState.lines, hleft]
  | opened ctx left => by_cases hleft : left = [] <;> simp [HeadState.lines, hleft]

/-! ## The head of appended bytes -/

/-- What is left of `p ++ q` when `left` was left of `p`. -/
def leftAfter (p q left : List UInt8) : List UInt8 :=
  if left = [] ∧ cutsCrLf p q = true then q.tail else left ++ q

theorem getLast?_splitLine {u line rest : List UInt8} (h : splitLine u = some (line, rest))
    (hne : rest ≠ []) : u.getLast? = rest.getLast? := by
  induction u generalizing line rest with
  | nil => cases h
  | cons b u ih =>
      rw [splitLine] at h
      have hcons : u ≠ [] → (b :: u).getLast? = u.getLast? := by
        intro hu
        cases u with
        | nil => exact absurd rfl hu
        | cons c u => simp
      split at h
      · cases h
        cases u with
        | nil => exact absurd rfl hne
        | cons c u =>
            rw [hcons (by simp)]
            rw [dropLf] at hne ⊢
            by_cases hlf : c = lf
            · rw [if_pos hlf] at hne ⊢
              cases u with
              | nil => exact absurd rfl hne
              | cons d u => simp
            · rw [if_neg hlf]
      · split at h
        · cases h
          exact hcons hne
        · obtain ⟨p, hp, heq⟩ := Option.map_eq_some_iff.mp h
          cases heq
          rw [hcons (by rintro rfl; cases hp)]
          exact ih hp hne

/-- **The head of appended bytes** continues the head of the first ones. -/
theorem parseHead_append (ctx : Context) (p q : List UInt8) :
    parseHead ctx (p ++ q) = match parseHead ctx p with
      | .complete ctx' left => .complete ctx' (leftAfter p q left)
      | .opened ctx' left => parseHead ctx' (leftAfter p q left)
      | .rejected => .rejected := by
  induction hn : p.length using Nat.strong_induction_on generalizing ctx p with
  | _ n ih =>
      subst hn
      have hself : leftAfter p q p = p ++ q := by
        rw [leftAfter, if_neg]
        rintro ⟨rfl, hcut⟩
        simp [cutsCrLf] at hcut
      cases hdone : ctx.headerComplete with
      | true =>
          rw [parseHead_complete hdone, parseHead_complete hdone]
          simp only [hself]
      | false =>
          cases hsplit : splitLine p with
          | none =>
              rw [parseHead_none hdone hsplit]
              simp only [hself]
          | some pr =>
              obtain ⟨line, rest⟩ := pr
              have hshort := length_splitLine hsplit
              have happ : splitLine (p ++ q) = some (line, leftAfter p q rest) :=
                splitLine_append hsplit q
              -- going on with the rest of the lines
              have hgo : ∀ ctx', parseHead ctx' (leftAfter p q rest) = match parseHead ctx' rest with
                  | .complete ctx'' left => .complete ctx'' (leftAfter p q left)
                  | .opened ctx'' left => parseHead ctx'' (leftAfter p q left)
                  | .rejected => .rejected := by
                intro ctx'
                by_cases hrest : rest = []
                · subst hrest
                  cases hdone' : ctx'.headerComplete with
                  | true => rw [parseHead_complete hdone', parseHead_complete hdone']
                  | false => rw [parseHead_none hdone' (rfl : splitLine [] = none)]
                · have hcut : cutsCrLf p q = cutsCrLf rest q := by
                    rw [cutsCrLf, cutsCrLf, getLast?_splitLine hsplit hrest]
                  have heq : ∀ left, leftAfter p q left = leftAfter rest q left := by
                    intro left
                    rw [leftAfter, leftAfter, hcut]
                  have hrec := ih rest.length hshort ctx' rest rfl
                  rw [leftAfter, if_neg (by simp [hrest]), hrec]
                  simp only [heq]
              rw [parseHead_some hdone happ, parseHead_some hdone hsplit]
              cases headerLine ctx line with
              | next ctx' => exact hgo ctx'
              | stop ctx' => exact hgo ctx'
              | reject ctx' => rfl

/-- A head that is not complete yet takes at least a line to be. -/
theorem length_left_parseHead (ctx : Context) (u : List UInt8) (hdone : ctx.headerComplete = false) :
    match parseHead ctx u with
    | .complete _ left => left.length < u.length
    | .opened ctx' left => ctx'.headerComplete = false ∧ splitLine left = none ∧
        left.length ≤ u.length ∧ (splitLine u ≠ none → left.length < u.length)
    | .rejected => True := by
  induction hn : u.length using Nat.strong_induction_on generalizing ctx u with
  | _ n ih =>
      subst hn
      cases hsplit : splitLine u with
      | none =>
          rw [parseHead_none hdone hsplit]
          simp [hdone, hsplit]
      | some p =>
          obtain ⟨line, rest⟩ := p
          have hshort := length_splitLine hsplit
          have hgo : ∀ ctx', match parseHead ctx' rest with
              | .complete _ left => left.length < u.length
              | .opened ctx'' left => ctx''.headerComplete = false ∧ splitLine left = none ∧
                  left.length ≤ u.length ∧ (some (line, rest) ≠ none → left.length < u.length)
              | .rejected => True := by
            intro ctx'
            cases hdone' : ctx'.headerComplete with
            | true =>
                rw [parseHead_complete hdone']
                exact hshort
            | false =>
                have hrec := ih rest.length hshort ctx' rest hdone' rfl
                cases hp : parseHead ctx' rest with
                | complete c left =>
                    rw [hp] at hrec
                    simp only at hrec ⊢
                    omega
                | opened c left =>
                    rw [hp] at hrec
                    obtain ⟨hc, hs, hle, -⟩ := hrec
                    exact ⟨hc, hs, by omega, fun _ => by omega⟩
                | rejected => trivial
          rw [parseHead_some hdone hsplit]
          cases headerLine ctx line with
          | next ctx' => exact hgo ctx'
          | stop ctx' => exact hgo ctx'
          | reject ctx' => trivial

/-! ## The head that chunks give -/

/-- The head read from chunks that arrive one after the other.  Bytes that hold no
whole line keep the loop busy, and nothing more is read. -/
def headOf (ctx : Context) : List (List UInt8) → HeadState
  | [] => .opened ctx []
  | c :: cs =>
      match parseHead ctx c with
      | .complete ctx left => .complete ctx (left ++ cs.flatten)
      | .rejected => .rejected
      | .opened ctx left => if left = [] then headOf ctx cs else .opened ctx (left ++ cs.flatten)

def HeadState.view : HeadState → HeadView
  | .complete ctx left => .complete ctx.fields left
  | .opened ctx left => .opened ctx.fields left
  | .rejected => .rejected

theorem forall_split_cons {α : Type} {P : List α → List α → Prop} {c : α} {cs : List α} :
    (∀ ps qs, c :: cs = ps ++ qs → P ps qs) ↔
      P [] (c :: cs) ∧ ∀ ps qs, cs = ps ++ qs → P (c :: ps) qs := by
  constructor
  · intro h
    refine ⟨h [] (c :: cs) rfl, ?_⟩
    intro ps qs hcs
    exact h (c :: ps) qs (by rw [hcs]; rfl)
  · rintro ⟨hnil, hcons⟩ ps qs hcs
    cases ps with
    | nil =>
        rw [List.nil_append] at hcs
        rwa [← hcs]
    | cons d ps =>
        rw [List.cons_append, List.cons.injEq] at hcs
        obtain ⟨rfl, hcs⟩ := hcs
        exact hcons ps qs hcs

theorem cutsCrLf_append {p x : List UInt8} (y : List UInt8) (h : cutsCrLf p (x ++ y) = false) :
    cutsCrLf p x = false := by
  cases x with
  | nil => simp [cutsCrLf]
  | cons b x => simpa [cutsCrLf] using h

theorem cutsCrLf_append_left (p : List UInt8) {u : List UInt8} (q : List UInt8) (hne : u ≠ []) :
    cutsCrLf (p ++ u) q = cutsCrLf u q := by
  rw [cutsCrLf, cutsCrLf, List.getLast?_append_of_ne_nil _ hne]

theorem cutsCrLf_append_right {u x : List UInt8} (y : List UInt8) (hne : x ≠ []) :
    cutsCrLf u (x ++ y) = cutsCrLf u x := by
  cases x with
  | nil => exact absurd rfl hne
  | cons b x => simp [cutsCrLf]

/-- A LF in front is an empty line, and completes the head. -/
theorem parseHead_lf (ctx : Context) (u : List UInt8) (hdone : ctx.headerComplete = false) :
    parseHead ctx (lf :: u) = .complete (completeHead ctx) u := by
  have hsplit : splitLine (lf :: u) = some ([], u) := by
    rw [splitLine, if_neg (by decide), if_pos rfl]
  rw [parseHead_some hdone hsplit]
  simp only [headerLine, if_true]
  exact parseHead_complete (headerComplete_completeHead ctx)

/-- A head read in one go is not what is seen of a loop that is still open with
the same bytes, if these hold a line. -/
theorem view_ne_of_line {ctx : Context} {u : List UInt8} {v : HeadFields}
    (hdone : ctx.headerComplete = false) (hline : splitLine u ≠ none) :
    (parseHead ctx u).view ≠ .opened v u := by
  have hleft := length_left_parseHead ctx u hdone
  cases hp : parseHead ctx u with
  | complete c left => simp [HeadState.view]
  | rejected => simp [HeadState.view]
  | opened c left =>
      rw [hp] at hleft
      obtain ⟨-, -, -, hlt⟩ := hleft
      simp only [HeadState.view, ne_eq, HeadView.opened.injEq, not_and]
      rintro - rfl
      exact absurd (hlt hline) (lt_irrefl _)

theorem view_ne_complete {ctx : Context} {u : List UInt8} {v : HeadFields}
    (hdone : ctx.headerComplete = false) : (parseHead ctx u).view ≠ .complete v u := by
  have hleft := length_left_parseHead ctx u hdone
  cases hp : parseHead ctx u with
  | opened c left => simp [HeadState.view]
  | rejected => simp [HeadState.view]
  | complete c left =>
      rw [hp] at hleft
      simp only [HeadState.view, ne_eq, HeadView.complete.injEq, not_and]
      rintro - rfl
      exact absurd hleft (lt_irrefl _)

section Boundaries

variable {ctx : Context} {p c : List UInt8} {cs : List (List UInt8)}

/-- The head goes on after a boundary at a line end. -/
theorem parseHead_after (hp : parseHead Context.new p = .opened ctx []) {q : List UInt8}
    (hcut : cutsCrLf p q = false) : parseHead Context.new (p ++ q) = parseHead ctx q := by
  rw [parseHead_append, hp]
  simp [leftAfter, hcut]

/-- Boundaries after the end of a complete head. -/
theorem harmless_after_complete {ctx' : Context} {left : List UInt8}
    (hp : parseHead Context.new p = .opened ctx []) (hdone : ctx.headerComplete = false)
    (hc : parseHead ctx c = .complete ctx' left) (hcut : cutsCrLf p (c ++ cs.flatten) = false) :
    (∀ ps qs, cs = ps ++ qs → harmless (p ++ (c :: ps).flatten) qs.flatten) ↔
      ¬(left = [] ∧ cutsCrLf c cs.flatten = true) := by
  have hne : c ≠ [] := by
    rintro rfl
    have := length_left_parseHead ctx [] hdone
    rw [hc] at this
    simp at this
  constructor
  · rintro h ⟨hleft, hbad⟩
    have hb := h [] cs rfl
    rw [List.flatten_cons, List.flatten_nil, List.append_nil, harmless_iff,
      parseHead_after hp (cutsCrLf_append _ hcut), hc] at hb
    have := hb hleft
    rw [cutsCrLf_append_left _ _ hne, hbad] at this
    cases this
  · intro hgood ps qs hcs
    subst hcs
    rw [List.flatten_append] at hcut hgood
    have hcut' : cutsCrLf p (c ++ ps.flatten) = false := by
      rw [← List.append_assoc] at hcut
      exact cutsCrLf_append _ hcut
    rw [List.flatten_cons, harmless_iff, parseHead_after hp hcut', parseHead_append, hc]
    simp only
    intro hleft
    by_cases hx : ps.flatten = []
    · rw [hx, List.nil_append] at hgood
      rw [hx, leftAfter, if_neg (by simp [cutsCrLf]), List.append_nil] at hleft
      rw [hx, List.append_nil, cutsCrLf_append_left _ _ hne]
      by_contra hbad
      exact hgood ⟨hleft, by simpa using hbad⟩
    · rw [leftAfter] at hleft
      split at hleft
      · rename_i hboth
        rw [cutsCrLf_append_right _ hx] at hgood
        exact absurd hboth hgood
      · simp [hx] at hleft

/-- Boundaries after one inside a line. -/
theorem harmless_after_partial {ctx' : Context} {left : List UInt8}
    (hp : parseHead Context.new p = .opened ctx []) (hdone : ctx.headerComplete = false)
    (hc : parseHead ctx c = .opened ctx' left) (hleft : left ≠ [])
    (hcut : cutsCrLf p (c ++ cs.flatten) = false) :
    (∀ ps qs, cs = ps ++ qs → harmless (p ++ (c :: ps).flatten) qs.flatten) ↔
      hasLineEnd cs.flatten = false := by
  have hfacts := length_left_parseHead ctx c hdone
  rw [hc] at hfacts
  obtain ⟨hdone', hnone, -, -⟩ := hfacts
  constructor
  · intro h
    have hb := h [] cs rfl
    rw [List.flatten_cons, List.flatten_nil, List.append_nil, harmless_iff,
      parseHead_after hp (cutsCrLf_append _ hcut), hc] at hb
    simpa [hleft] using hb
  · intro hend ps qs hcs
    subst hcs
    rw [List.flatten_append, hasLineEnd_append, Bool.or_eq_false_iff] at hend
    rw [List.flatten_append, ← List.append_assoc] at hcut
    have hsplit : splitLine (left ++ ps.flatten) = none := by
      rw [splitLine_eq_none_iff, hasLineEnd_append, (splitLine_eq_none_iff left).mp hnone, hend.1]
      rfl
    have happ := parseHead_append ctx c ps.flatten
    rw [hc] at happ
    simp only [leftAfter, hleft, false_and, if_false] at happ
    rw [List.flatten_cons, harmless_iff, parseHead_after hp (cutsCrLf_append _ hcut), happ,
      parseHead_none hdone' hsplit]
    simp [hleft, hend.2]

end Boundaries

/-- **The chunks give the head of all the bytes exactly when every boundary is
harmless.**  The bytes `p` before the next chunk have an open head, with nothing
left. -/
theorem view_headOf_iff (cs : List (List UInt8)) :
    ∀ (ctx : Context) (p : List UInt8), ctx.headerComplete = false →
      parseHead Context.new p = .opened ctx [] →
      ((headOf ctx cs).view = (parseHead Context.new (p ++ cs.flatten)).view ↔
        ∀ ps qs, cs = ps ++ qs → harmless (p ++ ps.flatten) qs.flatten) := by
  induction cs with
  | nil =>
      intro ctx p hdone hp
      rw [List.flatten_nil, List.append_nil, hp]
      refine ⟨fun _ => ?_, fun _ => rfl⟩
      intro ps qs h
      obtain ⟨rfl, rfl⟩ := List.nil_eq_append_iff.mp h
      simp [harmless_iff, hp, cutsCrLf]
  | cons c cs ih =>
      intro ctx p hdone hp
      rw [forall_split_cons, List.flatten_cons, List.flatten_nil, List.append_nil]
      have hhere : harmless p (c ++ cs.flatten) ↔ cutsCrLf p (c ++ cs.flatten) = false := by
        simp [harmless_iff, hp]
      rw [hhere]
      cases hcut : cutsCrLf p (c ++ cs.flatten) with
      | true =>
          -- the LF after the boundary is taken for the empty line
          simp only [Bool.true_eq_false, false_and, iff_false]
          cases c with
          | nil =>
              rw [headOf, parseHead_none hdone (rfl : splitLine [] = none)]
              simp only [if_true, List.nil_append]
              rw [ih ctx p hdone hp]
              intro h
              have hb := h [] cs rfl
              rw [List.flatten_nil, List.append_nil, harmless_iff, hp] at hb
              simp only [if_true] at hb
              rw [List.nil_append] at hcut
              rw [hcut] at hb
              cases hb
          | cons b c =>
              have hb : b = lf := by
                simp only [cutsCrLf, List.cons_append, List.head?_cons, Option.some.injEq,
                  Bool.and_eq_true, decide_eq_true_eq] at hcut
                exact hcut.2
              subst hb
              have hleft : leftAfter p (lf :: c ++ cs.flatten) [] = c ++ cs.flatten := by
                rw [leftAfter, if_pos ⟨rfl, hcut⟩]
                rfl
              rw [headOf, parseHead_lf ctx c hdone, parseHead_append, hp]
              simp only [hleft]
              exact fun h => view_ne_complete hdone h.symm
      | false =>
          simp only [true_and]
          rw [parseHead_after hp hcut, headOf]
          have happ := parseHead_append ctx c cs.flatten
          cases hc : parseHead ctx c with
          | rejected =>
              rw [hc] at happ
              simp only at happ ⊢
              rw [happ]
              simp only [HeadState.view, true_iff]
              intro ps qs hcs
              subst hcs
              rw [List.flatten_append, ← List.append_assoc] at hcut
              rw [List.flatten_cons, harmless_iff, parseHead_after hp (cutsCrLf_append _ hcut),
                parseHead_append, hc]
              trivial
          | complete ctx' left =>
              rw [hc] at happ
              simp only at happ ⊢
              rw [happ, harmless_after_complete hp hdone hc hcut]
              simp only [HeadState.view, HeadView.complete.injEq, true_and, leftAfter]
              split
              · rename_i hbad
                simp only [hbad, and_self, not_true_eq_false, iff_false, List.nil_append]
                intro heq
                obtain ⟨-, hbad⟩ := hbad
                cases hfl : cs.flatten with
                | nil =>
                    rw [hfl] at hbad
                    simp [cutsCrLf] at hbad
                | cons b q =>
                    rw [hfl] at heq
                    simp only [List.tail_cons] at heq
                    have := congrArg List.length heq
                    simp at this
              · rename_i hgood
                simp only [hgood, not_false_eq_true]
          | opened ctx' left =>
              have hfacts := length_left_parseHead ctx c hdone
              rw [hc] at hfacts happ
              obtain ⟨hdone', hnone, -, -⟩ := hfacts
              simp only at happ ⊢
              by_cases hleft : left = []
              · subst hleft
                have hpc : parseHead Context.new (p ++ c) = .opened ctx' [] := by
                  rw [parseHead_after hp (cutsCrLf_append _ hcut), hc]
                have hrec := ih ctx' (p ++ c) hdone' hpc
                rw [List.append_assoc, parseHead_after hp hcut] at hrec
                simp only [if_true, List.flatten_cons]
                rw [hrec]
                simp only [List.append_assoc]
              · rw [if_neg hleft, happ, harmless_after_partial hp hdone hc hleft hcut]
                simp only [leftAfter, hleft, false_and, if_false]
                cases hend : hasLineEnd cs.flatten with
                | true =>
                    simp only [Bool.true_eq_false, iff_false]
                    refine fun h => view_ne_of_line hdone' ?_ h.symm
                    rw [ne_eq, splitLine_eq_none_iff, hasLineEnd_append, hend]
                    simp
                | false =>
                    have hsplit : splitLine (left ++ cs.flatten) = none := by
                      rw [splitLine_eq_none_iff, hasLineEnd_append,
                        (splitLine_eq_none_iff left).mp hnone, hend]
                      rfl
                    rw [parseHead_none hdone' hsplit]
                    simp

/-! ## The loop settles -/

/-- A loop in the middle of a head: the connection is open and `u` is unread. -/
structure RunningWith (r : HeadRun) (ctx : Context) (u : List UInt8) : Prop where
  mode : r.mode = .running
  ctx_eq : r.ctx = ctx
  opened : ctx.headerComplete = false
  pending : ctx.replyStatus = none
  connected : r.apt.disconnected = false
  reads : Reads r.apt.readstream u

/-- A loop that waits for the next chunk. -/
structure WaitingWith (r : HeadRun) (ctx : Context) : Prop where
  mode : r.mode = .parked
  ctx_eq : r.ctx = ctx
  opened : ctx.headerComplete = false
  pending : ctx.replyStatus = none
  connected : r.apt.disconnected = false
  receiving : r.apt.receiving = true
  expect : r.apt.receivingExpect = 1
  empty : ∃ t, Represents r.apt.readstream t ∧ t.unread = [] ∧
    bytearrayReadAvailable r.apt.readstream = 0

/-- Nothing that reads a head answers it. -/
theorem replyStatus_headerLine (ctx : Context) (line : List UInt8) :
    (headerLine ctx line).ctx.replyStatus = ctx.replyStatus := by
  have hcomplete : (completeHead ctx).replyStatus = ctx.replyStatus := by
    unfold completeHead
    split <;> rfl
  have hfield : (headerField ctx line).ctx.replyStatus = ctx.replyStatus := by
    unfold headerField
    cases matchHeader line with
    | none =>
        simp only
        split <;> rfl
    | some kv =>
        simp only
        split <;> rfl
  have hrequest : (requestLine ctx line).ctx.replyStatus = ctx.replyStatus := by
    unfold requestLine
    cases matchRequestLine line with
    | none => rfl
    | some m =>
        simp only
        split
        · rfl
        · split
          · rfl
          · rcases splitQuery m.2.1 with ⟨path, _ | query⟩ <;> rfl
  unfold headerLine
  split
  · exact hcomplete
  · split
    · exact hfield
    · exact hrequest

theorem replyStatus_readLines (ctx : Context) (u : List UInt8) :
    (readLines ctx u).2.1.replyStatus = ctx.replyStatus :=
  readLines_relates (R := fun ctx ctx' => ctx'.replyStatus = ctx.replyStatus) (fun _ => rfl)
    (fun h h' => h'.trans h) replyStatus_headerLine ctx u

theorem renew_pending {ctx : Context} (h : ctx.replyStatus = none) : renew (some ctx) = ctx := by
  simp [renew, h]

/-- One iteration on bytes: `readheader` reads what it can. -/
theorem RunningWith.step_eq {r : HeadRun} {ctx : Context} {u : List UInt8}
    (h : RunningWith r ctx u) (hne : u ≠ []) :
    r.step = { r with
      ctx := (readLines ctx u).2.1
      apt := { r.apt with readstream := (readheader ctx r.apt.readstream).input }
      mode := if (readLines ctx u).1 then
          (if (readLines ctx u).2.1.headerComplete then .complete else .running)
        else .failed } ∧
      Reads (readheader ctx r.apt.readstream).input (readLines ctx u).2.2 := by
  have hpos : 1 ≤ bytearrayReadAvailable r.apt.readstream := by
    rw [h.reads.available_eq]
    exact List.length_pos_of_ne_nil hne
  obtain ⟨hstatus, hctx, hreads⟩ := readheader_reads ctx h.reads
  refine ⟨?_, hreads⟩
  have hphase : headPhase ⟨some r.ctx, r.apt⟩ =
      if (readLines ctx u).1 then
        .ready (readLines ctx u).2.1
          { r.apt with readstream := (readheader ctx r.apt.readstream).input }
      else .raised (readLines ctx u).2.1
          { r.apt with readstream := (readheader ctx r.apt.readstream).input } := by
    simp only [headPhase, h.ctx_eq, renew_pending h.pending,
      receive_input r.apt 1 h.connected hpos, h.opened, Bool.false_eq_true, if_false, hstatus, hctx]
  rw [HeadRun.step, h.mode]
  simp only [hphase]
  cases (readLines ctx u).1 <;> rfl

/-- A loop whose bytes hold no line runs on without a change. -/
theorem RunningWith.settles_spin {r : HeadRun} {ctx : Context} {u : List UInt8}
    (h : RunningWith r ctx u) (hne : u ≠ []) (hnone : splitLine u = none) :
    Settles HeadRun.step HeadRun.view r (.opened ctx.fields (u ++ r.chunks.flatten)) := by
  refine Settles.of_invariant (fun r' => RunningWith r' ctx u ∧ r'.chunks = r.chunks) ?_ ?_ ⟨h, rfl⟩
  · rintro r' ⟨h', hch⟩
    obtain ⟨hstep, hreads⟩ := h'.step_eq hne
    rw [readLines_none h'.opened hnone] at hstep hreads
    simp only [if_true, h'.opened, Bool.false_eq_true, if_false] at hstep hreads
    rw [hstep]
    exact ⟨⟨rfl, rfl, h'.opened, h'.pending, h'.connected, hreads⟩, hch⟩
  · rintro r' ⟨h', hch⟩
    rw [HeadRun.view, h'.mode, h'.reads.unreadOf_eq, hch, h'.ctx_eq]

theorem settles_stopped {r : HeadRun} (h : r.mode = .complete ∨ r.mode = .failed) :
    Settles HeadRun.step HeadRun.view r r.view := by
  refine Settles.of_invariant (fun r' => r' = r) ?_ ?_ rfl
  · rintro r' rfl
    rcases h with h | h <;> rw [HeadRun.step, h]
  · rintro r' rfl
    rfl

/-- **What a loop with bytes to read settles at**, when waiting loops settle at the
head of the chunks to come. -/
theorem RunningWith.settles {cs : List (List UInt8)}
    (ih : ∀ (r : HeadRun) (ctx : Context), WaitingWith r ctx → r.chunks = cs →
      Settles HeadRun.step HeadRun.view r (headOf ctx cs).view)
    {r : HeadRun} {ctx : Context} {u : List UInt8} (h : RunningWith r ctx u) (hcs : r.chunks = cs) :
    Settles HeadRun.step HeadRun.view r (headOf ctx (u :: cs)).view := by
  induction hn : u.length using Nat.strong_induction_on generalizing r ctx u with
  | _ n ihn =>
      subst hn
      by_cases hne : u = []
      · -- nothing to read: the loop parks in `receive`
        subst hne
        have hav : bytearrayReadAvailable r.apt.readstream = 0 := h.reads.available_eq
        have hstep : r.step = { r with
            ctx := ctx
            apt := { r.apt with receivingExpect := 1, receiving := true }
            mode := .parked } := by
          rw [HeadRun.step, h.mode]
          simp only [headPhase, h.ctx_eq, renew_pending h.pending,
            receive_parked r.apt 1 h.connected (by omega)]
        rw [headOf, parseHead_none h.opened (rfl : splitLine [] = none)]
        apply Settles.of_step
        rw [hstep]
        refine ih _ ctx ⟨rfl, rfl, h.opened, h.pending, h.connected, rfl, rfl, ?_⟩ hcs
        obtain ⟨back, t, hrep, -, hunread, -⟩ := h.reads
        exact ⟨t, hrep, hunread, hav⟩
      · obtain ⟨hstep, hreads⟩ := h.step_eq hne
        obtain ⟨hparse, hshort⟩ := parseHead_readLines ctx u h.opened
        by_cases hnone : splitLine u = none
        · rw [headOf, parseHead_none h.opened hnone]
          simp only [hne, if_false]
          rw [← hcs]
          exact h.settles_spin hne hnone
        · apply Settles.of_step
          rw [hstep]
          cases hst : (readLines ctx u).1 with
          | false =>
              rw [hst] at hparse
              rw [headOf, hparse]
              exact settles_stopped (Or.inr rfl)
          | true =>
              simp only [hst, if_true] at hparse ⊢
              cases hdone : (readLines ctx u).2.1.headerComplete with
              | true =>
                  rw [headOf, hparse, parseHead_complete hdone]
                  have hset := settles_stopped (r := { r with
                    ctx := (readLines ctx u).2.1
                    apt := { r.apt with readstream := (readheader ctx r.apt.readstream).input }
                    mode := .complete }) (Or.inl rfl)
                  rw [HeadRun.view] at hset
                  simp only [hreads.unreadOf_eq] at hset
                  rw [← hcs]
                  exact hset
              | false =>
                  have hrun : RunningWith { r with
                      ctx := (readLines ctx u).2.1
                      apt := { r.apt with readstream := (readheader ctx r.apt.readstream).input }
                      mode := .running } (readLines ctx u).2.1 (readLines ctx u).2.2 :=
                    ⟨rfl, rfl, hdone, (replyStatus_readLines ctx u).trans h.pending,
                      h.connected, hreads⟩
                  have hrec := ihn _ (hshort hnone) hrun hcs rfl
                  rw [headOf, ← hparse] at hrec
                  exact hrec

/-- **What a waiting loop settles at** is the head of the chunks to come. -/
theorem settles_headOf (cs : List (List UInt8)) :
    ∀ (r : HeadRun) (ctx : Context), WaitingWith r ctx → r.chunks = cs →
      Settles HeadRun.step HeadRun.view r (headOf ctx cs).view := by
  induction cs with
  | nil =>
      intro r ctx h hcs
      refine Settles.of_invariant (fun r' => r' = r) ?_ ?_ rfl
      · rintro r' rfl
        rw [HeadRun.step, h.mode]
        simp only [hcs]
      · rintro r' rfl
        obtain ⟨t, -, -, hav⟩ := h.empty
        rw [HeadRun.view, h.mode, h.ctx_eq, hcs, unreadOf, hav]
        simp [bytesAt, headOf, HeadState.view]
  | cons c cs ih =>
      intro r ctx h hcs
      obtain ⟨t, hrep, hunread, -⟩ := h.empty
      obtain ⟨t', hrep', hread', hunread'⟩ := feedStream_represents hrep c
      rw [hunread, List.nil_append] at hunread'
      have hreads : Reads (feedStream r.apt.readstream c) c := ⟨_, t', hrep', hread', hunread', rfl⟩
      apply Settles.of_step
      rw [HeadRun.step, h.mode]
      simp only [hcs, TcpRead.fed, TcpRead.wakes, h.receiving, h.expect, hreads.available_eq, Bool.true_and]
      by_cases hc : c = []
      · -- an empty chunk does not wake the loop
        subst hc
        rw [headOf, parseHead_none h.opened (rfl : splitLine [] = none)]
        simp only [if_true]
        refine ih _ ctx ⟨rfl, h.ctx_eq, h.opened, h.pending, h.connected, rfl, rfl, ?_⟩ rfl
        exact ⟨t', hrep', hunread', hreads.available_eq⟩
      · have hpos : 1 ≤ c.length := List.length_pos_of_ne_nil hc
        simp only [hpos, decide_true, if_true]
        exact RunningWith.settles ih
          ⟨rfl, h.ctx_eq, h.opened, h.pending, h.connected, hreads⟩ rfl

/-- A new connection settles at the head of its chunks. -/
theorem settles_start (chunks : List (List UInt8)) :
    Settles HeadRun.step HeadRun.view (HeadRun.start chunks)
      (headOf Context.new chunks).view := by
  apply Settles.of_step
  have hstep : (HeadRun.start chunks).step
      = ⟨Context.new, (TcpRead.new.receive 1).2, chunks, .parked⟩ := rfl
  rw [hstep]
  refine settles_headOf chunks _ Context.new ⟨rfl, rfl, rfl, rfl, rfl, rfl, rfl, ?_⟩ rfl
  exact ⟨newTape [], new_represents [], rfl, rfl⟩

/-- One chunk gives the head of its bytes. -/
theorem view_headOf_single (u : List UInt8) :
    (headOf Context.new [u]).view = (parseHead Context.new u).view := by
  rw [headOf]
  cases hp : parseHead Context.new u with
  | rejected => rfl
  | complete ctx left => simp
  | opened ctx left =>
      simp only [List.flatten_nil, List.append_nil, headOf]
      split
      · rename_i hleft
        rw [hleft]
      · rfl

/-- The chunks give the same head when what both settle at is the same. -/
theorem sameHead_iff (chunks : List (List UInt8)) :
    SameHead chunks ↔
      (headOf Context.new chunks).view = (parseHead Context.new chunks.flatten).view := by
  have hchunks := settles_start chunks
  have hwhole := settles_start [chunks.flatten]
  rw [view_headOf_single] at hwhole
  constructor
  · rintro ⟨v, hv, hv'⟩
    rw [hchunks.unique hv, hwhole.unique hv']
  · intro heq
    exact ⟨_, hchunks, heq ▸ hwhole⟩

/-- **Request-head parsing and chunking.**  The chunks give the same head, with
the same bytes left for the body, as one chunk with all the bytes exactly when no
boundary inside the head falls between a CR and its LF or inside a line that later
bytes complete. -/
theorem head_chunking (chunks : List (List UInt8)) :
    SameHead chunks ↔ ∀ ps qs, chunks = ps ++ qs → harmless ps.flatten qs.flatten := by
  have hempty : parseHead Context.new [] = .opened Context.new [] := parseHead_none rfl rfl
  have hiff := view_headOf_iff chunks Context.new [] rfl hempty
  simp only [List.nil_append] at hiff
  rw [sameHead_iff, hiff]

/-- A request line that arrives in two chunks is never read. -/
theorem not_sameHead_split_request_line :
    ¬ SameHead [Fp.bytesOf "GET / H", Fp.bytesOf "TTP/1.0\r\n\r\n"] := by
  have hpart : splitLine (Fp.bytesOf "GET / H") = none := by decide +kernel
  have hline : splitLine (Fp.bytesOf "GET / H" ++ Fp.bytesOf "TTP/1.0\r\n\r\n") ≠ none := by
    decide +kernel
  have hne : Fp.bytesOf "GET / H" ≠ [] := by decide +kernel
  rw [sameHead_iff, headOf, parseHead_none rfl hpart]
  simp only [hne, if_false, List.flatten_cons, List.flatten_nil, List.append_nil]
  intro heq
  exact view_ne_of_line rfl hline heq.symm

end LuaFan
