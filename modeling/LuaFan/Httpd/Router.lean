/-
# The router (`modules/fan/httpd/httpd.lua`, `Router`)

`add_route` makes a Lua pattern of a path: each `:name` becomes a capture of a stretch without
slashes, and the rest stays as it is.  `match` tries the patterns of a method in turn.

* `matchesExactly_of_plain`: the first route whose path fits is found, with the values of its
  parameters, if all routes up to it are plain: no character of theirs is magic where it stands,
  no name comes twice, and there are no more parameters than a match may have captures.
-/
import LuaFan.Lib.LuaPattern

namespace LuaFan

open Fp LuaPattern

/-! ## The code -/

/-- `toupper` of the C locale. -/
def toUpper (b : UInt8) : UInt8 := if 97 ≤ b ∧ b ≤ 122 then b - 32 else b

structure Route (H : Type) where
  originalPath : List UInt8
  pattern : List UInt8
  paramNames : List (List UInt8)
  handler : H

/-- The lists of routes, by method. -/
structure Router (H : Type) where
  routes : List (List UInt8 × List (Route H))

/-- The values of the parameters, by name. -/
abbrev Params := List UInt8 → Option CaptureValue

namespace Router

variable {H : Type}

def new : Router H := ⟨[]⟩

/-- `self.routes[method]`. -/
def routesOf (self : Router H) (method : List UInt8) : Option (List (Route H)) :=
  (self.routes.find? fun e => e.1 = method).map Prod.snd

/-- The text of the only capture of a match. -/
def captureName : List CaptureValue → List UInt8
  | [.text name] => name
  | _ => []

/-- `Router:add_route`.  The text that replaces a parameter has no percent sign in it. -/
def addRoute (self : Router H) (method path : List UInt8) (handler : H) : Except PatternError (Router H) := do
  let method := method.map toUpper
  let names ← gmatch path (bytesOf ":([%w_]+)")
  let pattern ← gsub path (bytesOf ":([%w_]+)") fun _ => bytesOf "([^/]+)"
  let route : Route H := ⟨path, bytesOf "^" ++ pattern ++ bytesOf "$", names.map captureName, handler⟩
  match self.routesOf method with
  | none => return ⟨(method, [route]) :: self.routes⟩
  | some _ => return ⟨self.routes.map fun e => if e.1 = method then (e.1, e.2 ++ [route]) else e⟩

/-- `params[name] = matches[i]`, for one name after the other. -/
def bindParams (names : List (List UInt8)) (values : List CaptureValue) : Params :=
  (names.zipIdx).foldl (fun params e => Function.update params e.1 (values[e.2]?)) fun _ => none

/-- The loop of `Router:match`. -/
def matchRoutes (path : List UInt8) : List (Route H) → Except PatternError (Option (H × Params))
  | [] => .ok none
  | route :: routes => do
      match ← strMatch path route.pattern with
      | some (value :: values) => return some (route.handler, bindParams route.paramNames (value :: values))
      | _ => matchRoutes path routes

/-- `Router:match`. -/
def matchRoute (self : Router H) (method path : List UInt8) : Except PatternError (Option (H × Params)) :=
  match self.routesOf (method.map toUpper) with
  | none => .ok none
  | some routes => matchRoutes path routes

end Router

/-! ## What a path stands for -/

/-- A part of a route's path: a character, or a parameter. -/
inductive RouteSegment where
  | literal (b : UInt8)
  | param (name : List UInt8)
  deriving DecidableEq

def isWord (b : UInt8) : Bool := isAlnum b || b == ascii '_'

/-- A colon with a name behind it. -/
def scanParam (c : UInt8) (rest : List UInt8) : Option (ℕ × List CaptureValue) :=
  let name := rest.takeWhile isWord
  if c = ascii ':' ∧ name ≠ [] then some (name.length, [.text name]) else none

namespace RouteSegment

def ofToken : Token → RouteSegment
  | .byte b => literal b
  | .hit values => param (Router.captureName values)

def name : RouteSegment → Option (List UInt8)
  | literal _ => none
  | param name => some name

/-- The part of the pattern that a segment becomes. -/
def pattern : RouteSegment → List UInt8
  | literal b => [b]
  | param _ => bytesOf "([^/]+)"

/-- The text of a segment, with values for the parameters. -/
def fill (σ : List UInt8 → List UInt8) : RouteSegment → List UInt8
  | literal b => [b]
  | param name => σ name

end RouteSegment

/-- The segments of a route's path. -/
def segments (path : List UInt8) : List RouteSegment := (tokens scanParam path).map RouteSegment.ofToken

def paramsOf (segs : List RouteSegment) : List (List UInt8) := segs.filterMap RouteSegment.name

/-- A value that a parameter may have. -/
def IsValue (v : List UInt8) : Prop := v ≠ [] ∧ ascii '/' ∉ v

/-- The path is the route's path with each parameter replaced. -/
structure FitsRoute (segs : List RouteSegment) (σ : List UInt8 → List UInt8) (path : List UInt8) : Prop where
  values : ∀ name ∈ paramsOf segs, IsValue (σ name)
  path_eq : path = segs.flatMap (RouteSegment.fill σ)

/-- What a method's routes should give for a path: the first one that fits. -/
def FirstFit {H : Type} (routes : List (List UInt8 × H)) (path : List UInt8) : Option (H × Params) → Prop
  | none => ∀ route ∈ routes, ∀ σ, ¬FitsRoute (segments route.1) σ path
  | some (handler, params) =>
      ∃ before route after, routes = before ++ route :: after ∧
        (∀ earlier ∈ before, ∀ σ, ¬FitsRoute (segments earlier.1) σ path) ∧ handler = route.2 ∧
        ∃ σ, FitsRoute (segments route.1) σ path ∧
          params = fun name => if name ∈ paramsOf (segments route.1) then some (.text (σ name)) else none

/-! ## The patterns of `add_route` -/

theorem isItem_word : IsItem (bytesOf "[%w_]") := by
  have hset : bytesOf "[%w_]" = [91, 37, 119, 95, 93] := by decide +kernel
  rw [hset]
  exact ⟨fun p => rfl, 91, _, rfl, by decide, by decide, fun h => absurd h (by decide)⟩

theorem single_word : single (bytesOf "[%w_]") = isWord := by
  ext b
  revert b
  decide +kernel

/-- A colon and a name, as the pattern finds them. -/
theorem attempt_param {src rest : List UInt8} {s : ℕ} {c : UInt8} (hdrop : src.drop s = c :: rest) :
    attempt src (bytesOf ":([%w_]+)") s =
      .ok ((scanParam c rest).map fun r => (s + (r.1 + 1), [⟨s + 1, .closed r.1⟩])) := by
  have hpattern : bytesOf ":([%w_]+)" = [ascii ':'] ++ ascii '(' :: (bytesOf "[%w_]" ++ ascii '+' :: [ascii ')']) := by
    decide +kernel
  have hfirst : src.drop (s + 1) = rest := drop_of_drop_eq_cons hdrop 0
  have hclose : ∀ e, matchHere src 7 197 [ascii ')'] e [⟨s + 1, .unfinished⟩] =
      .ok (some (e, [⟨s + 1, .closed (e - (s + 1))⟩])) := by
    intro e
    rw [matchHere_close, matchHere_nil]
  rw [hpattern, attempt]
  show matchHere src 10 199 _ s [] = _
  rw [matchHere_once (isItem_byte (by decide)) (by decide) (by decide),
    matchHere_open (by decide) (by decide), matchHere_plus isItem_word, single_word, hdrop, hfirst]
  simp only [hclose, List.head?_cons, Option.any_some, single_byte (b := ascii ':') (by decide), beq_iff_eq,
    scanParam]
  cases rest with
  | nil => simp
  | cons b rest =>
      by_cases hc : c = ascii ':'
      · by_cases hb : isWord b = true
        · rw [maxExpand_longest (by simp)]
          simp [hc, hb]
          omega
        · simp [hb]
      · simp [hc, Ne.symm hc]

theorem scans_param : Scans (bytesOf ":([%w_]+)") scanParam where
  found := by
    intro src s c rest n values hdrop hscan
    rw [attempt_param hdrop, hscan]
    refine ⟨[⟨s + 1, .closed n⟩], rfl, ?_⟩
    have hfirst : src.drop (s + 1) = rest := drop_of_drop_eq_cons hdrop 0
    unfold scanParam at hscan
    simp only [Option.ite_none_right_eq_some] at hscan
    obtain ⟨-, heq⟩ := hscan
    cases heq
    have htake : (src.drop (s + 1)).take (rest.takeWhile isWord).length = rest.takeWhile isWord := by
      rw [hfirst]
      exact (List.prefix_iff_eq_take.mp (List.takeWhile_prefix isWord)).symm
    simp [captureValues, Capture.value, htake]
  missed := by
    intro src s c rest hdrop hscan
    rw [attempt_param hdrop, hscan]
    rfl
  ended := by
    intro src s hdrop
    have hpattern : bytesOf ":([%w_]+)" = [ascii ':'] ++ bytesOf "([%w_]+)" := by decide +kernel
    rw [hpattern, attempt]
    show matchHere src 10 199 _ s [] = _
    rw [matchHere_once (isItem_byte (by decide)) (by decide) (by decide), hdrop]
    rfl

/-- What `gmatch` and `gsub` make of the stretches of a path. -/
theorem tokens_segments (toks : List Token) :
    (toks.filterMap Token.values).map Router.captureName = paramsOf (toks.map RouteSegment.ofToken) ∧
      toks.flatMap (Token.replaced fun _ => bytesOf "([^/]+)") = (toks.map RouteSegment.ofToken).flatMap RouteSegment.pattern := by
  induction toks with
  | nil => exact ⟨rfl, rfl⟩
  | cons t toks ih =>
      cases t with
      | byte b => exact ⟨ih.1, congrArg (b :: ·) ih.2⟩
      | hit values =>
          exact ⟨congrArg (Router.captureName values :: ·) ih.1, congrArg (bytesOf "([^/]+)" ++ ·) ih.2⟩

namespace Router

variable {H : Type}

/-- The route that is added for a path. -/
def routeFor (path : List UInt8) (handler : H) : Route H :=
  ⟨path, bytesOf "^" ++ (segments path).flatMap RouteSegment.pattern ++ bytesOf "$", paramsOf (segments path), handler⟩

/-- The routes of a method, with none if there is no list for it. -/
def listed (self : Router H) (method : List UInt8) : List (Route H) := (self.routesOf method).getD []

/-- **A route is added** at the end of the list of its method. -/
theorem addRoute_listed (self : Router H) (method path : List UInt8) (handler : H) :
    ∃ router, self.addRoute method path handler = .ok router ∧ ∀ m,
      router.listed m = self.listed m ++ if method.map toUpper = m then [routeFor path handler] else [] := by
  have hnames := scans_param.gmatch_eq path
  have hpattern := scans_param.gsub_eq path fun _ => bytesOf "([^/]+)"
  obtain ⟨hparams, hsegs⟩ := tokens_segments (tokens scanParam path)
  have hadd : self.addRoute method path handler = .ok (match self.routesOf (method.map toUpper) with
      | none => ⟨(method.map toUpper, [routeFor path handler]) :: self.routes⟩
      | some _ => ⟨self.routes.map fun e =>
          if e.1 = method.map toUpper then (e.1, e.2 ++ [routeFor path handler]) else e⟩) := by
    simp only [addRoute, hnames, hpattern, bind, Except.bind, hparams, hsegs, pure, Except.pure]
    cases self.routesOf (method.map toUpper) <;> rfl
  refine ⟨_, hadd, fun m => ?_⟩
  cases hlist : self.routesOf (method.map toUpper) with
  | none =>
      by_cases hm : method.map toUpper = m
      · subst hm
        have hnil : self.listed (method.map toUpper) = [] := by rw [listed, hlist, Option.getD_none]
        rw [hnil]
        simp [listed, routesOf]
      · simp [listed, routesOf, hm]
  | some routes =>
      have hkey : ∀ e : List UInt8 × List (Route H),
          (if e.1 = method.map toUpper then (e.1, e.2 ++ [routeFor path handler]) else e).1 = e.1 := by
        intro e
        split <;> rfl
      have hfind : ∀ l : List (List UInt8 × List (Route H)),
          (l.map fun e => if e.1 = method.map toUpper then (e.1, e.2 ++ [routeFor path handler]) else e).find?
            (fun e => e.1 = m) =
          (l.find? fun e => e.1 = m).map fun e =>
            if e.1 = method.map toUpper then (e.1, e.2 ++ [routeFor path handler]) else e := by
        intro l
        rw [List.find?_map]
        congr 2
        ext e
        simp [hkey]
      simp only [listed, routesOf] at hlist ⊢
      rw [hfind]
      cases hm : self.routes.find? fun e => e.1 = m with
      | none =>
          have hne : method.map toUpper ≠ m := by
            rintro rfl
            rw [hm] at hlist
            cases hlist
          simp [hne]
      | some e =>
          have he : e.1 = m := by simpa using List.find?_some hm
          by_cases heq : method.map toUpper = m
          · simp [he, heq]
          · simp [he, Ne.symm heq, heq]

end Router

/-- The arguments of a call of `add_route`. -/
structure Registration (H : Type) where
  method : List UInt8
  path : List UInt8
  handler : H

/-- A router with its routes. -/
def register {H : Type} (regs : List (Registration H)) : Except PatternError (Router H) :=
  regs.foldlM (fun router reg => router.addRoute reg.method reg.path reg.handler) Router.new

/-- The paths and handlers that were registered for a method. -/
def registered {H : Type} (regs : List (Registration H)) (method : List UInt8) : List (List UInt8 × H) :=
  (regs.filter fun reg => reg.method.map toUpper = method).map fun reg => (reg.path, reg.handler)

theorem foldlM_addRoute {H : Type} (regs : List (Registration H)) :
    ∀ self : Router H, ∃ router,
      regs.foldlM (fun router reg => router.addRoute reg.method reg.path reg.handler) self = .ok router ∧
        ∀ m, router.listed m = self.listed m ++ (registered regs m).map fun r => Router.routeFor r.1 r.2 := by
  induction regs with
  | nil => exact fun self => ⟨self, rfl, fun m => by simp [registered]⟩
  | cons reg regs ih =>
      intro self
      obtain ⟨router₁, hadd, hlisted₁⟩ := self.addRoute_listed reg.method reg.path reg.handler
      obtain ⟨router, hrest, hlisted⟩ := ih router₁
      refine ⟨router, ?_, fun m => ?_⟩
      · rw [List.foldlM_cons, hadd]
        exact hrest
      · rw [hlisted, hlisted₁]
        by_cases hm : reg.method.map toUpper = m <;> simp [registered, hm]

/-! ## Matching a pattern -/

/-- The values fill the parameters of the segments, one after the other. -/
inductive Fills : List RouteSegment → List (List UInt8) → List UInt8 → Prop
  | nil : Fills [] [] []
  | literal {segs : List RouteSegment} {vs : List (List UInt8)} {text : List UInt8} (b : UInt8)
      (h : Fills segs vs text) : Fills (.literal b :: segs) vs (b :: text)
  | param {segs : List RouteSegment} {vs : List (List UInt8)} {text v : List UInt8} (name : List UInt8)
      (hv : IsValue v) (h : Fills segs vs text) : Fills (.param name :: segs) (v :: vs) (v ++ text)

/-- No character of the segments is magic where it stands in the pattern. -/
def PlainSegments : List RouteSegment → Prop
  | [] => True
  | .literal b :: segs =>
      IsPlain b ∧ (∀ b' rest, segs = .literal b' :: rest → isSuffix b' = false) ∧ PlainSegments segs
  | .param _ :: segs => PlainSegments segs

/-- The pattern of the segments, to its end. -/
def patternOf (segs : List RouteSegment) : List UInt8 := segs.flatMap RouteSegment.pattern ++ [ascii '$']

theorem patternOf_literal (b : UInt8) (segs : List RouteSegment) :
    patternOf (.literal b :: segs) = [b] ++ patternOf segs := rfl

theorem patternOf_param (name : List UInt8) (segs : List RouteSegment) :
    patternOf (.param name :: segs) =
      ascii '(' :: (bytesOf "[^/]" ++ ascii '+' :: ascii ')' :: patternOf segs) := by
  have hgroup : bytesOf "([^/]+)" = ascii '(' :: (bytesOf "[^/]" ++ [ascii '+', ascii ')']) := by decide +kernel
  rw [patternOf, List.flatMap_cons, RouteSegment.pattern, hgroup]
  simp [patternOf]

/-- Behind a literal nothing repeats it. -/
theorem not_isSuffix_patternOf {segs : List RouteSegment}
    (h : ∀ b rest, segs = .literal b :: rest → isSuffix b = false) : isSuffix ((patternOf segs).headD 0) = false := by
  cases segs with
  | nil => decide
  | cons seg rest =>
      cases seg with
      | literal b => exact h b rest rfl
      | param name =>
          rw [patternOf_param, List.headD_cons]
          decide

/-- What the matcher makes of the pattern from a place on: the captures are values that fill the
parameters, or there are none. -/
def Matches (src : List UInt8) (segs : List RouteSegment) (s : ℕ) (caps : List Capture) : Option (ℕ × List Capture) → Prop
  | none => ∀ vs, ¬Fills segs vs (src.drop s)
  | some (e, caps') => e = src.length ∧ ∃ vs new, Fills segs vs (src.drop s) ∧ caps' = new ++ caps ∧
      new.reverse.map (Capture.value src) = vs.map fun v => .ok (.text v)

section Stretch

variable {α : Type} {p : α → Bool} {l v text : List α}

/-- A part of the longest stretch that meets the condition. -/
theorem forall_mem_take {n : ℕ} (h : n ≤ (l.takeWhile p).length) : ∀ a ∈ l.take n, p a = true := by
  have hfirst : l.takeWhile p = l.take (l.takeWhile p).length := List.prefix_iff_eq_take.mp (List.takeWhile_prefix p)
  intro a ha
  refine List.mem_takeWhile_imp (p := p) (l := l) ?_
  rw [hfirst]
  exact (List.take_prefix_take_left h).subset ha

theorem length_le_takeWhile (text : List α) (h : ∀ a ∈ v, p a = true) : v.length ≤ ((v ++ text).takeWhile p).length := by
  rw [List.takeWhile_append_of_pos h, List.length_append]
  exact Nat.le_add_right _ _

end Stretch

/-- A parameter, with what comes of the rest behind each length of it. -/
theorem matches_param {src : List UInt8} {segs : List RouteSegment} {s : ℕ} {caps : List Capture} {name : List UInt8}
    {k : ℕ → Attempt} (hs : s ≤ src.length)
    (hk : ∀ e, s < e → e ≤ src.length → ∃ result, k e = .ok result ∧
      Matches src segs e (⟨s, .closed (e - s)⟩ :: caps) result) :
    ∃ result, (if (src.drop s).head?.any (fun c => c != ascii '/') then
        maxExpand k (s + 1) (((src.drop s).takeWhile fun c => c != ascii '/').length - 1)
      else .ok none) = .ok result ∧ Matches src (.param name :: segs) s caps result := by
  have hrun : ((src.drop s).takeWhile fun c => c != ascii '/').length ≤ src.length - s := by
    rw [← List.length_drop]
    exact (List.takeWhile_prefix _).length_le
  -- a value that fills the parameter is one of the lengths that are tried
  have hfills : ∀ vs, Fills (.param name :: segs) vs (src.drop s) →
      ∃ i vs', i < ((src.drop s).takeWhile fun c => c != ascii '/').length ∧
        Fills segs vs' (src.drop (s + 1 + i)) := by
    intro vs hfills
    generalize hdrop : src.drop s = text at hfills
    cases hfills with
    | @param _ vs' text v _ hv h =>
        have hmem : ∀ c ∈ v, (c != ascii '/') = true := by
          intro c hc
          have hne : c ≠ ascii '/' := by
            rintro rfl
            exact hv.2 hc
          simpa using hne
        have hlen := length_le_takeWhile text hmem
        have hpos : 0 < v.length := List.length_pos_of_ne_nil hv.1
        refine ⟨v.length - 1, vs', by omega, ?_⟩
        have hplace : s + 1 + (v.length - 1) = s + v.length := by omega
        rw [hplace, ← List.drop_drop, hdrop, List.drop_left]
        exact h
  split
  · rename_i hhead
    have hpos : 0 < ((src.drop s).takeWhile fun c => c != ascii '/').length := by
      cases hdrop : src.drop s with
      | nil =>
          rw [hdrop] at hhead
          cases hhead
      | cons c rest =>
          rw [hdrop] at hhead
          simp only [List.head?_cons, Option.any_some] at hhead
          simp [hhead]
    by_cases hnone : maxExpand k (s + 1) (((src.drop s).takeWhile fun c => c != ascii '/').length - 1) = .ok none
    · refine ⟨none, hnone, fun vs hvs => ?_⟩
      obtain ⟨i, vs', hi, hrest⟩ := hfills vs hvs
      obtain ⟨result, hresult, hmatches⟩ := hk (s + 1 + i) (by omega) (by omega)
      rw [forall_of_maxExpand hnone i (by omega)] at hresult
      cases hresult
      exact hmatches vs' hrest
    · obtain ⟨i, hi, hfound⟩ := exists_of_maxExpand hnone
      obtain ⟨result, hresult, hmatches⟩ := hk (s + 1 + i) (by omega) (by omega)
      refine ⟨result, hfound.trans hresult, ?_⟩
      cases result with
      | none => exact absurd (hfound.trans hresult) hnone
      | some found =>
          obtain ⟨hend, vs, new, hrest, hcaps, hvalues⟩ := hmatches
          have hlen : s + 1 + i - s = i + 1 := by omega
          have hplace : s + 1 + i = s + (i + 1) := by omega
          have hsplit : (src.drop s).take (i + 1) ++ src.drop (s + 1 + i) = src.drop s := by
            rw [hplace, ← List.drop_drop, List.take_append_drop]
          have hvalue : IsValue ((src.drop s).take (i + 1)) := by
            constructor
            · intro hnil
              have hzero := congrArg List.length hnil
              rw [List.length_take, List.length_drop, List.length_nil] at hzero
              omega
            · intro hmem
              have hnot := forall_mem_take (p := fun c => c != ascii '/') (by omega) _ hmem
              simp at hnot
          refine ⟨hend, (src.drop s).take (i + 1) :: vs, new ++ [⟨s, .closed (i + 1)⟩], ?_, ?_, ?_⟩
          · have hall := Fills.param name hvalue hrest
            rwa [hsplit] at hall
          · rw [hcaps, hlen, List.append_assoc]
            rfl
          · rw [List.reverse_append, List.map_append, hvalues]
            rfl
  · rename_i hhead
    refine ⟨none, rfl, fun vs hvs => ?_⟩
    obtain ⟨i, vs', hi, -⟩ := hfills vs hvs
    cases hdrop : src.drop s with
    | nil =>
        rw [hdrop] at hi
        cases hi
    | cons c rest =>
        rw [hdrop] at hi hhead
        simp only [List.head?_cons, Option.any_some] at hhead
        simp [hhead] at hi

/-- **The matcher on a plain pattern** finds values for the parameters exactly if there are any. -/
theorem matchHere_patternOf {src : List UInt8} {segs : List RouteSegment} :
    ∀ {rounds depth s : ℕ} {caps : List Capture}, PlainSegments segs → (patternOf segs).length < rounds →
      3 * (paramsOf segs).length ≤ depth → caps.length + (paramsOf segs).length ≤ maxCaptures → s ≤ src.length →
      ∃ result, matchHere src rounds depth (patternOf segs) s caps = .ok result ∧ Matches src segs s caps result := by
  induction segs with
  | nil =>
      intro rounds depth s caps hplain hrounds hdepth hcaps hs
      obtain ⟨rounds, rfl⟩ := Nat.exists_eq_succ_of_ne_zero (Nat.ne_of_gt (Nat.zero_lt_of_lt hrounds))
      refine ⟨_, matchHere_end, ?_⟩
      by_cases hend : s = src.length
      · rw [if_pos hend]
        refine ⟨hend, [], [], ?_, rfl, rfl⟩
        rw [hend, List.drop_length]
        exact .nil
      · rw [if_neg hend]
        intro vs hfills
        cases hdrop : src.drop s with
        | nil =>
            have hle := List.drop_eq_nil_iff.mp hdrop
            omega
        | cons c rest =>
            rw [hdrop] at hfills
            cases hfills
  | cons seg segs ih =>
      intro rounds depth s caps hplain hrounds hdepth hcaps hs
      obtain ⟨rounds, rfl⟩ := Nat.exists_eq_succ_of_ne_zero (Nat.ne_of_gt (Nat.zero_lt_of_lt hrounds))
      cases seg with
      | literal b =>
          obtain ⟨hb, hnext, hplain⟩ := hplain
          have hrest : [b] = [ascii '$'] → patternOf segs ≠ [] := fun _ => by simp [patternOf]
          rw [patternOf_literal, Nat.succ_eq_add_one,
            matchHere_once (isItem_byte hb) hrest (not_isSuffix_patternOf hnext)]
          rw [patternOf_literal, List.length_append, List.length_singleton] at hrounds
          cases hdrop : src.drop s with
          | nil =>
              refine ⟨none, rfl, fun vs hfills => ?_⟩
              rw [hdrop] at hfills
              cases hfills
          | cons c rest =>
              have hlt : s < src.length := by
                by_contra hge
                rw [List.drop_eq_nil_iff.mpr (not_lt.mp hge)] at hdrop
                cases hdrop
              have hfirst : src.drop (s + 1) = rest := drop_of_drop_eq_cons hdrop 0
              rw [List.head?_cons, Option.any_some, single_byte hb]
              by_cases hbc : b = c
              · subst hbc
                obtain ⟨result, hmatch, hresult⟩ := ih hplain (Nat.lt_of_succ_lt_succ (Nat.add_comm _ 1 ▸ hrounds)) hdepth hcaps
                  (Nat.succ_le_of_lt hlt)
                refine ⟨result, by rw [beq_self_eq_true, if_pos rfl, hmatch], ?_⟩
                cases result with
                | none =>
                    intro vs hfills
                    rw [hdrop] at hfills
                    cases hfills with
                    | literal b h => exact hresult vs (hfirst.symm ▸ h)
                | some found =>
                    obtain ⟨hend, vs, new, hfills, hcaps', hvalues⟩ := hresult
                    rw [hfirst] at hfills
                    exact ⟨hend, vs, new, hdrop ▸ .literal b hfills, hcaps', hvalues⟩
              · refine ⟨none, by rw [if_neg (by simpa using hbc)], fun vs hfills => ?_⟩
                rw [hdrop] at hfills
                cases hfills
                exact hbc rfl
      | param name =>
          rw [patternOf_param] at hrounds ⊢
          have hset : (bytesOf "[^/]").length = 4 := by decide +kernel
          simp only [List.length_cons, List.length_append, hset] at hrounds
          have hparams : (paramsOf (.param name :: segs)).length = (paramsOf segs).length + 1 := rfl
          rw [hparams] at hdepth hcaps
          obtain ⟨rounds, rfl⟩ := Nat.exists_eq_add_of_le' (show 2 ≤ rounds by omega)
          obtain ⟨depth, rfl⟩ := Nat.exists_eq_add_of_le' (show 3 ≤ depth by omega)
          rw [Nat.succ_eq_add_one, matchHere_open (head?_ne_close isItem_notSlash) (by omega),
            matchHere_plus isItem_notSlash, single_notSlash]
          refine matches_param hs fun e hlt hle => ?_
          rw [matchHere_close]
          exact ih hplain (by omega) (by omega) (by rw [List.length_cons]; omega) hle

/-! ## Matching a route -/

theorem Fills.length_eq {segs : List RouteSegment} {vs : List (List UInt8)} {text : List UInt8} (h : Fills segs vs text) :
    vs.length = (paramsOf segs).length := by
  induction h with
  | nil => rfl
  | literal b h ih => exact ih
  | param name hv h ih => exact congrArg (· + 1) ih

/-- Values for the names are values one after the other. -/
theorem FitsRoute.fills {segs : List RouteSegment} {σ : List UInt8 → List UInt8} {path : List UInt8} (h : FitsRoute segs σ path) :
    Fills segs ((paramsOf segs).map σ) path := by
  obtain ⟨hvalues, rfl⟩ := h
  induction segs with
  | nil => exact .nil
  | cons seg segs ih =>
      cases seg with
      | literal b => exact .literal b (ih hvalues)
      | param name =>
          have hboth := List.forall_mem_cons.mp (show ∀ n ∈ name :: paramsOf segs, IsValue (σ n) from hvalues)
          exact .param name hboth.1 (ih hboth.2)

/-- Only the values of the names that occur count. -/
theorem flatMap_fill_congr {segs : List RouteSegment} {σ τ : List UInt8 → List UInt8}
    (h : ∀ name ∈ paramsOf segs, σ name = τ name) :
    segs.flatMap (RouteSegment.fill σ) = segs.flatMap (RouteSegment.fill τ) := by
  induction segs with
  | nil => rfl
  | cons seg segs ih =>
      cases seg with
      | literal b => exact congrArg (b :: ·) (ih h)
      | param name =>
          have hboth := List.forall_mem_cons.mp (show ∀ n ∈ name :: paramsOf segs, σ n = τ n from h)
          rw [List.flatMap_cons, List.flatMap_cons, ih hboth.2]
          exact congrArg (· ++ segs.flatMap (RouteSegment.fill τ)) hboth.1

/-- With different names, values one after the other are values for the names. -/
theorem Fills.fits {segs : List RouteSegment} {vs : List (List UInt8)} {path : List UInt8} (h : Fills segs vs path)
    (hnames : (paramsOf segs).Nodup) : ∃ σ, FitsRoute segs σ path ∧ (paramsOf segs).map σ = vs := by
  induction h with
  | nil => exact ⟨fun _ => [], ⟨by simp [paramsOf], rfl⟩, rfl⟩
  | literal b h ih =>
      obtain ⟨σ, hfits, hvs⟩ := ih hnames
      exact ⟨σ, ⟨hfits.values, congrArg (b :: ·) hfits.path_eq⟩, hvs⟩
  | @param segs vs text v name hv h ih =>
      obtain ⟨hnot, hnames⟩ := List.nodup_cons.mp (show (name :: paramsOf segs).Nodup from hnames)
      obtain ⟨σ, hfits, hvs⟩ := ih hnames
      have hsame : ∀ n ∈ paramsOf segs, Function.update σ name v n = σ n := by
        intro n hn
        have hne : n ≠ name := by
          rintro rfl
          exact hnot hn
        rw [Function.update_of_ne hne]
      refine ⟨Function.update σ name v, ⟨?_, ?_⟩, ?_⟩
      · show ∀ n ∈ name :: paramsOf segs, IsValue (Function.update σ name v n)
        refine List.forall_mem_cons.mpr ⟨by rwa [Function.update_self], fun n hn => ?_⟩
        rw [hsame n hn]
        exact hfits.values n hn
      · rw [List.flatMap_cons, flatMap_fill_congr hsame, ← hfits.path_eq]
        exact congrArg (· ++ text) (Function.update_self name v σ).symm
      · show (name :: paramsOf segs).map (Function.update σ name v) = v :: vs
        rw [List.map_cons, Function.update_self, List.map_congr_left hsame, hvs]

theorem mapM_ok {α β ε : Type} {f : α → Except ε β} {l : List α} :
    ∀ {ys : List β}, l.map f = ys.map .ok → l.mapM f = .ok ys := by
  induction l with
  | nil =>
      intro ys h
      rw [List.map_eq_nil_iff.mp h.symm]
      rfl
  | cons a l ih =>
      intro ys h
      cases ys with
      | nil => cases h
      | cons y ys =>
          injection h with hhead htail
          rw [List.mapM_cons, hhead, ih htail]
          rfl

/-- **`string.match` on a plain route** finds values for the parameters exactly if there are
any. -/
theorem strMatch_plain {segs : List RouteSegment} (hplain : PlainSegments segs)
    (hparams : (paramsOf segs).length ≤ maxCaptures) (path : List UInt8) :
    (strMatch path (ascii '^' :: patternOf segs) = .ok none ∧ ∀ vs, ¬Fills segs vs path) ∨
      ∃ vs values, strMatch path (ascii '^' :: patternOf segs) = .ok (some values) ∧ values ≠ [] ∧
        Fills segs vs path ∧ ∀ i < vs.length, values[i]? = vs[i]?.map CaptureValue.text := by
  have hdepth : 3 * (paramsOf segs).length ≤ maxDepth - 1 := (Nat.mul_le_mul_left 3 hparams).trans (by decide)
  have hcaps : ([] : List Capture).length + (paramsOf segs).length ≤ maxCaptures := by simpa using hparams
  obtain ⟨result, hmatch, hresult⟩ :=
    matchHere_patternOf hplain (Nat.lt_succ_self _) hdepth hcaps (Nat.zero_le path.length)
  have hsearch : strMatch path (ascii '^' :: patternOf segs) = search path (patternOf segs) 1 0 := by
    rw [strMatch, if_pos rfl]
  have hattempt : attempt path (patternOf segs) 0 = .ok result := hmatch
  rw [hsearch, search, hattempt]
  cases result with
  | none => exact Or.inl ⟨rfl, fun vs hvs => hresult vs (by rwa [List.drop_zero])⟩
  | some found =>
      obtain ⟨e, caps⟩ := found
      obtain ⟨hend, vs, new, hfills, hcaps, hvalues⟩ := hresult
      rw [List.append_nil] at hcaps
      rw [List.drop_zero] at hfills
      refine Or.inr ⟨vs, ?_⟩
      cases vs with
      | nil =>
          have hnil : caps = [] := by
            rw [hcaps]
            exact List.reverse_eq_nil_iff.mp (List.map_eq_nil_iff.mp hvalues)
          refine ⟨[.text (path.take e)], ?_, List.cons_ne_nil _ _, hfills, fun i hi => absurd hi (Nat.not_lt_zero i)⟩
          simp [captureValues, hnil, bind, Except.bind, pure, Except.pure]
      | cons v vs =>
          have hne : caps ≠ [] := by
            rintro rfl
            rw [← hcaps] at hvalues
            cases hvalues
          have hmap : caps.reverse.mapM (Capture.value path) = .ok ((v :: vs).map CaptureValue.text) := by
            refine mapM_ok ?_
            rw [hcaps, hvalues, List.map_map]
            rfl
          refine ⟨(v :: vs).map .text, ?_, by simp, hfills, fun i _ => by rw [List.getElem?_map]⟩
          simp only [captureValues, if_neg hne, hmap, bind, Except.bind, pure, Except.pure]

/-- Each name is bound to its value. -/
theorem bindParams_eq {names : List (List UInt8)} {values : List CaptureValue} {σ : List UInt8 → List UInt8}
    (h : ∀ i < names.length, values[i]? = (names.map σ)[i]?.map CaptureValue.text) :
    Router.bindParams names values = fun name => if name ∈ names then some (.text (σ name)) else none := by
  have hfold : ∀ (rest : List (List UInt8)) (k : ℕ) (params : Params),
      (∀ i < rest.length, values[k + i]? = (rest.map σ)[i]?.map CaptureValue.text) →
      (rest.zipIdx k).foldl (fun (params : Params) e => Function.update params e.1 (values[e.2]?)) params =
        fun name => if name ∈ rest then some (.text (σ name)) else params name := by
    intro rest
    induction rest with
    | nil => intro k params _; simp
    | cons n rest ih =>
        intro k params hrest
        have hfirst := hrest 0 (Nat.zero_lt_succ _)
        rw [List.zipIdx_cons, List.foldl_cons, ih]
        · funext name
          by_cases hmem : name ∈ rest
          · simp [hmem]
          · by_cases heq : name = n
            · subst heq
              simpa [hmem] using hfirst
            · simp [hmem, heq]
        · intro i hi
          have hnext := hrest (i + 1) (Nat.succ_lt_succ hi)
          rw [Nat.add_right_comm, Nat.add_assoc]
          simpa using hnext
  have hall := hfold names 0 (fun _ => none) (by simpa using h)
  exact hall

/-- A route whose text means itself. -/
structure PlainRoute (path : List UInt8) : Prop where
  segments : PlainSegments (segments path)
  names : (paramsOf (LuaFan.segments path)).Nodup
  params : (paramsOf (LuaFan.segments path)).length ≤ maxCaptures

section Routes

variable {H : Type} {path text : List UInt8} {handler : H} {rest : List (Route H)}

/-- A plain route that fits is found, and one that does not is passed over. -/
theorem matchRoutes_cons (path : List UInt8) (handler : H) (h : PlainRoute text) :
    (Router.matchRoutes path (Router.routeFor text handler :: rest) = Router.matchRoutes path rest ∧
        ∀ σ, ¬FitsRoute (segments text) σ path) ∨
      ∃ σ, FitsRoute (segments text) σ path ∧
        Router.matchRoutes path (Router.routeFor text handler :: rest) =
          .ok (some (handler, fun name => if name ∈ paramsOf (segments text) then some (.text (σ name)) else none)) := by
  have hpattern : (Router.routeFor text handler).pattern = ascii '^' :: patternOf (segments text) := by
    have hbounds : bytesOf "^" = [ascii '^'] ∧ bytesOf "$" = [ascii '$'] := by decide +kernel
    rw [Router.routeFor, hbounds.1, hbounds.2]
    rfl
  rw [Router.matchRoutes, hpattern]
  rcases strMatch_plain h.segments h.params path with ⟨hnone, hnot⟩ | ⟨vs, values, hsome, hne, hfills, hvalues⟩
  · rw [hnone]
    exact Or.inl ⟨rfl, fun σ hfits => hnot _ hfits.fills⟩
  · obtain ⟨σ, hfits, hvs⟩ := hfills.fits h.names
    obtain ⟨value, more, rfl⟩ := List.exists_cons_of_ne_nil hne
    have hbind : Router.bindParams (paramsOf (segments text)) (value :: more) =
        fun name => if name ∈ paramsOf (segments text) then some (.text (σ name)) else none := by
      refine bindParams_eq fun i hi => ?_
      rw [hvs]
      exact hvalues i (by rwa [hfills.length_eq])
    rw [hsome]
    refine Or.inr ⟨σ, hfits, ?_⟩
    simp only [bind, Except.bind, pure, Except.pure]
    rw [← hbind]
    rfl

/-- The routes that are tried before one fits are plain. -/
def PlainUntilFit (routes : List (List UInt8 × H)) (path : List UInt8) : Prop :=
  ∀ before route after, routes = before ++ route :: after →
    (∀ earlier ∈ before, ∀ σ, ¬FitsRoute (segments earlier.1) σ path) → PlainRoute route.1

/-- The loop over the routes finds the first that fits. -/
theorem matchRoutes_firstFit {routes : List (List UInt8 × H)} (h : PlainUntilFit routes path) :
    ∃ result, Router.matchRoutes path (routes.map fun r => Router.routeFor r.1 r.2) = .ok result ∧
      FirstFit routes path result := by
  induction routes with
  | nil => exact ⟨none, rfl, by simp [FirstFit]⟩
  | cons route routes ih =>
      rw [List.map_cons]
      have hplain : PlainRoute route.1 := h [] route routes rfl (by simp)
      rcases matchRoutes_cons path route.2 hplain with ⟨hnext, hnot⟩ | ⟨σ, hfits, hfound⟩
      · have hrest : PlainUntilFit routes path := by
          intro before route' after heq hbefore
          refine h (route :: before) route' after (by rw [heq, List.cons_append]) ?_
          exact List.forall_mem_cons.mpr ⟨hnot, hbefore⟩
        obtain ⟨result, hresult, hfirst⟩ := ih hrest
        refine ⟨result, hnext.trans hresult, ?_⟩
        cases result with
        | none => exact List.forall_mem_cons.mpr ⟨hnot, hfirst⟩
        | some found =>
            obtain ⟨before, route', after, heq, hbefore, hrest⟩ := hfirst
            exact ⟨route :: before, route', after, by rw [heq, List.cons_append],
              List.forall_mem_cons.mpr ⟨hnot, hbefore⟩, hrest⟩
      · exact ⟨_, hfound, [], route, routes, rfl, by simp, rfl, σ, hfits, rfl⟩

end Routes

/-- The router gives for a request what its registrations say. -/
def MatchesExactly {H : Type} (regs : List (Registration H)) (method path : List UInt8) : Prop :=
  ∃ router result, register regs = .ok router ∧ router.matchRoute method path = .ok result ∧
    FirstFit (registered regs (method.map toUpper)) path result

/-- The router finds the first route that fits, if those before it and it are plain. -/
theorem matchesExactly_of_plain {H : Type} {regs : List (Registration H)} {method path : List UInt8}
    (hplain : PlainUntilFit (registered regs (method.map toUpper)) path) : MatchesExactly regs method path := by
  obtain ⟨router, hrouter, hlisted⟩ := foldlM_addRoute regs Router.new
  obtain ⟨result, hresult, hfirst⟩ := matchRoutes_firstFit hplain
  refine ⟨router, result, hrouter, ?_, hfirst⟩
  have hroutes := hlisted (method.map toUpper)
  rw [Router.listed, Router.listed, Router.new] at hroutes
  rw [Router.matchRoute]
  cases hof : router.routesOf (method.map toUpper) with
  | none =>
      rw [hof] at hroutes
      rw [← hresult]
      have hnil : (registered regs (method.map toUpper)).map (fun r => Router.routeFor r.1 r.2) = [] := by
        simpa [Router.routesOf] using hroutes.symm
      rw [hnil]
      rfl
  | some routes =>
      rw [hof, Option.getD_some] at hroutes
      rw [← hresult, hroutes]
      rfl

end LuaFan
