/-
# Routes with magic characters (`modules/fan/httpd/httpd.lua`, `Router`)

A path that is shorter than all that fit a route, or differs from them in a character, tells the
pattern of the route from its text: where something in the text is magic, the pattern takes it.

* `router_match_exact`: plain routes are matched as they should be, and a route that is **not
  plain** is not, if its text has no percent sign and no opening bracket.
-/
import LuaFan.Httpd.Router

namespace LuaFan

open Fp LuaPattern

/-! ## The shortest path -/

/-- No percent sign and no opening bracket is a part of the text. -/
def NoClasses (segs : List RouteSegment) : Prop := ∀ b, .literal b ∈ segs → b ≠ ascii '%' ∧ b ≠ ascii '['

/-- A character that an item of one character matches; it is never a point. -/
def standIn (b : UInt8) : UInt8 := if b = ascii '.' then ascii 'x' else b

def isParen (b : UInt8) : Bool := b == ascii '(' || b == ascii ')'

/-- What the pattern takes at least: nothing for parentheses and for items that may be left
out, and one character for each other item. -/
def shortest : List RouteSegment → List UInt8
  | [] => []
  | .param _ :: segs => ascii 'x' :: shortest segs
  | .literal b :: .literal q :: segs =>
      if isParen b then shortest (.literal q :: segs)
      else if q = ascii '+' then standIn b :: shortest segs
      else if isSuffix q then shortest segs
      else standIn b :: shortest (.literal q :: segs)
  | .literal b :: segs => if isParen b then shortest segs else standIn b :: shortest segs

theorem length_shortest_le (segs : List RouteSegment) : (shortest segs).length ≤ segs.length := by
  fun_induction shortest segs <;> simp_all <;> omega

theorem Fills.length_le {segs : List RouteSegment} {vs : List (List UInt8)} {text : List UInt8} (h : Fills segs vs text) :
    segs.length ≤ text.length := by
  induction h with
  | nil => exact le_rfl
  | literal b h ih => exact Nat.succ_le_succ ih
  | param name hv h ih =>
      have hpos := List.length_pos_of_ne_nil hv.1
      rw [List.length_append, List.length_cons]
      omega

theorem isPlain_of_noClasses {b : UInt8} (h : b ≠ ascii '%' ∧ b ≠ ascii '[') (hparen : isParen b = false)
    (hdot : b ≠ ascii '.') : IsPlain b := by
  simp only [isParen, Bool.or_eq_false_iff, beq_eq_false_iff_ne] at hparen
  exact ⟨hparen.1, hparen.2, h.1, h.2, hdot⟩

theorem NoClasses.tail {seg : RouteSegment} {segs : List RouteSegment} (h : NoClasses (seg :: segs)) : NoClasses segs :=
  fun b hb => h b (List.mem_cons_of_mem _ hb)

/-- Filling is filling the first segment, and then the others. -/
theorem fills_param {name text : List UInt8} {segs : List RouteSegment} {vs : List (List UInt8)}
    (h : Fills (.param name :: segs) vs (ascii 'x' :: text)) (hlen : text.length ≤ segs.length) :
    ∃ vs', Fills segs vs' text := by
  generalize hall : ascii 'x' :: text = all at h
  cases h with
  | @param _ vs' rest v _ hv hrest =>
      have hle := hrest.length_le
      cases v with
      | nil => exact absurd rfl hv.1
      | cons c v =>
          rw [List.cons_append] at hall
          injection hall with hhead htail
          have hnil : v = [] := by
            have hsum := congrArg List.length htail
            rw [List.length_append] at hsum
            exact List.eq_nil_of_length_eq_zero (by omega)
          rw [hnil, List.nil_append] at htail
          exact ⟨vs', htail ▸ hrest⟩

theorem fills_literal {b c : UInt8} {text : List UInt8} {segs : List RouteSegment} {vs : List (List UInt8)}
    (h : Fills (.literal b :: segs) vs (c :: text)) : c = b ∧ Fills segs vs text := by
  cases h with
  | literal b h => exact ⟨rfl, h⟩

theorem standIn_eq_self {b : UInt8} (h : standIn b = b) : b ≠ ascii '.' := by
  rintro rfl
  exact absurd h (by decide)

/-- **A route that the shortest path fits is plain.** -/
theorem plainSegments_of_fills (segs : List RouteSegment) :
    ∀ vs, NoClasses segs → Fills segs vs (shortest segs) → PlainSegments segs := by
  fun_induction shortest segs with
  | case1 => exact fun _ _ _ => trivial
  | case2 name segs ih =>
      intro vs hfree hfills
      obtain ⟨vs', hrest⟩ := fills_param hfills (length_shortest_le segs)
      exact ih vs' hfree.tail hrest
  | case3 b q segs hparen ih =>
      intro vs hfree hfills
      have hle := hfills.length_le
      have hshort := length_shortest_le (.literal q :: segs)
      simp only [List.length_cons] at hle hshort
      omega
  | case4 b segs hparen ih =>
      intro vs hfree hfills
      have hle := hfills.length_le
      have hshort := length_shortest_le segs
      simp only [List.length_cons] at hle
      omega
  | case5 b q segs hparen hplus hsuffix ih =>
      intro vs hfree hfills
      have hle := hfills.length_le
      have hshort := length_shortest_le segs
      simp only [List.length_cons] at hle
      omega
  | case6 b q segs hparen hplus hsuffix ih =>
      intro vs hfree hfills
      obtain ⟨hb, hrest⟩ := fills_literal hfills
      refine ⟨?_, ?_, ih vs hfree.tail hrest⟩
      · exact isPlain_of_noClasses (hfree b List.mem_cons_self) (by simpa using hparen) (standIn_eq_self hb)
      · intro b' rest heq
        cases heq
        simpa using hsuffix
  | case7 b segs hnext hparen ih =>
      intro vs hfree hfills
      have hle := hfills.length_le
      have hshort := length_shortest_le segs
      simp only [List.length_cons] at hle
      omega
  | case8 b segs hnext hparen ih =>
      intro vs hfree hfills
      obtain ⟨hb, hrest⟩ := fills_literal hfills
      refine ⟨?_, ?_, ih vs hfree.tail hrest⟩
      · exact isPlain_of_noClasses (hfree b List.mem_cons_self) (by simpa using hparen) (standIn_eq_self hb)
      · intro b' rest heq
        exact absurd heq (hnext b' rest)

/-! ## The pattern takes it -/

theorem shortest_paren {b : UInt8} (hb : isParen b = true) (segs : List RouteSegment) :
    shortest (.literal b :: segs) = shortest segs := by
  cases segs with
  | nil => simp [shortest, hb]
  | cons seg segs => cases seg <;> simp [shortest, hb]

/-- A character behind which nothing repeats it. -/
theorem shortest_once {b : UInt8} {segs : List RouteSegment} (hb : isParen b = false)
    (hnext : ∀ q rest, segs = .literal q :: rest → isSuffix q = false) :
    shortest (.literal b :: segs) = standIn b :: shortest segs := by
  cases segs with
  | nil => simp [shortest, hb]
  | cons seg segs =>
      cases seg with
      | param name => simp [shortest, hb]
      | literal q =>
          have hq := hnext q segs rfl
          have hplus : q ≠ ascii '+' := by
            rintro rfl
            exact absurd hq (by decide)
          rw [shortest, if_neg (by simp [hb]), if_neg hplus, if_neg (by simp [hq])]

theorem isItem_literal {b : UInt8} (h : b ≠ ascii '%' ∧ b ≠ ascii '[') (hparen : isParen b = false) : IsItem [b] := by
  by_cases hdot : b = ascii '.'
  · rw [hdot]
    exact isItem_dot
  · exact isItem_byte (isPlain_of_noClasses h hparen hdot)

theorem single_standIn {b : UInt8} (h : b ≠ ascii '%' ∧ b ≠ ascii '[') (hparen : isParen b = false) :
    single [b] (standIn b) = true := by
  by_cases hdot : b = ascii '.'
  · rw [hdot]
    decide
  · rw [standIn, if_neg hdot, single_byte (isPlain_of_noClasses h hparen hdot), beq_self_eq_true]

/-- **The matcher does not fail on the shortest path.** -/
theorem matchHere_shortest {src : List UInt8} {n : ℕ} :
    ∀ {segs : List RouteSegment} {rounds depth s : ℕ} {caps : List Capture}, segs.length ≤ n → NoClasses segs →
      s ≤ src.length → src.drop s = shortest segs →
      matchHere src rounds depth (patternOf segs) s caps ≠ .ok none := by
  induction n with
  | zero =>
      intro segs rounds depth s caps hlen hfree hs hdrop
      rw [List.length_eq_zero_iff.mp (Nat.le_zero.mp hlen)] at hdrop ⊢
      cases rounds with
      | zero => exact nofun
      | succ rounds =>
          have hend : s = src.length := le_antisymm hs (List.drop_eq_nil_iff.mp hdrop)
          have hmatch : matchHere src (rounds + 1) depth (patternOf []) s caps = _ := matchHere_end
          rw [hmatch, if_pos hend]
          exact nofun
  | succ n ih =>
      intro segs rounds depth s caps hlen hfree hs hdrop
      cases rounds with
      | zero => exact nofun
      | succ rounds =>
          cases segs with
          | nil => exact ih (Nat.zero_le n) hfree hs hdrop
          | cons seg segs =>
              have hle : segs.length ≤ n := Nat.le_of_succ_le_succ hlen
              -- behind a character that is taken
              have hnext : ∀ {c : UInt8} {text : List UInt8}, src.drop s = c :: text →
                  s + 1 ≤ src.length ∧ src.drop (s + 1) = text := by
                intro c text htext
                have hlt : s < src.length := by
                  by_contra hge
                  rw [List.drop_eq_nil_iff.mpr (not_lt.mp hge)] at htext
                  cases htext
                exact ⟨hlt, drop_of_drop_eq_cons htext 0⟩
              cases seg with
              | param name =>
                  obtain ⟨hs', hdrop'⟩ := hnext hdrop
                  rw [patternOf_param]
                  refine matchHere_open_ne_none (fun depth caps => ?_) fun hhead => ?_
                  · cases rounds with
                    | zero => exact nofun
                    | succ rounds =>
                        rw [matchHere_item isItem_notSlash (by simp)]
                        refine matchItem_plus_ne_none isItem_notSlash (c := ascii 'x') (by rw [hdrop]; rfl)
                          (by rw [single_notSlash]; decide) fun depth => ?_
                        cases rounds with
                        | zero => exact nofun
                        | succ rounds =>
                            exact matchHere_close_ne_none fun depth caps => ih hle hfree.tail hs' hdrop'
                  · exact absurd hhead (head?_ne_close isItem_notSlash)
              | literal b =>
                  rw [patternOf_literal]
                  by_cases hparen : isParen b = true
                  · rw [shortest_paren hparen] at hdrop
                    rcases Bool.or_eq_true_iff.mp hparen with hopen | hclose
                    · rw [beq_iff_eq.mp hopen]
                      show matchHere src (rounds + 1) depth (ascii '(' :: patternOf segs) s caps ≠ .ok none
                      refine matchHere_open_ne_none (fun depth caps => ih hle hfree.tail hs hdrop) fun hhead depth caps => ?_
                      -- the capture of a position
                      cases segs with
                      | nil => exact absurd hhead (by decide)
                      | cons seg rest =>
                          cases seg with
                          | param name =>
                              rw [patternOf_param, List.head?_cons] at hhead
                              exact absurd hhead (by decide)
                          | literal c =>
                              rw [patternOf_literal, List.singleton_append, List.head?_cons, Option.some.injEq] at hhead
                              subst hhead
                              rw [shortest_paren (by decide)] at hdrop
                              exact ih (Nat.le_of_succ_le hle) hfree.tail.tail hs hdrop
                    · rw [beq_iff_eq.mp hclose]
                      exact matchHere_close_ne_none fun depth caps => ih hle hfree.tail hs hdrop
                  · have hparen : isParen b = false := Bool.eq_false_iff.mpr hparen
                    have hb := hfree b List.mem_cons_self
                    have hitem := isItem_literal hb hparen
                    by_cases hq : ∀ q rest, segs = .literal q :: rest → isSuffix q = false
                    · rw [shortest_once hparen hq] at hdrop
                      obtain ⟨hs', hdrop'⟩ := hnext hdrop
                      rw [matchHere_once hitem (fun _ => by simp [patternOf]) (not_isSuffix_patternOf hq), hdrop,
                        List.head?_cons, Option.any_some, single_standIn hb hparen, if_pos rfl]
                      exact ih hle hfree.tail hs' hdrop'
                    · simp only [not_forall] at hq
                      obtain ⟨q, rest, rfl, hq⟩ := hq
                      have hsuffix : isSuffix q = true := by simpa using hq
                      rw [shortest, if_neg (by simp [hparen])] at hdrop
                      have hpattern : patternOf (.literal q :: rest) = q :: patternOf rest := rfl
                      rw [hpattern, matchHere_item hitem (by simp)]
                      by_cases hplus : q = ascii '+'
                      · subst hplus
                        rw [if_pos rfl] at hdrop
                        obtain ⟨hs', hdrop'⟩ := hnext hdrop
                        exact matchItem_plus_ne_none hitem (by rw [hdrop, List.head?_cons]) (single_standIn hb hparen)
                          fun depth => ih (Nat.le_of_succ_le hle) hfree.tail.tail hs' hdrop'
                      · rw [if_neg hplus, if_pos hsuffix] at hdrop
                        have hcases : q = ascii '*' ∨ q = ascii '?' ∨ q = ascii '-' := by
                          have hmem : q ∈ bytesOf "*+-?" := List.contains_iff_mem.mp hsuffix
                          have hbytes : bytesOf "*+-?" = [ascii '*', ascii '+', ascii '-', ascii '?'] := by
                            decide +kernel
                          rw [hbytes] at hmem
                          simp only [List.mem_cons, List.not_mem_nil, or_false] at hmem
                          tauto
                        exact matchItem_ne_none hitem hcases
                          fun depth => ih (Nat.le_of_succ_le hle) hfree.tail.tail hs hdrop

/-! ## Values of one character -/

/-- A text that is no longer than it must be is filled in one way. -/
theorem Fills.unique {segs : List RouteSegment} {vs vs' : List (List UInt8)} {text : List UInt8} (h : Fills segs vs text)
    (hlen : text.length = segs.length) (h' : Fills segs vs' text) : vs = vs' := by
  induction h generalizing vs' with
  | nil =>
      cases h'
      rfl
  | literal b h ih => exact ih (Nat.succ.inj hlen) (fills_literal h').2
  | @param segs vs text v name hv h ih =>
      generalize hall : v ++ text = all at h'
      cases h' with
      | @param _ vs' text' v' _ hv' h' =>
          have hle := h.length_le
          have hle' := h'.length_le
          have hpos := List.length_pos_of_ne_nil hv.1
          have hpos' := List.length_pos_of_ne_nil hv'.1
          have hsum := congrArg List.length hall
          simp only [List.length_append, List.length_cons] at hlen hsum
          obtain ⟨hvv, htext⟩ := List.append_inj hall (by omega)
          rw [hvv, ih (by omega) (htext ▸ h')]

/-- Any characters but slashes fill the parameters. -/
theorem exists_fills (segs : List RouteSegment) :
    ∀ {vs : List (List UInt8)}, vs.length = (paramsOf segs).length → (∀ v ∈ vs, IsValue v ∧ v.length = 1) →
      ∃ text, Fills segs vs text ∧ text.length = segs.length := by
  induction segs with
  | nil =>
      intro vs hlen hvs
      rw [List.length_eq_zero_iff.mp hlen]
      exact ⟨[], .nil, rfl⟩
  | cons seg segs ih =>
      intro vs hlen hvs
      cases seg with
      | literal b =>
          obtain ⟨text, hfills, htext⟩ := ih hlen hvs
          exact ⟨b :: text, .literal b hfills, congrArg (· + 1) htext⟩
      | param name =>
          cases vs with
          | nil => cases hlen
          | cons v vs =>
              have hboth := List.forall_mem_cons.mp hvs
              obtain ⟨text, hfills, htext⟩ := ih (Nat.succ.inj hlen) hboth.2
              refine ⟨v ++ text, .param name hboth.1.1 hfills, ?_⟩
              rw [List.length_append, hboth.1.2, htext, List.length_cons, Nat.add_comm]

/-- With a name that comes twice, some values are not those of the names. -/
theorem exists_fills_of_not_nodup {segs : List RouteSegment} (h : ¬(paramsOf segs).Nodup) :
    ∃ vs text, Fills segs vs text ∧ ∀ σ, ¬FitsRoute segs σ text := by
  rw [List.nodup_iff_getElem?_ne_getElem?] at h
  simp only [not_forall, not_not] at h
  obtain ⟨i, j, hij, hj, heq⟩ := h
  let vs : List (List UInt8) :=
    (List.range (paramsOf segs).length).map fun k => if k = j then [ascii 'y'] else [ascii 'x']
  obtain ⟨text, hfills, hlen⟩ := exists_fills segs (show vs.length = _ by simp [vs]) (by
    intro v hv
    obtain ⟨k, -, rfl⟩ := List.mem_map.mp hv
    split <;> exact ⟨⟨by simp, by decide⟩, rfl⟩)
  refine ⟨vs, text, hfills, fun σ hfits => ?_⟩
  have hvs : vs = (paramsOf segs).map σ := hfills.unique hlen hfits.fills
  have hsame : vs[i]? = vs[j]? := by rw [hvs, List.getElem?_map, List.getElem?_map, heq]
  have hne : i ≠ j := Nat.ne_of_lt hij
  simp [vs, hij.trans hj, hj, hne, ascii] at hsame

/-! ## Too many parameters -/

/-- A match of a plain pattern has a capture for each parameter. -/
theorem captures_le {src : List UInt8} {segs : List RouteSegment} :
    ∀ {rounds depth s : ℕ} {caps : List Capture} {r : ℕ × List Capture}, PlainSegments segs →
      caps.length ≤ maxCaptures → matchHere src rounds depth (patternOf segs) s caps = .ok (some r) →
      caps.length + (paramsOf segs).length ≤ maxCaptures := by
  induction segs with
  | nil => exact fun _ hcaps _ => hcaps
  | cons seg segs ih =>
      intro rounds depth s caps r hplain hcaps hmatch
      cases rounds with
      | zero => cases hmatch
      | succ rounds =>
          cases seg with
          | literal b =>
              obtain ⟨hb, hnext, hplain⟩ := hplain
              rw [patternOf_literal, matchHere_once (isItem_byte hb) (fun _ => by simp [patternOf])
                (not_isSuffix_patternOf hnext)] at hmatch
              split at hmatch
              · exact ih hplain hcaps hmatch
              · cases hmatch
          | param name =>
              rw [patternOf_param] at hmatch
              obtain ⟨hlt, _, hgroup⟩ := exists_of_matchHere_open (head?_ne_close isItem_notSlash) hmatch
              cases rounds with
              | zero => cases hgroup
              | succ rounds =>
                  obtain ⟨_, e, hclose⟩ := exists_of_matchHere_plus isItem_notSlash hgroup
                  cases rounds with
                  | zero => cases hclose
                  | succ rounds =>
                      obtain ⟨_, hrest⟩ := exists_of_matchHere_close hclose
                      have hle := ih hplain (by rw [List.length_cons]; omega) hrest
                      have hparams : (paramsOf (.param name :: segs)).length = (paramsOf segs).length + 1 := rfl
                      rw [List.length_cons] at hle
                      omega

/-! ## One route -/

section OneRoute

variable {H : Type} {method text path : List UInt8} {handler : H}

/-- What the only route of a router gives. -/
theorem register_one (method text path : List UInt8) (handler : H) :
    ∃ router, register [⟨method, text, handler⟩] = .ok router ∧
      router.matchRoute method path = Router.matchRoutes path [Router.routeFor text handler] := by
  obtain ⟨router, hrouter, hlisted⟩ := foldlM_addRoute [(⟨method, text, handler⟩ : Registration H)] Router.new
  refine ⟨router, hrouter, ?_⟩
  have hroutes : router.listed (method.map toUpper) = [Router.routeFor text handler] := by
    rw [hlisted]
    simp [registered, Router.listed, Router.routesOf, Router.new]
  rw [Router.matchRoute]
  rw [Router.listed] at hroutes
  cases hof : router.routesOf (method.map toUpper) with
  | none =>
      rw [hof] at hroutes
      cases hroutes
  | some routes =>
      rw [hof, Option.getD_some] at hroutes
      simp only [hroutes]

/-- A match has values. -/
theorem captureValues_ne_nil {src : List UInt8} {s e : ℕ} {caps : List Capture} {vs : List CaptureValue}
    (h : captureValues src s e caps = .ok vs) : vs ≠ [] := by
  rintro rfl
  unfold captureValues at h
  split at h
  · cases h
  · rename_i hne
    cases hcaps : caps.reverse with
    | nil => exact hne (List.reverse_eq_nil_iff.mp hcaps)
    | cons c rest =>
        rw [hcaps, List.mapM_cons] at h
        cases hvalue : c.value src with
        | error e =>
            rw [hvalue] at h
            cases h
        | ok v =>
            cases hrest : rest.mapM (Capture.value src) with
            | error e =>
                rw [hvalue, hrest] at h
                cases h
            | ok values =>
                rw [hvalue, hrest] at h
                cases h

/-- The three ends of an anchored match. -/
theorem strMatch_cases (path pattern : List UInt8) :
    (∃ e, strMatch path (ascii '^' :: pattern) = .error e) ∨
      strMatch path (ascii '^' :: pattern) = .ok none ∧ attempt path pattern 0 = .ok none ∨
      ∃ r v vs, strMatch path (ascii '^' :: pattern) = .ok (some (v :: vs)) ∧ attempt path pattern 0 = .ok (some r) := by
  rw [strMatch, if_pos rfl, search]
  cases attempt path pattern 0 with
  | error e => exact Or.inl ⟨e, rfl⟩
  | ok result =>
      cases result with
      | none => exact Or.inr (Or.inl ⟨rfl, rfl⟩)
      | some r =>
          cases hvalues : captureValues path 0 r.1 r.2 with
          | error e =>
              refine Or.inl ⟨e, ?_⟩
              simp only [bind, Except.bind, hvalues]
          | ok values =>
              obtain ⟨v, vs, rfl⟩ := List.exists_cons_of_ne_nil (captureValues_ne_nil hvalues)
              refine Or.inr (Or.inr ⟨r, v, vs, ?_, rfl⟩)
              simp only [bind, Except.bind, hvalues, pure, Except.pure]

/-- Where the only route is right, its pattern matches if it fits, and fails if it does not. -/
theorem attempt_of_matchesExactly (h : MatchesExactly [(⟨method, text, handler⟩ : Registration H)] method path) :
    (attempt path (patternOf (segments text)) 0 = .ok none ∧ ∀ σ, ¬FitsRoute (segments text) σ path) ∨
      ∃ r σ, attempt path (patternOf (segments text)) 0 = .ok (some r) ∧ FitsRoute (segments text) σ path := by
  obtain ⟨router, result, hrouter, hresult, hfirst⟩ := h
  obtain ⟨router', hrouter', hmatch⟩ := register_one method text path handler
  have hpattern : (Router.routeFor text handler).pattern = ascii '^' :: patternOf (segments text) := rfl
  rw [hrouter] at hrouter'
  cases hrouter'
  rw [hmatch, Router.matchRoutes, hpattern] at hresult
  have hregistered : registered [(⟨method, text, handler⟩ : Registration H)] (method.map toUpper) = [(text, handler)] := by
    simp [registered]
  rw [hregistered] at hfirst
  rcases strMatch_cases path (patternOf (segments text)) with ⟨e, he⟩ | ⟨hnone, hattempt⟩ | ⟨r, v, vs, hsome, hattempt⟩
  · rw [he] at hresult
    cases hresult
  · rw [hnone] at hresult
    cases hresult
    exact Or.inl ⟨hattempt, hfirst _ List.mem_cons_self⟩
  · rw [hsome] at hresult
    cases hresult
    obtain ⟨before, route, after, heq, -, -, σ, hfits, -⟩ := hfirst
    have hroute : route = (text, handler) := by
      cases before with
      | nil =>
          injection heq with hhead
          exact hhead.symm
      | cons first before =>
          injection heq with hhead htail
          exact absurd htail (by simp)
    subst hroute
    exact Or.inr ⟨r, σ, hattempt, hfits⟩

/-- **A route that is right about all paths is plain.** -/
theorem plainRoute_of_matchesExactly (hfree : NoClasses (segments text))
    (h : ∀ path, MatchesExactly [(⟨method, text, handler⟩ : Registration H)] method path) : PlainRoute text := by
  have hne : attempt (shortest (segments text)) (patternOf (segments text)) 0 ≠ .ok none :=
    matchHere_shortest le_rfl hfree (Nat.zero_le _) List.drop_zero
  rcases attempt_of_matchesExactly (h (shortest (segments text))) with ⟨hnone, -⟩ | ⟨r, σ, hsome, hfits⟩
  · exact absurd hnone hne
  · have hplain := plainSegments_of_fills _ _ hfree hfits.fills
    have hparams : (paramsOf (segments text)).length ≤ maxCaptures := by
      have hle := captures_le hplain (Nat.zero_le _) hsome
      rwa [List.length_nil, Nat.zero_add] at hle
    refine ⟨hplain, ?_, hparams⟩
    by_contra hnames
    obtain ⟨vs, path, hfills, hnot⟩ := exists_fills_of_not_nodup hnames
    rcases attempt_of_matchesExactly (h path) with ⟨hnone, -⟩ | ⟨r, σ, -, hfits⟩
    · -- the values are a match, whatever names they have
      rcases strMatch_plain hplain hparams path with ⟨-, hno⟩ | ⟨vs', values, hmatch, -⟩
      · exact hno vs hfills
      · rcases strMatch_cases path (patternOf (segments text)) with ⟨e, he⟩ | ⟨hstr, -⟩ | ⟨r, v, more, -, hsome⟩
        · rw [hmatch] at he
          cases he
        · rw [hmatch] at hstr
          cases hstr
        · rw [hnone] at hsome
          cases hsome
    · exact hnot σ hfits

end OneRoute

/-- **The router** finds the first route that fits, if those up to it are plain; and a router with
one route is right about all paths exactly if that route is plain, when its text has no percent
sign and no opening bracket. -/
theorem router_match_exact {H : Type} (regs : List (Registration H)) (method path text : List UInt8) (handler : H) :
    (PlainUntilFit (registered regs (method.map toUpper)) path → MatchesExactly regs method path) ∧
      (NoClasses (segments text) →
        ((∀ path, MatchesExactly [(⟨method, text, handler⟩ : Registration H)] method path) ↔ PlainRoute text)) := by
  refine ⟨matchesExactly_of_plain, fun hfree => ⟨plainRoute_of_matchesExactly hfree, fun hplain path => ?_⟩⟩
  refine matchesExactly_of_plain ?_
  have hregistered : registered [(⟨method, text, handler⟩ : Registration H)] (method.map toUpper) = [(text, handler)] := by
    simp [registered]
  rw [hregistered]
  intro before route after heq _
  cases before with
  | nil =>
      injection heq with hhead
      rw [← hhead]
      exact hplain
  | cons first before =>
      injection heq with hhead htail
      exact absurd htail (by simp)

/-- Three routes with parameters, of which the third is for the method and fits the path. -/
def postRoutes : List (Registration ℕ) :=
  [⟨bytesOf "GET", bytesOf "/u/:id", 1⟩, ⟨bytesOf "POST", bytesOf "/u/:id/p/:post", 2⟩,
    ⟨bytesOf "get", bytesOf "/u/:id/p/:post", 3⟩]

theorem segments_post : segments (bytesOf "/u/:id/p/:post") =
    [.literal 47, .literal 117, .literal 47, .param (bytesOf "id"), .literal 47, .literal 112, .literal 47,
      .param (bytesOf "post")] := by
  decide +kernel

theorem segments_user : segments (bytesOf "/u/:id") =
    [.literal 47, .literal 117, .literal 47, .param (bytesOf "id")] := by
  decide +kernel

theorem plainRoute_post : PlainRoute (bytesOf "/u/:id/p/:post") := by
  refine ⟨?_, ?_, ?_⟩
  · rw [segments_post]
    simp only [PlainSegments]
    refine ⟨by decide, ?_, by decide, ?_, by decide, by simp, by decide, ?_, by decide, ?_, by decide, by simp, trivial⟩
    all_goals
      rintro b' rest h
      cases h
      decide
  · rw [segments_post]
    decide +kernel
  · rw [segments_post]
    decide

theorem plainRoute_user : PlainRoute (bytesOf "/u/:id") := by
  refine ⟨?_, ?_, ?_⟩
  · rw [segments_user]
    simp only [PlainSegments]
    refine ⟨by decide, ?_, by decide, ?_, by decide, by simp, trivial⟩
    all_goals
      rintro b' rest h
      cases h
      decide
  · rw [segments_user]
    exact List.nodup_singleton _
  · rw [segments_user]
    decide

/-- The parameters of the path are bound to their names. -/
theorem router_match_exact_post :
    MatchesExactly postRoutes (bytesOf "GET") (bytesOf "/u/7/p/9") ∧
      ((register postRoutes).toOption.bind fun router =>
        (router.matchRoute (bytesOf "GET") (bytesOf "/u/7/p/9")).toOption).map
          (Option.map fun r => (r.1, r.2 (bytesOf "id"), r.2 (bytesOf "post"))) =
        some (some (3, some (.text (bytesOf "7")), some (.text (bytesOf "9")))) := by
  refine ⟨(router_match_exact postRoutes (bytesOf "GET") (bytesOf "/u/7/p/9") [] 0).1 ?_, by decide +kernel⟩
  have hregistered : registered postRoutes ((bytesOf "GET").map toUpper) =
      [(bytesOf "/u/:id", 1), (bytesOf "/u/:id/p/:post", 3)] := by
    decide +kernel
  rw [hregistered]
  intro before route after heq _
  have hroute : route ∈ [(bytesOf "/u/:id", 1), (bytesOf "/u/:id/p/:post", 3)] := by
    rw [heq]
    simp
  rcases List.mem_pair.mp hroute with rfl | rfl
  · exact plainRoute_user
  · exact plainRoute_post

/-- Without a colon a path has no parameters. -/
theorem segments_of_no_colon {path : List UInt8} (h : ascii ':' ∉ path) : segments path = path.map .literal := by
  induction path with
  | nil => simp [segments, tokens]
  | cons c rest ih =>
      rw [List.mem_cons, not_or] at h
      have hscan : scanParam c rest = none := if_neg fun hc => h.1 hc.1.symm
      have hrest := ih h.2
      simp only [segments] at hrest ⊢
      rw [tokens, hscan, List.map_cons, hrest]
      rfl

/-- A hyphen repeats the character before it: the path of the route itself is not found, and
another one is. -/
theorem hyphen_not_matched :
    let regs := [(⟨bytesOf "GET", bytesOf "/user-list", ()⟩ : Registration Unit)]
    (((register regs).toOption.bind fun router =>
        (router.matchRoute (bytesOf "GET") (bytesOf "/user-list")).toOption).map Option.isNone = some true ∧
      ((register regs).toOption.bind fun router =>
        (router.matchRoute (bytesOf "GET") (bytesOf "/userlist")).toOption).map Option.isSome = some true) ∧
      ¬MatchesExactly regs (bytesOf "GET") (bytesOf "/user-list") := by
  have hcode : ((register [(⟨bytesOf "GET", bytesOf "/user-list", ()⟩ : Registration Unit)]).toOption.bind fun router =>
      (router.matchRoute (bytesOf "GET") (bytesOf "/user-list")).toOption).map Option.isNone = some true := by
    decide +kernel
  refine ⟨⟨hcode, by decide +kernel⟩, ?_⟩
  rintro ⟨router, result, hrouter, hresult, hfirst⟩
  rw [hrouter] at hcode
  simp only [Except.toOption, Option.bind_some, hresult, Option.map_some, Option.some.injEq,
    Option.isNone_iff_eq_none] at hcode
  subst hcode
  have hsegs : segments (bytesOf "/user-list") = _ := segments_of_no_colon (by decide)
  refine hfirst (bytesOf "/user-list", ()) ?_ (fun _ => []) ?_
  · simp [registered]
  · have hnone : paramsOf ((bytesOf "/user-list").map .literal) = [] := by decide +kernel
    rw [hsegs]
    constructor
    · rw [hnone]
      exact fun name hname => absurd hname List.not_mem_nil
    · decide +kernel

end LuaFan
