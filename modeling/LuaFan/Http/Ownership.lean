/-
# What a request holds (`src/http.c`)

`http_getpost` keeps a reference or an allocation for some of its parameters, one after the other, and
stops at the first parameter that is wrong.  `keeps` says how far it comes: what it keeps depends on the
checks before it.

* `httpGetpost_accepts`: a request that nothing stops holds what it keeps;
* `httpGetpost_fails`: a request that is stopped releases all but the body and the lists of headers and
  of addresses, and nothing at all if Lua raises the error itself (a wrong `verbose`, or a number among
  the keys of `headers`).
-/
import LuaFan.Http.Core

namespace LuaFan

/-- The fields of `ConnInfo` that are `LUA_NOREF` until they are needed. -/
inductive ConnSlot where
  | onprogress
  | onheader
  | onwrite
  | onread
  | coref
  | body
  deriving DecidableEq, Repr

theorem length_toList (r : Option ℕ) : r.toList.length = r.isSome.toNat := by
  cases r <;> rfl

/-- A field that is not kept is `none`. -/
theorem eq_none_of_isSome {r : Option ℕ} {kept : Bool} (h : r.isSome = kept) (hkept : kept = false) : r = none := by
  apply Option.isNone_iff_eq_none.mp
  rw [← Option.not_isSome, h, hkept]
  rfl

namespace ConnInfo

def slot (conn : ConnInfo) : ConnSlot → Option ℕ
  | .onprogress => conn.onprogressref
  | .onheader => conn.onheaderref
  | .onwrite => conn.onwriteref
  | .onread => conn.onreadref
  | .coref => conn.coref
  | .body => conn.bodyref

def setSlot (f : ConnSlot) (conn : ConnInfo) (r : Option ℕ) : ConnInfo :=
  match f with
  | .onprogress => { conn with onprogressref := r }
  | .onheader => { conn with onheaderref := r }
  | .onwrite => { conn with onwriteref := r }
  | .onread => { conn with onreadref := r }
  | .coref => { conn with coref := r }
  | .body => { conn with bodyref := r }

/-- All references of a transfer. -/
def held (conn : ConnInfo) : List ℕ := conn.completedRefs ++ conn.coref.toList

/-- What a transfer has allocated, apart from the place of the `ConnInfo` itself. -/
def blocks (conn : ConnInfo) : List ℕ :=
  conn.outputHeaders.toList ++ conn.resolve.toList ++ [conn.easy, conn.input]

variable (conn : ConnInfo) (f g : ConnSlot) (r : Option ℕ)

theorem slot_setSlot_self : (setSlot f conn r).slot f = r := by
  cases f <;> rfl

theorem slot_setSlot_of_ne (h : g ≠ f) : (setSlot f conn r).slot g = conn.slot g := by
  cases f <;> cases g <;> first | rfl | exact absurd rfl h

theorem blocks_setSlot : (setSlot f conn r).blocks = conn.blocks := by
  cases f <;> rfl

theorem coe_held : (conn.held : Multiset ℕ) =
    conn.bodyref.toList + {conn.retref} + conn.onprogressref.toList + conn.onheaderref.toList +
      conn.onreadref.toList + conn.onwriteref.toList + {conn.headerref} + conn.coref.toList := by
  simp only [held, completedRefs, ← Multiset.coe_add, ← Multiset.cons_coe, ← Multiset.singleton_add, Multiset.coe_nil]
  abel

theorem coe_cleanupRefs : (conn.cleanupRefs : Multiset ℕ) = conn.held := by
  rw [coe_held]
  simp only [cleanupRefs, ← Multiset.coe_add, ← Multiset.cons_coe, ← Multiset.singleton_add, Multiset.coe_nil]
  abel

theorem coe_failedRefs (oncompleteref : Option ℕ) :
    (conn.failedRefs oncompleteref : Multiset ℕ) + conn.bodyref.toList = conn.held + oncompleteref.toList := by
  rw [coe_held]
  simp only [failedRefs, ← Multiset.coe_add, ← Multiset.cons_coe, ← Multiset.singleton_add, Multiset.coe_nil]
  abel

theorem length_held : conn.held.length =
    2 + (conn.slot .body).isSome.toNat + (conn.slot .onprogress).isSome.toNat + (conn.slot .onheader).isSome.toNat +
      (conn.slot .onread).isSome.toNat + (conn.slot .onwrite).isSome.toNat + (conn.slot .coref).isSome.toNat := by
  simp only [held, completedRefs, slot, List.length_append, List.length_cons, List.length_nil, length_toList]
  omega

theorem length_blocks : conn.blocks.length = 2 + conn.outputHeaders.isSome.toNat + conn.resolve.isSome.toNat := by
  simp only [blocks, List.length_append, List.length_cons, List.length_nil, length_toList]
  omega

/-- A field that was not set yet gets a reference. -/
theorem held_setSlot {h : ℕ} (hnone : conn.slot f = none) :
    ((setSlot f conn (some h)).held : Multiset ℕ) = h ::ₘ conn.held := by
  rw [coe_held, coe_held, ← Multiset.singleton_add]
  cases f <;>
    (simp only [slot] at hnone
     simp only [setSlot, hnone, Option.toList_some, Option.toList_none, Multiset.coe_singleton, Multiset.coe_nil]
     abel)

end ConnInfo

namespace HttpCore

/-! ## The checks of a request -/

/-- The first check that fails. -/
def firstBad (checks : List (Bool × HttpStop)) : Option HttpStop := (checks.find? Prod.fst).map Prod.snd

theorem firstBad_append (cs cs' : List (Bool × HttpStop)) :
    firstBad (cs ++ cs') = (firstBad cs).or (firstBad cs') := by
  unfold firstBad
  rw [List.find?_append]
  cases cs.find? Prod.fst <;> rfl

theorem firstBad_single (bad : Bool) (err : HttpStop) : firstBad [(bad, err)] = if bad then some err else none := by
  cases bad <;> rfl

theorem firstBad_mem {cs : List (Bool × HttpStop)} {err : HttpStop} (h : firstBad cs = some err) :
    err ∈ cs.map Prod.snd := by
  obtain ⟨c, hc, rfl⟩ := Option.map_eq_some_iff.mp h
  exact List.mem_map_of_mem (List.mem_of_find?_eq_some hc)

/-- A check that fails first is one of the later ones if the earlier ones pass. -/
theorem isNone_firstBad {cs cs' : List (Bool × HttpStop)} {err : HttpStop} (h : firstBad (cs ++ cs') = some err)
    (hdisjoint : err ∉ (cs.map Prod.snd) ∨ err ∉ (cs'.map Prod.snd)) :
    (firstBad cs).isNone = decide (err ∉ cs.map Prod.snd) := by
  rw [firstBad_append] at h
  cases hcs : firstBad cs with
  | none =>
      rw [hcs] at h
      have hmem := firstBad_mem h
      simp only [Option.isNone_none, true_eq_decide_iff]
      exact hdisjoint.resolve_right fun hnot => hnot hmem
  | some e =>
      rw [hcs] at h
      cases h
      exact (decide_eq_false (not_not_intro (firstBad_mem hcs))).symm

/-- What a request keeps. -/
structure Kept where
  slots : ConnSlot → Bool := fun _ => false
  outputHeaders : Bool := false
  headers : Bool := false
  resolve : Bool := false
  oncomplete : Bool := false

/-- A request after some checks: it holds what it took, and keeps so much.  Its references are at least `n`. -/
structure Built (n : ℕ) (rs hs : Multiset ℕ) (cs : List (Bool × HttpStop)) (k : Kept) (b : Building) : Prop where
  refs : b.refs.Holds (↑b.conn.held + ↑b.oncompleteref.toList + rs)
  heap : b.heap.Holds (↑b.conn.blocks + ↑b.headers.toList + hs)
  err : b.err = firstBad cs
  slots : ∀ f, (b.conn.slot f).isSome = k.slots f
  outputHeaders : b.conn.outputHeaders.isSome = k.outputHeaders
  headers : b.headers.isSome = k.headers
  resolve : b.conn.resolve.isSome = k.resolve
  oncomplete : b.oncompleteref.isSome = k.oncomplete
  completed : b.conn.completed = false
  next : n ≤ b.refs.next
  coref : ∀ r, b.conn.coref = some r → n ≤ r

section Stages

variable {n : ℕ} {rs hs : Multiset ℕ} {cs : List (Bool × HttpStop)} {k : Kept} {b : Building}

theorem Built.check (h : Built n rs hs cs k b) (bad : Bool) (err : HttpStop) :
    Built n rs hs (cs ++ [(bad, err)]) k (check bad err b) := by
  unfold HttpCore.check
  split
  · rename_i hif
    obtain ⟨hnone, rfl⟩ := Bool.and_eq_true_iff.mp hif
    rw [h.err] at hnone
    exact { h with err := by rw [firstBad_append, Option.isNone_iff_eq_none.mp hnone]; rfl }
  · rename_i hif
    refine { h with err := ?_ }
    rw [firstBad_append, firstBad_single, h.err]
    rw [h.err] at hif
    cases hcs : firstBad cs with
    | none =>
        rw [hcs] at hif
        cases bad with
        | false => rfl
        | true => exact absurd rfl hif
    | some e => rfl

theorem Built.refIf (h : Built n rs hs cs k b) (f : ConnSlot) (p : Bool) (hf : k.slots f = false) :
    Built n rs hs cs { k with slots := Function.update k.slots f ((firstBad cs).isNone && p) }
      (refIf (ConnInfo.setSlot f) p b) := by
  have hnone : b.conn.slot f = none := eq_none_of_isSome (h.slots f) hf
  unfold HttpCore.refIf
  rw [← h.err]
  split
  · rename_i hif
    refine ⟨?_, ?_, h.err, ?_, ?_, h.headers, ?_, h.oncomplete, ?_, Nat.le_succ_of_le h.next, ?_⟩
    · refine h.refs.take.of_eq ?_
      show _ = (↑(ConnInfo.setSlot f b.conn (some b.refs.next)).held : Multiset ℕ) + _ + _
      rw [b.conn.held_setSlot f hnone, Multiset.cons_add, Multiset.cons_add]
    · show b.heap.Holds (↑(ConnInfo.setSlot f b.conn (some b.refs.next)).blocks + _ + _)
      rw [ConnInfo.blocks_setSlot]
      exact h.heap
    · intro g
      show ((ConnInfo.setSlot f b.conn (some b.refs.next)).slot g).isSome = Function.update k.slots f _ g
      by_cases hg : g = f
      · rw [hg, ConnInfo.slot_setSlot_self, Function.update_self, hif]
        rfl
      · rw [b.conn.slot_setSlot_of_ne f g _ hg, Function.update_of_ne hg]
        exact h.slots g
    · rw [← h.outputHeaders]
      cases f <;> rfl
    · rw [← h.resolve]
      cases f <;> rfl
    · rw [← h.completed]
      cases f <;> rfl
    · intro r hr
      by_cases hf : f = .coref
      · subst hf
        cases hr
        exact h.next
      · have hsame : (ConnInfo.setSlot f b.conn (some b.refs.next)).coref = b.conn.coref := by
          cases f <;> first | rfl | exact absurd rfl hf
        exact h.coref r (hsame ▸ hr)
  · rename_i hif
    refine { h with slots := fun g => ?_ }
    show (b.conn.slot g).isSome = Function.update k.slots f _ g
    by_cases hg : g = f
    · rw [hg, hnone, Function.update_self, Bool.eq_false_of_not_eq_true hif]
      rfl
    · rw [Function.update_of_ne hg]
      exact h.slots g

theorem Built.callback (h : Built n rs hs cs k b) (f : ConnSlot) (t : ArgType) (err : HttpStop)
    (hf : k.slots f = false) :
    Built n rs hs (cs ++ [(!(t.isFunction || t.isNil), err)])
      { k with slots := Function.update k.slots f ((firstBad cs).isNone && t.isFunction) }
      (callback (ConnInfo.setSlot f) t err b) := (h.refIf f t.isFunction hf).check _ err

/-- Every buffer for a header is allocated, from the `i`-th one on, up to a key that is lost. -/
def allocated (malloc : ℕ → Bool) : List HeaderEntry → ℕ → Bool
  | [], _ => true
  | e :: entries, i =>
      !(e.sent && !malloc i) && (e.key.lost || allocated malloc entries (i + e.sent.toNat))

/-- Some key is lost. -/
def anyLost (entries : List HeaderEntry) : Bool := entries.any fun e => e.key.lost

/-- Some header is sent, up to a key that is lost. -/
def anySent : List HeaderEntry → Bool
  | [] => false
  | e :: entries => e.sent || (!e.key.lost && anySent entries)

/-- The list is begun with the first header. -/
theorem Built.appendHeader (h : Built n rs hs cs k b) :
    Built n rs hs cs { k with headers := true } (appendHeader b) := by
  unfold HttpCore.appendHeader
  cases hheaders : b.headers with
  | some list =>
      have hheap := h.heap.take.give
      rw [hheaders] at hheap
      exact { h with heap := hheap, headers := rfl }
  | none =>
      refine { h with heap := ?_, headers := rfl }
      refine Handles.Holds.give (h.heap.take.take.of_eq ?_)
      show _ = b.heap.next ::ₘ (↑b.conn.blocks + {b.heap.take.next} + hs)
      simp only [hheaders, Option.toList_none, Multiset.coe_nil, ← Multiset.singleton_add]
      abel

/-- What the loop keeps of the headers, if the entries before have begun a list or not. -/
def headersKept (malloc : ℕ → Bool) (entries : List HeaderEntry) (i : ℕ) (begun : Bool) : Bool × Bool :=
  if allocated malloc entries i then
    if anyLost entries then (false, begun || anySent entries) else (begun || anySent entries, false)
  else (false, begun || malloc i)

theorem Built.appendHeaders (malloc : ℕ → Bool) (entries : List HeaderEntry) (i : ℕ) (h : Built n rs hs cs k b)
    (hcs : firstBad cs = none) (hk : k.outputHeaders = false) :
    Built n rs hs
      (cs ++ [(!allocated malloc entries i, .memory), (allocated malloc entries i && anyLost entries, .next)])
      { k with
        outputHeaders := (headersKept malloc entries i k.headers).1
        headers := (headersKept malloc entries i k.headers).2 }
      (appendHeaders malloc entries i b) := by
  -- on the entries; `k.headers` says whether a list was begun by the entries before
  induction entries generalizing i b k with
  | nil =>
      -- the list is kept in `conn`
      have hnone : b.conn.outputHeaders = none := eq_none_of_isSome h.outputHeaders hk
      refine ⟨h.refs, ?_, ?_, ?_, ?_, rfl, h.resolve, h.oncomplete, h.completed, h.next, h.coref⟩
      · refine h.heap.of_eq ?_
        simp only [HttpCore.appendHeaders, ConnInfo.blocks, hnone, Option.toList_none, List.nil_append, Multiset.coe_nil,
          ← Multiset.coe_add]
        abel
      · rw [firstBad_append, hcs]
        exact h.err.trans hcs
      · intro f
        rw [← h.slots f]
        cases f <;> rfl
      · show b.headers.isSome = (k.headers || false)
        rw [h.headers, Bool.or_false]
  | cons e entries ih =>
      obtain ⟨key, sent⟩ := e
      unfold HttpCore.appendHeaders
      split
      · rename_i hfail
        -- the list stays where only `headers` points to it
        obtain ⟨rfl, hmalloc⟩ := Bool.and_eq_true_iff.mp hfail
        rw [Bool.not_eq_true'] at hmalloc
        have hnot : allocated malloc (⟨key, true⟩ :: entries) i = false := by
          simp only [allocated, hmalloc, Bool.not_false, Bool.and_self, Bool.not_true, Bool.false_and]
        refine { h with err := ?_, outputHeaders := ?_, headers := ?_ }
        · rw [firstBad_append, hcs, hnot]
          rfl
        · simp only [headersKept, hnot, Bool.false_eq_true, if_false]
          exact h.outputHeaders.trans hk
        · simp only [headersKept, hnot, Bool.false_eq_true, if_false, hmalloc, Bool.or_false]
          exact h.headers
      · rename_i hgood
        have hallocated : allocated malloc (⟨key, sent⟩ :: entries) i =
            (key.lost || allocated malloc entries (i + sent.toNat)) := by
          simp only [allocated, Bool.eq_false_of_not_eq_true hgood, Bool.not_false, Bool.true_and]
        have hb : Built n rs hs cs { k with headers := k.headers || sent }
            (if sent then HttpCore.appendHeader b else b) := by
          cases sent with
          | false =>
              rw [Bool.or_false]
              exact h
          | true =>
              rw [Bool.or_true]
              exact h.appendHeader
        dsimp only
        split
        · rename_i hlost
          have hthere : allocated malloc (⟨key, sent⟩ :: entries) i = true := by
            rw [hallocated, hlost, Bool.true_or]
          have hany : anyLost (⟨key, sent⟩ :: entries) = true := by
            simp only [anyLost, List.any_cons, hlost, Bool.true_or]
          refine { hb with err := ?_, outputHeaders := ?_, headers := ?_ }
          · rw [firstBad_append, hcs, hthere, hany]
            exact rfl
          · simp only [headersKept, hthere, hany, if_true]
            exact hb.outputHeaders.trans hk
          · simp only [headersKept, hthere, hany, if_true, anySent, hlost, Bool.not_true, Bool.false_and,
              Bool.or_false]
            exact hb.headers
        · rename_i hlost
          have hlost := Bool.eq_false_of_not_eq_true hlost
          have hih := ih (i + sent.toNat) hb hk
          have hsame : allocated malloc (⟨key, sent⟩ :: entries) i = allocated malloc entries (i + sent.toNat) := by
            rw [hallocated, hlost, Bool.false_or]
          have hany : anyLost (⟨key, sent⟩ :: entries) = anyLost entries := by
            simp only [anyLost, List.any_cons, hlost, Bool.false_or]
          have hkept : headersKept malloc (⟨key, sent⟩ :: entries) i k.headers =
              headersKept malloc entries (i + sent.toNat) (k.headers || sent) := by
            simp only [headersKept, hsame, hany, anySent, hlost, Bool.not_false, Bool.true_and, Bool.or_assoc]
            cases sent with
            | false => rfl
            | true =>
                -- the buffer of this entry was allocated
                have hmalloc : malloc i = true := by simpa using hgood
                rw [hmalloc]
                simp only [Bool.true_or, Bool.or_true]
          rw [hsame, hany, hkept]
          exact hih

/-- Some buffer for the headers is not allocated. -/
def headersFail (malloc : ℕ → Bool) : HeadersArg → Bool
  | .table entries => !allocated malloc entries 0
  | _ => false

/-- `lua_next` raises an error. -/
def headersLost (malloc : ℕ → Bool) : HeadersArg → Bool
  | .table entries => allocated malloc entries 0 && anyLost entries
  | _ => false

/-- The headers are neither a table nor `nil`. -/
def headersOther : HeadersArg → Bool
  | .other => true
  | _ => false

/-- Some header is sent. -/
def headersSent : HeadersArg → Bool
  | .table entries => anySent entries
  | _ => false

theorem Built.getHeaders (malloc : ℕ → Bool) (headers : HeadersArg) (h : Built n rs hs cs k b)
    (hk : k.outputHeaders = false) (hk' : k.headers = false) :
    Built n rs hs (cs ++ [(headersFail malloc headers, .memory), (headersLost malloc headers, .next),
        (headersOther headers, .headers)])
      { k with
        outputHeaders := (firstBad cs).isNone &&
          (!headersFail malloc headers && !headersLost malloc headers && headersSent headers)
        headers := (firstBad cs).isNone &&
          ((headersFail malloc headers && malloc 0) || (headersLost malloc headers && headersSent headers)) }
      (getHeaders malloc headers b) := by
  unfold HttpCore.getHeaders
  have hkept : { k with outputHeaders := false, headers := false } = k := by
    obtain ⟨slots, outputHeaders, headers, resolve, oncomplete⟩ := k
    cases hk
    cases hk'
    rfl
  rw [h.err]
  cases hcs : firstBad cs with
  | some err =>
      simp only [Option.isNone_some, Bool.false_and, hkept]
      exact { h with err := by rw [firstBad_append, h.err, hcs]; rfl }
  | none =>
      cases headers with
      | nil =>
          simp only [headersSent, headersFail, headersLost, Bool.and_false, Bool.false_and, Bool.or_false, hkept]
          exact { h with err := by rw [firstBad_append, h.err, hcs]; rfl }
      | other =>
          simp only [headersSent, headersFail, headersLost, Bool.and_false, Bool.false_and, Bool.or_false, hkept]
          exact { h with err := by rw [firstBad_append, hcs]; rfl }
      | table entries =>
          have hb := h.appendHeaders malloc entries 0 hcs hk
          simp only [hk', headersKept, Bool.false_or] at hb
          simp only [headersSent, headersFail, headersLost, headersOther, Option.isNone_none, Bool.true_and]
          cases hall : allocated malloc entries 0 <;> cases hlost : anyLost entries <;>
            simp only [hall, hlost, Bool.not_true, Bool.not_false, Bool.true_and, Bool.false_and, Bool.and_false,
              Bool.and_true, Bool.or_false, Bool.false_or, Bool.and_self, if_true, if_false, Bool.false_eq_true]
              at hb ⊢ <;>
            exact { hb with err := by rw [hb.err, firstBad_append, firstBad_append]; rfl }

theorem Built.getOncomplete (t : ArgType) (h : Built n rs hs cs k b) (hk : k.oncomplete = false) :
    Built n rs hs (cs ++ [(!(t.isFunction || t.isNil), .oncomplete)])
      { k with oncomplete := (firstBad cs).isNone && t.isFunction } (getOncomplete t b) := by
  unfold HttpCore.getOncomplete
  rw [h.err]
  have hcheck := h.check (!t.isNil) .oncomplete
  cases hfunction : t.isFunction with
  | false =>
      have hkept : { k with oncomplete := false } = k := by
        rw [← hk]
      rw [Bool.and_false, Bool.false_or, hkept]
      exact hcheck
  | true =>
      cases hcs : firstBad cs with
      | some err =>
          have herr : b.err.isNone = false := by
            rw [h.err, hcs]
            rfl
          have hsame : HttpCore.check (!t.isNil) .oncomplete b = b := by
            rw [HttpCore.check, herr]
            rfl
          simp only [Option.isNone_some, Bool.false_and, hsame, Bool.false_eq_true, if_false]
          refine { h with err := ?_, oncomplete := h.oncomplete.trans hk }
          rw [firstBad_append, h.err, hcs]
          rfl
      | none =>
          have hnone : b.oncompleteref = none := eq_none_of_isSome h.oncomplete hk
          refine { h with refs := h.refs.take.of_eq ?_, err := ?_, oncomplete := rfl, next := Nat.le_succ_of_le h.next }
          · rw [hnone]
            show _ = (↑b.conn.held + {b.refs.next} + rs : Multiset ℕ)
            rw [← Multiset.singleton_add, Option.toList_none, Multiset.coe_nil]
            abel
          · rw [firstBad_append, hcs]
            rfl

theorem Built.getResolve (t : ArgType) (h : Built n rs hs cs k b) (hk : k.resolve = false) :
    Built n rs hs cs { k with resolve := (firstBad cs).isNone && t.isText } (getResolve t b) := by
  have hnone : b.conn.resolve = none := eq_none_of_isSome h.resolve hk
  unfold HttpCore.getResolve
  rw [← h.err]
  split
  · rename_i hif
    refine { h with heap := h.heap.take.of_eq ?_, resolve := hif.symm, slots := fun f => ?_ }
    · simp only [ConnInfo.blocks, hnone, Option.toList_none, Option.toList_some, ← Multiset.coe_add, ← Multiset.cons_coe,
        ← Multiset.singleton_add, Multiset.coe_nil]
      abel
    · rw [← h.slots f]
      cases f <;> rfl
  · rename_i hif
    refine { h with resolve := ?_ }
    rw [hnone]
    exact (Bool.eq_false_of_not_eq_true hif).symm

/-- The checks of a request, in their order. -/
def checks (p : HttpParams) (o : Outside) : List (Bool × HttpStop) :=
  [(!(p.verbose.isNil || p.verbose.isNumber), .verbose),
    (!p.url.isString, .url),
    (headersFail o.malloc p.headers, .memory),
    (headersLost o.malloc p.headers, .next),
    (headersOther p.headers, .headers),
    (!(p.proxytunnel.isNumber || p.proxytunnel.isNil), .proxytunnel),
    (!(p.proxy.isString || p.proxy.isNil), .proxy),
    (!(p.proxyport.isNumber || p.proxyport.isNil), .proxyport),
    (!(p.onsend.isFunction || p.onsend.isNil), .onsend),
    (p.onsend.isNil && !(p.body.isString || p.body.isNil), .body),
    (!(p.onreceive.isFunction || p.onreceive.isNil), .onreceive),
    (!(p.onheader.isFunction || p.onheader.isNil), .onheader),
    (!(p.oncomplete.isFunction || p.oncomplete.isNil), .oncomplete),
    (!(p.cookiejar.isString || p.cookiejar.isNil), .cookiejar),
    (!o.addHandle, .addHandle)]

/-- The first `i` checks pass. -/
def passes (p : HttpParams) (o : Outside) (i : ℕ) : Bool := (firstBad ((checks p o).take i)).isNone

/-- What the parameters make a request keep. -/
def keeps (p : HttpParams) (o : Outside) : Kept where
  slots
    | .onprogress => passes p o 2 && p.onprogress.isFunction
    | .onread => passes p o 8 && p.onsend.isFunction
    | .body => passes p o 9 && (p.onsend.isNil && p.body.isString)
    | .onwrite => passes p o 10 && p.onreceive.isFunction
    | .onheader => passes p o 11 && p.onheader.isFunction
    | .coref => passes p o 14 && true
  outputHeaders := passes p o 2 &&
    (!headersFail o.malloc p.headers && !headersLost o.malloc p.headers && headersSent p.headers)
  headers := passes p o 2 &&
    ((headersFail o.malloc p.headers && o.malloc 0) || (headersLost o.malloc p.headers && headersSent p.headers))
  resolve := passes p o 13 && p.resolve.isText
  oncomplete := passes p o 12 && p.oncomplete.isFunction

/-- **The request holds what its checks let it keep.** -/
theorem Built.transfer (h : Built n rs hs [] {} b) (p : HttpParams) (o : Outside) :
    Built n rs hs (checks p o) (keeps p o) (addTransfer o.addHandle (HttpCore.getParams p o.malloc b)) := by
  -- no slot is set twice, so that each stage finds its own empty
  have h := h.check (!(p.verbose.isNil || p.verbose.isNumber)) .verbose
  have h := h.check (!p.url.isString) .url
  have h := h.refIf .onprogress p.onprogress.isFunction rfl
  have h := h.getHeaders o.malloc p.headers rfl rfl
  have h := h.check (!(p.proxytunnel.isNumber || p.proxytunnel.isNil)) .proxytunnel
  have h := h.check (!(p.proxy.isString || p.proxy.isNil)) .proxy
  have h := h.check (!(p.proxyport.isNumber || p.proxyport.isNil)) .proxyport
  have h := h.callback .onread p.onsend .onsend rfl
  have h := h.refIf .body (p.onsend.isNil && p.body.isString) rfl
  have h := h.check (p.onsend.isNil && !(p.body.isString || p.body.isNil)) .body
  have h := h.callback .onwrite p.onreceive .onreceive rfl
  have h := h.callback .onheader p.onheader .onheader rfl
  have h := h.getOncomplete p.oncomplete rfl
  have h := h.getResolve p.resolve rfl
  have h := h.check (!(p.cookiejar.isString || p.cookiejar.isNil)) .cookiejar
  have h := h.refIf .coref true rfl
  have h := h.check (!o.addHandle) .addHandle
  refine { h with slots := fun f => (h.slots f).trans ?_ }
  cases f <;> rfl

end Stages

/-! ## What a request that fails leaves behind -/

/-- The parameter table, if the request has one. -/
def params : HttpArg → Option HttpParams
  | .string => some { url := .text }
  | .table p => some p
  | .other => none

/-- What stops a request. -/
def stopOf (arg : HttpArg) (o : Outside) : Option HttpStop :=
  if o.easyInit then
    match params arg with
    | some p => firstBad (checks p o)
    | none => some .parameter
  else some .easyInit

/-- The checks behind the one for `headers`. -/
def behindHeaders : HttpStop → Bool
  | .proxytunnel | .proxy | .proxyport | .onsend | .body => true
  | .onreceive | .onheader | .oncomplete | .cookiejar | .addHandle => true
  | _ => false

/-- The checks behind the one for `body`. -/
def behindBody : HttpStop → Bool
  | .onreceive | .onheader | .oncomplete | .cookiejar | .addHandle => true
  | _ => false

/-- The checks behind `resolve`. -/
def behindResolve : HttpStop → Bool
  | .cookiejar | .addHandle => true
  | _ => false

/-- The references that a request leaves behind: the body, if a later check fails, and all of them if Lua
raises an error from within. -/
def leakedRefs (arg : HttpArg) (o : Outside) : ℕ :=
  match stopOf arg o, params arg with
  | some .verbose, _ => 2
  | some .next, some p => 2 + p.onprogress.isFunction.toNat
  | some err, some p => (behindBody err && (p.onsend.isNil && p.body.isString)).toNat
  | _, _ => 0

/-- What a request leaves allocated: the lists of headers and of addresses, if a later check fails, and
all of it if Lua raises an error from within. -/
def leakedBlocks (arg : HttpArg) (o : Outside) : ℕ :=
  match stopOf arg o, params arg with
  | some .verbose, _ => 3
  | some .next, some p => 3 + (headersSent p.headers).toNat
  | some .memory, _ => (o.malloc 0).toNat
  | some err, some p =>
      (behindHeaders err && headersSent p.headers).toNat + (behindResolve err && p.resolve.isText).toNat
  | _, _ => 0

section Leaks

variable {p : HttpParams} {o : Outside} {err : HttpStop}

theorem mem_of_firstBad {cs : List (Bool × HttpStop)} (h : firstBad cs = some err) : (true, err) ∈ cs := by
  obtain ⟨⟨bad, e⟩, hc, rfl⟩ := Option.map_eq_some_iff.mp h
  cases List.find?_some hc
  exact List.mem_of_find?_eq_some hc

/-- The order of the checks. -/
def order : List HttpStop :=
  [.verbose, .url, .memory, .next, .headers, .proxytunnel, .proxy, .proxyport, .onsend, .body, .onreceive, .onheader,
    .oncomplete, .cookiejar, .addHandle]

theorem map_checks (p : HttpParams) (o : Outside) : (checks p o).map Prod.snd = order := rfl

theorem nodup_order : order.Nodup := by
  decide

theorem passes_eq (h : firstBad (checks p o) = some err) (i : ℕ) : passes p o i = decide (err ∉ order.take i) := by
  rw [← map_checks p o, ← List.map_take]
  have hsplit : firstBad ((checks p o).take i ++ (checks p o).drop i) = some err := by
    rw [List.take_append_drop]
    exact h
  refine isNone_firstBad hsplit ?_
  have hnodup : ((checks p o).map Prod.snd).Nodup := nodup_order
  rw [← List.take_append_drop i (checks p o), List.map_append, List.nodup_append] at hnodup
  by_contra hboth
  rw [not_or, not_not, not_not] at hboth
  exact hnodup.2.2 err hboth.1 err hboth.2 rfl

theorem passes_of_none (h : firstBad (checks p o) = none) (i : ℕ) : passes p o i = true := by
  rw [← List.take_append_drop i (checks p o), firstBad_append, Option.or_eq_none_iff] at h
  rw [passes, h.1]
  rfl

theorem mem_order (h : firstBad (checks p o) = some err) : err ∈ order := by
  rw [← map_checks p o]
  exact firstBad_mem h

/-- What is left of the references when the request fails. -/
theorem keeps_body (h : firstBad (checks p o) = some err) :
    (keeps p o).slots .body = (behindBody err && (p.onsend.isNil && p.body.isString)) := by
  show (passes p o 9 && _) = _
  rw [passes_eq h]
  have hmem := mem_order h
  have hbad := mem_of_firstBad h
  cases err <;> first | rfl | skip
  · exact absurd hmem (by decide)
  · exact absurd hmem (by decide)
  · -- the body itself is not a string
    have hstring : p.body.isString = false := by
      simp only [checks, List.mem_cons, Prod.mk.injEq, reduceCtorEq, and_false, and_true, false_or, or_false,
        List.not_mem_nil, Bool.true_eq, Bool.and_eq_true, Bool.not_eq_true', Bool.or_eq_false_iff] at hbad
      exact hbad.2.1
    rw [hstring, Bool.and_false, Bool.and_false, Bool.and_false]

/-- The headers are all there if a later check is the first to fail. -/
theorem headersGood_of_firstBad (h : firstBad (checks p o) = some err) (hlater : err ∉ order.take 4) :
    headersFail o.malloc p.headers = false ∧ headersLost o.malloc p.headers = false := by
  have hpasses : passes p o 4 = true := (passes_eq h 4).trans (decide_eq_true hlater)
  have hfind := Option.map_eq_none_iff.mp (Option.isNone_iff_eq_none.mp hpasses)
  have hfail := List.find?_eq_none.mp hfind (headersFail o.malloc p.headers, .memory) (by simp [checks])
  have hlost := List.find?_eq_none.mp hfind (headersLost o.malloc p.headers, .next) (by simp [checks])
  exact ⟨Bool.eq_false_of_not_eq_true hfail, Bool.eq_false_of_not_eq_true hlost⟩

theorem headersFail_of_memory (h : firstBad (checks p o) = some .memory) : headersFail o.malloc p.headers = true := by
  have hbad := mem_of_firstBad h
  simp only [checks, List.mem_cons, Prod.mk.injEq, reduceCtorEq, and_false, and_true, false_or, or_false,
    List.not_mem_nil] at hbad
  exact hbad.symm

theorem headersLost_of_next (h : firstBad (checks p o) = some .next) : headersLost o.malloc p.headers = true := by
  have hbad := mem_of_firstBad h
  simp only [checks, List.mem_cons, Prod.mk.injEq, reduceCtorEq, and_false, and_true, false_or, or_false,
    List.not_mem_nil] at hbad
  exact hbad.symm

/-- The loop ends in one way. -/
theorem headersFail_of_lost {malloc : ℕ → Bool} {headers : HeadersArg} (h : headersLost malloc headers = true) :
    headersFail malloc headers = false := by
  cases headers with
  | nil => rfl
  | other => rfl
  | table entries =>
      simp only [headersLost, Bool.and_eq_true] at h
      simp only [headersFail, h.1, Bool.not_true]

theorem headersSent_of_headers (h : firstBad (checks p o) = some .headers) : headersSent p.headers = false := by
  have hbad := mem_of_firstBad h
  simp only [checks, List.mem_cons, Prod.mk.injEq, reduceCtorEq, and_false, and_true, false_or, or_false,
    List.not_mem_nil] at hbad
  cases hheaders : p.headers with
  | nil => rfl
  | other => rfl
  | table entries =>
      rw [hheaders] at hbad
      cases hbad

/-- What is left of the headers. -/
theorem keeps_outputHeaders (h : firstBad (checks p o) = some err) :
    (keeps p o).outputHeaders = (behindHeaders err && headersSent p.headers) := by
  show (passes p o 2 &&
    (!headersFail o.malloc p.headers && !headersLost o.malloc p.headers && headersSent p.headers)) = _
  rw [passes_eq h]
  have hmem := mem_order h
  by_cases hlater : err ∈ order.take 4
  · cases err <;> first | rfl | exact absurd hlater (by decide) | skip
    · -- no list is complete
      rw [headersFail_of_memory h]
      rfl
    · rw [headersLost_of_next h, Bool.not_true, Bool.and_false, Bool.false_and, Bool.and_false]
      rfl
  · obtain ⟨hfail, hlost⟩ := headersGood_of_firstBad h hlater
    rw [hfail, hlost]
    cases err <;> first | rfl | exact absurd hmem (by decide) | exact absurd (by decide) hlater | skip
    -- the headers are no table
    rw [headersSent_of_headers h]
    rfl

/-- What is left of a list that is not complete. -/
theorem keeps_headers (h : firstBad (checks p o) = some err) :
    (keeps p o).headers =
      ((decide (err = .memory) && o.malloc 0) || (decide (err = .next) && headersSent p.headers)) := by
  show (passes p o 2 && ((headersFail o.malloc p.headers && o.malloc 0) ||
    (headersLost o.malloc p.headers && headersSent p.headers))) = _
  rw [passes_eq h]
  have hmem := mem_order h
  by_cases hlater : err ∈ order.take 4
  · cases err <;> first | rfl | exact absurd hlater (by decide) | skip
    · have hfail := headersFail_of_memory h
      have hlost : headersLost o.malloc p.headers = false := by
        apply Bool.eq_false_of_not_eq_true
        intro hlost
        rw [headersFail_of_lost hlost] at hfail
        cases hfail
      rw [hfail, hlost]
      rfl
    · have hlost := headersLost_of_next h
      rw [headersFail_of_lost hlost, hlost]
      rfl
  · obtain ⟨hfail, hlost⟩ := headersGood_of_firstBad h hlater
    have hmemory : err ≠ .memory := fun heq => hlater (heq ▸ by decide)
    have hnext : err ≠ .next := fun heq => hlater (heq ▸ by decide)
    rw [hfail, hlost, decide_eq_false hmemory, decide_eq_false hnext]
    simp only [Bool.false_and, Bool.or_false, Bool.and_false]

theorem keeps_resolve (h : firstBad (checks p o) = some err) :
    (keeps p o).resolve = (behindResolve err && p.resolve.isText) := by
  show (passes p o 13 && _) = _
  rw [passes_eq h]
  have hmem := mem_order h
  cases err <;> first | rfl | exact absurd hmem (by decide)

end Leaks

/-! ## Requests -/

section Requests

variable {s : HttpCore} {n conn : ℕ} {rs hs : Multiset ℕ} {cs : List (Bool × HttpStop)} {k : Kept} {b : Building}
  {arg : HttpArg} {o : Outside} {p : HttpParams} {err : HttpStop}

theorem newConn_built (hr : s.refs.Holds rs) (hh : s.heap.Holds hs) :
    Built s.refs.next rs (s.heap.next ::ₘ hs) [] {} (newConn s).2 where
  refs := by
    refine hr.take.take.of_eq ?_
    show _ = (↑[s.refs.next + 1, s.refs.next] + ↑([] : List ℕ) + rs : Multiset ℕ)
    simp only [← Multiset.cons_coe, ← Multiset.singleton_add, Multiset.coe_nil, Handles.take_next]
    abel
  heap := by
    refine hh.take.take.take.of_eq ?_
    show _ = (↑[s.heap.next + 1 + 1, s.heap.next + 1] + ↑([] : List ℕ) + s.heap.next ::ₘ hs : Multiset ℕ)
    simp only [← Multiset.cons_coe, ← Multiset.singleton_add, Multiset.coe_nil, Handles.take_next]
    abel
  err := rfl
  slots := by
    intro f
    cases f <;> rfl
  outputHeaders := rfl
  headers := rfl
  resolve := rfl
  oncomplete := rfl
  completed := rfl
  next := Nat.le_add_right s.refs.next 2
  coref := by
    intro r hr
    cases hr

theorem build_built (h : Built n rs hs [] {} b) (hp : params arg = some p) :
    Built n rs hs (checks p o) (keeps p o) (build arg o b) := by
  cases arg with
  | string =>
      cases hp
      exact h.transfer _ o
  | table q =>
      cases hp
      exact h.transfer _ o
  | other => cases hp

/-- What the label `ERROR` does not release. -/
theorem Built.fail_refs (h : Built n rs (conn ::ₘ hs) cs k b) :
    (b.refs.giveAll (b.conn.failedRefs b.oncompleteref)).Holds (↑b.conn.bodyref.toList + rs) := by
  refine (h.refs.of_eq ?_).giveAll
  rw [← add_assoc, ConnInfo.coe_failedRefs]

theorem Built.fail_heap (h : Built n rs (conn ::ₘ hs) cs k b) :
    (b.heap.giveAll [b.conn.easy, b.conn.input, conn]).Holds
      (↑(b.conn.outputHeaders.toList ++ b.headers.toList ++ b.conn.resolve.toList) + hs) := by
  refine (h.heap.of_eq ?_).giveAll
  simp only [ConnInfo.blocks, ← Multiset.coe_add, ← Multiset.cons_coe, ← Multiset.singleton_add, Multiset.coe_nil]
  abel

/-- An error that does not come back leaves the two references to headers and response, and that to
`onprogress` if it comes after it. -/
theorem Built.card_raises_refs (h : Built n rs hs (checks p o) (keeps p o) b)
    (hstop : firstBad (checks p o) = some err) (hraises : err.raises = true) :
    (↑b.conn.held + ↑b.oncompleteref.toList : Multiset ℕ).card =
      2 + (decide (err = .next) && p.onprogress.isFunction).toNat := by
  rw [Multiset.card_add, Multiset.coe_card, Multiset.coe_card, length_toList, h.oncomplete, ConnInfo.length_held]
  simp only [h.slots, keeps, passes_eq hstop]
  cases err <;> cases hraises
  · rfl
  · cases p.onprogress.isFunction <;> rfl

/-- It leaves `conn`, its input buffer, the handle of curl, and the list of headers if one was begun. -/
theorem Built.card_raises_heap (h : Built n rs hs (checks p o) (keeps p o) b)
    (hstop : firstBad (checks p o) = some err) (hraises : err.raises = true) :
    (↑b.conn.blocks + ↑b.headers.toList + {conn} : Multiset ℕ).card =
      3 + (decide (err = .next) && headersSent p.headers).toNat := by
  rw [Multiset.card_add, Multiset.card_add, Multiset.coe_card, Multiset.coe_card, length_toList, h.headers,
    ConnInfo.length_blocks, h.outputHeaders, h.resolve, keeps_outputHeaders hstop, keeps_headers hstop,
    keeps_resolve hstop, Multiset.card_singleton]
  cases err <;> cases hraises
  · rfl
  · cases headersSent p.headers <;> rfl

theorem Built.card_fail_refs (h : Built n rs hs (checks p o) (keeps p o) b)
    (hstop : firstBad (checks p o) = some err) :
    (b.conn.bodyref.toList : Multiset ℕ).card = (behindBody err && (p.onsend.isNil && p.body.isString)).toNat := by
  have hbody : b.conn.bodyref.isSome = _ := (h.slots .body).trans (keeps_body hstop)
  rw [Multiset.coe_card, length_toList, hbody]

theorem Built.card_fail_heap (h : Built n rs hs (checks p o) (keeps p o) b)
    (hstop : firstBad (checks p o) = some err) :
    (↑(b.conn.outputHeaders.toList ++ b.headers.toList ++ b.conn.resolve.toList) : Multiset ℕ).card =
      (behindHeaders err && headersSent p.headers).toNat +
        ((decide (err = .memory) && o.malloc 0) || (decide (err = .next) && headersSent p.headers)).toNat +
        (behindResolve err && p.resolve.isText).toNat := by
  rw [Multiset.coe_card, List.length_append, List.length_append, length_toList, length_toList, length_toList,
    h.outputHeaders, h.headers, h.resolve, keeps_outputHeaders hstop, keeps_headers hstop, keeps_resolve hstop]

theorem httpGetpost_init (hinit : o.easyInit = false) :
    httpGetpost arg o s =
      ({ s with heap := s.heap.take.take.giveAll [s.heap.next + 1, s.heap.next] }, .error HttpStop.easyInit.text) := by
  simp only [httpGetpost, hinit, Bool.not_false, if_true, Handles.take_next]

theorem httpGetpost_raises (hinit : o.easyInit = true) (hb : build arg o (newConn s).2 = b)
    (herr : b.err = some err) (hraises : err.raises = true) :
    httpGetpost arg o s = ({ s with refs := b.refs, heap := b.heap }, .error err.text) := by
  simp only [httpGetpost, hinit, Bool.not_true, Bool.false_eq_true, if_false, hb, herr, hraises, if_true]

theorem httpGetpost_error (hinit : o.easyInit = true) (hb : build arg o (newConn s).2 = b) (herr : b.err = some err)
    (hreturns : err.raises = false) : httpGetpost arg o s = (fail s.heap.next b s, .error err.text) := by
  simp only [httpGetpost, hinit, Bool.not_true, Bool.false_eq_true, if_false, hb, herr, hreturns]
  rfl

theorem httpGetpost_accept (hinit : o.easyInit = true) (hb : build arg o (newConn s).2 = b) (herr : b.err = none) :
    httpGetpost arg o s = (accept s.heap.next b s, .ok b.oncompleteref.isNone) := by
  simp only [httpGetpost, hinit, Bool.not_true, Bool.false_eq_true, if_false, hb, herr]
  rfl

/-- **A request that is stopped raises what stopped it**, and leaves behind what it does not release. -/
theorem httpGetpost_fails (hr : s.refs.Holds rs) (hh : s.heap.Holds hs) (hstop : stopOf arg o = some err) :
    ∃ refs heap lr lh, httpGetpost arg o s = ({ s with refs := refs, heap := heap }, .error err.text) ∧
      refs.Holds (lr + rs) ∧ heap.Holds (lh + hs) ∧ lr.card = leakedRefs arg o ∧ lh.card = leakedBlocks arg o ∧
      s.refs.next ≤ refs.next := by
  unfold leakedRefs leakedBlocks
  rw [hstop]
  unfold stopOf at hstop
  cases hinit : o.easyInit with
  | false =>
      -- curl gives no handle, and both blocks are freed
      rw [hinit] at hstop
      cases hstop
      refine ⟨_, _, 0, 0, httpGetpost_init hinit, hr.of_eq (zero_add rs).symm, ?_, ?_, ?_, le_rfl⟩
      · refine Handles.Holds.giveAll (hh.take.take.of_eq ?_)
        simp only [← Multiset.cons_coe, ← Multiset.singleton_add, Multiset.coe_nil, Handles.take_next]
        abel
      · cases params arg <;> rfl
      · cases params arg <;> rfl
  | true =>
      have hb := newConn_built hr hh
      rw [hinit] at hstop
      cases hparams : params arg with
      | none =>
          rw [hparams] at hstop
          cases hstop
          obtain rfl : arg = .other := by
            cases arg with
            | other => rfl
            | string => cases hparams
            | table p => cases hparams
          have hb := hb.check true .parameter
          refine ⟨_, _, 0, 0, httpGetpost_error hinit rfl rfl rfl, hb.fail_refs, hb.fail_heap, rfl, rfl, ?_⟩
          rw [Handles.giveAll_next]
          exact hb.next
      | some p =>
          rw [hparams] at hstop
          have hstop : firstBad (checks p o) = some err := hstop
          obtain ⟨b, hb'⟩ : ∃ b, build arg o (newConn s).2 = b := ⟨_, rfl⟩
          have hb : Built s.refs.next rs (s.heap.next ::ₘ hs) (checks p o) (keeps p o) b :=
            hb' ▸ build_built hb hparams
          have herr : b.err = some err := hb.err.trans hstop
          cases hraises : err.raises with
          | true =>
              -- nothing is released
              refine ⟨_, _, ↑b.conn.held + ↑b.oncompleteref.toList, ↑b.conn.blocks + ↑b.headers.toList + {s.heap.next},
                httpGetpost_raises hinit hb' herr hraises, hb.refs, hb.heap.of_eq ?_, ?_, ?_, hb.next⟩
              · rw [← Multiset.singleton_add]
                abel
              · rw [hb.card_raises_refs hstop hraises]
                cases err <;> cases hraises <;> simp
              · rw [hb.card_raises_heap hstop hraises]
                cases err <;> cases hraises <;> simp
          | false =>
              refine ⟨_, _, _, _, httpGetpost_error hinit hb' herr hraises, hb.fail_refs, hb.fail_heap, ?_, ?_, ?_⟩
              · rw [hb.card_fail_refs hstop]
                cases err <;> cases hraises <;> rfl
              · rw [hb.card_fail_heap hstop]
                cases err <;> cases hraises <;> simp [behindHeaders, behindResolve]
              · rw [Handles.giveAll_next]
                exact hb.next

/-- **A request that nothing stops is taken on.** -/
theorem httpGetpost_accepts (hr : s.refs.Holds rs) (hh : s.heap.Holds hs) (hp : params arg = some p)
    (hstop : stopOf arg o = none) :
    ∃ c r refs heap, httpGetpost arg o s =
        ({ s with
            refs := refs
            heap := heap
            mem := Doubly.insert (Function.update s.mem s.heap.next (some ⟨c, none, none⟩)) s.inflightHead s.heap.next
            inflightHead := some s.heap.next
            multi := s.heap.next :: s.multi
            activity := s.activity + 1
            mainRefs := s.mainRefs + 1
            started := some r :: s.started }, .ok (!p.oncomplete.isFunction)) ∧
      refs.Holds (↑c.held + rs) ∧ heap.Holds (↑(s.heap.next :: c.blocks) + hs) ∧ c.completed = false ∧
      c.coref = some r ∧ s.refs.next ≤ r ∧ r < refs.next := by
  unfold stopOf at hstop
  cases hinit : o.easyInit with
  | false =>
      rw [hinit] at hstop
      cases hstop
  | true =>
      rw [hinit, hp] at hstop
      have hstop : firstBad (checks p o) = none := hstop
      obtain ⟨b, hb'⟩ : ∃ b, build arg o (newConn s).2 = b := ⟨_, rfl⟩
      have hb : Built s.refs.next rs (s.heap.next ::ₘ hs) (checks p o) (keeps p o) b :=
        hb' ▸ build_built (newConn_built hr hh) hp
      have hslot : (b.conn.slot .coref).isSome = true := by
        rw [hb.slots, keeps]
        exact (Bool.and_true _).trans (passes_of_none hstop 14)
      obtain ⟨r, hcoref⟩ := Option.isSome_iff_exists.mp hslot
      have hcoref : b.conn.coref = some r := hcoref
      have hwaits : b.oncompleteref.isNone = !p.oncomplete.isFunction := by
        rw [← Option.not_isSome, hb.oncomplete, keeps]
        exact congrArg Bool.not ((congrArg (· && _) (passes_of_none hstop 12)).trans (Bool.true_and _))
      have hheaders : b.headers = none := by
        apply eq_none_of_isSome hb.headers
        have hgood := List.find?_eq_none.mp (Option.map_eq_none_iff.mp hstop)
        have hfail : headersFail o.malloc p.headers = false :=
          Bool.eq_false_of_not_eq_true (hgood (headersFail o.malloc p.headers, .memory) (by simp [checks]))
        have hlost : headersLost o.malloc p.headers = false :=
          Bool.eq_false_of_not_eq_true (hgood (headersLost o.malloc p.headers, .next) (by simp [checks]))
        show (passes p o 2 && ((headersFail o.malloc p.headers && o.malloc 0) ||
          (headersLost o.malloc p.headers && headersSent p.headers))) = false
        rw [hfail, hlost, Bool.false_and, Bool.false_and, Bool.or_false, Bool.and_false]
      have hrefs : (b.refs.giveAll b.oncompleteref.toList).Holds (↑b.conn.held + rs) := by
        refine (hb.refs.of_eq ?_).giveAll
        abel
      refine ⟨b.conn, r, _, _, ?_, hrefs, hb.heap.of_eq ?_, hb.completed, hcoref, hb.coref r hcoref, ?_⟩
      · rw [httpGetpost_accept hinit hb' (hb.err.trans hstop), hwaits, accept, hcoref]
      · rw [hheaders, ← Multiset.cons_coe, ← Multiset.singleton_add, ← Multiset.singleton_add, Option.toList_none,
          Multiset.coe_nil]
        abel
      · refine hrefs.fresh r (Multiset.mem_add.mpr (Or.inl ?_))
        rw [ConnInfo.held, hcoref]
        simp

end Requests

end HttpCore

end LuaFan
