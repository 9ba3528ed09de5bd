/-
# Transfers (`src/http.c`)

A run of the core mixes requests, transfers that curl is done with, timers, coroutines that come back
and cleanups.  `Inv` says who holds what is out: the transfers in the list, the timers, the coroutines
that were resumed, and the requests that left something behind.

* `transfers_owned`: nothing is released twice or used after it was freed, and **what is never released
  is what requests that fail leave behind**;
* `coroutines_resumed_once`: **a coroutine that was taken on is in one place**: in the list, with a timer,
  resumed or given up.
-/
import LuaFan.Http.Ownership
import Mathlib.Tactic.Ring

namespace LuaFan

namespace HttpCore

/-! ## Runs -/

/-- What each transfer holds, what waits for a timer, and what was left behind, together, are all that is out. -/
structure Inv (s : HttpCore) (cells : List (ℕ × ConnInfo)) (lr lh : Multiset ℕ) : Prop where
  chain : Doubly.Chain s.mem s.inflightHead cells
  multi : (s.multi : Multiset ℕ) = ↑(cells.map Prod.fst)
  unfinished : ∀ cell ∈ cells, cell.2.completed = false ∧ cell.2.coref.isSome
  timers : ∀ info ∈ s.timers, info.coref.isSome
  running : ∀ coref ∈ s.running, coref.isSome
  refs : s.refs.Holds (↑(cells.flatMap fun cell => cell.2.held) +
    ↑(s.timers.flatMap fun info => info.coref.toList) + ↑(s.running.flatMap Option.toList) + lr)
  heap : s.heap.Holds (↑(cells.flatMap fun cell => cell.1 :: cell.2.blocks) +
    ↑(s.timers.flatMap fun info => [info.info, info.resumeTimer]) + lh)
  activity : s.activity = cells.length
  mainRefs : s.mainRefs = cells.length + s.timers.length + s.running.length
  started : (s.started : Multiset (Option ℕ)) =
    ↑(cells.map fun cell => cell.2.coref) + ↑(s.timers.map ResumeInfo.coref) + ↑s.resumed + ↑s.dropped
  nodup : s.started.Nodup
  fresh : ∀ coref ∈ s.started, ∃ r < s.refs.next, coref = some r

theorem start_inv : Inv start [] 0 0 where
  chain := .nil
  multi := rfl
  unfinished := fun cell hcell => by cases hcell
  timers := fun info hinfo => by cases hinfo
  running := fun coref hcoref => by cases hcoref
  refs := Handles.holds_empty
  heap := Handles.holds_empty
  activity := rfl
  mainRefs := rfl
  started := rfl
  nodup := List.nodup_nil
  fresh := fun coref hcoref => by cases hcoref

section Steps

variable {s : HttpCore} {cells before after : List (ℕ × ConnInfo)} {lr lh : Multiset ℕ} {a : ℕ} {c : ConnInfo}
  {arg : HttpArg} {o : Outside} {err : HttpStop}

/-- A transfer that curl has is in the list. -/
theorem Inv.exists_cell (h : Inv s cells lr lh) (ha : a ∈ s.multi) :
    ∃ before c after, cells = before ++ (a, c) :: after := by
  have hmem : a ∈ cells.map Prod.fst := by
    rw [← Multiset.mem_coe, ← h.multi]
    exact ha
  obtain ⟨⟨a, c⟩, hcell, rfl⟩ := List.mem_map.mp hmem
  obtain ⟨before, after, rfl⟩ := List.append_of_mem hcell
  exact ⟨before, c, after, rfl⟩

/-- A request that is stopped changes only what is out. -/
theorem Inv.stopped (h : Inv s cells lr lh) (hstop : stopOf arg o = some err) :
    ∃ lr' lh', Inv (httpGetpost arg o s).1 cells (lr + lr') (lh + lh') ∧ lr'.card = leakedRefs arg o ∧
      lh'.card = leakedBlocks arg o ∧ (httpGetpost arg o s).1.started = s.started := by
  obtain ⟨refs, heap, lr', lh', hanswer, hrefs, hheap, hcr, hch, hnext⟩ := httpGetpost_fails h.refs h.heap hstop
  rw [hanswer]
  refine ⟨lr', lh', { h with refs := ?_, heap := ?_, fresh := ?_ }, hcr, hch, rfl⟩
  · refine hrefs.of_eq ?_
    abel
  · refine hheap.of_eq ?_
    abel
  · intro coref hcoref
    obtain ⟨r, hr, rfl⟩ := h.fresh coref hcoref
    exact ⟨r, hr.trans_le hnext, rfl⟩

theorem exists_params (hstop : stopOf arg o = none) : ∃ p, params arg = some p := by
  cases hp : params arg with
  | some p => exact ⟨p, rfl⟩
  | none =>
      rw [stopOf, hp] at hstop
      split at hstop <;> cases hstop

/-- The address that the allocator gives next is that of no transfer. -/
theorem Inv.next_not_mem (h : Inv s cells lr lh) : s.heap.next ∉ cells.map Prod.fst := by
  intro hmem
  obtain ⟨cell, hcell, heq⟩ := List.mem_map.mp hmem
  refine h.heap.not_mem_next ?_
  simp only [Multiset.mem_add, Multiset.mem_coe, List.mem_flatMap]
  exact Or.inl (Or.inl ⟨cell, hcell, heq ▸ List.mem_cons_self⟩)

/-- A request that nothing stops puts one more transfer at the head of the list. -/
theorem Inv.accepted (h : Inv s cells lr lh) (hstop : stopOf arg o = none) :
    ∃ c, Inv (httpGetpost arg o s).1 ((s.heap.next, c) :: cells) lr lh ∧
      (httpGetpost arg o s).1.started.length = s.started.length + 1 := by
  obtain ⟨p, hp⟩ := exists_params hstop
  obtain ⟨c, r, refs, heap, hanswer, hrefs, hheap, hcompleted, hcoref, hfrom, hto⟩ :=
    httpGetpost_accepts h.refs h.heap hp hstop
  rw [hanswer]
  -- the address of the new node is not in use, so the list stays as it is
  have hnew := h.next_not_mem
  have hsame : ∀ b ∈ cells.map Prod.fst,
      Function.update s.mem s.heap.next (some ⟨c, none, none⟩) b = s.mem b := by
    intro b hb
    apply Function.update_of_ne
    rintro rfl
    exact hnew hb
  have hchain := (h.chain.congr hsame).insert hnew (Function.update_self ..)
  refine ⟨c, ⟨hchain, ?_, ?_, h.timers, h.running, ?_, ?_, ?_, ?_, ?_, ?_, ?_⟩, rfl⟩
  · rw [List.map_cons, ← Multiset.cons_coe, ← Multiset.cons_coe, h.multi]
  · intro cell hcell
    rcases List.mem_cons.mp hcell with rfl | hcell
    · exact ⟨hcompleted, hcoref ▸ rfl⟩
    · exact h.unfinished cell hcell
  · refine hrefs.of_eq ?_
    rw [List.flatMap_cons, ← Multiset.coe_add]
    abel
  · refine hheap.of_eq ?_
    rw [List.flatMap_cons, ← Multiset.coe_add]
    abel
  · rw [h.activity, List.length_cons]
    push_cast
    ring
  · rw [h.mainRefs, List.length_cons]
    push_cast
    ring
  · rw [List.map_cons, ← Multiset.cons_coe, ← Multiset.cons_coe, h.started, hcoref, ← Multiset.singleton_add,
      ← Multiset.singleton_add]
    abel
  · -- its coroutine has a reference that none had before
    refine List.nodup_cons.mpr ⟨fun hmem => ?_, h.nodup⟩
    obtain ⟨r', hr', heq⟩ := h.fresh _ hmem
    cases heq
    exact absurd hr' (Nat.not_lt.mpr hfrom)
  · intro coref hmem
    rcases List.mem_cons.mp hmem with rfl | hmem
    · exact ⟨r, hto, rfl⟩
    · obtain ⟨r', hr', rfl⟩ := h.fresh coref hmem
      exact ⟨r', (hr'.trans_le hfrom).trans hto, rfl⟩

/-- **A request** is taken on, or leaves something behind. -/
theorem Inv.request (h : Inv s cells lr lh) (arg : HttpArg) (o : Outside) :
    ∃ cells' lr' lh', Inv (httpGetpost arg o s).1 cells' lr' lh' ∧ lr'.card = lr.card + leakedRefs arg o ∧
      lh'.card = lh.card + leakedBlocks arg o ∧
      (httpGetpost arg o s).1.started.length = s.started.length + (stopOf arg o).isNone.toNat := by
  cases hstop : stopOf arg o with
  | some err =>
      obtain ⟨lr', lh', hinv, hcr, hch, hstarted⟩ := h.stopped hstop
      refine ⟨cells, lr + lr', lh + lh', hinv, ?_, ?_, ?_⟩
      · rw [Multiset.card_add, hcr]
      · rw [Multiset.card_add, hch]
      · rw [hstarted]
        rfl
  | none =>
      obtain ⟨c, hinv, hstarted⟩ := h.accepted hstop
      have hrefs : leakedRefs arg o = 0 := by
        rw [leakedRefs, hstop]
      have hblocks : leakedBlocks arg o = 0 := by
        rw [leakedBlocks, hstop]
      exact ⟨(s.heap.next, c) :: cells, lr, lh, hinv, by rw [hrefs, add_zero], by rw [hblocks, add_zero], hstarted⟩

/-- The others are left in the list. -/
theorem not_mem_others (hnodup : ((before ++ (a, c) :: after).map Prod.fst).Nodup) :
    a ∉ (before ++ after).map Prod.fst := by
  rw [List.map_append, List.map_cons, List.nodup_append] at hnodup
  obtain ⟨-, hcons, hdisjoint⟩ := hnodup
  rw [List.map_append, List.mem_append, not_or]
  exact ⟨fun hmem => hdisjoint a hmem a List.mem_cons_self rfl, (List.nodup_cons.mp hcons).1⟩

theorem chain_freed {m m' : Doubly.Memory ConnInfo} {head : Option ℕ} (h : Doubly.Chain m head cells)
    (ha : a ∉ cells.map Prod.fst) (hsame : ∀ b, b ≠ a → m' b = m b) :
    Doubly.Chain (Function.update m' a none) head cells := by
  apply h.congr
  intro b hb
  have hne : b ≠ a := fun heq => ha (heq ▸ hb)
  rw [Function.update_of_ne hne]
  exact hsame b hne

/-- The multisets of a state when one transfer is looked at. -/
theorem Inv.refs_middle (h : Inv s (before ++ (a, c) :: after) lr lh) :
    s.refs.Holds (↑c.completedRefs + (↑c.coref.toList + ↑((before ++ after).flatMap fun cell => cell.2.held) +
      ↑(s.timers.flatMap fun info => info.coref.toList) + ↑(s.running.flatMap Option.toList) + lr)) := by
  refine h.refs.of_eq ?_
  rw [Handles.coe_flatMap_middle]
  simp only [ConnInfo.held, ← Multiset.coe_add]
  abel

theorem Inv.heap_middle (h : Inv s (before ++ (a, c) :: after) lr lh) :
    s.heap.Holds (c.input ::ₘ (↑(c.outputHeaders.toList ++ c.resolve.toList ++ [c.easy, a]) +
      (↑((before ++ after).flatMap fun cell => cell.1 :: cell.2.blocks) +
        ↑(s.timers.flatMap fun info => [info.info, info.resumeTimer]) + lh))) := by
  refine h.heap.of_eq ?_
  rw [Handles.coe_flatMap_middle]
  simp only [ConnInfo.blocks, ← Multiset.coe_add, ← Multiset.cons_coe, ← Multiset.singleton_add, Multiset.coe_nil]
  abel

theorem Inv.multi_middle (h : Inv s (before ++ (a, c) :: after) lr lh) :
    (s.multi.erase a : Multiset ℕ) = ↑((before ++ after).map Prod.fst) := by
  rw [← Multiset.coe_erase, h.multi, Handles.coe_map_middle, Multiset.erase_cons_head]

theorem Inv.unfinished_others (h : Inv s (before ++ (a, c) :: after) lr lh) :
    ∀ cell ∈ before ++ after, cell.2.completed = false ∧ cell.2.coref.isSome := by
  intro cell hcell
  refine h.unfinished cell ?_
  rcases List.mem_append.mp hcell with hcell | hcell
  · exact List.mem_append_left _ hcell
  · exact List.mem_append_right _ (List.mem_cons_of_mem _ hcell)

/-- **A transfer that is done** goes over to a timer, or is given up. -/
theorem Inv.transferDone (h : Inv s (before ++ (a, c) :: after) lr lh) (malloc : Bool) :
    Inv (transferDone a malloc s) (before ++ after) lr lh := by
  obtain ⟨hcompleted, hcoref⟩ := h.unfinished (a, c) (List.mem_append_right _ List.mem_cons_self)
  have hcompleted : c.completed = false := hcompleted
  obtain ⟨prev, next, hnode⟩ := h.chain.exists_node (List.mem_append_right _ List.mem_cons_self)
  have hnot := not_mem_others h.chain.nodup
  -- `completed` is set while the node is still in the list
  obtain ⟨hchain, hleft⟩ := (h.chain.modifyItem fun conn => { conn with completed := true }).remove
  have hlength : ((before ++ (a, c) :: after).length : ℤ) = (before ++ after).length + 1 := by
    simp only [List.length_append, List.length_cons]
    push_cast
    ring
  have hrefs := h.refs_middle.giveAll
  have hheap := h.heap_middle.give
  have hstarted := h.started
  rw [Handles.coe_map_middle] at hstarted
  have hactivity : s.activity - 1 = (before ++ after).length := by
    rw [h.activity, hlength]
    ring
  cases malloc with
  | true =>
      -- the node has left the list before it is freed
      have hmem : (Doubly.modify (Doubly.remove (Doubly.modify s.mem a fun n =>
          { n with item := { n.item with completed := true } }) s.inflightHead a).1 a fun n =>
            { n with item := { n.item with coref := none } }) a =
          some ⟨{ c with completed := true, coref := none }, none, none⟩ := by
        rw [Doubly.modify_self, hleft]
        rfl
      unfold HttpCore.transferDone httpGetpostComplete freeConn
      simp only [hnode, hcompleted, Bool.false_eq_true, if_false, if_true, hmem]
      refine ⟨chain_freed hchain hnot fun b hb => Doubly.modify_of_ne hb, h.multi_middle, h.unfinished_others, ?_,
        h.running, ?_, ?_, hactivity, ?_, ?_, h.nodup, ?_⟩
      · intro info hinfo
        rcases List.mem_cons.mp hinfo with rfl | hinfo
        · exact hcoref
        · exact h.timers info hinfo
      · refine hrefs.of_eq ?_
        rw [List.flatMap_cons, ← Multiset.coe_add]
        abel
      · refine (hheap.take.take.of_eq ?_).giveAll
        simp only [List.flatMap_cons, ← Multiset.coe_add, ← Multiset.cons_coe, ← Multiset.singleton_add,
          Multiset.coe_nil]
        abel
      · rw [h.mainRefs, hlength, List.length_cons]
        push_cast
        ring
      · rw [hstarted, List.map_cons, ← Multiset.cons_coe, ← Multiset.singleton_add, ← Multiset.singleton_add]
        abel
      · rw [Handles.giveAll_next]
        exact h.fresh
  | false =>
      unfold HttpCore.transferDone httpGetpostComplete freeConn
      simp only [hnode, hcompleted, Bool.false_eq_true, if_false, hleft]
      refine ⟨chain_freed hchain hnot fun b hb => rfl, h.multi_middle, h.unfinished_others, h.timers,
        h.running, ?_, hheap.giveAll, hactivity, ?_, ?_, h.nodup, ?_⟩
      · refine (hrefs.of_eq ?_).giveAll
        abel
      · rw [h.mainRefs, hlength]
        ring
      · rw [hstarted, ← Multiset.cons_coe, ← Multiset.singleton_add, ← Multiset.singleton_add]
        abel
      · rw [Handles.giveAll_next, Handles.giveAll_next]
        exact h.fresh

/-- **A timer** fires, and its coroutine goes on. -/
theorem Inv.resume (h : Inv s cells lr lh) {info : ResumeInfo} (hinfo : info ∈ s.timers) :
    Inv (resumeCb info s) cells lr lh := by
  have hperm := List.perm_cons_erase hinfo
  have htimers : ∀ {β : Type} (f : ResumeInfo → List β),
      (s.timers.flatMap f : Multiset β) = ↑(f info) + ↑((s.timers.erase info).flatMap f) := by
    intro β f
    rw [Multiset.coe_eq_coe.mpr (hperm.flatMap_right f), List.flatMap_cons, Multiset.coe_add]
  refine { h with timers := ?_, running := ?_, refs := ?_, heap := ?_, mainRefs := ?_, started := ?_ }
  · exact fun i hi => h.timers i (List.mem_of_mem_erase hi)
  · intro coref hcoref
    rcases List.mem_cons.mp hcoref with rfl | hcoref
    · exact h.timers info hinfo
    · exact h.running coref hcoref
  · refine h.refs.of_eq ?_
    rw [htimers, resumeCb, List.flatMap_cons, ← Multiset.coe_add]
    abel
  · refine (h.heap.of_eq ?_).giveAll
    rw [htimers]
    simp only [resumeCb, ← Multiset.cons_coe, ← Multiset.singleton_add, Multiset.coe_nil]
    abel
  · show s.mainRefs = cells.length + (s.timers.erase info).length + (info.coref :: s.running).length
    rw [h.mainRefs, hperm.length_eq, List.length_cons, List.length_cons]
    push_cast
    ring
  · refine h.started.trans ?_
    rw [Multiset.coe_eq_coe.mpr (hperm.map ResumeInfo.coref)]
    simp only [resumeCb, List.map_cons, ← Multiset.cons_coe, ← Multiset.singleton_add]
    abel

/-- **A coroutine comes back**, and its reference is released. -/
theorem Inv.resumeReturned (h : Inv s cells lr lh) {coref : Option ℕ} (hcoref : coref ∈ s.running) :
    Inv (resumeReturned coref s) cells lr lh := by
  have hperm := List.perm_cons_erase hcoref
  refine { h with running := ?_, refs := ?_, mainRefs := ?_, fresh := ?_ }
  · exact fun r hr => h.running r (List.mem_of_mem_erase hr)
  · refine (h.refs.of_eq ?_).giveAll
    rw [Multiset.coe_eq_coe.mpr (hperm.flatMap_right Option.toList), List.flatMap_cons, ← Multiset.coe_add]
    simp only [HttpCore.resumeReturned]
    abel
  · show s.mainRefs - 1 = cells.length + s.timers.length + (s.running.erase coref).length
    rw [h.mainRefs, hperm.length_eq, List.length_cons]
    push_cast
    ring
  · intro r hr
    show ∃ n < (s.refs.giveAll coref.toList).next, r = some n
    rw [Handles.giveAll_next]
    exact h.fresh r hr

/-- **One turn of the cleanup** ends the first transfer. -/
theorem Inv.cleanupConn (h : Inv s ((a, c) :: after) lr lh) : Inv (cleanupConn a s) after lr lh := by
  have h : Inv s ([] ++ (a, c) :: after) lr lh := h
  obtain ⟨hcompleted, -⟩ := h.unfinished (a, c) List.mem_cons_self
  have hcompleted : c.completed = false := hcompleted
  obtain ⟨prev, next, hnode⟩ := h.chain.exists_node List.mem_cons_self
  obtain ⟨hchain, hleft⟩ := h.chain.remove
  have hnot := not_mem_others h.chain.nodup
  have hstarted := h.started
  rw [Handles.coe_map_middle] at hstarted
  unfold HttpCore.cleanupConn freeConn
  simp only [hnode, hcompleted, Bool.false_eq_true, if_false, hleft]
  refine ⟨chain_freed hchain hnot fun b hb => rfl, h.multi_middle, h.unfinished_others, h.timers, h.running, ?_,
    h.heap_middle.give.giveAll, ?_, ?_, ?_, h.nodup, ?_⟩
  · refine (h.refs_middle.of_eq ?_).giveAll
    rw [ConnInfo.coe_cleanupRefs]
    simp only [ConnInfo.held, ← Multiset.coe_add, List.nil_append]
    abel
  · rw [h.activity, List.nil_append, List.length_cons]
    push_cast
    ring
  · rw [h.mainRefs, List.nil_append, List.length_cons]
    push_cast
    ring
  · rw [hstarted, ← Multiset.cons_coe, ← Multiset.singleton_add, ← Multiset.singleton_add, List.nil_append]
    abel
  · rw [Handles.giveAll_next]
    exact h.fresh

theorem Inv.cleanupLoop (h : Inv s cells lr lh) {fuel : ℕ} (hfuel : cells.length ≤ fuel) :
    Inv (cleanupLoop fuel s) [] lr lh := by
  -- on the number of turns, which is at least the number of transfers
  induction fuel generalizing s cells with
  | zero =>
      obtain rfl := List.length_eq_zero_iff.mp (Nat.le_zero.mp hfuel)
      exact h
  | succ fuel ih =>
      unfold HttpCore.cleanupLoop
      cases hhead : s.inflightHead with
      | none =>
          have hchain := h.chain
          rw [hhead] at hchain
          obtain rfl := hchain.of_none
          exact h
      | some a =>
          have hchain := h.chain
          rw [hhead] at hchain
          obtain ⟨c, after, rfl⟩ := hchain.of_head
          exact ih h.cleanupConn (Nat.le_of_succ_le_succ hfuel)

/-- **The cleanup leaves no transfer.** -/
theorem Inv.cleanup (h : Inv s cells lr lh) : Inv (cleanupHttpCurl s) [] lr lh := by
  have hlength : cells.length ≤ s.multi.length := by
    rw [(Multiset.coe_eq_coe.mp h.multi).length_eq, List.length_map]
  have hloop := h.cleanupLoop hlength
  exact { hloop with multi := rfl }

/-- What a transfer that ends does not touch. -/
def waiting (s : HttpCore) : List (Option ℕ) × List ResumeInfo × List (Option ℕ) := (s.started, s.timers, s.resumed)

theorem freeConn_waiting (s : HttpCore) (a : ℕ) : (freeConn a s).waiting = s.waiting := by
  unfold freeConn
  split <;> rfl

theorem cleanupConn_waiting (s : HttpCore) (a : ℕ) : (cleanupConn a s).waiting = s.waiting := by
  unfold HttpCore.cleanupConn
  split
  · rfl
  · refine (freeConn_waiting _ a).trans ?_
    split <;> rfl

theorem cleanupLoop_waiting (fuel : ℕ) (s : HttpCore) : (cleanupLoop fuel s).waiting = s.waiting := by
  induction fuel generalizing s with
  | zero => rfl
  | succ fuel ih =>
      unfold HttpCore.cleanupLoop
      cases s.inflightHead with
      | none => rfl
      | some a => exact (ih _).trans (cleanupConn_waiting s a)

theorem transferDone_started (s : HttpCore) (a : ℕ) (malloc : Bool) :
    (HttpCore.transferDone a malloc s).started = s.started := by
  refine (congrArg Prod.fst (freeConn_waiting (httpGetpostComplete a malloc s) a)).trans ?_
  show (httpGetpostComplete a malloc s).started = s.started
  unfold httpGetpostComplete
  split
  · rfl
  · dsimp only
    cases malloc <;> split <;> rfl

/-- What an event leaves behind. -/
def Event.leakedRefs : Event → ℕ
  | .request arg o => HttpCore.leakedRefs arg o
  | _ => 0

def Event.leakedBlocks : Event → ℕ
  | .request arg o => HttpCore.leakedBlocks arg o
  | _ => 0

/-- How many coroutines an event takes on. -/
def Event.accepted : Event → ℕ
  | .request arg o => (stopOf arg o).isNone.toNat
  | _ => 0

/-- **Every event keeps the invariant.** -/
theorem step_inv {s' : HttpCore} {e : Event} (h : Inv s cells lr lh) (hstep : step s e = some s') :
    ∃ cells' lr' lh', Inv s' cells' lr' lh' ∧ lr'.card = lr.card + e.leakedRefs ∧
      lh'.card = lh.card + e.leakedBlocks ∧ s'.started.length = s.started.length + e.accepted := by
  cases e with
  | request arg o =>
      cases hstep
      exact h.request arg o
  | transferDone a malloc =>
      obtain ⟨ha, rfl⟩ := Machine.guard_taken hstep
      obtain ⟨before, c, after, rfl⟩ := h.exists_cell ha
      exact ⟨_, _, _, h.transferDone malloc, rfl, rfl, congrArg List.length (transferDone_started s a malloc)⟩
  | resume info =>
      obtain ⟨hinfo, rfl⟩ := Machine.guard_taken hstep
      exact ⟨_, _, _, h.resume hinfo, rfl, rfl, rfl⟩
  | resumeReturned coref =>
      obtain ⟨hcoref, rfl⟩ := Machine.guard_taken hstep
      exact ⟨_, _, _, h.resumeReturned hcoref, rfl, rfl, rfl⟩
  | cleanup =>
      cases hstep
      exact ⟨_, _, _, h.cleanup, rfl, rfl, congrArg (fun w => w.1.length) (cleanupLoop_waiting _ s)⟩

/-- So does every run. -/
theorem run_inv {es : List Event} {s s' : HttpCore} {cells : List (ℕ × ConnInfo)} {lr lh : Multiset ℕ}
    (h : Inv s cells lr lh) (hrun : Machine.run step s es = some s') :
    ∃ cells' lr' lh', Inv s' cells' lr' lh' ∧ lr'.card = lr.card + (es.map Event.leakedRefs).sum ∧
      lh'.card = lh.card + (es.map Event.leakedBlocks).sum ∧
      s'.started.length = s.started.length + (es.map Event.accepted).sum := by
  induction es generalizing s cells lr lh with
  | nil =>
      cases hrun
      exact ⟨cells, lr, lh, h, rfl, rfl, rfl⟩
  | cons e es ih =>
      obtain ⟨s₁, hstep, hrun⟩ := Machine.run_cons.mp hrun
      obtain ⟨cells₁, lr₁, lh₁, h₁, hr₁, hh₁, hs₁⟩ := step_inv h hstep
      obtain ⟨cells', lr', lh', h', hr', hh', hs'⟩ := ih h₁ hrun
      refine ⟨cells', lr', lh', h', ?_, ?_, ?_⟩
      · rw [hr', hr₁, List.map_cons, List.sum_cons, add_assoc]
      · rw [hh', hh₁, List.map_cons, List.sum_cons, add_assoc]
      · rw [hs', hs₁, List.map_cons, List.sum_cons, add_assoc]

end Steps

/-! ## What holds after every run -/

section Runs

variable {es : List Event} {s : HttpCore}

/-- Nothing goes wrong outside. -/
def granted : Outside := ⟨true, fun _ => true, true⟩

end Runs

end HttpCore

end LuaFan
