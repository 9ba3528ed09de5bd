/-
# The output chain (`modules/fan/reliable_udp.lua`, `chain_mt`)

The packages to send are a linked list with a first and a last node and a size.  A package
belongs to an endpoint, and `pop` takes the first package that may be sent now, which need
not be the first one of the chain.

`Represents` links a chain to the list of its packages.  Each operation on the chain is the
operation on that list (`Represents.push`, `Represents.inserthead`, `Represents.pop`), and so
is every run (`run_represents`).
-/
import LuaFan.Lib.Linked
import LuaFan.ReliableUdp.Endpoint

namespace LuaFan.ReliableUdp

open Linked

/-! ## The code -/

/-- A package, with the endpoint `package.apt`. -/
structure ChainPackage where
  package : Package
  apt : ℕ
deriving DecidableEq

/-- A chain.  The nodes made so far have the addresses below `made`. -/
structure Chain where
  nodes : Memory ChainPackage
  made : ℕ
  head : Option ℕ
  tail : Option ℕ
  size : ℤ

/-- `new_chain`. -/
def newChain : Chain := ⟨fun _ => none, 0, none, none, 0⟩

namespace Chain

variable (cfg : Config) (apts : ℕ → Endpoint) (self : Chain)

/-- `chain_mt:hasmore`. -/
def hasmore : Bool := self.head.isSome

/-- `chain_mt:push`, none if it raises an error. -/
def push (package : ChainPackage) : Option Chain :=
  match self.head, self.tail with
  | none, _ => some
      { nodes := Function.update self.nodes self.made (some ⟨package, none⟩)
        made := self.made + 1
        head := some self.made
        tail := some self.made
        size := self.size + 1 }
  | some _, none => none
  | some _, some tail => some
      { self with
        nodes :=
          setNext (Function.update self.nodes self.made (some ⟨package, none⟩)) tail (some self.made)
        made := self.made + 1
        tail := some self.made
        size := self.size + 1 }

/-- `chain_mt:inserthead`. -/
def inserthead (package : ChainPackage) : Chain where
  nodes := Function.update self.nodes self.made (some ⟨package, self.head⟩)
  made := self.made + 1
  head := some self.made
  tail := if self.head = none then some self.made else self.tail
  size := self.size + 1

/-- The test on which the loop of `chain_mt:pop` stops: an acknowledgement, a package of a
suspended endpoint, an old one, or one inside the window of an endpoint that may wait for more. -/
def wanted (package : ChainPackage) : Bool := (apts package.apt).eligible cfg package.package

/-- The loop of `chain_mt:pop`: the node to take and the node before it. -/
def select : Option (Option ℕ × Option ℕ) :=
  if cfg.keepPackageOutsideWindow then some (none, self.head)
  else search self.nodes (wanted cfg apts) (self.made + 1) none self.head

/-- The end of `chain_mt:pop`: a node, behind `previous` or the first one, is left out. -/
def unlink (previous : Option ℕ) (node : Node ChainPackage) : Chain :=
  match previous with
  | some previous =>
      { self with
        nodes := setNext self.nodes previous node.next
        tail := if node.next = none then some previous else self.tail
        size := self.size - 1 }
  | none =>
      { self with
        head := node.next
        tail := if node.next = none then none else self.tail
        size := self.size - 1 }

/-- `chain_mt:pop`: the package and the chain that is left.  None if the bound on the rounds
was too low. -/
def pop : Option (Option ChainPackage × Chain) :=
  (select cfg apts self).map fun (previous, current) =>
    match current.bind self.nodes with
    | none => (none, self)
    | some node => (some node.item, self.unlink previous node)

end Chain

/-! ## Chains as lists -/

/-- The packages that `pop` may take. -/
def mayPop (cfg : Config) (apts : ℕ → Endpoint) (package : ChainPackage) : Bool :=
  cfg.keepPackageOutsideWindow || Chain.wanted cfg apts package

/-- The nodes linked from the first one hold the packages, and the last node and the size are
theirs. -/
structure Represents (chain : Chain) (cells : List (ℕ × ChainPackage)) : Prop where
  queue : Queue chain.nodes chain.head chain.tail cells
  made : ∀ a, chain.nodes a ≠ none → a < chain.made
  size : chain.size = cells.length

theorem represents_newChain : Represents newChain [] :=
  ⟨.nil, fun _ h => absurd rfl h, rfl⟩

namespace Represents

variable {cfg : Config} {apts : ℕ → Endpoint} {chain : Chain} {cells : List (ℕ × ChainPackage)}
  {package : ChainPackage}

theorem fresh (h : Represents chain cells) : chain.nodes chain.made = none := by
  by_contra hne
  exact absurd (h.made _ hne) (by omega)

/-- The nodes in use are among those that were made. -/
theorem length_le (h : Represents chain cells) : cells.length ≤ chain.made := by
  have hsub : cells.map Prod.fst ⊆ List.range chain.made := by
    intro a ha
    rw [List.mem_range]
    exact h.made a (h.queue.path.mem ha)
  have hle := (List.subperm_of_subset h.queue.path.nodup hsub).length_le
  rwa [List.length_map, List.length_range] at hle

theorem hasmore_iff (h : Represents chain cells) : chain.hasmore = true ↔ cells ≠ [] := by
  rw [Chain.hasmore, Option.isSome_iff_ne_none, ne_eq, h.queue.head_eq_none_iff]

/-- **`push` adds a package at the end.** -/
theorem push (h : Represents chain cells) :
    ∃ chain', chain.push package = some chain' ∧
      Represents chain' (cells ++ [(chain.made, package)]) := by
  have hqueue := h.queue.push (x := package) h.fresh
  have hmade : ∀ a, pushNode chain.nodes chain.tail chain.made package a ≠ none →
      a < chain.made + 1 := by
    intro a ha
    rw [ne_eq, pushNode_eq_none, not_and_or, not_not] at ha
    rcases ha with rfl | ha
    · omega
    · exact (h.made a ha).trans (Nat.lt_succ_self _)
  have hsize : chain.size + 1 = ((cells ++ [(chain.made, package)]).length : ℤ) := by
    rw [h.size]
    simp
  have hboth : chain.head = none ↔ chain.tail = none :=
    h.queue.head_eq_none_iff.trans h.queue.tail_eq_none_iff.symm
  rw [Chain.push]
  cases htail : chain.tail with
  | none =>
      rw [htail] at hqueue hmade
      rw [hboth.mpr htail]
      exact ⟨_, rfl, hqueue, hmade, hsize⟩
  | some tail =>
      rw [htail] at hqueue hmade
      cases hhead : chain.head with
      | none => simp [hboth.mp hhead] at htail
      | some head =>
          rw [if_neg (by simp), hhead] at hqueue
          exact ⟨_, rfl, hhead ▸ hqueue, hmade, hsize⟩

/-- **`inserthead` adds a package at the front.** -/
theorem inserthead (h : Represents chain cells) :
    Represents (chain.inserthead package) ((chain.made, package) :: cells) := by
  refine ⟨h.queue.insertHead h.fresh, ?_, ?_⟩
  · intro a ha
    show a < chain.made + 1
    by_cases heq : a = chain.made
    · omega
    · have hold : (chain.inserthead package).nodes a = chain.nodes a := Function.update_of_ne heq _ _
      rw [hold] at ha
      exact (h.made a ha).trans (Nat.lt_succ_self _)
  · show chain.size + 1 = _
    rw [h.size]
    simp

/-- **A node behind others, or the first one, is left out.** -/
theorem unlink {before after : List (ℕ × ChainPackage)} {a : ℕ} {next : Option ℕ}
    (h : Represents chain (before ++ (a, package) :: after))
    (ha : chain.nodes a = some ⟨package, next⟩) :
    Represents (chain.unlink (before.getLast?.map Prod.fst) ⟨package, next⟩) (before ++ after) := by
  have hsize : chain.size - 1 = ((before ++ after).length : ℤ) := by
    rw [h.size]
    simp only [List.length_append, List.length_cons]
    omega
  rcases List.eq_nil_or_concat before with rfl | ⟨before, ⟨t, y⟩, rfl⟩
  · have hqueue : Queue chain.nodes (some a) chain.tail ((a, package) :: after) :=
      h.queue.path.eq_of_cons ▸ h.queue
    exact ⟨hqueue.unlinkHead ha, h.made, hsize⟩
  · have hqueue : Queue chain.nodes chain.head chain.tail (before ++ (t, y) :: (a, package) :: after) := by
      simpa using h.queue
    have hlast : (before.concat (t, y)).getLast?.map Prod.fst = some t := by simp
    rw [hlast]
    refine ⟨?_, ?_, hsize⟩
    · rw [List.concat_eq_append, List.append_assoc]
      exact hqueue.unlink ha
    · intro b hb
      exact h.made b fun hnone => hb (setNext_eq_none.mpr hnone)

/-- What the loop of `pop` comes to. -/
theorem select (h : Represents chain cells) (cfg : Config) (apts : ℕ → Endpoint) :
    ∃ before rest, cells = before ++ rest ∧ (∀ c ∈ before, mayPop cfg apts c.2 = false) ∧
      (∀ c ∈ rest.head?, mayPop cfg apts c.2 = true) ∧
      Chain.select cfg apts chain =
        some (before.getLast?.map Prod.fst, rest.head?.map Prod.fst) := by
  rw [Chain.select]
  cases hkeep : cfg.keepPackageOutsideWindow with
  | true =>
      refine ⟨[], cells, rfl, by simp, by simp [mayPop, hkeep], ?_⟩
      rw [if_pos rfl]
      cases cells with
      | nil =>
          rw [h.queue.head_eq_none_iff.mpr rfl]
          rfl
      | cons cell cells =>
          rw [h.queue.path.eq_of_cons]
          rfl
  | false =>
      obtain ⟨before, rest, heq, hbefore, hrest, hsearch⟩ :=
        h.queue.path.search (Chain.wanted cfg apts) none (Nat.lt_succ_of_le h.length_le)
      refine ⟨before, rest, heq, ?_, ?_, ?_⟩
      · simpa [mayPop, hkeep] using hbefore
      · simpa [mayPop, hkeep] using hrest
      · rw [if_neg (by simp), hsearch, Option.or_none]

/-- **`pop` takes the first package that may be taken**, and leaves the others in order. -/
theorem pop (h : Represents chain cells) (cfg : Config) (apts : ℕ → Endpoint) :
    ∃ chain', Chain.pop cfg apts chain =
        some ((cells.map Prod.snd).find? (mayPop cfg apts), chain') ∧
      Represents chain' (cells.eraseP fun c => mayPop cfg apts c.2) ∧
      ((∀ c ∈ cells, mayPop cfg apts c.2 = false) → chain' = chain) := by
  obtain ⟨before, rest, rfl, hbefore, hrest, hselect⟩ := h.select cfg apts
  have hskip : (before.map Prod.snd).find? (mayPop cfg apts) = none := by
    simpa using fun a p hp => hbefore (a, p) hp
  rw [Chain.pop, hselect, Option.map_some, List.map_append, List.find?_append, hskip, Option.none_or,
    List.eraseP_append_right _ (by simpa using hbefore)]
  cases rest with
  | nil => exact ⟨chain, rfl, h, fun _ => rfl⟩
  | cons cell after =>
      obtain ⟨a, p⟩ := cell
      have hp : mayPop cfg apts p = true := hrest (a, p) rfl
      have hnone : ¬ ∀ c ∈ before ++ (a, p) :: after, mayPop cfg apts c.2 = false := by
        intro hall
        simp [hall (a, p) (by simp)] at hp
      obtain ⟨next, ha⟩ := h.queue.path.node_eq
      refine ⟨chain.unlink (before.getLast?.map Prod.fst) ⟨p, next⟩, ?_, ?_,
        fun hall => absurd hall hnone⟩
      · simp only [List.head?_cons, Option.map_some, Option.bind_some, ha, List.map_cons,
          List.find?_cons_of_pos hp]
      · rw [List.eraseP_cons_of_pos (p := fun c : ℕ × ChainPackage => mayPop cfg apts c.2) hp]
        exact h.unlink ha

/-- The chain of one endpoint: `pop` is that of the list in its state. -/
theorem pop_endpoint (h : Represents chain cells) (cfg : Config) (apt : Endpoint)
    (hchain : apt.outputChain = cells.map fun c => c.2.package) :
    ∃ result chain' cells', Chain.pop cfg (fun _ => apt) chain = some (result, chain') ∧
      Represents chain' cells' ∧
      apt.pop cfg = result.map fun p => (p.package, cells'.map fun c => c.2.package) := by
  obtain ⟨chain', hpop, hrest, -⟩ := h.pop cfg fun _ => apt
  refine ⟨_, chain', _, hpop, hrest, ?_⟩
  rw [Endpoint.pop, hchain]
  cases hkeep : cfg.keepPackageOutsideWindow with
  | true =>
      have hall : mayPop cfg (fun _ => apt) = fun _ => true := by
        funext p
        simp [mayPop, hkeep]
      cases cells <;> simp [hall]
  | false =>
      have hall : mayPop cfg (fun _ => apt) = fun p => apt.eligible cfg p.package := by
        funext p
        simp [mayPop, hkeep, Chain.wanted]
      rw [hall, if_neg (by simp), List.find?_map, List.find?_map, List.eraseP_map, Option.map_map,
        Option.map_map]
      rfl

end Represents

/-! ## Runs -/

/-- A call of the chain; for `pop`, with the endpoints as they are then. -/
inductive ChainOp where
  | push (package : ChainPackage)
  | inserthead (package : ChainPackage)
  | pop (apts : ℕ → Endpoint)

/-- One call, with what it returns. -/
def Chain.call (cfg : Config) (self : Chain) : ChainOp → Option (Option ChainPackage × Chain)
  | .push package => (self.push package).map fun chain => (none, chain)
  | .inserthead package => some (none, self.inserthead package)
  | .pop apts => self.pop cfg apts

/-- The calls one after the other, with what they return. -/
def Chain.run (cfg : Config) : List ChainOp → Chain → Option (List (Option ChainPackage) × Chain)
  | [], self => some ([], self)
  | op :: ops, self => do
      let (result, self) ← self.call cfg op
      let (results, self) ← Chain.run cfg ops self
      return (result :: results, self)

/-- What a call is for the list of the packages. -/
def ChainOp.onList (cfg : Config) (packages : List ChainPackage) :
    ChainOp → Option ChainPackage × List ChainPackage
  | .push package => (none, packages ++ [package])
  | .inserthead package => (none, package :: packages)
  | .pop apts => (packages.find? (mayPop cfg apts), packages.eraseP (mayPop cfg apts))

/-- The calls on the list of the packages. -/
def ChainOp.runOnList (cfg : Config) :
    List ChainOp → List ChainPackage → List (Option ChainPackage) × List ChainPackage
  | [], packages => ([], packages)
  | op :: ops, packages =>
      let (result, packages) := op.onList cfg packages
      let (results, packages) := runOnList cfg ops packages
      (result :: results, packages)

section Runs

variable (cfg : Config) {chain : Chain} {cells : List (ℕ × ChainPackage)}

/-- **A call on a chain is the call on its list.** -/
theorem call_represents (h : Represents chain cells) (op : ChainOp) :
    ∃ chain' cells', Represents chain' cells' ∧
      chain.call cfg op = some ((op.onList cfg (cells.map Prod.snd)).1, chain') ∧
      cells'.map Prod.snd = (op.onList cfg (cells.map Prod.snd)).2 := by
  cases op with
  | push package =>
      obtain ⟨chain', hpush, h'⟩ : ∃ chain', chain.push package = some chain' ∧ _ := h.push
      refine ⟨chain', _, h', ?_, by simp [ChainOp.onList]⟩
      rw [Chain.call, hpush]
      rfl
  | inserthead package => exact ⟨_, _, h.inserthead, rfl, rfl⟩
  | pop apts =>
      obtain ⟨chain', hpop, h', -⟩ := h.pop cfg apts
      refine ⟨chain', _, h', hpop, ?_⟩
      rw [ChainOp.onList, List.eraseP_map]
      rfl

/-- **Every run on a chain is the run on its list.** -/
theorem run_represents (ops : List ChainOp) (h : Represents chain cells) :
    ∃ chain' cells', Represents chain' cells' ∧
      chain.run cfg ops = some ((ChainOp.runOnList cfg ops (cells.map Prod.snd)).1, chain') ∧
      cells'.map Prod.snd = (ChainOp.runOnList cfg ops (cells.map Prod.snd)).2 := by
  induction ops generalizing chain cells with
  | nil => exact ⟨chain, cells, h, rfl, rfl⟩
  | cons op ops ih =>
      obtain ⟨chain₁, cells₁, h₁, hcall, hcells₁⟩ := call_represents cfg h op
      obtain ⟨chain₂, cells₂, h₂, hrun, hcells₂⟩ := ih h₁
      rw [hcells₁] at hrun hcells₂
      refine ⟨chain₂, cells₂, h₂, ?_, hcells₂⟩
      rw [Chain.run, hcall]
      show (do
        let (results, self) ← Chain.run cfg ops chain₁
        return ((op.onList cfg (cells.map Prod.snd)).1 :: results, self)) = _
      rw [hrun]
      rfl

end Runs

/-- **The chain over every run**: after any calls the first node leads to all nodes and the
last one is the last of them, and `pop` takes the first package that may be taken. -/
theorem output_chain (cfg : Config) (ops : List ChainOp) :
    ∃ results chain cells, newChain.run cfg ops = some (results, chain) ∧
      Path chain.nodes chain.head cells none ∧
      (results, cells.map Prod.snd) = ChainOp.runOnList cfg ops [] ∧
      chain.size = cells.length ∧
      (chain.head = none ↔ cells = []) ∧
      chain.tail = cells.getLast?.map Prod.fst ∧
      ∀ apts, ∃ result chain' cells', chain.pop cfg apts = some (result, chain') ∧
        Path chain'.nodes chain'.head cells' none ∧
        result = (cells.map Prod.snd).find? (mayPop cfg apts) ∧
        cells' = cells.eraseP (fun c => mayPop cfg apts c.2) ∧
        (result = none ↔ ∀ c ∈ cells, mayPop cfg apts c.2 = false) ∧
        (result = none → chain' = chain) := by
  obtain ⟨chain, cells, h, hrun, hcells⟩ := run_represents cfg ops represents_newChain
  refine ⟨_, chain, cells, hrun, h.queue.path, ?_, h.size, h.queue.head_eq_none_iff,
    h.queue.tail_eq, fun apts => ?_⟩
  · exact Prod.ext rfl hcells
  · obtain ⟨chain', hpop, h', hsame⟩ := h.pop cfg apts
    have hnone : (cells.map Prod.snd).find? (mayPop cfg apts) = none ↔
        ∀ c ∈ cells, mayPop cfg apts c.2 = false := by
      simp
    exact ⟨_, chain', _, hpop, h'.queue.path, rfl, rfl, hnone, fun h => hsame (hnone.mp h)⟩

/-- With `config.keep_package_outside_window` a package is taken that is no acknowledgement,
belongs to an endpoint that is not suspended and must not wait for more, and is not old. -/
theorem kept_package_taken :
    let cfg : Config := { Config.unset with keepPackageOutsideWindow := true }
    let apts : ℕ → Endpoint := fun _ => { initConn cfg 5 with outputWaitCount := 1 }
    let package : ChainPackage := ⟨⟨packHead 5 1 1, .body [1], 5, false, false, false⟩, 0⟩
    (newChain.run cfg [.push package, .pop apts]).map Prod.fst = some [none, some package] ∧
      Chain.wanted cfg apts package = false := by
  decide

end LuaFan.ReliableUdp
