/-
# Child processes (`src/popen.c`)

`luafan_popen_spawn` opens a pipe for each standard stream and starts a child.  The ends of the parent,
the events that wait for output, the references to the callbacks and the child itself belong to a
`POPEN` until they end or it is closed.  Descriptors, events, references, children and strings are
handles, so that one that is released twice is a fault.

* `popen_released`: **nothing is released twice**, a closed process holds nothing, and `ondisconnected` is
  called at most once for each; what is never freed is the copy of a command and the environment of a
  call that fails before the child is started.
-/
import LuaFan.Lib.Handles
import LuaFan.Lib.Machine

namespace LuaFan

/-! ## The code -/

/-- `POPEN`: `none` is -1, `LUA_NOREF` or `NULL`. -/
structure Popen where
  stdinFd : Option ℕ
  stdoutFd : Option ℕ
  stderrFd : Option ℕ
  childPid : Option ℕ
  onReadRef : Option ℕ
  onStderrRef : Option ℕ
  onDisconnectedRef : Option ℕ
  stdoutEv : Option ℕ
  stderrEv : Option ℕ
  closed : Bool

namespace Popen

def fds (p : Popen) : List ℕ := p.stdinFd.toList ++ p.stdoutFd.toList ++ p.stderrFd.toList

def refs (p : Popen) : List ℕ := p.onReadRef.toList ++ p.onStderrRef.toList ++ p.onDisconnectedRef.toList

def events (p : Popen) : List ℕ := p.stdoutEv.toList ++ p.stderrEv.toList

def child (p : Popen) : List ℕ := p.childPid.toList

/-- Nothing has to be released any more. -/
def HoldsNothing (p : Popen) : Prop := p.fds = [] ∧ p.refs = [] ∧ p.events = [] ∧ p.child = []

/-- What `luafan_popen_close` leaves. -/
def shut : Popen where
  stdinFd := none
  stdoutFd := none
  stderrFd := none
  childPid := none
  onReadRef := none
  onStderrRef := none
  onDisconnectedRef := none
  stdoutEv := none
  stderrEv := none
  closed := true

end Popen

/-- The command: an array, each entry a string (or a number) or not, or a string with so many words. -/
inductive CommandArg where
  | array (entries : List Bool)
  | string (words : ℕ)
  | other

/-- The options of `spawn`: which entries of `env` are copied, and which callbacks are functions. -/
structure SpawnOptions where
  command : CommandArg
  captureStderr : Bool := true
  env : Option (List Bool) := none
  onread : Bool := false
  onstderr : Bool := false
  ondisconnected : Bool := false

/-- What the system answers: whether `strdup`, the two allocations for the environment, the pipes and the start of
the child succeed. -/
structure SpawnAnswers where
  strdup : Bool
  envAlloc : Bool
  envKeys : Bool
  pipeStdin : Bool
  pipeStdout : Bool
  pipeStderr : Bool
  posixSpawn : Bool

/-- What `spawn` does: it raises an error, returns nil and a message, or the process. -/
inductive SpawnResult where
  | raises (message : String)
  | fails (message : String)
  | process
  deriving DecidableEq, Repr

/-- All processes, and whose `ondisconnected` was called. -/
structure PopenState where
  fds : Handles
  refs : Handles
  events : Handles
  children : Handles
  strings : Handles
  processes : List Popen
  disconnected : List ℕ

namespace PopenState

def start : PopenState where
  fds := .empty
  refs := .empty
  events := .empty
  children := .empty
  strings := .empty
  processes := []
  disconnected := []

/-- What is wrong with a command; an entry that is no string is left to `luaL_checkstring`. -/
def commandError : CommandArg → Bool → Option String
  | .array [], _ => some "command array is empty"
  | .array (entry :: entries), _ =>
      if 255 < (entry :: entries).length then some "command array too large (max 255)"
      else if (entry :: entries).all id then none
      else some "string expected"
  | .string words, strdup =>
      if !strdup then some "out of memory" else if words = 0 then some "command is empty" else none
  | .other, _ => some "command must be a string or array"

/-- A command that is a string is copied, for `strtok_r`. -/
def isCopied (command : CommandArg) (strdup : Bool) : Bool :=
  match command with
  | .string _ => strdup
  | _ => false

/-- How many blocks the environment takes. -/
def envBlocks : Option (List Bool) → ℕ
  | none => 0
  | some entries => entries.count true + 1

/-- The pipes are opened and the child is started; `copies` is freed behind that. -/
def spawnChild (o : SpawnOptions) (w : SpawnAnswers) (copies : List ℕ) (s : PopenState) : PopenState × SpawnResult :=
  if !w.pipeStdin then (s, .fails "pipe(stdin)")
  else
    let stdin := Handles.takeMany 2 s.fds
    if !w.pipeStdout then ({ s with fds := stdin.2.giveAll stdin.1 }, .fails "pipe(stdout)")
    else
      let stdout := Handles.takeMany 2 stdin.2
      if o.captureStderr && !w.pipeStderr then
        ({ s with fds := stdout.2.giveAll (stdin.1 ++ stdout.1) }, .fails "pipe(stderr)")
      else
        let stderr := Handles.takeMany (if o.captureStderr then 2 else 0) stdout.2
        -- free(cmd_dup) and the environment, whether the child was started or not
        let s := { s with strings := s.strings.giveAll copies }
        if !w.posixSpawn then
          ({ s with fds := stderr.2.giveAll (stdin.1 ++ stdout.1 ++ stderr.1) }, .fails "posix_spawn")
        else
          -- of each pipe the first end is for reading; the parent keeps the end that the child does not
          let onread := s.refs.takeIf o.onread
          let onstderr := onread.2.takeIf o.onstderr
          let ondisconnected := onstderr.2.takeIf o.ondisconnected
          let stdoutEv := s.events.takeIf o.onread
          let stderrEv := stdoutEv.2.takeIf (o.captureStderr && o.onstderr)
          let p : Popen :=
            { stdinFd := stdin.1[1]?
              stdoutFd := stdout.1[0]?
              stderrFd := stderr.1[0]?
              childPid := some s.children.next
              onReadRef := onread.1
              onStderrRef := onstderr.1
              onDisconnectedRef := ondisconnected.1
              stdoutEv := stdoutEv.1
              stderrEv := stderrEv.1
              closed := false }
          ({ s with
              fds := stderr.2.giveAll (stdin.1[0]?.toList ++ stdout.1[1]?.toList ++ stderr.1[1]?.toList)
              refs := ondisconnected.2
              events := stderrEv.2
              children := s.children.take
              processes := s.processes ++ [p] }, .process)

/-- `luafan_popen_spawn`. -/
def spawn (o : SpawnOptions) (w : SpawnAnswers) (s : PopenState) : PopenState × SpawnResult :=
  let command := s.strings.takeIf (isCopied o.command w.strdup)
  let s := { s with strings := command.2 }
  match commandError o.command w.strdup with
  | some message => (s, .raises message)
  | none =>
      match o.env with
      | none => spawnChild o w command.1.toList s
      | some entries =>
          if !w.envAlloc then (s, .raises "out of memory (env)")
          else if !w.envKeys then (s, .raises "out of memory (env keys)")
          else
            let env := Handles.takeMany (envBlocks (some entries)) s.strings
            spawnChild o w (command.1.toList ++ env.1) { s with strings := env.2 }

/-- `popen_try_disconnected`; `reaped` says whether the child has ended by then. -/
def tryDisconnected (i : ℕ) (p : Popen) (reaped : Bool) (s : PopenState) : PopenState :=
  let s := { s with processes := s.processes.set i p }
  -- only when both events are gone
  if p.stdoutEv.isSome || p.stderrEv.isSome then s
  else if p.onDisconnectedRef.isNone then s
  else
    let s :=
      if reaped then
        { s with
          children := s.children.giveAll p.child
          processes := s.processes.set i { p with childPid := none } }
      else s
    { s with disconnected := i :: s.disconnected }

/-- The end of the output in `popen_stdout_cb`. -/
def stdoutEnd (i : ℕ) (p : Popen) (reaped : Bool) (s : PopenState) : PopenState :=
  tryDisconnected i { p with stdoutEv := none } reaped { s with events := s.events.giveAll p.stdoutEv.toList }

/-- The end of the output in `popen_stderr_cb`. -/
def stderrEnd (i : ℕ) (p : Popen) (reaped : Bool) (s : PopenState) : PopenState :=
  tryDisconnected i { p with stderrEv := none } reaped { s with events := s.events.giveAll p.stderrEv.toList }

/-- `luafan_popen_close_stdin`. -/
def closeStdin (i : ℕ) (p : Popen) (s : PopenState) : PopenState :=
  { s with
    fds := s.fds.giveAll p.stdinFd.toList
    processes := s.processes.set i { p with stdinFd := none } }

/-- `luafan_popen_close`, which waits for the child. -/
def close (i : ℕ) (p : Popen) (s : PopenState) : PopenState :=
  if p.closed then s
  else
    { s with
      refs := s.refs.giveAll p.refs
      events := s.events.giveAll p.events
      fds := s.fds.giveAll p.fds
      children := s.children.giveAll p.child
      processes := s.processes.set i .shut }

/-- `luafan_popen_is_alive`; `ended` is what `waitpid` says of a child. -/
def isAlive (i : ℕ) (p : Popen) (ended : Bool) (s : PopenState) : PopenState :=
  if ended then
    { s with
      children := s.children.giveAll p.child
      processes := s.processes.set i { p with childPid := none } }
  else s

/-! ## Runs -/

inductive Event where
  | spawn (o : SpawnOptions) (w : SpawnAnswers)
  | stdoutEnd (i : ℕ) (reaped : Bool)
  | stderrEnd (i : ℕ) (reaped : Bool)
  | closeStdin (i : ℕ)
  | close (i : ℕ)
  | isAlive (i : ℕ) (ended : Bool)

/-- An event waits for output as long as it is not freed. -/
def step (s : PopenState) : Event → Option PopenState
  | .spawn o w => some (spawn o w s).1
  | .stdoutEnd i reaped =>
      (s.processes[i]?).bind fun p => if p.stdoutEv.isSome then some (stdoutEnd i p reaped s) else none
  | .stderrEnd i reaped =>
      (s.processes[i]?).bind fun p => if p.stderrEv.isSome then some (stderrEnd i p reaped s) else none
  | .closeStdin i => (s.processes[i]?).map fun p => closeStdin i p s
  | .close i => (s.processes[i]?).map fun p => close i p s
  | .isAlive i ended => (s.processes[i]?).map fun p => isAlive i p ended s

/-- The copies are freed once all pipes are open. -/
def unfreed (o : SpawnOptions) (w : SpawnAnswers) (copies : ℕ) : ℕ :=
  if w.pipeStdin && w.pipeStdout && (!o.captureStderr || w.pipeStderr) then 0 else copies

/-- The strings that a call leaves behind. -/
def leaked (o : SpawnOptions) (w : SpawnAnswers) : ℕ :=
  let copied := (isCopied o.command w.strdup).toNat
  if (commandError o.command w.strdup).isSome then copied
  else if o.env.isSome && !(w.envAlloc && w.envKeys) then copied
  else unfreed o w (copied + envBlocks o.env)

/-- The strings that an event leaves behind. -/
def Event.leaked : Event → ℕ
  | .spawn o w => PopenState.leaked o w
  | _ => 0

/-! ## Nothing is released twice -/

/-- What is out belongs to the processes, but for `n` strings; `ondisconnected` was called where nothing waits
for output any more. -/
structure Inv (s : PopenState) (n : ℕ) : Prop where
  fds : s.fds.Holds ↑(s.processes.flatMap Popen.fds)
  refs : s.refs.Holds ↑(s.processes.flatMap Popen.refs)
  events : s.events.Holds ↑(s.processes.flatMap Popen.events)
  children : s.children.Holds ↑(s.processes.flatMap Popen.child)
  strings : ∃ lost : Multiset ℕ, s.strings.Holds lost ∧ lost.card = n
  closed : ∀ p ∈ s.processes, p.closed = true → p.HoldsNothing
  nodup : s.disconnected.Nodup
  quiet : ∀ i ∈ s.disconnected, ∃ p, s.processes[i]? = some p ∧ p.events = []

variable {s s' : PopenState} {p q : Popen} {i n : ℕ}

theorem start_inv : Inv start 0 where
  fds := Handles.holds_empty
  refs := Handles.holds_empty
  events := Handles.holds_empty
  children := Handles.holds_empty
  strings := ⟨0, Handles.holds_empty, rfl⟩
  closed := by
    intro p hp
    cases hp
  nodup := List.nodup_nil
  quiet := by
    intro i hi
    cases hi

theorem kept_nil {xs out ys : List ℕ} (hxs : xs = []) (h : xs.Perm (out ++ ys)) : ys = [] := by
  rw [hxs] at h
  exact (List.append_eq_nil_iff.mp h.nil_eq.symm).2

/-- All of `xs` is given back. -/
theorem perm_given (xs : List ℕ) : xs.Perm (xs ++ []) := List.Perm.of_eq (List.append_nil xs).symm

/-- A process gives some of its handles back and keeps the others. -/
theorem Inv.replace (hs : Inv s n) (hp : s.processes[i]? = some p) (fds refs events child : List ℕ)
    (hfds : p.fds.Perm (fds ++ q.fds)) (hrefs : p.refs.Perm (refs ++ q.refs))
    (hevents : p.events.Perm (events ++ q.events)) (hchild : p.child.Perm (child ++ q.child))
    (hclosed : q.closed = p.closed ∨ q.HoldsNothing) :
    Inv { s with
      fds := s.fds.giveAll fds
      refs := s.refs.giveAll refs
      events := s.events.giveAll events
      children := s.children.giveAll child
      processes := s.processes.set i q } n where
  fds := hs.fds.replace Popen.fds hp hfds
  refs := hs.refs.replace Popen.refs hp hrefs
  events := hs.events.replace Popen.events hp hevents
  children := hs.children.replace Popen.child hp hchild
  strings := hs.strings
  closed := by
    intro r hr hclosed'
    rcases List.mem_or_eq_of_mem_set hr with hr | rfl
    · exact hs.closed r hr hclosed'
    · rcases hclosed with hsame | hnothing
      · obtain ⟨h₁, h₂, h₃, h₄⟩ := hs.closed p (List.mem_of_getElem? hp) (hsame ▸ hclosed')
        exact ⟨kept_nil h₁ hfds, kept_nil h₂ hrefs, kept_nil h₃ hevents, kept_nil h₄ hchild⟩
      · exact hnothing
  nodup := hs.nodup
  quiet := by
    intro j hj
    obtain ⟨r, hr, hquiet⟩ := hs.quiet j hj
    by_cases hij : i = j
    · -- a process without events does not get one
      subst hij
      refine ⟨q, ?_, ?_⟩
      · rw [List.getElem?_set_self (List.getElem?_eq_some_iff.mp hp).1]
      · rw [hp] at hr
        cases hr
        exact kept_nil hquiet hevents
    · exact ⟨r, by rw [List.getElem?_set_ne hij, hr], hquiet⟩

/-- `ondisconnected` is called for a process that has no event left. -/
theorem Inv.disconnect (hs : Inv s n) (hp : s.processes[i]? = some p) (hevents : p.events = [])
    (hi : i ∉ s.disconnected) : Inv { s with disconnected := i :: s.disconnected } n where
  fds := hs.fds
  refs := hs.refs
  events := hs.events
  children := hs.children
  strings := hs.strings
  closed := hs.closed
  nodup := List.nodup_cons.mpr ⟨hi, hs.nodup⟩
  quiet := by
    intro j hj
    rcases List.mem_cons.mp hj with rfl | hj
    · exact ⟨p, hp, hevents⟩
    · exact hs.quiet j hj

/-! ### Starting a child -/

/-- The two ends of a pipe. -/
theorem coe_ends {xs : List ℕ} (h : xs.length ≤ 2) : (xs : Multiset ℕ) = ↑xs[0]?.toList + ↑xs[1]?.toList := by
  rcases xs with _ | ⟨x, _ | ⟨y, _ | ⟨z, zs⟩⟩⟩
  · rfl
  · rfl
  · rfl
  · simp at h

/-- A process is added, with handles that are new. -/
theorem Inv.add (hs : Inv s n) {fds refs events children strings : Handles} {m : ℕ}
    (hfds : fds.Holds (↑p.fds + ↑(s.processes.flatMap Popen.fds)))
    (hrefs : refs.Holds (↑p.refs + ↑(s.processes.flatMap Popen.refs)))
    (hevents : events.Holds (↑p.events + ↑(s.processes.flatMap Popen.events)))
    (hchildren : children.Holds (↑p.child + ↑(s.processes.flatMap Popen.child)))
    (hstrings : ∃ lost : Multiset ℕ, strings.Holds lost ∧ lost.card = m) (hclosed : p.closed = false) :
    Inv ⟨fds, refs, events, children, strings, s.processes ++ [p], s.disconnected⟩ m where
  fds := hfds.of_eq (Handles.coe_flatMap_concat Popen.fds s.processes p).symm
  refs := hrefs.of_eq (Handles.coe_flatMap_concat Popen.refs s.processes p).symm
  events := hevents.of_eq (Handles.coe_flatMap_concat Popen.events s.processes p).symm
  children := hchildren.of_eq (Handles.coe_flatMap_concat Popen.child s.processes p).symm
  strings := hstrings
  closed := by
    intro r hr hclosed'
    rcases List.mem_append.mp hr with hr | hr
    · exact hs.closed r hr hclosed'
    · rw [List.mem_singleton] at hr
      rw [hr, hclosed] at hclosed'
      cases hclosed'
  nodup := hs.nodup
  quiet := by
    intro j hj
    obtain ⟨r, hr, hquiet⟩ := hs.quiet j hj
    exact ⟨r, by rw [List.getElem?_append_left (List.getElem?_eq_some_iff.mp hr).1, hr], hquiet⟩

/-- Only descriptors and strings changed. -/
theorem Inv.congr (hs : Inv s n) {fds strings : Handles} {m : ℕ}
    (hfds : fds.Holds ↑(s.processes.flatMap Popen.fds))
    (hstrings : ∃ lost : Multiset ℕ, strings.Holds lost ∧ lost.card = m) :
    Inv { s with fds := fds, strings := strings } m where
  fds := hfds
  refs := hs.refs
  events := hs.events
  children := hs.children
  strings := hstrings
  closed := hs.closed
  nodup := hs.nodup
  quiet := hs.quiet

theorem unfreed_of_failed {o : SpawnOptions} {w : SpawnAnswers}
    (h : (w.pipeStdin && w.pipeStdout && (!o.captureStderr || w.pipeStderr)) = false) (copies : ℕ) :
    unfreed o w copies = copies := by
  rw [unfreed, h]
  exact if_neg Bool.false_ne_true

theorem unfreed_of_opened {o : SpawnOptions} {w : SpawnAnswers}
    (h : (w.pipeStdin && w.pipeStdout && (!o.captureStderr || w.pipeStderr)) = true) (copies : ℕ) :
    unfreed o w copies = 0 := by
  rw [unfreed, h]
  exact if_pos rfl

theorem spawnChild_inv (hs : Inv s n) (o : SpawnOptions) (w : SpawnAnswers) {copies : List ℕ} {strings : Handles}
    {lost : Multiset ℕ} (hstrings : strings.Holds (↑copies + lost)) (hlost : lost.card = n) :
    Inv (spawnChild o w copies { s with strings := strings }).1 (n + unfreed o w copies.length) := by
  have hkept : ∃ lost' : Multiset ℕ, strings.Holds lost' ∧ lost'.card = n + copies.length :=
    ⟨_, hstrings, by rw [Multiset.card_add, Multiset.coe_card, hlost, Nat.add_comm]⟩
  have hfreed : ∃ lost' : Multiset ℕ, (strings.giveAll copies).Holds lost' ∧ lost'.card = n :=
    ⟨lost, hstrings.giveAll, hlost⟩
  -- one case for each place where the source returns
  unfold spawnChild
  by_cases hin : w.pipeStdin = true
  swap
  · rw [unfreed_of_failed (by simp [hin])]
    simp only [hin, Bool.not_false, if_true]
    exact hs.congr hs.fds hkept
  have hstdin := hs.fds.takeMany 2
  simp only [hin, Bool.not_true, Bool.false_eq_true, if_false]
  by_cases hout : w.pipeStdout = true
  swap
  · rw [unfreed_of_failed (by simp [hout])]
    simp only [hout, Bool.not_false, if_true]
    exact hs.congr hstdin.giveAll hkept
  have hstdout := hstdin.takeMany 2
  simp only [hout, Bool.not_true, Bool.false_eq_true, if_false]
  by_cases herr : (o.captureStderr && !w.pipeStderr) = true
  · rw [unfreed_of_failed (by revert herr; cases o.captureStderr <;> cases w.pipeStderr <;> simp)]
    simp only [herr, if_true]
    exact hs.congr hstdout.append.giveAll hkept
  have hopened : (w.pipeStdin && w.pipeStdout && (!o.captureStderr || w.pipeStderr)) = true := by
    rw [hin, hout]
    revert herr
    cases o.captureStderr <;> cases w.pipeStderr <;> simp
  have hstderr := hstdout.append.takeMany (if o.captureStderr then 2 else 0)
  rw [unfreed_of_opened hopened, Nat.add_zero]
  have herrEnds : (Handles.takeMany (if o.captureStderr then 2 else 0)
      (Handles.takeMany 2 (Handles.takeMany 2 s.fds).2).2).1.length ≤ 2 := by
    rw [Handles.length_takeMany]
    split <;> decide
  simp only [herr]
  by_cases hspawn : w.posixSpawn = true
  swap
  · simp only [hspawn, Bool.not_false, if_true]
    exact hs.congr hstderr.append.giveAll hfreed
  · simp only [hspawn, Bool.not_true, Bool.false_eq_true, if_false]
    -- each pipe has one end that is closed and one that the process keeps
    refine hs.add (Handles.Holds.giveAll (hstderr.of_eq ?_)) ?_ ?_ ?_ hfreed rfl
    · rw [← Multiset.coe_add, coe_ends (Handles.length_takeMany 2 s.fds).le,
        coe_ends (Handles.length_takeMany 2 _).le, coe_ends herrEnds]
      simp only [Popen.fds, ← Multiset.coe_add]
      abel
    · refine (((hs.refs.takeIf o.onread).takeIf o.onstderr).takeIf o.ondisconnected).of_eq ?_
      simp only [Popen.refs, ← Multiset.coe_add]
      abel
    · refine ((hs.events.takeIf o.onread).takeIf (o.captureStderr && o.onstderr)).of_eq ?_
      simp only [Popen.events, ← Multiset.coe_add]
      abel
    · exact hs.children.take

theorem spawn_inv (hs : Inv s n) (o : SpawnOptions) (w : SpawnAnswers) :
    Inv (spawn o w s).1 (n + leaked o w) := by
  obtain ⟨lost, hlost, hcard⟩ := hs.strings
  have hcopied := hlost.takeIf (isCopied o.command w.strdup)
  have hcopies := Handles.length_takeIf s.strings (isCopied o.command w.strdup)
  have hraises : Inv { s with strings := (s.strings.takeIf (isCopied o.command w.strdup)).2 }
      (n + (isCopied o.command w.strdup).toNat) :=
    hs.congr hs.fds ⟨_, hcopied, by rw [Multiset.card_add, Multiset.coe_card, hcard, hcopies, Nat.add_comm]⟩
  unfold spawn leaked
  rcases herror : commandError o.command w.strdup with _ | message
  swap
  · exact hraises
  simp only [Option.isSome_none, Bool.false_eq_true, if_false]
  rcases henv : o.env with _ | entries
  · simp only [Option.isSome_none, Bool.false_and, Bool.false_eq_true, if_false]
    have h := spawnChild_inv hs o w hcopied hcard
    rwa [hcopies] at h
  · cases halloc : w.envAlloc with
    | false => simpa using hraises
    | true =>
        cases hkeys : w.envKeys with
        | false => simpa using hraises
        | true =>
            -- the copy of the command and the environment are freed together
            have h := spawnChild_inv hs o w (hcopied.takeMany (envBlocks (some entries))).append hcard
            rw [List.length_append, hcopies, Handles.length_takeMany] at h
            simpa using h

/-- **A call that fails starts no child.** -/
theorem spawn_failed (o : SpawnOptions) (w : SpawnAnswers) (h : (spawn o w s).2 ≠ .process) :
    (spawn o w s).1.processes = s.processes := by
  have hchild : ∀ (copies : List ℕ) (t : PopenState), (spawnChild o w copies t).2 ≠ .process →
      (spawnChild o w copies t).1.processes = t.processes := by
    intro copies t
    unfold spawnChild
    by_cases hin : w.pipeStdin <;> by_cases hout : w.pipeStdout <;>
      by_cases herr : (o.captureStderr && !w.pipeStderr) = true <;> by_cases hspawn : w.posixSpawn <;>
        simp [hin, hout, herr, hspawn]
  unfold spawn at h ⊢
  rcases herror : commandError o.command w.strdup with _ | message
  swap
  · rfl
  rw [herror] at h
  rcases henv : o.env with _ | entries
  · rw [henv] at h
    exact hchild _ _ h
  · rw [henv] at h
    cases halloc : w.envAlloc with
    | false => rfl
    | true =>
        cases hkeys : w.envKeys with
        | false => rfl
        | true =>
            rw [halloc, hkeys] at h
            exact hchild _ _ h

/-! ### The end of a child -/

theorem tryDisconnected_inv {reaped : Bool} (hs : Inv { s with processes := s.processes.set i p } n)
    (hi : i < s.processes.length) (hdisconnected : i ∉ s.disconnected) : Inv (tryDisconnected i p reaped s) n := by
  have hp : (s.processes.set i p)[i]? = some p := List.getElem?_set_self hi
  unfold tryDisconnected
  by_cases hevents : (p.stdoutEv.isSome || p.stderrEv.isSome) = true
  · rw [if_pos hevents]
    exact hs
  rw [if_neg hevents]
  split
  · -- there is no `ondisconnected`
    exact hs
  have hnone : p.events = [] := by
    simp only [Bool.or_eq_true, not_or, Bool.not_eq_true, Option.isSome_eq_false_iff, Option.isNone_iff_eq_none]
      at hevents
    rw [Popen.events, hevents.1, hevents.2]
    rfl
  cases reaped with
  | false => exact hs.disconnect hp hnone hdisconnected
  | true =>
      have h := hs.replace (q := { p with childPid := none }) hp [] [] [] p.child (List.Perm.refl _)
        (List.Perm.refl _) (List.Perm.refl _) (perm_given _) (Or.inl rfl)
      simp only [List.set_set, Handles.giveAll_nil] at h ⊢
      exact h.disconnect (List.getElem?_set_self hi) hnone hdisconnected

theorem Inv.not_disconnected (hs : Inv s n) (hp : s.processes[i]? = some p)
    (hev : p.stdoutEv.isSome = true ∨ p.stderrEv.isSome = true) : i ∉ s.disconnected := by
  intro hi
  obtain ⟨r, hr, hnone⟩ := hs.quiet i hi
  rw [hp] at hr
  cases hr
  rw [Popen.events, List.append_eq_nil_iff, Option.toList_eq_nil_iff, Option.toList_eq_nil_iff] at hnone
  rw [hnone.1, hnone.2] at hev
  exact Bool.false_ne_true (or_self_iff.mp hev)

theorem stdoutEnd_inv {reaped : Bool} (hs : Inv s n) (hp : s.processes[i]? = some p) (hev : p.stdoutEv.isSome = true) :
    Inv (stdoutEnd i p reaped s) n := by
  refine tryDisconnected_inv ?_ (List.getElem?_eq_some_iff.mp hp).1 (hs.not_disconnected hp (Or.inl hev))
  exact hs.replace hp [] [] p.stdoutEv.toList [] (List.Perm.refl _) (List.Perm.refl _)
    (List.Perm.of_eq rfl) (List.Perm.refl _) (Or.inl rfl)

theorem stderrEnd_inv {reaped : Bool} (hs : Inv s n) (hp : s.processes[i]? = some p) (hev : p.stderrEv.isSome = true) :
    Inv (stderrEnd i p reaped s) n := by
  refine tryDisconnected_inv ?_ (List.getElem?_eq_some_iff.mp hp).1 (hs.not_disconnected hp (Or.inr hev))
  refine hs.replace hp [] [] p.stderrEv.toList [] (List.Perm.refl _) (List.Perm.refl _) ?_ (List.Perm.refl _)
    (Or.inl rfl)
  simpa only [Popen.events, Option.toList_none, List.append_nil] using List.perm_append_comm

theorem closeStdin_inv (hs : Inv s n) (hp : s.processes[i]? = some p) : Inv (closeStdin i p s) n := by
  refine hs.replace hp p.stdinFd.toList [] [] [] ?_ (List.Perm.refl _) (List.Perm.refl _) (List.Perm.refl _)
    (Or.inl rfl)
  exact List.Perm.of_eq (List.append_assoc _ _ _)

theorem close_inv (hs : Inv s n) (hp : s.processes[i]? = some p) : Inv (close i p s) n := by
  unfold close
  split
  · exact hs
  · exact hs.replace hp p.fds p.refs p.events p.child (perm_given _) (perm_given _) (perm_given _)
      (perm_given _) (Or.inr ⟨rfl, rfl, rfl, rfl⟩)

theorem isAlive_inv {ended : Bool} (hs : Inv s n) (hp : s.processes[i]? = some p) : Inv (isAlive i p ended s) n := by
  cases ended with
  | false => exact hs
  | true =>
      exact hs.replace (q := { p with childPid := none }) hp [] [] [] p.child (List.Perm.refl _) (List.Perm.refl _)
        (List.Perm.refl _) (perm_given _) (Or.inl rfl)

theorem step_inv {e : Event} (hs : Inv s n) (h : step s e = some s') : Inv s' (n + e.leaked) := by
  cases e with
  | spawn o w =>
      cases h
      exact spawn_inv hs o w
  | stdoutEnd i reaped =>
      obtain ⟨p, hp, h⟩ := Option.bind_eq_some_iff.mp h
      rw [Option.ite_none_right_eq_some] at h
      cases h.2
      exact stdoutEnd_inv hs hp h.1
  | stderrEnd i reaped =>
      obtain ⟨p, hp, h⟩ := Option.bind_eq_some_iff.mp h
      rw [Option.ite_none_right_eq_some] at h
      cases h.2
      exact stderrEnd_inv hs hp h.1
  | closeStdin i =>
      obtain ⟨p, hp, rfl⟩ := Option.map_eq_some_iff.mp h
      exact closeStdin_inv hs hp
  | close i =>
      obtain ⟨p, hp, rfl⟩ := Option.map_eq_some_iff.mp h
      exact close_inv hs hp
  | isAlive i ended =>
      obtain ⟨p, hp, rfl⟩ := Option.map_eq_some_iff.mp h
      exact isAlive_inv hs hp

theorem run_inv {es : List Event} (hs : Inv s n) (hrun : Machine.run step s es = some s') :
    Inv s' (n + (es.map Event.leaked).sum) := by
  -- on the events; `n` is what was left behind so far
  induction es generalizing s n with
  | nil =>
      cases hrun
      exact hs
  | cons e es ih =>
      obtain ⟨s₁, h₁, hrun⟩ := Machine.run_cons.mp hrun
      rw [List.map_cons, List.sum_cons, ← Nat.add_assoc]
      exact ih (step_inv hs h₁) hrun

/-- **Nothing is released twice**: what is out after any run belongs to the processes, a closed one holds nothing,
`ondisconnected` was called at most once for each, and the strings that are never freed are those of calls that
failed early. -/
theorem popen_released {es : List Event} (hrun : Machine.run step start es = some s) :
    s.fds.Holds ↑(s.processes.flatMap Popen.fds) ∧ s.refs.Holds ↑(s.processes.flatMap Popen.refs) ∧
      s.events.Holds ↑(s.processes.flatMap Popen.events) ∧ s.children.Holds ↑(s.processes.flatMap Popen.child) ∧
      (∀ p ∈ s.processes, p.closed = true → p.HoldsNothing) ∧ s.disconnected.Nodup ∧
      s.strings.fault = false ∧ s.strings.live.length = (es.map Event.leaked).sum := by
  have h := run_inv start_inv hrun
  obtain ⟨lost, hlost, hcard⟩ := h.strings
  refine ⟨h.fds, h.refs, h.events, h.children, h.closed, h.nodup, hlost.sound, ?_⟩
  rw [hlost.length_eq, hcard, Nat.zero_add]

/-- Everything succeeds. -/
def allSucceed : SpawnAnswers := ⟨true, true, true, true, true, true, true⟩

/-- A child with all callbacks whose output ends and that is closed, and a call without a pipe. -/
def twoCalls : List Event :=
  [.spawn { command := .string 2, onread := true, onstderr := true, ondisconnected := true } allSucceed,
    .stderrEnd 0 false, .stdoutEnd 0 true, .close 0,
    .spawn { command := .string 1, env := some [true] } { allSucceed with pipeStdout := false }]

theorem popen_released_two_calls : ∃ s, Machine.run step start twoCalls = some s ∧ s.fds.live = [] ∧
    s.disconnected = [0] ∧ s.disconnected.Nodup ∧ s.strings.live.length = 3 := by
  have hrun : Machine.run step start twoCalls = some _ := rfl
  obtain ⟨-, -, -, -, -, hnodup, -, hstrings⟩ := popen_released hrun
  exact ⟨_, hrun, rfl, rfl, hnodup, hstrings⟩

end PopenState

end LuaFan
