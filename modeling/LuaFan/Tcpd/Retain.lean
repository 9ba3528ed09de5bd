/-
# Counting the users of an SSL context (`src/tcpd_ssl.c`, `src/tcpd.c`, `src/tcpd_event.c`)

`tcpd_ssl_context_get_or_create` looks for a context in the registry, and then counts one
more user of it or puts a new one there; `tcpd_ssl_context_release` counts one user less,
and then clears the registry if that was the last.  Between the two halves other
connections go on: a finaliser that runs while the new context is allocated may connect,
and a connection on a worker thread is cleaned up beside the main one.

* `ssl_context_accounted`: all along a run every context counts its users, no connection
  releases twice, and what is in use is in the registry, **if and only if** the second
  half finds the registry as the first half left it, as far as contexts in use go.
* `alone_undisturbed`: it does where the halves are not torn apart.

Whether a context can be configured does not matter: it is released in the end as well.
-/
import LuaFan.Tcpd.Ssl

namespace LuaFan

open Machine

/-! ## The code -/

/-- What is counted in `tcpd_ssl_context_t`; `retain_count` is an `int`. -/
structure CountedContext where
  cacheKey : List UInt8
  retainCount : ℤ
  deriving DecidableEq

/-- How far a connection is. -/
inductive SslPhase where
  /-- `tcpd_connect` has made the key. -/
  | looking
  /-- The registry has a context, which is on the stack. -/
  | found (i : ℕ)
  /-- The registry has none. -/
  | missing
  /-- `tcpd_connect` is over. -/
  | live
  /-- `cleaned_up` was set by this call of `tcpd_client_cleanup_on_disconnect`. -/
  | cleaning
  /-- `tcpd_base_conn_cleanup` is reached. -/
  | baseCleaning
  /-- `tcpd_ssl_context_release` counted down the last user; `inBase` tells who called it. -/
  | clearing (inBase : Bool)
  | cleaned
  deriving DecidableEq

/-- What concerns SSL in `tcpd_client_conn_t`, and how often the context was released. -/
structure SslClient where
  key : List UInt8
  phase : SslPhase
  cleanedUp : Bool
  sslCtx : Option ℕ
  releases : ℕ
  deriving DecidableEq

/-- The contexts, where the registry has them, and the connections. -/
structure SslCache where
  heap : ℕ → CountedContext
  fresh : ℕ
  registry : List UInt8 → Option ℕ
  clients : List SslClient

namespace SslCache

/-- Nothing has been connected yet. -/
def new : SslCache := ⟨fun _ => ⟨[], 0⟩, 0, fun _ => none, []⟩

/-- The connection at `j` is replaced. -/
def put (s : SslCache) (j : ℕ) (c : SslClient) : SslCache := { s with clients := s.clients.set j c }

/-- `tcpd_connect` up to the key; without `ssl_enabled` there is no context. -/
def connect (s : SslCache) : Option SslOptions → SslCache
  | some o =>
      { s with clients := s.clients ++ [⟨sslGenerateCacheKeyFromTable o, .looking, false, none, 0⟩] }
  | none => { s with clients := s.clients ++ [⟨[], .live, false, none, 0⟩] }

/-- `tcpd_ssl_context_get_or_create` looks in the registry. -/
def lookup (s : SslCache) (j : ℕ) (c : SslClient) : SslCache :=
  match s.registry c.key with
  | some i => s.put j { c with phase := .found i }
  | none => s.put j { c with phase := .missing }

/-- It has found a context. -/
def retain (s : SslCache) (j : ℕ) (c : SslClient) (i : ℕ) : SslCache :=
  put
    { s with
      heap := Function.update s.heap i ⟨(s.heap i).cacheKey, toCInt ((s.heap i).retainCount + 1)⟩ }
    j { c with phase := .live, sslCtx := some i }

/-- It makes a context. -/
def create (s : SslCache) (j : ℕ) (c : SslClient) : SslCache :=
  put
    { s with
      heap := Function.update s.heap s.fresh ⟨c.key, 1⟩
      fresh := s.fresh + 1
      registry := Function.update s.registry c.key (some s.fresh) }
    j { c with phase := .live, sslCtx := some s.fresh }

/-- What follows `tcpd_ssl_context_release` in its caller. -/
def after : Bool → SslPhase
  | false => .baseCleaning
  | true => .cleaned

/-- `tcpd_ssl_context_release`, up to the test of what the count was; without a context
its callers go on. -/
def release (s : SslCache) (j : ℕ) (c : SslClient) (inBase : Bool) : SslCache :=
  match c.sslCtx with
  | none => s.put j { c with phase := after inBase }
  | some i =>
      let prev := (s.heap i).retainCount
      put { s with heap := Function.update s.heap i ⟨(s.heap i).cacheKey, toCInt (prev - 1)⟩ } j
        (if prev ≤ 1 then { c with phase := .clearing inBase, releases := c.releases + 1 }
        else { c with phase := after inBase, sslCtx := none, releases := c.releases + 1 })

/-- The rest of it after the last user. -/
def clear (s : SslCache) (j : ℕ) (c : SslClient) (inBase : Bool) : SslCache :=
  put
    { s with
      registry :=
        match c.sslCtx with
        | none => s.registry
        | some i => Function.update s.registry (s.heap i).cacheKey none }
    j { c with phase := after inBase, sslCtx := none }

/-- What a connection does next of its own. -/
def advance (s : SslCache) (j : ℕ) (c : SslClient) : Option SslCache :=
  match c.phase with
  | .looking => some (s.lookup j c)
  | .found i => some (s.retain j c i)
  | .missing => some (s.create j c)
  | .live => none
  | .cleaning => some (s.release j c false)
  | .baseCleaning => some (s.release j c true)
  | .clearing inBase => some (s.clear j c inBase)
  | .cleaned => none

/-- `tcpd_client_cleanup_on_disconnect` is called: when the connection is closed, when it
is disconnected and when it is collected, which `tcpd_connect` comes before. -/
def cleanup (s : SslCache) (j : ℕ) (c : SslClient) : Option SslCache :=
  match c.phase with
  | .looking | .found _ | .missing => none
  | _ =>
      if c.cleanedUp then some s
      else some (s.put j { c with cleanedUp := true, phase := .cleaning })

/-- A connection is made, goes on, or is cleaned up. -/
inductive Event where
  | connect (o : Option SslOptions)
  | advance (j : ℕ)
  | cleanup (j : ℕ)

def step (s : SslCache) : Event → Option SslCache
  | .connect o => some (s.connect o)
  | .advance j => s.clients[j]?.bind (s.advance j)
  | .cleanup j => s.clients[j]?.bind (s.cleanup j)

end SslCache

/-! ## What should hold -/

/-- The connection has the context and has not released it. -/
def SslClient.Uses (c : SslClient) (i : ℕ) : Prop := c.sslCtx = some i ∧ c.releases = 0

instance (c : SslClient) (i : ℕ) : Decidable (c.Uses i) := inferInstanceAs (Decidable (_ ∧ _))

namespace SslCache

/-- The connections that use a context. -/
def users (s : SslCache) (i : ℕ) : ℕ := s.clients.countP fun c => c.Uses i

/-- Every context counts its users, no connection has released twice, and a context in use
is in the registry under its key. -/
structure Accounted (s : SslCache) : Prop where
  counted : ∀ i < s.fresh, (s.heap i).retainCount = s.users i
  once : ∀ c ∈ s.clients, c.releases ≤ 1
  registered : ∀ c ∈ s.clients, ∀ i, c.Uses i → s.registry (s.heap i).cacheKey = some i

/-- Nobody uses what is registered under the key. -/
def Vacant (s : SslCache) (key : List UInt8) : Prop := ∀ i ∈ s.registry key, s.users i = 0

instance (s : SslCache) (key : List UInt8) : Decidable (s.Vacant key) :=
  inferInstanceAs (Decidable (∀ i ∈ s.registry key, s.users i = 0))

/-- A connection that goes on finds what it saw before. -/
def Fits (s : SslCache) (key : List UInt8) : SslPhase → Prop
  | .found i => s.registry key = some i ∧ s.users i + 1 < 2 ^ 31
  | .missing | .clearing _ => s.Vacant key
  | _ => True

instance (s : SslCache) (key : List UInt8) : ∀ p : SslPhase, Decidable (s.Fits key p)
  | .found _ => inferInstanceAs (Decidable (_ ∧ _))
  | .missing | .clearing _ => inferInstanceAs (Decidable (s.Vacant key))
  | .looking | .live | .cleaning | .baseCleaning | .cleaned => isTrue trivial

/-- The context that was found is still registered and its count has room; a new one takes
no place, and the last user clears none, of a context in use. -/
def Undisturbed (s : SslCache) : Event → Prop
  | .advance j => ∀ c ∈ s.clients[j]?, s.Fits c.key c.phase
  | _ => True

instance (s : SslCache) : ∀ e : Event, Decidable (s.Undisturbed e)
  | .advance j => inferInstanceAs (Decidable (∀ c ∈ s.clients[j]?, s.Fits c.key c.phase))
  | .connect _ | .cleanup _ => isTrue trivial

end SslCache

/-! ## What every step keeps -/

/-- How far a connection is tells what it has. -/
def SslClient.Sound (c : SslClient) : Prop :=
  match c.phase with
  | .looking | .found _ | .missing => c.cleanedUp = false ∧ c.sslCtx = none ∧ c.releases = 0
  | .live => c.cleanedUp = false ∧ c.releases = 0
  | .cleaning => c.cleanedUp = true ∧ c.releases = 0
  | .clearing _ => c.cleanedUp = true ∧ c.releases = 1 ∧ c.sslCtx ≠ none
  | .baseCleaning | .cleaned => c.cleanedUp = true ∧ c.sslCtx = none ∧ c.releases ≤ 1

theorem SslClient.Sound.releases_le {c : SslClient} (h : c.Sound) : c.releases ≤ 1 := by
  unfold SslClient.Sound at h
  cases hphase : c.phase <;> simp only [hphase] at h <;> omega

namespace SslCache

/-- What is registered or held has the key it is registered or held under. -/
structure Linked (s : SslCache) : Prop where
  keyed : ∀ k i, s.registry k = some i → i < s.fresh ∧ (s.heap i).cacheKey = k
  sound : ∀ c ∈ s.clients, c.Sound
  held : ∀ c ∈ s.clients, ∀ i, c.sslCtx = some i ∨ c.phase = .found i →
    i < s.fresh ∧ (s.heap i).cacheKey = c.key
  int : ∀ i, toCInt (s.heap i).retainCount = (s.heap i).retainCount

theorem new_linked : new.Linked where
  keyed := fun _ _ h => nomatch h
  sound := fun _ h => nomatch h
  held := fun _ h => nomatch h
  int := fun _ => (by decide : toCInt 0 = 0)

theorem new_accounted : new.Accounted where
  counted := fun _ h => nomatch h
  once := fun _ h => nomatch h
  registered := fun _ h => nomatch h

variable {s : SslCache} {j : ℕ} {c : SslClient}

theorem toCInt_toCInt (n : ℤ) : toCInt (toCInt n) = toCInt n := Int.bmod_bmod ..

theorem Linked.put (h : s.Linked) (j : ℕ) {c' : SslClient} (hsound : c'.Sound)
    (hheld : ∀ i, c'.sslCtx = some i ∨ c'.phase = .found i →
      i < s.fresh ∧ (s.heap i).cacheKey = c'.key) : (s.put j c').Linked where
  keyed := h.keyed
  sound := by
    intro d hd
    rcases List.mem_or_eq_of_mem_set hd with hd | rfl
    · exact h.sound d hd
    · exact hsound
  held := by
    intro d hd
    rcases List.mem_or_eq_of_mem_set hd with hd | rfl
    · exact h.held d hd
    · exact hheld
  int := h.int

/-- The key of a context stays when its count changes. -/
theorem cacheKey_recount (i i' : ℕ) (n : ℤ) :
    (Function.update s.heap i ⟨(s.heap i).cacheKey, n⟩ i').cacheKey = (s.heap i').cacheKey := by
  by_cases hi : i' = i
  · rw [hi, Function.update_self]
  · rw [Function.update_of_ne hi]

theorem Linked.recount (h : s.Linked) (i : ℕ) (n : ℤ) :
    Linked { s with heap := Function.update s.heap i ⟨(s.heap i).cacheKey, toCInt n⟩ } where
  keyed := by
    intro k i' hk
    rw [cacheKey_recount]
    exact h.keyed k i' hk
  sound := h.sound
  held := by
    intro d hd i' hi'
    rw [cacheKey_recount]
    exact h.held d hd i' hi'
  int := by
    intro i'
    show toCInt (Function.update s.heap i _ i').retainCount = (Function.update s.heap i _ i').retainCount
    by_cases hi : i' = i
    · rw [hi, Function.update_self]
      exact toCInt_toCInt n
    · rw [Function.update_of_ne hi]
      exact h.int i'

theorem Linked.unregister (h : s.Linked) (key : List UInt8) :
    Linked { s with registry := Function.update s.registry key none } where
  keyed := by
    intro k i hk
    have hne : k ≠ key := by
      rintro rfl
      simp at hk
    exact h.keyed k i (by rwa [← Function.update_of_ne hne none s.registry])
  sound := h.sound
  held := h.held
  int := h.int

theorem Linked.register (h : s.Linked) (key : List UInt8) :
    Linked { s with
      heap := Function.update s.heap s.fresh ⟨key, 1⟩
      fresh := s.fresh + 1
      registry := Function.update s.registry key (some s.fresh) } where
  keyed := by
    intro k i hk
    by_cases hkey : k = key
    · subst hkey
      simp only [Function.update_self] at hk
      obtain rfl := Option.some.inj hk
      simp
    · simp only [Function.update_of_ne hkey] at hk
      obtain ⟨hlt, hk'⟩ := h.keyed k i hk
      simp only [Function.update_of_ne hlt.ne]
      exact ⟨by omega, hk'⟩
  sound := h.sound
  held := by
    intro d hd i hi
    obtain ⟨hlt, hk⟩ := h.held d hd i hi
    simp only [Function.update_of_ne hlt.ne]
    exact ⟨by omega, hk⟩
  int := by
    intro i
    by_cases hi : i = s.fresh
    · subst hi
      simp only [Function.update_self]
      decide
    · simp only [Function.update_of_ne hi]
      exact h.int i

theorem Linked.advance (h : s.Linked) (hj : s.clients[j]? = some c) {s' : SslCache}
    (hstep : s.advance j c = some s') : s'.Linked := by
  have hmem : c ∈ s.clients := List.mem_of_getElem? hj
  have hsound := h.sound c hmem
  have hheld := h.held c hmem
  unfold SslCache.advance at hstep
  unfold SslClient.Sound at hsound
  cases hphase : c.phase with
  | live | cleaned => simp [hphase] at hstep
  | looking =>
    simp only [hphase, Option.some.injEq] at hstep hsound
    subst hstep
    rw [lookup]
    cases hreg : s.registry c.key with
    | none =>
      refine h.put j ?_ ?_
      · exact hsound
      · simp [hsound.2.1]
    | some i =>
      refine h.put j ?_ ?_
      · exact hsound
      · simpa [hsound.2.1] using h.keyed _ _ hreg
  | found i =>
    simp only [hphase, Option.some.injEq] at hstep hsound
    subst hstep
    refine (h.recount i _).put j ?_ ?_
    · exact ⟨hsound.1, hsound.2.2⟩
    · intro i' hi'
      obtain rfl : i = i' := by simpa using hi'
      rw [cacheKey_recount]
      exact hheld i (Or.inr hphase)
  | missing =>
    simp only [hphase, Option.some.injEq] at hstep hsound
    subst hstep
    refine (h.register c.key).put j ?_ ?_
    · exact ⟨hsound.1, hsound.2.2⟩
    · intro i' hi'
      obtain rfl : s.fresh = i' := by simpa using hi'
      simp
  | cleaning =>
    simp only [hphase, Option.some.injEq] at hstep hsound
    subst hstep
    rw [release]
    cases hctx : c.sslCtx with
    | none =>
      refine h.put j ?_ ?_
      · exact ⟨hsound.1, rfl, by simp [hsound.2]⟩
      · simp [after]
    | some i =>
      refine (h.recount i _).put j ?_ ?_
      · split_ifs
        · exact ⟨hsound.1, by simp [hsound.2], by simp⟩
        · exact ⟨hsound.1, rfl, by simp [hsound.2]⟩
      · intro i' hi'
        rw [cacheKey_recount]
        split_ifs at hi' ⊢
        · exact hheld i' (Or.inl (by simpa [hctx] using hi'))
        · simp [after] at hi'
  | baseCleaning =>
    simp only [hphase, Option.some.injEq] at hstep hsound
    subst hstep
    rw [release, hsound.2.1]
    refine h.put j ?_ ?_
    · exact ⟨hsound.1, rfl, hsound.2.2⟩
    · simp [after]
  | clearing inBase =>
    simp only [hphase, Option.some.injEq] at hstep hsound
    subst hstep
    rw [clear]
    have hcleaned : SslClient.Sound { c with phase := after inBase, sslCtx := none } := by
      cases inBase <;> exact ⟨hsound.1, rfl, hsound.2.1.le⟩
    have hnone : ∀ i, (none : Option ℕ) = some i ∨ after inBase = .found i → False := by
      cases inBase <;> simp [after]
    cases c.sslCtx with
    | none => exact h.put j hcleaned fun i hi => (hnone i hi).elim
    | some i => exact (h.unregister _).put j hcleaned fun i hi => (hnone i hi).elim

theorem Linked.cleanup (h : s.Linked) (hj : s.clients[j]? = some c) {s' : SslCache}
    (hstep : s.cleanup j c = some s') : s'.Linked := by
  have hmem : c ∈ s.clients := List.mem_of_getElem? hj
  have hsound := h.sound c hmem
  have hheld := h.held c hmem
  have hclean : (if c.cleanedUp then some s
      else some (s.put j { c with cleanedUp := true, phase := .cleaning })) = some s' →
      c.releases = 0 ∨ c.cleanedUp = true → s'.Linked := by
    intro heq hor
    split_ifs at heq with hup
    · exact Option.some.inj heq ▸ h
    · obtain rfl := Option.some.inj heq
      refine h.put j ?_ ?_
      · exact ⟨rfl, hor.resolve_right hup⟩
      · intro i hi
        exact hheld i (Or.inl (by simpa using hi))
  unfold SslCache.cleanup at hstep
  unfold SslClient.Sound at hsound
  cases hphase : c.phase with
  | looking | found | missing => simp [hphase] at hstep
  | live | cleaning =>
    simp only [hphase] at hstep hsound
    exact hclean hstep (Or.inl hsound.2)
  | clearing | baseCleaning | cleaned =>
    simp only [hphase] at hstep hsound
    exact hclean hstep (Or.inr hsound.1)

theorem Linked.connect (h : s.Linked) (o : Option SslOptions) : (s.connect o).Linked := by
  have hnew : ∀ c : SslClient, c.Sound → c.sslCtx = none → (∀ i, c.phase ≠ .found i) →
      Linked { s with clients := s.clients ++ [c] } := by
    intro c hsound hctx hphase
    refine ⟨h.keyed, ?_, ?_, h.int⟩
    · intro d hd
      rcases List.mem_append.mp hd with hd | hd
      · exact h.sound d hd
      · exact List.mem_singleton.mp hd ▸ hsound
    · intro d hd i hi
      rcases List.mem_append.mp hd with hd | hd
      · exact h.held d hd i hi
      · obtain rfl := List.mem_singleton.mp hd
        exact absurd hi (by simp [hctx, hphase])
  cases o with
  | none => exact hnew _ ⟨rfl, rfl⟩ rfl (fun i => nofun)
  | some o => exact hnew _ ⟨rfl, rfl, rfl⟩ rfl (fun i => nofun)

theorem Linked.step (h : s.Linked) {e : Event} {s' : SslCache} (hstep : step s e = some s') :
    s'.Linked := by
  cases e with
  | connect o => exact Option.some.inj hstep ▸ h.connect o
  | advance j =>
    obtain ⟨c, hj, hstep⟩ := Option.bind_eq_some_iff.mp hstep
    exact h.advance hj hstep
  | cleanup j =>
    obtain ⟨c, hj, hstep⟩ := Option.bind_eq_some_iff.mp hstep
    exact h.cleanup hj hstep

/-! ## What a step does to the account -/

theorem users_set {cs : List SslClient} (hj : cs[j]? = some c) (c' : SslClient) (i : ℕ) :
    ((cs.set j c').countP fun c => c.Uses i) + (if c.Uses i then 1 else 0)
      = (cs.countP fun c => c.Uses i) + if c'.Uses i then 1 else 0 := by
  obtain ⟨hlt, hget⟩ := List.getElem?_eq_some_iff.mp hj
  have hpos : (if c.Uses i then 1 else 0) ≤ cs.countP fun c => c.Uses i := by
    split_ifs with huses
    · exact List.countP_pos_iff.mpr ⟨c, List.mem_of_getElem? hj, by simpa using huses⟩
    · exact Nat.zero_le _
  rw [List.countP_set hlt, hget]
  simp only [decide_eq_true_eq]
  omega

theorem users_pos {i : ℕ} (hc : c ∈ s.clients) (huses : c.Uses i) : s.users i ≠ 0 :=
  Nat.ne_of_gt (List.countP_pos_iff.mpr ⟨c, hc, by simpa using huses⟩)

theorem exists_uses {i : ℕ} (h : s.users i ≠ 0) : ∃ c ∈ s.clients, c.Uses i := by
  obtain ⟨c, hc, huses⟩ := List.countP_pos_iff.mp (Nat.pos_of_ne_zero h)
  exact ⟨c, hc, of_decide_eq_true huses⟩

theorem Linked.users_lt (h : s.Linked) {i : ℕ} (hi : s.users i ≠ 0) : i < s.fresh := by
  obtain ⟨c, hc, huses⟩ := exists_uses hi
  exact (h.held c hc _ (Or.inl huses.1)).1

/-- The account is about the numbers of users. -/
theorem Linked.accounted_iff (h : s.Linked) :
    s.Accounted ↔ (∀ i < s.fresh, (s.heap i).retainCount = s.users i) ∧
      ∀ i, s.users i ≠ 0 → s.registry (s.heap i).cacheKey = some i := by
  constructor
  · rintro ⟨hcount, -, hreg⟩
    refine ⟨hcount, ?_⟩
    intro i hi
    obtain ⟨c, hc, huses⟩ := exists_uses hi
    exact hreg c hc i huses
  · rintro ⟨hcount, hreg⟩
    exact ⟨hcount, fun c hc => SslClient.Sound.releases_le (h.sound c hc), fun c hc i huses => hreg i (users_pos hc huses)⟩

/-- A connection that neither starts nor stops using a context. -/
theorem users_put_same (hj : s.clients[j]? = some c) {c' : SslClient}
    (hsame : ∀ i, c'.Uses i ↔ c.Uses i) (i : ℕ) : (s.put j c').users i = s.users i := by
  have hset := users_set hj c' i
  simp only [hsame] at hset
  exact Nat.add_right_cancel hset

theorem Accounted.put (h : s.Accounted) (hj : s.clients[j]? = some c) {c' : SslClient}
    (hlinked : (s.put j c').Linked) (hlinked₀ : s.Linked) (hsame : ∀ i, c'.Uses i ↔ c.Uses i) :
    (s.put j c').Accounted := by
  have husers := users_put_same hj hsame
  rw [hlinked.accounted_iff]
  simp only [husers]
  exact hlinked₀.accounted_iff.mp h

/-- A connection that starts using a context. -/
theorem users_start (hj : s.clients[j]? = some c) (hctx : c.sslCtx = none) {p : SslPhase}
    (hrel : c.releases = 0) (i i' : ℕ) :
    ((s.clients.set j { c with phase := p, sslCtx := some i }).countP fun c => c.Uses i')
      = s.users i' + if i' = i then 1 else 0 := by
  have hset := users_set hj { c with phase := p, sslCtx := some i } i'
  simpa [SslClient.Uses, hctx, hrel, users, eq_comm] using hset

/-- A connection that stops using one. -/
theorem users_stop (hj : s.clients[j]? = some c) {i : ℕ} (huses : c.Uses i) {c' : SslClient}
    (hrel : c'.releases ≠ 0) (i' : ℕ) :
    ((s.clients.set j c').countP fun c => c.Uses i') + (if i' = i then 1 else 0) = s.users i' := by
  have hset := users_set hj c' i'
  simpa [SslClient.Uses, huses.1, huses.2, hrel, users, eq_comm] using hset

theorem users_append {c : SslClient} (hctx : c.sslCtx = none) (i : ℕ) :
    users { s with clients := s.clients ++ [c] } i = s.users i := by
  simp [users, List.countP_append, SslClient.Uses, hctx]

theorem users_release (hj : s.clients[j]? = some c) {i : ℕ} (huses : c.Uses i) (inBase : Bool)
    (i' : ℕ) : (s.release j c inBase).users i' + (if i' = i then 1 else 0) = s.users i' := by
  simp only [release, huses.1, put, users]
  refine users_stop hj huses ?_ i'
  split_ifs <;> simp

theorem toCInt_eq_self_iff {n : ℤ} : toCInt n = n ↔ -2 ^ 31 ≤ n ∧ n < 2 ^ 31 := by
  have hmod : toCInt n = if n % 2 ^ 32 < 2 ^ 31 then n % 2 ^ 32 else n % 2 ^ 32 - 2 ^ 32 := rfl
  rw [hmod]
  split_ifs <;> constructor <;> intro h <;> omega

/-- A context that was found is counted right exactly if it is still registered and its
count has room. -/
theorem retain_accounted_iff (hlinked : s.Linked) (h : s.Accounted) (hj : s.clients[j]? = some c)
    {i : ℕ} (hphase : c.phase = .found i) (hlinked' : (s.retain j c i).Linked) :
    (s.retain j c i).Accounted ↔ s.registry c.key = some i ∧ s.users i + 1 < 2 ^ 31 := by
  have hmem := List.mem_of_getElem? hj
  obtain ⟨hlt, hkey⟩ := hlinked.held c hmem i (Or.inr hphase)
  obtain ⟨-, hctx, hrel⟩ : c.cleanedUp = false ∧ c.sslCtx = none ∧ c.releases = 0 := by
    simpa [SslClient.Sound, hphase] using hlinked.sound c hmem
  have husers : ∀ i', (s.retain j c i).users i' = s.users i' + if i' = i then 1 else 0 :=
    users_start hj hctx hrel i
  obtain ⟨hcount, hreg⟩ := hlinked.accounted_iff.mp h
  have hcacheKey : ∀ i', ((s.retain j c i).heap i').cacheKey = (s.heap i').cacheKey :=
    fun i' => cacheKey_recount i i' _
  rw [hlinked'.accounted_iff]
  simp only [husers, hcacheKey]
  constructor
  · rintro ⟨hcount', hreg'⟩
    have hself := hcount' i hlt
    have hregi := hreg' i (by simp)
    simp only [retain, put, Function.update_self, hcount i hlt, if_true] at hself
    have hroom := toCInt_eq_self_iff.mp (by simpa using hself)
    exact ⟨hkey ▸ hregi, by omega⟩
  · rintro ⟨hregi, hroom⟩
    constructor
    · intro i' hi'
      by_cases hi : i' = i
      · subst hi
        simp only [retain, put, Function.update_self, hcount i' hlt, if_true]
        rw [toCInt_eq_self_iff.mpr (by omega)]
        push_cast
        rfl
      · simpa [retain, put, Function.update_of_ne hi, hi] using hcount i' hi'
    · intro i' hi'
      by_cases hi : i' = i
      · rw [hi, hkey]
        exact hregi
      · exact hreg i' (by simpa [hi] using hi')

/-- A new context is counted right exactly if it takes no place of one in use. -/
theorem create_accounted_iff (hlinked : s.Linked) (h : s.Accounted) (hj : s.clients[j]? = some c)
    (hphase : c.phase = .missing) (hlinked' : (s.create j c).Linked) :
    (s.create j c).Accounted ↔ s.Vacant c.key := by
  have hmem := List.mem_of_getElem? hj
  obtain ⟨-, hctx, hrel⟩ : c.cleanedUp = false ∧ c.sslCtx = none ∧ c.releases = 0 := by
    simpa [SslClient.Sound, hphase] using hlinked.sound c hmem
  have husers : ∀ i', (s.create j c).users i' = s.users i' + if i' = s.fresh then 1 else 0 :=
    users_start hj hctx hrel s.fresh
  have hnobody : s.users s.fresh = 0 := by
    by_contra hne
    exact absurd (hlinked.users_lt hne) (lt_irrefl _)
  obtain ⟨hcount, hreg⟩ := hlinked.accounted_iff.mp h
  have hold : ∀ i' ≠ s.fresh, (s.create j c).heap i' = s.heap i' :=
    fun i' hi' => Function.update_of_ne hi' ..
  have hnew : (s.create j c).heap s.fresh = ⟨c.key, 1⟩ := Function.update_self ..
  have hregistry : ∀ k, (s.create j c).registry k = if k = c.key then some s.fresh else s.registry k :=
    fun k => Function.update_apply ..
  rw [hlinked'.accounted_iff]
  simp only [husers, hregistry]
  constructor
  · rintro ⟨-, hreg'⟩ i hi
    obtain ⟨hlt, hkey⟩ := hlinked.keyed _ i hi
    by_contra hne
    have hregi := hreg' i (by omega)
    rw [hold i hlt.ne, hkey, if_pos rfl] at hregi
    exact hlt.ne' (Option.some.inj hregi)
  · intro hvacant
    constructor
    · intro i' hi'
      by_cases hi : i' = s.fresh
      · subst hi
        simp [hnew, hnobody]
      · rw [hold i' hi, if_neg hi]
        exact hcount i' (lt_of_le_of_ne (Nat.lt_succ_iff.mp hi') hi)
    · intro i' hi'
      by_cases hi : i' = s.fresh
      · subst hi
        rw [hnew, if_pos rfl]
      · rw [if_neg hi] at hi'
        rw [hold i' hi]
        split_ifs with hkey
        · exact absurd (hvacant i' (hkey ▸ hreg i' hi')) hi'
        · exact hreg i' hi'

/-- A release keeps the account: what it has still to clear nobody uses. -/
theorem release_accounted (hlinked : s.Linked) (h : s.Accounted) (hj : s.clients[j]? = some c)
    (hrel : c.releases = 0 ∨ c.sslCtx = none) (inBase : Bool)
    (hlinked' : (s.release j c inBase).Linked) : (s.release j c inBase).Accounted := by
  rcases hctx : c.sslCtx with _ | i
  · have heq : s.release j c inBase = s.put j { c with phase := after inBase } := by
      simp only [release, hctx]
    rw [heq] at hlinked' ⊢
    exact h.put hj hlinked' hlinked fun i => Iff.rfl
  · have huses : c.Uses i := ⟨hctx, hrel.resolve_right (by simp [hctx])⟩
    obtain ⟨hcount, hreg⟩ := hlinked.accounted_iff.mp h
    have hpos := users_pos (List.mem_of_getElem? hj) huses
    have hlt := hlinked.users_lt hpos
    have husers := users_release hj huses inBase
    have hheap : (s.release j c inBase).heap
        = Function.update s.heap i ⟨(s.heap i).cacheKey, toCInt (s.users i - 1)⟩ := by
      simp only [release, hctx, put, hcount i hlt]
    have hrest : (s.release j c inBase).fresh = s.fresh ∧
        (s.release j c inBase).registry = s.registry := by
      simp only [release, hctx, put, and_self]
    rw [hlinked'.accounted_iff, hheap, hrest.1, hrest.2]
    constructor
    · intro i' hi'
      have hu := husers i'
      by_cases hi : i' = i
      · subst hi
        -- the count was one of an `int`
        have hint := toCInt_eq_self_iff.mp (hlinked.int i')
        rw [hcount i' hlt] at hint
        rw [if_pos rfl] at hu
        simp only [Function.update_self]
        rw [toCInt_eq_self_iff.mpr (by omega)]
        omega
      · rw [if_neg hi] at hu
        simp only [Function.update_of_ne hi, hcount i' hi', ← hu, Nat.add_zero]
    · intro i' hi'
      rw [cacheKey_recount]
      exact hreg i' (by have hu := husers i'; omega)

/-- Clearing the registry keeps the account exactly if nobody uses what is there by now. -/
theorem clear_accounted_iff (hlinked : s.Linked) (h : s.Accounted) (hj : s.clients[j]? = some c)
    {inBase : Bool} (hphase : c.phase = .clearing inBase) (hlinked' : (s.clear j c inBase).Linked) :
    (s.clear j c inBase).Accounted ↔ s.Vacant c.key := by
  have hmem := List.mem_of_getElem? hj
  obtain ⟨-, hrel, hsome⟩ : c.cleanedUp = true ∧ c.releases = 1 ∧ c.sslCtx ≠ none := by
    simpa [SslClient.Sound, hphase] using hlinked.sound c hmem
  obtain ⟨i, hctx⟩ := Option.ne_none_iff_exists'.mp hsome
  obtain ⟨-, hkey⟩ := hlinked.held c hmem i (Or.inl hctx)
  have husers : ∀ i', (s.clear j c inBase).users i' = s.users i' := by
    intro i'
    have hset := users_set hj { c with phase := after inBase, sslCtx := none } i'
    simpa [SslClient.Uses, hrel, users, clear, put] using hset
  obtain ⟨hcount, hreg⟩ := hlinked.accounted_iff.mp h
  have hregistry : ∀ k, (s.clear j c inBase).registry k = if k = c.key then none else s.registry k := by
    intro k
    simp only [clear, put, hctx, hkey, Function.update_apply]
  rw [hlinked'.accounted_iff]
  simp only [husers, hregistry]
  constructor
  · rintro ⟨-, hreg'⟩ i' hi'
    obtain ⟨-, hkey'⟩ := hlinked.keyed _ i' hi'
    by_contra hne
    have hcleared := hreg' i' hne
    rw [show ((s.clear j c inBase).heap i').cacheKey = c.key from hkey', if_pos rfl] at hcleared
    cases hcleared
  · intro hvacant
    refine ⟨hcount, ?_⟩
    intro i' hi'
    show (if (s.heap i').cacheKey = c.key then none else s.registry (s.heap i').cacheKey) = some i'
    split_ifs with hkey'
    · exact absurd (hvacant i' (hkey' ▸ hreg i' hi')) hi'
    · exact hreg i' hi'

/-- **One step**: the account is lost exactly by a step that finds the registry changed. -/
theorem step_accounted_iff (hlinked : s.Linked) (h : s.Accounted) {e : Event} {s' : SslCache}
    (hstep : step s e = some s') : s'.Accounted ↔ s.Undisturbed e := by
  have hlinked' := hlinked.step hstep
  cases e with
  | connect o =>
    obtain rfl := Option.some.inj hstep
    refine iff_of_true ?_ trivial
    rw [hlinked'.accounted_iff]
    cases o with
    | none => simpa only [connect, users_append] using hlinked.accounted_iff.mp h
    | some o => simpa only [connect, users_append] using hlinked.accounted_iff.mp h
  | advance j =>
    obtain ⟨c, hj, hstep⟩ := Option.bind_eq_some_iff.mp hstep
    have hsound := hlinked.sound c (List.mem_of_getElem? hj)
    have hfits : s.Undisturbed (.advance j) ↔ s.Fits c.key c.phase := by
      simp [Undisturbed, hj]
    rw [hfits]
    unfold SslClient.Sound at hsound
    unfold advance at hstep
    cases hphase : c.phase with
    | live | cleaned => simp [hphase] at hstep
    | looking =>
      simp only [hphase, Option.some.injEq] at hstep
      subst hstep
      refine iff_of_true ?_ trivial
      unfold lookup at hlinked' ⊢
      cases hreg : s.registry c.key with
      | none =>
        rw [hreg] at hlinked'
        exact h.put hj hlinked' hlinked fun i => Iff.rfl
      | some i =>
        rw [hreg] at hlinked'
        exact h.put hj hlinked' hlinked fun i => Iff.rfl
    | found i =>
      simp only [hphase, Option.some.injEq] at hstep
      subst hstep
      exact retain_accounted_iff hlinked h hj hphase hlinked'
    | missing =>
      simp only [hphase, Option.some.injEq] at hstep
      subst hstep
      exact create_accounted_iff hlinked h hj hphase hlinked'
    | cleaning =>
      simp only [hphase, Option.some.injEq] at hstep hsound
      subst hstep
      exact iff_of_true (release_accounted hlinked h hj (Or.inl hsound.2) false hlinked') trivial
    | baseCleaning =>
      simp only [hphase, Option.some.injEq] at hstep hsound
      subst hstep
      exact iff_of_true (release_accounted hlinked h hj (Or.inr hsound.2.1) true hlinked') trivial
    | clearing inBase =>
      simp only [hphase, Option.some.injEq] at hstep
      subst hstep
      exact clear_accounted_iff hlinked h hj hphase hlinked'
  | cleanup j =>
    obtain ⟨c, hj, hstep⟩ := Option.bind_eq_some_iff.mp hstep
    refine iff_of_true ?_ trivial
    have hclean : (if c.cleanedUp then some s
        else some (s.put j { c with cleanedUp := true, phase := .cleaning })) = some s' →
        s'.Accounted := by
      intro heq
      split_ifs at heq
      · exact Option.some.inj heq ▸ h
      · obtain rfl := Option.some.inj heq
        exact h.put hj hlinked' hlinked fun i => Iff.rfl
    unfold cleanup at hstep
    cases hphase : c.phase with
    | looking | found | missing => simp [hphase] at hstep
    | live | cleaning | clearing | baseCleaning | cleaned =>
      simp only [hphase] at hstep
      exact hclean hstep

/-! ## Halves that are not torn apart -/

/-- Only the connection that goes on is on its way, and no count is at its limit. -/
def Alone (s : SslCache) : Event → Prop
  | .advance j => (∀ k ≠ j, ∀ c, s.clients[k]? = some c → c.phase = .live ∨ c.phase = .cleaned) ∧
      ∀ i < s.fresh, s.users i + 1 < 2 ^ 31
  | _ => True

/-- What a connection saw is still so. -/
def Current (s : SslCache) (c : SslClient) : Prop :=
  match c.phase with
  | .found i => s.registry c.key = some i
  | .missing => s.registry c.key = none
  | .clearing _ => s.Vacant c.key
  | _ => True

/-- A connection that goes on alone finds what it saw. -/
theorem undisturbed_of_current (hlinked : s.Linked) (hcur : ∀ c ∈ s.clients, s.Current c)
    {e : Event} (halone : s.Alone e) : s.Undisturbed e := by
  cases e with
  | connect | cleanup => trivial
  | advance j =>
    intro c hj
    have hmem := List.mem_of_getElem? hj
    have hc := hcur c hmem
    unfold Current at hc
    cases hphase : c.phase with
    | looking | live | cleaning | baseCleaning | cleaned => trivial
    | found i =>
      simp only [hphase] at hc
      exact ⟨hc, halone.2 i (hlinked.held c hmem i (Or.inr hphase)).1⟩
    | missing =>
      simp only [hphase] at hc
      intro i hi
      rw [hc] at hi
      cases hi
    | clearing inBase =>
      simp only [hphase] at hc
      exact hc

/-- What a connection sees is in the registry and the numbers of users. -/
theorem current_congr {t : SslCache} (husers : ∀ i, t.users i = s.users i)
    (hreg : t.registry = s.registry) (c : SslClient) : t.Current c ↔ s.Current c := by
  unfold Current
  cases c.phase <;> simp only [hreg, husers, Vacant]

theorem current_of_rest (h : c.phase = .live ∨ c.phase = .cleaned) : s.Current c := by
  rcases h with h | h <;> simp [Current, h]

/-- What a connection sees when it has gone on. -/
theorem current_advance (hlinked : s.Linked) (h : s.Accounted) (hj : s.clients[j]? = some c)
    {s' : SslCache} (hstep : s.advance j c = some s') :
    ∃ c', s'.clients = s.clients.set j c' ∧ s'.Current c' := by
  have hrelease : ∀ inBase, c.releases = 0 ∨ c.sslCtx = none → s' = s.release j c inBase →
      ∃ c', s'.clients = s.clients.set j c' ∧ s'.Current c' := by
    rintro inBase hrel rfl
    cases hctx : c.sslCtx with
    | none =>
      refine ⟨{ c with phase := after inBase }, by simp only [release, hctx, put], ?_⟩
      cases inBase <;> simp [Current, after]
    | some i =>
      have hmem := List.mem_of_getElem? hj
      have huses : c.Uses i := ⟨hctx, hrel.resolve_right (by simp [hctx])⟩
      have hregi := h.registered c hmem i huses
      obtain ⟨hlt, hkey⟩ := hlinked.held c hmem i (Or.inl hctx)
      have husers := users_release hj huses inBase i
      rw [if_pos rfl] at husers
      refine ⟨if (s.heap i).retainCount ≤ 1 then
          { c with phase := .clearing inBase, releases := c.releases + 1 }
        else { c with phase := after inBase, sslCtx := none, releases := c.releases + 1 },
        by simp only [release, hctx, put], ?_⟩
      split_ifs with hlast
      · -- it was the only user of what is registered
        rw [h.counted i hlt] at hlast
        intro i' hi'
        have hsame : s.registry c.key = some i' := by simpa [release, hctx, put] using hi'
        rw [← hkey, hregi] at hsame
        obtain rfl := Option.some.inj hsame
        omega
      · cases inBase <;> simp [Current, after]
  unfold advance at hstep
  cases hphase : c.phase with
  | live | cleaned => simp [hphase] at hstep
  | looking =>
    simp only [hphase, Option.some.injEq] at hstep
    subst hstep
    unfold lookup
    cases hreg : s.registry c.key with
    | none => exact ⟨_, rfl, hreg⟩
    | some i => exact ⟨_, rfl, hreg⟩
  | found i =>
    simp only [hphase, Option.some.injEq] at hstep
    subst hstep
    exact ⟨_, rfl, trivial⟩
  | missing =>
    simp only [hphase, Option.some.injEq] at hstep
    subst hstep
    exact ⟨_, rfl, trivial⟩
  | cleaning =>
    simp only [hphase, Option.some.injEq] at hstep
    have hsound := hlinked.sound c (List.mem_of_getElem? hj)
    simp only [SslClient.Sound, hphase] at hsound
    exact hrelease false (Or.inl hsound.2) hstep.symm
  | baseCleaning =>
    simp only [hphase, Option.some.injEq] at hstep
    have hsound := hlinked.sound c (List.mem_of_getElem? hj)
    simp only [SslClient.Sound, hphase] at hsound
    exact hrelease true (Or.inr hsound.2.1) hstep.symm
  | clearing inBase =>
    simp only [hphase, Option.some.injEq] at hstep
    subst hstep
    refine ⟨_, rfl, ?_⟩
    cases inBase <;> trivial

theorem Current.step (hlinked : s.Linked) (h : s.Accounted) (hcur : ∀ c ∈ s.clients, s.Current c)
    {e : Event} (halone : s.Alone e) {s' : SslCache} (hstep : step s e = some s') :
    ∀ c ∈ s'.clients, s'.Current c := by
  cases e with
  | connect o =>
    obtain rfl := Option.some.inj hstep
    have hnew : ∀ c : SslClient, c.sslCtx = none → s.Current c →
        ∀ d ∈ s.clients ++ [c], Current { s with clients := s.clients ++ [c] } d := by
      intro c hctx hc d hd
      rw [current_congr (users_append hctx) rfl]
      rcases List.mem_append.mp hd with hd | hd
      · exact hcur d hd
      · exact List.mem_singleton.mp hd ▸ hc
    cases o with
    | none => exact hnew _ rfl trivial
    | some o => exact hnew _ rfl trivial
  | advance j =>
    obtain ⟨c, hj, hstep⟩ := Option.bind_eq_some_iff.mp hstep
    obtain ⟨c', hclients, hc'⟩ := current_advance hlinked h hj hstep
    intro d hd
    rw [hclients] at hd
    obtain ⟨k, hk⟩ := List.getElem?_of_mem hd
    by_cases hkj : k = j
    · subst hkj
      rw [List.getElem?_set_self (List.getElem?_eq_some_iff.mp hj).1] at hk
      exact Option.some.inj hk ▸ hc'
    · rw [List.getElem?_set_ne (Ne.symm hkj)] at hk
      exact current_of_rest (halone.1 k hkj d hk)
  | cleanup j =>
    obtain ⟨c, hj, hstep⟩ := Option.bind_eq_some_iff.mp hstep
    have hclean : (if c.cleanedUp then some s
        else some (s.put j { c with cleanedUp := true, phase := .cleaning })) = some s' →
        ∀ c ∈ s'.clients, s'.Current c := by
      intro heq d hd
      split_ifs at heq
      · obtain rfl := Option.some.inj heq
        exact hcur d hd
      · obtain rfl := Option.some.inj heq
        have husers : ∀ i, (s.put j { c with cleanedUp := true, phase := .cleaning }).users i
            = s.users i := users_put_same hj fun i => Iff.rfl
        rw [current_congr husers rfl]
        rcases List.mem_or_eq_of_mem_set hd with hd | rfl
        · exact hcur d hd
        · trivial
    unfold cleanup at hstep
    cases hphase : c.phase with
    | looking | found | missing => simp [hphase] at hstep
    | live | cleaning | clearing | baseCleaning | cleaned =>
      simp only [hphase] at hstep
      exact hclean hstep

/-- **Whole operations**: where no other connection is on its way when one goes on, and no
count is at its limit, nothing is disturbed. -/
theorem alone_undisturbed {es : List Event} (halone : Meets step Alone new es) :
    Meets step Undisturbed new es := by
  refine Meets.weaken (P := fun s => s.Linked ∧ s.Accounted ∧ ∀ c ∈ s.clients, s.Current c) ?_
    ⟨new_linked, new_accounted, fun _ h => nomatch h⟩ halone
  rintro s e ⟨hlinked, h, hcur⟩ halone
  have hundisturbed := undisturbed_of_current hlinked hcur halone
  refine ⟨hundisturbed, ?_⟩
  intro s' hstep
  exact ⟨hlinked.step hstep, (step_accounted_iff hlinked h hstep).mpr hundisturbed,
    Current.step hlinked h hcur halone hstep⟩

end SslCache

/-- **The users of an SSL context**: all along a run every context counts its users, no
connection releases twice and what is in use is registered, if and only if the registry is
undisturbed. -/
theorem ssl_context_accounted {es : List SslCache.Event} {s : SslCache}
    (hrun : run SslCache.step SslCache.new es = some s) :
    Always SslCache.step SslCache.Accounted SslCache.new es ↔
      Meets SslCache.step SslCache.Undisturbed SslCache.new es := by
  refine always_iff (P := SslCache.Linked) ?_ SslCache.new_linked SslCache.new_accounted hrun
  intro s e s' hlinked h hstep
  exact ⟨fun _ => hlinked.step hstep, SslCache.step_accounted_iff hlinked h hstep⟩

/-- No options at all. -/
def plainOptions : SslOptions := ⟨none, none, none, none, none, none, none, none⟩

/-- Two connections, one after the other; the first is closed twice and then disconnected. -/
def closedTwice : List SslCache.Event :=
  [.connect (some plainOptions), .advance 0, .advance 0, .connect (some plainOptions), .advance 1,
    .advance 1, .cleanup 0, .advance 0, .cleanup 0, .advance 0, .cleanup 0, .cleanup 1, .advance 1,
    .advance 1, .advance 1]

theorem ssl_context_accounted_closedTwice : ∃ s : SslCache,
    run SslCache.step SslCache.new closedTwice = some s ∧
      s.clients.map (·.releases) = [1, 1] ∧
      Always SslCache.step SslCache.Accounted SslCache.new closedTwice := by
  have hmeets : Meets SslCache.step SslCache.Undisturbed SslCache.new closedTwice := by decide
  have hrun : run SslCache.step SslCache.new closedTwice = some _ := rfl
  exact ⟨_, hrun, by decide, (ssl_context_accounted hrun).mpr hmeets⟩

/-- A finaliser connects while the context of another connection is allocated. -/
def connectedWithin : List SslCache.Event :=
  [.connect (some plainOptions), .advance 0, .connect (some plainOptions), .advance 1, .advance 1,
    .advance 0]

/-- A connection is made while a worker thread releases the last one. -/
def connectedBetween : List SslCache.Event :=
  [.connect (some plainOptions), .advance 0, .advance 0, .cleanup 0, .advance 0,
    .connect (some plainOptions), .advance 1, .advance 1, .advance 0]

/-- A context in use that is not registered: it may be collected. -/
def SslCache.Dangling (s : SslCache) (i : ℕ) : Prop :=
  s.users i ≠ 0 ∧ s.registry (s.heap i).cacheKey ≠ some i

instance (s : SslCache) (i : ℕ) : Decidable (s.Dangling i) := inferInstanceAs (Decidable (_ ∧ _))

theorem SslCache.Dangling.not_always {es : List SslCache.Event} {s : SslCache} {i : ℕ}
    (h : s.Dangling i) (hrun : run SslCache.step SslCache.new es = some s) :
    ¬ Always SslCache.step SslCache.Accounted SslCache.new es := by
  intro halways
  obtain ⟨c, hc, huses⟩ := SslCache.exists_uses h.1
  exact h.2 ((halways.last hrun).registered c hc i huses)

/-- Either way a context in use is no longer registered. -/
theorem ssl_context_dangling :
    ((run SslCache.step SslCache.new connectedWithin).any (·.Dangling 0) ∧
      ¬ Always SslCache.step SslCache.Accounted SslCache.new connectedWithin) ∧
    ((run SslCache.step SslCache.new connectedBetween).any (·.Dangling 0) ∧
      ¬ Always SslCache.step SslCache.Accounted SslCache.new connectedBetween) := by
  refine ⟨⟨by decide, ?_⟩, ⟨by decide, ?_⟩⟩
  · exact SslCache.Dangling.not_always (i := 0) (by decide) rfl
  · exact SslCache.Dangling.not_always (i := 0) (by decide) rfl

end LuaFan
