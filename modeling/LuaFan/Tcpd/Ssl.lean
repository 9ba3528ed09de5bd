/-
# The SSL contexts of client connections (`src/tcpd_ssl.c`, `src/tcpd.c`)

Client connections share their SSL contexts: `tcpd_connect` looks the context up in the
registry under a key made from the options, and only a new context is configured.  A
context leaves the registry when its last connection is closed.

* `ssl_settings_isolated`: every connection has the settings of its own options **if and
  only if** each connection agreed, when it was made, with the live connections under its
  key on what the key leaves out: the certificate, its private key and the two verify
  flags, and, where an option hides a separator or spells a default, the rest as well.

Memory allocation, that of the `SSL_CTX` included, is taken to succeed.
-/
import LuaFan.Lib.Machine
import LuaFan.Lua.Value

namespace LuaFan

open Machine Fp

/-! ## The code -/

/-- The options of a connection that concern SSL: for a file or a password the bytes that
`lua_tostring` finds, for a flag the number that `lua_tointeger` finds, if any. -/
structure SslOptions where
  cert : Option (List UInt8)
  key : Option (List UInt8)
  cainfo : Option (List UInt8)
  capath : Option (List UInt8)
  pkcs12Path : Option (List UInt8)
  pkcs12Password : Option (List UInt8)
  sslVerifyhost : Option ℤ
  sslVerifypeer : Option ℤ
  deriving DecidableEq

/-- The configuration in `tcpd_ssl_context_t`. -/
structure SslSettings where
  certFile : Option (List UInt8)
  keyFile : Option (List UInt8)
  caInfo : Option (List UInt8)
  caPath : Option (List UInt8)
  pkcs12Path : Option (List UInt8)
  pkcs12Password : Option (List UInt8)
  verifyPeer : ℤ
  verifyHost : ℤ
  deriving DecidableEq

/-- `tcpd_ssl_context_t`. -/
structure SslContext where
  cacheKey : List UInt8
  retainCount : ℕ
  configured : Bool
  settings : SslSettings

/-- A `lua_Integer` as an `int`. -/
def toCInt (n : ℤ) : ℤ := n.bmod (2 ^ 32)

/-- The context that `tcpd_ssl_context_create` makes. -/
def sslContextCreate (cacheKey : List UInt8) : SslContext :=
  ⟨cacheKey, 1, false, ⟨none, none, none, none, none, none, 1, 1⟩⟩

/-- `tcpd_ssl_context_configure`: a field is set if the option is there. -/
def sslContextConfigure (ctx : SslContext) (o : SslOptions) : SslContext :=
  if ctx.configured then ctx
  else
    { ctx with
      configured := true
      settings :=
        { certFile := (o.cert.map cString).or ctx.settings.certFile
          keyFile := (o.key.map cString).or ctx.settings.keyFile
          caInfo := (o.cainfo.map cString).or ctx.settings.caInfo
          caPath := (o.capath.map cString).or ctx.settings.caPath
          pkcs12Path := (o.pkcs12Path.map cString).or ctx.settings.pkcs12Path
          pkcs12Password := (o.pkcs12Password.map cString).or ctx.settings.pkcs12Password
          verifyPeer := (o.sslVerifypeer.map toCInt).getD ctx.settings.verifyPeer
          verifyHost := (o.sslVerifyhost.map toCInt).getD ctx.settings.verifyHost } }

/-- What stands in the key for the CA file if there is none. -/
def defaultCa : List UInt8 := bytesOf "default_ca"

/-- `tcpd_ssl_generate_cache_key_from_table`. -/
def sslGenerateCacheKeyFromTable (o : SslOptions) : List UInt8 :=
  bytesOf "SSL_CTX:" ++ ((o.cainfo.map cString).getD defaultCa ++
    0x1F :: ((o.capath.map cString).getD [] ++
      0x1F :: ((o.pkcs12Path.map cString).getD [] ++ 0x1F :: (o.pkcs12Password.map cString).getD [])))

/-- A client connection: `sslCtx` is cleared when it is closed, and `settings` are those
its SSL object was made with. -/
structure TcpdClient where
  options : SslOptions
  sslCtx : Option ℕ
  settings : SslSettings
  deriving DecidableEq

/-- The contexts, where the registry has them, and the connections. -/
structure TcpdSsl where
  heap : ℕ → SslContext
  fresh : ℕ
  registry : List UInt8 → Option ℕ
  clients : List TcpdClient

namespace TcpdSsl

/-- Nothing has been connected yet. -/
def new : TcpdSsl := ⟨fun _ => sslContextCreate [], 0, fun _ => none, []⟩

/-- `tcpd_ssl_context_get_or_create`: the context, and where it is. -/
def getOrCreate (s : TcpdSsl) (cacheKey : List UInt8) : ℕ × TcpdSsl :=
  match s.registry cacheKey with
  | some i =>
      let ctx := s.heap i
      (i, { s with heap := Function.update s.heap i { ctx with retainCount := ctx.retainCount + 1 } })
  | none =>
      (s.fresh, { s with
        heap := Function.update s.heap s.fresh (sslContextCreate cacheKey)
        fresh := s.fresh + 1
        registry := Function.update s.registry cacheKey (some s.fresh) })

/-- The part of `tcpd_connect` for SSL. -/
def connect (s : TcpdSsl) (o : SslOptions) : TcpdSsl :=
  let r := s.getOrCreate (sslGenerateCacheKeyFromTable o)
  let ctx := sslContextConfigure (r.2.heap r.1) o
  { r.2 with
    heap := Function.update r.2.heap r.1 ctx
    clients := r.2.clients ++ [⟨o, some r.1, ctx.settings⟩] }

/-- `tcpd_ssl_context_release`. -/
def release (s : TcpdSsl) (i : ℕ) : TcpdSsl :=
  let ctx := s.heap i
  { s with
    heap := Function.update s.heap i { ctx with retainCount := ctx.retainCount - 1 }
    registry :=
      if ctx.retainCount ≤ 1 then Function.update s.registry ctx.cacheKey none else s.registry }

/-- `tcpd_client_cleanup_on_disconnect`, on a connection that may be closed already. -/
def close (s : TcpdSsl) (j : ℕ) (c : TcpdClient) : TcpdSsl :=
  match c.sslCtx with
  | some i => { s.release i with clients := s.clients.set j { c with sslCtx := none } }
  | none => s

/-- A connection is made, or the `j`-th one is closed. -/
inductive Event where
  | connect (o : SslOptions)
  | close (j : ℕ)

def step (s : TcpdSsl) : Event → Option TcpdSsl
  | .connect o => some (s.connect o)
  | .close j => s.clients[j]?.map (s.close j)

end TcpdSsl

/-! ## What should be in force -/

namespace SslOptions

/-- The settings that the options ask for. -/
def settings (o : SslOptions) : SslSettings :=
  (sslContextConfigure (sslContextCreate []) o).settings

/-- The options that the key is made from. -/
def covered (o : SslOptions) : List (Option (List UInt8)) :=
  [o.cainfo, o.capath, o.pkcs12Path, o.pkcs12Password].map (Option.map cString)

/-- The options that the key leaves out. -/
def uncovered (o : SslOptions) : List (Option (List UInt8)) × ℤ × ℤ :=
  ([o.cert, o.key].map (Option.map cString), (o.sslVerifyhost.map toCInt).getD 1,
    (o.sslVerifypeer.map toCInt).getD 1)

/-- No option hides a separator, is empty, or spells the default. -/
def Clean (o : SslOptions) : Prop :=
  (∀ v ∈ o.covered, ∀ bs ∈ v, bs ≠ [] ∧ 0x1F ∉ bs) ∧ o.cainfo.map cString ≠ some defaultCa

instance (o : SslOptions) : Decidable o.Clean := inferInstanceAs (Decidable (_ ∧ _))

/-- Two tables of options ask for the same of what the key leaves out, and of the rest as
well, unless the key tells it. -/
def Agree (o o' : SslOptions) : Prop :=
  o.uncovered = o'.uncovered ∧ (o.Clean ∧ o'.Clean ∨ o.covered = o'.covered)

instance (o o' : SslOptions) : Decidable (o.Agree o') := inferInstanceAs (Decidable (_ ∧ _))

/-- A separator that is in neither part tells where the parts end. -/
theorem append_separator_inj {α : Type} {x : α} {a a' b b' : List α} (h : x ∉ a) (h' : x ∉ a')
    (heq : a ++ x :: b = a' ++ x :: b') : a = a' ∧ b = b' := by
  induction a generalizing a' with
  | nil =>
    rcases a' with _ | ⟨y, a'⟩
    · simpa using heq
    · simp only [List.nil_append, List.cons_append, List.cons.injEq] at heq
      exact absurd (heq.1 ▸ List.mem_cons_self) h'
  | cons y a ih =>
    rcases a' with _ | ⟨z, a'⟩
    · simp only [List.nil_append, List.cons_append, List.cons.injEq] at heq
      exact absurd (heq.1 ▸ List.mem_cons_self) h
    · simp only [List.cons_append, List.cons.injEq] at heq
      rw [List.mem_cons, not_or] at h h'
      obtain ⟨rfl, rfl⟩ := ih h.2 h'.2 heq.2
      exact ⟨by rw [heq.1], rfl⟩

/-- An option that does not spell the default is told apart from no option. -/
theorem getD_inj {α : Type} {d : α} {v v' : Option α} (h : v ≠ some d) (h' : v' ≠ some d)
    (heq : v.getD d = v'.getD d) : v = v' := by
  rcases v with _ | a <;> rcases v' with _ | a'
  · rfl
  · exact absurd (congrArg some heq.symm) h'
  · exact absurd (congrArg some heq) h
  · exact congrArg some heq

/-- The key of clean options tells what it is made from. -/
theorem covered_eq {o o' : SslOptions} (h : o.Clean) (h' : o'.Clean)
    (hkey : sslGenerateCacheKeyFromTable o = sslGenerateCacheKeyFromTable o') :
    o.covered = o'.covered := by
  -- a part of the key has no separator, and tells whether the option was there
  have hpart : ∀ o : SslOptions, o.Clean → ∀ v ∈ o.covered, 0x1F ∉ v.getD [] := by
    intro o h v hv
    rcases hval : v with _ | bs
    · simp
    · exact (h.1 v hv bs hval).2
  have hcainfo : ∀ o : SslOptions, o.Clean → 0x1F ∉ (o.cainfo.map cString).getD defaultCa := by
    intro o h
    rcases hval : o.cainfo.map cString with _ | bs
    · decide
    · exact (h.1 _ (by simp [covered]) bs hval).2
  have hget : ∀ o : SslOptions, o.Clean → ∀ v ∈ o.covered, v ≠ some [] :=
    fun o h v hv heq => (h.1 v hv [] heq).1 rfl
  simp only [sslGenerateCacheKeyFromTable, List.append_cancel_left_eq] at hkey
  obtain ⟨h₁, hkey⟩ := append_separator_inj (hcainfo o h) (hcainfo o' h') hkey
  obtain ⟨h₂, hkey⟩ := append_separator_inj (hpart o h _ (by simp [covered]))
    (hpart o' h' _ (by simp [covered])) hkey
  obtain ⟨h₃, h₄⟩ := append_separator_inj (hpart o h _ (by simp [covered]))
    (hpart o' h' _ (by simp [covered])) hkey
  have hca := getD_inj h.2 h'.2 h₁
  have hcapath := getD_inj (hget o h _ (by simp [covered])) (hget o' h' _ (by simp [covered])) h₂
  have hpath := getD_inj (hget o h _ (by simp [covered])) (hget o' h' _ (by simp [covered])) h₃
  have hpassword := getD_inj (hget o h _ (by simp [covered])) (hget o' h' _ (by simp [covered])) h₄
  simp only [covered, List.map_cons, List.map_nil, hca, hcapath, hpath, hpassword]

theorem settings_eq_iff (o o' : SslOptions) :
    o.settings = o'.settings ↔ o.uncovered = o'.uncovered ∧ o.covered = o'.covered := by
  simp [settings, uncovered, covered, sslContextConfigure, sslContextCreate]
  tauto

/-- Options with the same key ask for the same settings exactly if they agree. -/
theorem agree_iff {o o' : SslOptions}
    (hkey : sslGenerateCacheKeyFromTable o = sslGenerateCacheKeyFromTable o') :
    o.Agree o' ↔ o.settings = o'.settings := by
  rw [settings_eq_iff, Agree]
  constructor
  · rintro ⟨hun, ⟨h, h'⟩ | hcov⟩
    · exact ⟨hun, covered_eq h h' hkey⟩
    · exact ⟨hun, hcov⟩
  · rintro ⟨hun, hcov⟩
    exact ⟨hun, Or.inr hcov⟩

end SslOptions

namespace TcpdSsl

/-- Every connection has the settings that its own options ask for. -/
def Isolated (s : TcpdSsl) : Prop := ∀ c ∈ s.clients, c.settings = c.options.settings

/-- A new connection agrees with the live ones that have its key. -/
def AgreesWithLive (s : TcpdSsl) : Event → Prop
  | .connect o => ∀ c ∈ s.clients, c.sslCtx ≠ none →
      sslGenerateCacheKeyFromTable c.options = sslGenerateCacheKeyFromTable o → c.options.Agree o
  | .close _ => True

instance (s : TcpdSsl) : ∀ e : Event, Decidable (s.AgreesWithLive e)
  | .connect o => inferInstanceAs (Decidable (∀ c ∈ s.clients, c.sslCtx ≠ none →
      sslGenerateCacheKeyFromTable c.options = sslGenerateCacheKeyFromTable o → c.options.Agree o))
  | .close _ => isTrue trivial

/-! ## Sharing -/

/-- The connections that use a context. -/
def holders (s : TcpdSsl) (i : ℕ) : ℕ := s.clients.countP fun c => c.sslCtx = some i

/-- A registered context is configured and counts its connections, of which there is at
least one; a live connection uses the context that is registered under its key. -/
structure Shared (s : TcpdSsl) : Prop where
  registered : ∀ k i, s.registry k = some i → i < s.fresh ∧ (s.heap i).cacheKey = k ∧
    (s.heap i).configured = true ∧ (s.heap i).retainCount = s.holders i ∧ 0 < s.holders i
  held : ∀ c ∈ s.clients, ∀ i, c.sslCtx = some i →
    s.registry (sslGenerateCacheKeyFromTable c.options) = some i ∧ c.settings = (s.heap i).settings

theorem new_shared : new.Shared where
  registered := fun _ _ h => nomatch h
  held := fun _ h => nomatch h

variable {s : TcpdSsl}

/-- A connection that finds its context. -/
theorem connect_found {o : SslOptions} {i : ℕ} (h : s.Shared)
    (hreg : s.registry (sslGenerateCacheKeyFromTable o) = some i) :
    s.connect o = { s with
      heap := Function.update s.heap i { s.heap i with retainCount := (s.heap i).retainCount + 1 }
      clients := s.clients ++ [⟨o, some i, (s.heap i).settings⟩] } := by
  have hconf := (h.registered _ i hreg).2.2.1
  simp [connect, getOrCreate, hreg, sslContextConfigure, hconf]

/-- A connection whose context is new. -/
theorem connect_new {o : SslOptions} (hreg : s.registry (sslGenerateCacheKeyFromTable o) = none) :
    s.connect o =
      { heap := Function.update s.heap s.fresh
          ⟨sslGenerateCacheKeyFromTable o, 1, true, o.settings⟩
        fresh := s.fresh + 1
        registry := Function.update s.registry (sslGenerateCacheKeyFromTable o) (some s.fresh)
        clients := s.clients ++ [⟨o, some s.fresh, o.settings⟩] } := by
  simp [connect, getOrCreate, hreg, sslContextConfigure, sslContextCreate, SslOptions.settings]

theorem holders_append (cs : List TcpdClient) (c : TcpdClient) (i : ℕ) :
    ((cs ++ [c]).countP fun c => c.sslCtx = some i)
      = (cs.countP fun c => c.sslCtx = some i) + if c.sslCtx = some i then 1 else 0 := by
  simp [List.countP_append, List.countP_singleton]

/-- A live connection's context is not a new one. -/
theorem Shared.lt_fresh (h : s.Shared) {c : TcpdClient} (hc : c ∈ s.clients) {i : ℕ}
    (hi : c.sslCtx = some i) : i < s.fresh :=
  (h.registered _ i (h.held c hc i hi).1).1

theorem Shared.connect (h : s.Shared) (o : SslOptions) : (s.connect o).Shared := by
  rcases hreg : s.registry (sslGenerateCacheKeyFromTable o) with _ | i
  · rw [connect_new hreg]
    have hnobody : s.holders s.fresh = 0 := by
      rw [holders, List.countP_eq_zero]
      intro c hc hi
      have hlt := h.lt_fresh hc (of_decide_eq_true hi)
      omega
    constructor
    · intro k i hk
      simp only [holders, holders_append] at hk ⊢
      by_cases hkey : k = sslGenerateCacheKeyFromTable o
      · subst hkey
        rw [Function.update_self] at hk
        obtain rfl := Option.some.inj hk
        rw [holders] at hnobody
        simp [hnobody]
      · rw [Function.update_of_ne hkey] at hk
        obtain ⟨hlt, hold⟩ := h.registered k i hk
        have hne : i ≠ s.fresh := by omega
        rw [Function.update_of_ne hne, if_neg (by simpa using Ne.symm hne)]
        exact ⟨by omega, hold⟩
    · intro c hc i hi
      rw [List.mem_append, List.mem_singleton] at hc
      rcases hc with hc | rfl
      · obtain ⟨hk, hset⟩ := h.held c hc i hi
        have hkey : sslGenerateCacheKeyFromTable c.options ≠ sslGenerateCacheKeyFromTable o := by
          intro heq
          rw [heq, hreg] at hk
          cases hk
        have hne : i ≠ s.fresh := (h.lt_fresh hc hi).ne
        simp only [Function.update_of_ne hkey, Function.update_of_ne hne]
        exact ⟨hk, hset⟩
      · obtain rfl := Option.some.inj hi
        simp
  · rw [connect_found h hreg]
    obtain ⟨hlt, hkey, hconf, hcount, hpos⟩ := h.registered _ i hreg
    constructor
    · intro k i' hk
      obtain ⟨hlt', hkey', hconf', hcount', hpos'⟩ := h.registered k i' hk
      simp only [holders, holders_append]
      by_cases hi : i' = i
      · subst hi
        simp only [Function.update_self, if_true]
        exact ⟨hlt, hkey', hconf, congrArg (· + 1) hcount, by omega⟩
      · rw [Function.update_of_ne hi, if_neg (by simpa using Ne.symm hi)]
        exact ⟨hlt', hkey', hconf', hcount', hpos'⟩
    · have hsame : ∀ i', (Function.update s.heap i
          { s.heap i with retainCount := (s.heap i).retainCount + 1 } i').settings
            = (s.heap i').settings := by
        intro i'
        by_cases hi : i' = i
        · rw [hi, Function.update_self]
        · rw [Function.update_of_ne hi]
      intro c hc i' hi'
      rw [List.mem_append, List.mem_singleton] at hc
      rw [hsame]
      rcases hc with hc | rfl
      · exact h.held c hc i' hi'
      · obtain rfl := Option.some.inj hi'
        exact ⟨hreg, rfl⟩

/-- The connections that use a context after one is closed. -/
theorem holders_set {cs : List TcpdClient} {j : ℕ} {c : TcpdClient} (hj : cs[j]? = some c) (i : ℕ) :
    ((cs.set j { c with sslCtx := none }).countP fun c => c.sslCtx = some i)
      = (cs.countP fun c => c.sslCtx = some i) - if c.sslCtx = some i then 1 else 0 := by
  obtain ⟨hlt, hget⟩ := List.getElem?_eq_some_iff.mp hj
  rw [List.countP_set hlt, hget]
  simp

/-- A client after one is closed is that one, or was there. -/
theorem mem_set_close {cs : List TcpdClient} {j : ℕ} {c c' : TcpdClient} {i : ℕ}
    (hc' : c' ∈ cs.set j { c with sslCtx := none }) (hi : c'.sslCtx = some i) : c' ∈ cs := by
  rcases List.mem_or_eq_of_mem_set hc' with hmem | rfl
  · exact hmem
  · cases hi

theorem Shared.close (h : s.Shared) {j : ℕ} {c : TcpdClient} (hj : s.clients[j]? = some c) :
    (s.close j c).Shared := by
  unfold TcpdSsl.close
  rcases hi : c.sslCtx with _ | i
  · exact h
  · have hc : c ∈ s.clients := List.mem_of_getElem? hj
    obtain ⟨hreg, -⟩ := h.held c hc i hi
    obtain ⟨hlt, hkey, hconf, hcount, hpos⟩ := h.registered _ i hreg
    have hrest : ∀ i', (s.clients.set j { c with sslCtx := none }).countP (fun c => c.sslCtx = some i')
        = s.holders i' - if i = i' then 1 else 0 := by
      intro i'
      rw [holders_set hj, hi, holders]
      simp
    have hsettings : ∀ i', (Function.update s.heap i
        { s.heap i with retainCount := (s.heap i).retainCount - 1 } i').settings
          = (s.heap i').settings := by
      intro i'
      by_cases hi' : i' = i
      · rw [hi', Function.update_self]
      · rw [Function.update_of_ne hi']
    simp only [release]
    by_cases hlast : (s.heap i).retainCount ≤ 1
    · -- it was the last connection of its context, which leaves the registry
      rw [if_pos hlast]
      constructor
      · intro k i' hk
        have hne : k ≠ (s.heap i).cacheKey := by
          rintro rfl
          simp at hk
        simp only [Function.update_of_ne hne] at hk
        obtain ⟨hlt', hkey', hold⟩ := h.registered k i' hk
        have hi' : i' ≠ i := by
          rintro rfl
          exact hne hkey'.symm
        simp only [holders] at hold ⊢
        rw [Function.update_of_ne hi', hrest, if_neg (Ne.symm hi')]
        exact ⟨hlt', hkey', hold⟩
      · intro c' hc' i' hi'
        have hmem := mem_set_close hc' hi'
        obtain ⟨hreg', hset'⟩ := h.held c' hmem i' hi'
        have hne : i' ≠ i := by
          rintro rfl
          have hpos' : 0 < (s.clients.set j { c with sslCtx := none }).countP
              (fun c => c.sslCtx = some i') :=
            List.countP_pos_iff.mpr ⟨c', hc', by simpa using hi'⟩
          rw [hrest, if_pos rfl] at hpos'
          omega
        have hkey' : sslGenerateCacheKeyFromTable c'.options ≠ (s.heap i).cacheKey := by
          intro heq
          rw [heq, hkey, hreg] at hreg'
          exact hne (Option.some.inj hreg').symm
        simp only [Function.update_of_ne hkey', hsettings]
        exact ⟨hreg', hset'⟩
    · rw [if_neg hlast]
      constructor
      · intro k i' hk
        obtain ⟨hlt', hkey', hconf', hcount', hpos'⟩ := h.registered k i' hk
        simp only [holders]
        rw [hrest]
        by_cases hi' : i = i'
        · subst hi'
          rw [Function.update_self, if_pos rfl]
          exact ⟨hlt', hkey', hconf', congrArg (· - 1) hcount', by omega⟩
        · rw [Function.update_of_ne (Ne.symm hi'), if_neg hi']
          exact ⟨hlt', hkey', hconf', hcount', hpos'⟩
      · intro c' hc' i' hi'
        rw [hsettings]
        exact h.held c' (mem_set_close hc' hi') i' hi'

/-! ## Isolation -/

theorem isolated_append {cs : List TcpdClient} {c : TcpdClient} :
    (∀ c' ∈ cs ++ [c], c'.settings = c'.options.settings) ↔
      (∀ c' ∈ cs, c'.settings = c'.options.settings) ∧ c.settings = c.options.settings := by
  simp [or_imp, forall_and]

/-- A new connection gets its own settings exactly if it agrees with the live ones. -/
theorem Shared.connect_isolated (h : s.Shared) (o : SslOptions) :
    (s.connect o).Isolated ↔ s.Isolated ∧ s.AgreesWithLive (.connect o) := by
  rcases hreg : s.registry (sslGenerateCacheKeyFromTable o) with _ | i
  · -- no live connection has this key
    rw [connect_new hreg, Isolated, isolated_append]
    constructor
    · rintro ⟨hall, -⟩
      refine ⟨hall, ?_⟩
      intro c hc hlive hkey
      obtain ⟨i, hi⟩ := Option.ne_none_iff_exists'.mp hlive
      have hk := (h.held c hc i hi).1
      rw [hkey, hreg] at hk
      cases hk
    · rintro ⟨hall, -⟩
      exact ⟨hall, rfl⟩
  · rw [connect_found h hreg, Isolated, isolated_append]
    have hfound : s.Isolated →
        ((s.heap i).settings = o.settings ↔ s.AgreesWithLive (.connect o)) := by
      intro hall
      constructor
      · intro heq c hc hlive hkey
        obtain ⟨i', hi'⟩ := Option.ne_none_iff_exists'.mp hlive
        obtain ⟨hk, hset⟩ := h.held c hc i' hi'
        rw [hkey, hreg] at hk
        obtain rfl := Option.some.inj hk
        rw [SslOptions.agree_iff hkey, ← hall c hc, hset, heq]
      · intro hagree
        -- some live connection uses the context
        obtain ⟨-, hkey, -, -, hpos⟩ := h.registered _ i hreg
        obtain ⟨c, hc, hi⟩ := List.countP_pos_iff.mp hpos
        have hi : c.sslCtx = some i := of_decide_eq_true hi
        obtain ⟨hk, hset⟩ := h.held c hc i hi
        have hsame := (h.registered _ i hk).2.1.symm.trans hkey
        have hag := hagree c hc (by rw [hi]; simp) hsame
        rw [SslOptions.agree_iff hsame, ← hall c hc, hset] at hag
        exact hag
    constructor
    · rintro ⟨hall, heq⟩
      exact ⟨hall, (hfound hall).mp heq⟩
    · rintro ⟨hall, hagree⟩
      exact ⟨hall, (hfound hall).mpr hagree⟩

/-- Closing a connection changes no settings. -/
theorem close_isolated {j : ℕ} {c : TcpdClient} (hj : s.clients[j]? = some c) :
    (s.close j c).Isolated ↔ s.Isolated := by
  obtain ⟨hlt, hget⟩ := List.getElem?_eq_some_iff.mp hj
  unfold TcpdSsl.close
  rcases c.sslCtx with _ | i
  · exact Iff.rfl
  · have hsame : (s.clients.set j { c with sslCtx := none }).map (fun c => (c.settings, c.options))
        = s.clients.map fun c => (c.settings, c.options) := by
      rw [List.map_set]
      apply List.ext_getElem (by simp)
      intro k h₁ h₂
      rw [List.getElem_set]
      split_ifs with hk
      · subst hk
        rw [List.getElem_map, hget]
      · rfl
    have hmap : ∀ cs : List TcpdClient, (∀ c ∈ cs, c.settings = c.options.settings) ↔
        ∀ p ∈ cs.map (fun c => (c.settings, c.options)), p.1 = p.2.settings := by simp
    rw [Isolated, Isolated, hmap, hmap, ← hsame]

theorem step_isolated {e : Event} {s' : TcpdSsl} (h : s.Shared) (hstep : step s e = some s') :
    s'.Shared ∧ (s'.Isolated ↔ s.Isolated ∧ s.AgreesWithLive e) := by
  rcases e with o | j
  · obtain rfl := Option.some.inj hstep
    exact ⟨h.connect o, h.connect_isolated o⟩
  · obtain ⟨c, hj, rfl⟩ := Option.map_eq_some_iff.mp hstep
    refine ⟨h.close hj, ?_⟩
    rw [close_isolated hj]
    exact (and_iff_left trivial).symm

end TcpdSsl

/-- **Isolation of SSL settings**: every connection has the settings of its own options
if and only if each one agreed with the live connections under its key; and options with
the same key ask for the same settings if and only if they agree. -/
theorem ssl_settings_isolated {es : List TcpdSsl.Event} {s : TcpdSsl}
    (hrun : run TcpdSsl.step TcpdSsl.new es = some s) :
    (s.Isolated ↔ Meets TcpdSsl.step TcpdSsl.AgreesWithLive TcpdSsl.new es) ∧
      ∀ o o' : SslOptions, sslGenerateCacheKeyFromTable o = sslGenerateCacheKeyFromTable o' →
        (o.settings = o'.settings ↔ o.Agree o') := by
  have hiff := (run_iff (Q := TcpdSsl.Isolated) (fun s e s' h _ hstep => TcpdSsl.step_isolated h hstep)
    TcpdSsl.new_shared (meets_true _ es) hrun).2
  constructor
  · rw [hiff]
    exact and_iff_right fun c hc => nomatch hc
  · intro o o' hkey
    exact (SslOptions.agree_iff hkey).symm

/-- No options but the flag for the peer. -/
def verifyPeerOptions (flag : ℤ) : SslOptions := ⟨none, none, none, none, none, none, none, some flag⟩

/-- The same options twice, and others after both are closed. -/
def closedBetween : List TcpdSsl.Event :=
  [.connect (verifyPeerOptions 0), .connect (verifyPeerOptions 0), .close 0, .close 1,
    .connect (verifyPeerOptions 1)]

theorem ssl_settings_isolated_closed : ∃ s : TcpdSsl,
    run TcpdSsl.step TcpdSsl.new closedBetween = some s ∧
      s.clients.map (·.settings.verifyPeer) = [0, 0, 1] ∧ s.Isolated := by
  have hagree : Meets TcpdSsl.step TcpdSsl.AgreesWithLive TcpdSsl.new closedBetween := by decide
  have hrun : run TcpdSsl.step TcpdSsl.new closedBetween = some _ := rfl
  exact ⟨_, hrun, by decide, (ssl_settings_isolated hrun).1.mpr hagree⟩

/-- A connection that checks its peer is made while one that does not is alive: it gets
the settings of the other. -/
theorem ssl_peer_not_verified : ∃ s : TcpdSsl,
    run TcpdSsl.step TcpdSsl.new [.connect (verifyPeerOptions 0), .connect (verifyPeerOptions 1)] = some s ∧
    s.clients.map (·.settings.verifyPeer) = [0, 0] ∧ ¬ s.Isolated ∧
    sslGenerateCacheKeyFromTable (verifyPeerOptions 0) = sslGenerateCacheKeyFromTable (verifyPeerOptions 1) ∧
    (verifyPeerOptions 0).settings ≠ (verifyPeerOptions 1).settings := by
  refine ⟨_, rfl, by decide, ?_, by decide, by decide⟩
  intro hall
  have hsecond := hall ⟨verifyPeerOptions 1, some 0, (verifyPeerOptions 0).settings⟩ (by decide)
  exact absurd hsecond (by decide)

end LuaFan
