/-
# The limit on requests (`modules/fan/httpd/httpd.lua`, `check_rate_limit`)

Each client may make a number of requests in a window of time.  The clients are told apart by
`self:remoteip()`; but `remoteip` is a field, which `context_mt.__index` fills in with a string,
and a string is not called.

* `rate_limit_never`: **no request is let through or refused**: with the limit enabled the check
  raises an error, whatever the connection says about its peer.
-/
import LuaFan.Httpd.Head
import LuaFan.Lua.Value

namespace LuaFan

open Fp

/-! ## The code -/

/-- The settings of the limit, with their defaults. -/
structure RateConfig where
  rateLimitRequests : LuaNumber := .integer 100
  rateLimitWindow : LuaNumber := .integer 60

/-- What is known of a client. -/
structure ClientData where
  requests : ℕ
  firstRequest : ℤ
  lastRequest : ℤ

/-- The variables of the module: `rate_limit_storage` and `rate_limit_cleanup_time`. -/
structure RateState where
  storage : List (List UInt8 × ClientData)
  cleanupTime : ℤ

def RateState.new : RateState := ⟨[], 0⟩

/-- `rate_limit_storage[ip]`. -/
def RateState.get (st : RateState) (ip : List UInt8) : Option ClientData :=
  (st.storage.find? fun e => e.1 = ip).map Prod.snd

/-- `rate_limit_storage[ip] = data`. -/
def RateState.set (st : RateState) (ip : List UInt8) (data : ClientData) : RateState :=
  { st with storage := (ip, data) :: st.storage.filter fun e => e.1 ≠ ip }

/-- `cleanup_rate_limit_storage`. -/
def cleanupRateLimitStorage (now : ℤ) (st : RateState) : RateState :=
  if 60 < now - st.cleanupTime then ⟨st.storage.filter fun e => now - 300 ≤ e.2.lastRequest, now⟩ else st

/-- The errors on the way to the address of a client. -/
inductive CallError where
  | callNil (method : String)
  | callString (method : String)
  deriving DecidableEq, Repr

/-- What `conn:remoteinfo()` gives. -/
structure RemoteInfo where
  ip : List UInt8
  port : ℕ

/-- `conn:remoteinfo()` of an accepted connection, whose metatable has `getpeername` but no
`remoteinfo`. -/
def acceptRemoteinfo (_ : List UInt8) : Except CallError RemoteInfo := .error (.callNil "remoteinfo")

/-- The fields of a request context on the way to the address: what has been cached, and what
the connection answers. -/
structure RemoteContext where
  remoteip : Option (List UInt8)
  remoteinfo : Except CallError RemoteInfo

/-- `context_index_remoteip`. -/
def indexRemoteip (ctx : RemoteContext) : Except CallError (List UInt8) := ctx.remoteinfo.map RemoteInfo.ip

/-- `ctx.remoteip`, by way of `context_mt.__index`. -/
def RemoteContext.index (ctx : RemoteContext) : Except CallError (List UInt8) :=
  match ctx.remoteip with
  | some ip => .ok ip
  | none => indexRemoteip ctx

/-- `ctx:remoteip()`: the string is called. -/
def RemoteContext.callRemoteip (ctx : RemoteContext) : Except CallError (List UInt8) :=
  match ctx.index with
  | .error e => .error e
  | .ok _ => .error (.callString "remoteip")

/-- What a check comes to. -/
inductive CheckResult where
  | allowed
  | refused (error : HttpError)
  | raised (error : CallError)
  deriving DecidableEq

def tooManyRequests : HttpError := ⟨429, "Too Many Requests", some "Rate limit exceeded"⟩

/-- `check_rate_limit` once the address is known. -/
def countRequest (config : RateConfig) (now : ℤ) (ip : List UInt8) (st : RateState) : RateState × CheckResult :=
  match st.get ip with
  | none => (st.set ip ⟨1, now, now⟩, .allowed)
  | some data =>
      if Value.le config.rateLimitWindow.value (intValue (now - data.firstRequest)) then
        (st.set ip ⟨1, now, now⟩, .allowed)
      else
        let data := { data with requests := data.requests + 1, lastRequest := now }
        if Value.lt config.rateLimitRequests.value (intValue data.requests) then
          (st.set ip data, .refused tooManyRequests)
        else (st.set ip data, .allowed)

/-- `context_mt:check_rate_limit`, with `enable_rate_limiting`. -/
def checkRateLimit (config : RateConfig) (now : ℤ) (ctx : RemoteContext) (st : RateState) :
    RateState × CheckResult :=
  let st := cleanupRateLimitStorage now st
  match ctx.callRemoteip with
  | .error e => (st, .raised e)
  | .ok ip => countRequest config now ip st

/-! ## Requests -/

/-- A request: its time and the address of the client. -/
structure TimedRequest where
  now : ℤ
  ip : List UInt8

/-- The checks of a list of requests, by a server whose connections answer `remoteinfo`. -/
def checkAll (config : RateConfig) (remoteinfo : List UInt8 → Except CallError RemoteInfo) :
    RateState → List TimedRequest → List CheckResult
  | _, [] => []
  | st, r :: rs =>
      let result := checkRateLimit config r.now ⟨none, remoteinfo r.ip⟩ st
      result.2 :: checkAll config remoteinfo result.1 rs

/-- The answers of fixed windows.  For each client there is the beginning of its window and the
number of its requests in it, if it has one. -/
def fixedWindows (config : RateConfig) :
    (List UInt8 → Option (ℤ × ℕ)) → List TimedRequest → List CheckResult
  | _, [] => []
  | windows, r :: rs =>
      let opened := (windows r.ip).filter fun w =>
        !Value.le config.rateLimitWindow.value (intValue (r.now - w.1))
      let counted := ((opened.map Prod.fst).getD r.now, (opened.map Prod.snd).getD 0 + 1)
      (if Value.lt config.rateLimitRequests.value (intValue counted.2) then .refused tooManyRequests
        else .allowed) ::
        fixedWindows config (Function.update windows r.ip (some counted)) rs

/-- The checks let the first requests of each window through, and refuse the others. -/
def LimitsRequests (config : RateConfig) (remoteinfo : List UInt8 → Except CallError RemoteInfo)
    (requests : List TimedRequest) : Prop :=
  checkAll config remoteinfo RateState.new requests = fixedWindows config (fun _ => none) requests

/-- The call of a string raises an error. -/
theorem callRemoteip_error (ctx : RemoteContext) : ∃ e, ctx.callRemoteip = .error e := by
  unfold RemoteContext.callRemoteip
  cases ctx.index with
  | error e => exact ⟨e, rfl⟩
  | ok ip => exact ⟨.callString "remoteip", rfl⟩

theorem checkRateLimit_raised (config : RateConfig) (now : ℤ) (ctx : RemoteContext) (st : RateState) :
    ∃ e, checkRateLimit config now ctx st = (cleanupRateLimitStorage now st, .raised e) := by
  obtain ⟨e, he⟩ := callRemoteip_error ctx
  exact ⟨e, by rw [checkRateLimit, he]⟩

/-- Every check of a run raises an error. -/
theorem raised_of_mem_checkAll {config : RateConfig} {remoteinfo : List UInt8 → Except CallError RemoteInfo}
    {requests : List TimedRequest} :
    ∀ {st : RateState} {result : CheckResult}, result ∈ checkAll config remoteinfo st requests →
      ∃ e, result = .raised e := by
  induction requests with
  | nil =>
      intro st result h
      cases h
  | cons r rs ih =>
      intro st result h
      obtain ⟨e, he⟩ := checkRateLimit_raised config r.now ⟨none, remoteinfo r.ip⟩ st
      rw [checkAll, he] at h
      rcases List.mem_cons.mp h with rfl | h
      · exact ⟨e, rfl⟩
      · exact ih h

/-- No window raises an error. -/
theorem ne_raised_of_mem_fixedWindows {config : RateConfig} {requests : List TimedRequest} :
    ∀ {windows : List UInt8 → Option (ℤ × ℕ)} {result : CheckResult},
      result ∈ fixedWindows config windows requests → ∀ e, result ≠ .raised e := by
  induction requests with
  | nil =>
      intro windows result h
      cases h
  | cons r rs ih =>
      intro windows result h e
      rw [fixedWindows] at h
      rcases List.mem_cons.mp h with rfl | h
      · split <;> simp
      · exact ih h e

/-- **The limit on requests** holds for no request: exactly without any is there nothing wrong. -/
theorem rate_limit_never (config : RateConfig) (remoteinfo : List UInt8 → Except CallError RemoteInfo)
    (requests : List TimedRequest) : LimitsRequests config remoteinfo requests ↔ requests = [] := by
  constructor
  · intro h
    cases requests with
    | nil => rfl
    | cons r rs =>
        have hmem : (checkRateLimit config r.now ⟨none, remoteinfo r.ip⟩ RateState.new).2 ∈
            checkAll config remoteinfo RateState.new (r :: rs) := List.mem_cons_self
        obtain ⟨e, he⟩ := raised_of_mem_checkAll hmem
        exact absurd he (ne_raised_of_mem_fixedWindows (h ▸ hmem) e)
  · rintro rfl
    rfl

/-- The first request of a client raises an error, on a connection that knows its peer and on one
of `tcpd`. -/
theorem first_request_raises :
    (checkAll {} (fun ip => .ok ⟨ip, 1234⟩) RateState.new [⟨1000, bytesOf "10.0.0.1"⟩]
        = [.raised (.callString "remoteip")] ∧
      ¬LimitsRequests {} (fun ip => .ok ⟨ip, 1234⟩) [⟨1000, bytesOf "10.0.0.1"⟩]) ∧
    checkAll {} acceptRemoteinfo RateState.new [⟨1000, bytesOf "10.0.0.1"⟩]
        = [.raised (.callNil "remoteinfo")] ∧
      ¬LimitsRequests {} acceptRemoteinfo [⟨1000, bytesOf "10.0.0.1"⟩] := by
  unfold LimitsRequests
  decide +kernel

end LuaFan
