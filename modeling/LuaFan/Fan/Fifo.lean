/-
# Fifos (`src/fifo.c`)

`fifo_read_cb` reads from a pipe and `luafan_fifo_send` writes to it.  Both keep the result of
the system call in a `size_t`, so the result -1 is not below zero but the largest length there is.

`SysResult` is what a call may return.  `ReadClassified` and `SendClassified` say what is to be
made of it; they hold **exactly if** the call did not fail, or nobody could notice
(`fifo_classified`).
-/
import LuaFan.Stream.Ffi

namespace LuaFan

/-! ## The code -/

/-- `READ_BUFF_LEN`. -/
def readBuffLen : ℕ := 64 * 1024

def eintr : ℕ := 4

def eagain : ℕ := 11

/-- What `read` or `write` with a buffer of `size` bytes returns, and `errno`. -/
structure SysResult (size : ℕ) where
  value : ℤ
  errno : ℕ
  valid : value = -1 ∨ 0 ≤ value ∧ value ≤ size ∧ value < 2 ^ 63

/-- What `fan_cb_setup` makes of a reference: it is `LUA_NOREF`, there is no memory for a
coroutine, the slot of the registry holds no function, or the function can be called. -/
inductive Callback where
  | noref
  | noThread
  | noFunction
  | function
deriving DecidableEq

structure FIFO where
  onRead : Callback
  onDisconnected : Callback
  writeEv : Bool

/-- A callback that is resumed, with its argument. -/
inductive FifoCall where
  | onread (data : List UInt8)
  | ondisconnected (reason : String)
deriving DecidableEq

/-- `lua_pushlstring`; a string has a largest length. -/
def pushlstring (buf : List UInt8) (len : ℕ) : Except String (List UInt8) :=
  if len < 2 ^ 63 - 25 then .ok (buf.take len)
  else .error "memory allocation error: block too big"

section Code

variable (strerror : ℕ → String)

/-- `len < 0 && (errno == EAGAIN || errno == EINTR)`, for a `size_t`. -/
def isRetry (len errno : ℕ) : Bool := decide (len < 0) && (errno == eagain || errno == eintr)

/-- The call of `ondisconnected`. -/
def disconnect (fifo : FIFO) (len errno : ℕ) : List FifoCall :=
  if fifo.onDisconnected = .function then
    [.ondisconnected (if len < 0 ∧ errno ≠ 0 then strerror errno else "pipe closed.")]
  else []

/-- `fifo_read_cb`: the calls it makes, or the error it raises. -/
def fifoReadCb (fifo : FIFO) (read : SysResult readBuffLen) (buf : List UInt8) :
    Except String (List FifoCall) :=
  let len := toSize read.value
  if len ≤ 0 then
    if isRetry len read.errno then .ok []
    else .ok (disconnect strerror fifo len read.errno)
  else if fifo.onRead = .function then (pushlstring buf len).map fun data => [.onread data]
  else .ok []

/-- `lua_pushinteger` of a `size_t`. -/
def pushSize (len : ℕ) : ℤ := (Int64.ofInt len).toInt

/-- `luafan_fifo_send` of a string that is not empty: the calls it makes, what it returns and
the fifo. -/
def luafanFifoSend (fifo : FIFO) {data : List UInt8} (write : SysResult data.length) :
    List FifoCall × ℤ × FIFO :=
  let len := toSize write.value
  if len ≤ 0 then
    if isRetry len write.errno then ([], 0, fifo)
    else (disconnect strerror fifo len write.errno, pushSize len, { fifo with writeEv := false })
  else ([], pushSize len, fifo)

end Code

/-! ## What a result is -/

namespace SysResult

variable {size : ℕ} (r : SysResult size)

/-- The call is to be made again. -/
def Transient : Prop := r.value = -1 ∧ (r.errno = eagain ∨ r.errno = eintr)

/-- End of file, or any other error. -/
def Ended : Prop := r.value = 0 ∨ r.value = -1 ∧ ¬(r.errno = eagain ∨ r.errno = eintr)

/-- A call that failed has returned the largest length there is. -/
theorem toSize_failed (h : r.value = -1) : toSize r.value = 2 ^ 64 - 1 := by
  rw [h]
  decide

theorem toSize_count (h : 0 ≤ r.value) : (toSize r.value : ℤ) = r.value := by
  obtain hneg | ⟨-, -, hlt⟩ := r.valid
  · omega
  · rw [toSize, Int.toNat_of_nonneg (Int.emod_nonneg _ (by norm_num)),
      Int.emod_eq_of_lt h (by omega)]

end SysResult

/-! ## What the code makes of it -/

section Cases

variable {strerror : ℕ → String} {fifo : FIFO}

theorem fifoReadCb_count (r : SysResult readBuffLen) (buf : List UInt8) (h : 0 < r.value) :
    fifoReadCb strerror fifo r buf =
      .ok (if fifo.onRead = .function then [.onread (buf.take r.value.toNat)] else []) := by
  have hsize := r.toSize_count h.le
  have hvalid : r.value ≤ readBuffLen := by
    obtain hneg | ⟨-, hle, -⟩ := r.valid
    · omega
    · exact hle
  have hbuff : readBuffLen = 65536 := rfl
  have hlen : toSize r.value = r.value.toNat := by omega
  rw [fifoReadCb]
  simp only [hlen]
  rw [if_neg (by omega)]
  split
  · rw [pushlstring, if_pos (by omega)]
    rfl
  · rfl

theorem fifoReadCb_eof (r : SysResult readBuffLen) (buf : List UInt8) (h : r.value = 0) :
    fifoReadCb strerror fifo r buf = .ok (disconnect strerror fifo 0 r.errno) := by
  have hlen : toSize r.value = 0 := by
    rw [h]
    decide
  rw [fifoReadCb]
  simp only [hlen]
  rfl

/-- The branches for errors are not taken. -/
theorem fifoReadCb_failed (r : SysResult readBuffLen) (buf : List UInt8) (h : r.value = -1) :
    fifoReadCb strerror fifo r buf =
      if fifo.onRead = .function then .error "memory allocation error: block too big" else .ok [] := by
  rw [fifoReadCb]
  simp only [r.toSize_failed h]
  rw [if_neg (by norm_num)]
  split
  · rw [pushlstring, if_neg (by norm_num)]
    rfl
  · rfl

variable {data : List UInt8}

theorem luafanFifoSend_count (r : SysResult data.length) (h : 0 < r.value) :
    luafanFifoSend strerror fifo r = ([], r.value, fifo) := by
  have hsize := r.toSize_count h.le
  have hlt : r.value < 2 ^ 63 := by
    obtain hneg | ⟨-, -, hlt⟩ := r.valid
    · omega
    · exact hlt
  have hpush : pushSize (toSize r.value) = r.value := by
    rw [pushSize, hsize]
    exact Int64.toInt_ofInt_of_le (by omega) (by omega)
  rw [luafanFifoSend]
  simp only [hpush]
  rw [if_neg (by omega)]

theorem luafanFifoSend_eof (r : SysResult data.length) (h : r.value = 0) :
    luafanFifoSend strerror fifo r =
      (disconnect strerror fifo 0 r.errno, 0, { fifo with writeEv := false }) := by
  have hlen : toSize r.value = 0 := by
    rw [h]
    decide
  rw [luafanFifoSend]
  simp only [hlen]
  rfl

/-- The branches for errors are not taken. -/
theorem luafanFifoSend_failed (r : SysResult data.length) (h : r.value = -1) :
    luafanFifoSend strerror fifo r = ([], -1, fifo) := by
  rw [luafanFifoSend]
  simp only [r.toSize_failed h]
  rw [if_neg (by norm_num)]
  rfl

end Cases

/-! ## Classification -/

section Classified

variable (strerror : ℕ → String) (fifo : FIFO)

/-- What is to be made of the result of `read`. -/
def ReadClassified (r : SysResult readBuffLen) (buf : List UInt8) : Prop :=
  ∃ calls, fifoReadCb strerror fifo r buf = .ok calls ∧
    (∀ data, .onread data ∈ calls → 0 < r.value ∧ data.length = r.value ∧ data <+: buf) ∧
    (0 < r.value → fifo.onRead = .function → ∃ data, .onread data ∈ calls) ∧
    (r.Transient → calls = []) ∧
    (r.Ended → fifo.onDisconnected = .function → ∃ reason, .ondisconnected reason ∈ calls)

/-- What is to be made of the result of `write`. -/
def SendClassified {data : List UInt8} (r : SysResult data.length) : Prop :=
  ∃ calls returned fifo', luafanFifoSend strerror fifo r = (calls, returned, fifo') ∧
    (0 < returned → 0 < r.value ∧ returned = r.value) ∧
    (r.Transient → calls = [] ∧ returned = 0) ∧
    (r.Ended → fifo.onDisconnected = .function → ∃ reason, .ondisconnected reason ∈ calls)

variable {strerror fifo}

theorem disconnect_of_function (h : fifo.onDisconnected = .function) (len errno : ℕ) :
    ∃ reason, .ondisconnected reason ∈ disconnect strerror fifo len errno := by
  rw [disconnect, if_pos h]
  exact ⟨_, List.mem_singleton_self _⟩

theorem onread_not_mem_disconnect (len errno : ℕ) (data : List UInt8) :
    .onread data ∉ disconnect strerror fifo len errno := by
  rw [disconnect]
  split <;> simp

/-- **A failed `read`** is harmless only without callbacks that would notice. -/
theorem readClassified_iff (r : SysResult readBuffLen) {buf : List UInt8}
    (hbuf : buf.length = readBuffLen) :
    ReadClassified strerror fifo r buf ↔ (r.value = -1 →
      fifo.onRead ≠ .function ∧ (r.Ended → fifo.onDisconnected ≠ .function)) := by
  constructor
  · rintro ⟨calls, hcalls, -, -, -, hended⟩ hfailed
    rw [fifoReadCb_failed r buf hfailed] at hcalls
    split at hcalls
    · cases hcalls
    · rename_i hread
      cases hcalls
      refine ⟨hread, fun hend hfun => ?_⟩
      obtain ⟨reason, hreason⟩ := hended hend hfun
      cases hreason
  · intro hfailed
    rcases r.valid with hneg | ⟨hnonneg, hle, -⟩
    · obtain ⟨hread, hend⟩ := hfailed hneg
      refine ⟨[], ?_, by simp, fun hpos => by omega, fun _ => rfl, fun h hfun => absurd hfun (hend h)⟩
      rw [fifoReadCb_failed r buf hneg, if_neg hread]
    · rcases hnonneg.lt_or_eq with hpos | hzero
      · -- data
        refine ⟨_, fifoReadCb_count r buf hpos, ?_, ?_, ?_, ?_⟩
        · intro data hdata
          split at hdata
          · cases List.mem_singleton.mp hdata
            refine ⟨hpos, ?_, List.take_prefix _ _⟩
            rw [List.length_take]
            omega
          · cases hdata
        · intro _ hfun
          rw [if_pos hfun]
          exact ⟨_, List.mem_singleton_self _⟩
        · rintro ⟨hneg, -⟩
          omega
        · rintro (h | ⟨h, -⟩) <;> omega
      · -- end of file
        refine ⟨_, fifoReadCb_eof r buf hzero.symm, ?_, ?_, ?_, ?_⟩
        · exact fun data hdata => absurd hdata (onread_not_mem_disconnect _ _ data)
        · intro hpos
          omega
        · rintro ⟨hneg, -⟩
          omega
        · exact fun _ hfun => disconnect_of_function hfun _ _

/-- **A failed `write`** is harmless only if it is final and nobody is to be told. -/
theorem sendClassified_iff {data : List UInt8} (r : SysResult data.length) :
    SendClassified strerror fifo r ↔ (r.value = -1 →
      ¬r.Transient ∧ (r.Ended → fifo.onDisconnected ≠ .function)) := by
  constructor
  · rintro ⟨calls, returned, fifo', hsend, -, htransient, hended⟩ hfailed
    rw [luafanFifoSend_failed r hfailed] at hsend
    cases hsend
    refine ⟨fun htrans => ?_, fun hend hfun => ?_⟩
    · cases (htransient htrans).2
    · obtain ⟨reason, hreason⟩ := hended hend hfun
      cases hreason
  · intro hfailed
    rcases r.valid with hneg | ⟨hnonneg, -, -⟩
    · obtain ⟨htrans, hend⟩ := hfailed hneg
      exact ⟨_, _, _, luafanFifoSend_failed r hneg, fun hpos => by omega,
        fun h => absurd h htrans, fun h hfun => absurd hfun (hend h)⟩
    · rcases hnonneg.lt_or_eq with hpos | hzero
      · refine ⟨_, _, _, luafanFifoSend_count r hpos, fun _ => ⟨hpos, rfl⟩, ?_, ?_⟩
        · rintro ⟨hneg, -⟩
          omega
        · rintro (h | ⟨h, -⟩) <;> omega
      · refine ⟨_, _, _, luafanFifoSend_eof r hzero.symm, fun hpos => by omega, ?_, ?_⟩
        · rintro ⟨hneg, -⟩
          omega
        · exact fun _ hfun => disconnect_of_function hfun _ _

end Classified

/-- **System-call results are classified** unless a call has failed where that matters. -/
theorem fifo_classified (strerror : ℕ → String) (fifo : FIFO) :
    (∀ (r : SysResult readBuffLen) (buf : List.Vector UInt8 readBuffLen),
      ReadClassified strerror fifo r buf.toList ↔ (r.value = -1 →
        fifo.onRead ≠ .function ∧ (r.Ended → fifo.onDisconnected ≠ .function))) ∧
    ∀ (data : List UInt8) (r : SysResult data.length),
      SendClassified strerror fifo r ↔ (r.value = -1 →
        ¬r.Transient ∧ (r.Ended → fifo.onDisconnected ≠ .function)) :=
  ⟨fun r buf => readClassified_iff r buf.toList_length, fun _ r => sendClassified_iff r⟩

/-- A pipe that has no data now: the callback raises an error instead of waiting. -/
theorem fifo_misclassified :
    ¬ReadClassified (fun _ => "Resource temporarily unavailable") ⟨.function, .noref, false⟩
      ⟨-1, eagain, Or.inl rfl⟩ (List.replicate readBuffLen 0) := by
  rw [readClassified_iff _ List.length_replicate]
  exact fun h => (h rfl).1 rfl

end LuaFan
