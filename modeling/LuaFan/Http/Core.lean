/-
# The requests of the core (`src/http.c`)

`http_getpost` hands a transfer to curl; when curl is done with it, `http_getpost_complete` lets go of
what it holds and sets a timer, and `resume_cb` resumes the coroutine that waits.  `cleanup_http_curl`
ends what is still under way.

References to the registry and the addresses of what is allocated are given out and given back as
handles, so that one that is released twice is a fault.
-/
import LuaFan.Lib.Handles
import LuaFan.Lib.Doubly
import LuaFan.Lib.Machine

namespace LuaFan

/-! ## The data -/

/-- The type of a field of the parameter table; a string may be one that is read as a number. -/
inductive ArgType where
  | nil
  | number
  | numeral
  | text
  | function
  | other
  deriving DecidableEq, Repr

namespace ArgType

def isNil (t : ArgType) : Bool := t == nil

def isFunction (t : ArgType) : Bool := t == function

/-- `lua_isnumber`. -/
def isNumber (t : ArgType) : Bool := t == number || t == numeral

/-- `lua_isstring`, which numbers are too. -/
def isString (t : ArgType) : Bool := t == number || t == numeral || t == text

/-- `lua_type(L, -1) == LUA_TSTRING`. -/
def isText (t : ArgType) : Bool := t == numeral || t == text

end ArgType

/-- A key of the table `headers`.  `lua_tolstring` turns a number into a string, which may be a key of
the table, too; `strcpy` takes no other key. -/
inductive HeaderKey where
  | string
  | number (isKey : Bool)

/-- `lua_next` does not find the key that it gave. -/
def HeaderKey.lost : HeaderKey → Bool
  | .string => false
  | .number isKey => !isKey

/-- An entry of `headers`, and whether its value is sent. -/
structure HeaderEntry where
  key : HeaderKey
  sent : Bool

/-- The field `headers`: of a table, the entries in the order in which `lua_next` gives them. -/
inductive HeadersArg where
  | nil
  | table (entries : List HeaderEntry)
  | other

/-- The fields of the parameter table that are kept, or that stop the request. -/
structure HttpParams where
  verbose : ArgType := .nil
  url : ArgType := .nil
  onprogress : ArgType := .nil
  headers : HeadersArg := .nil
  proxytunnel : ArgType := .nil
  proxy : ArgType := .nil
  proxyport : ArgType := .nil
  onsend : ArgType := .nil
  body : ArgType := .nil
  onreceive : ArgType := .nil
  onheader : ArgType := .nil
  oncomplete : ArgType := .nil
  resolve : ArgType := .nil
  cookiejar : ArgType := .nil

/-- The first argument of a request: a string stands for a table with that `url`. -/
inductive HttpArg where
  | string
  | table (params : HttpParams)
  | other

/-- What curl and the allocator answer during a request. -/
structure Outside where
  easyInit : Bool
  malloc : ℕ → Bool
  addHandle : Bool

/-- What stops a request. -/
inductive HttpStop where
  | easyInit
  | parameter
  | verbose
  | url
  | memory
  | next
  | headers
  | proxytunnel
  | proxy
  | proxyport
  | onsend
  | body
  | onreceive
  | onheader
  | oncomplete
  | cookiejar
  | addHandle
  deriving DecidableEq, Repr

/-- The text that is raised; for `verbose` it is that of `luaL_optnumber`, for `addHandle` curl's. -/
def HttpStop.text : HttpStop → Option String
  | easyInit => some "curl_easy_init() failed"
  | parameter => some "invalid parameter"
  | verbose => none
  | url => some "invalid url type in table parameter"
  | memory => some "Memory allocation failure"
  | next => some "invalid key to 'next'"
  | headers => some "invalid headers type in table parameter"
  | proxytunnel => some "invalid proxytunnel type in table parameter"
  | proxy => some "invalid proxy type in table parameter"
  | proxyport => some "invalid proxyport type in table parameter"
  | onsend => some "invalid onsend type in table parameter"
  | body => some "invalid body type in table parameter"
  | onreceive => some "invalid onreceive type in table parameter"
  | onheader => some "invalid onheader type in table parameter"
  | oncomplete => some "invalid oncomplete type in table parameter"
  | cookiejar => some "invalid cookiejar type in table parameter"
  | addHandle => none

/-- Errors that Lua raises from within: they do not come back, and nothing is released. -/
def HttpStop.raises : HttpStop → Bool
  | verbose => true
  | next => true
  | _ => false

/-- What a transfer holds (`ConnInfo`): `none` is `LUA_NOREF` or `NULL`. -/
structure ConnInfo where
  easy : ℕ
  outputHeaders : Option ℕ := none
  input : ℕ
  completed : Bool := false
  onprogressref : Option ℕ := none
  onheaderref : Option ℕ := none
  onwriteref : Option ℕ := none
  onreadref : Option ℕ := none
  coref : Option ℕ := none
  headerref : ℕ
  retref : ℕ
  bodyref : Option ℕ := none
  resolve : Option ℕ := none

namespace ConnInfo

/-- What `http_getpost` releases behind the label `ERROR`. -/
def failedRefs (conn : ConnInfo) (oncompleteref : Option ℕ) : List ℕ :=
  conn.onprogressref.toList ++ conn.onheaderref.toList ++ conn.onreadref.toList ++ conn.onwriteref.toList ++
    conn.coref.toList ++ oncompleteref.toList ++ [conn.headerref, conn.retref]

/-- What `http_getpost_complete` releases; `coref` goes to the timer. -/
def completedRefs (conn : ConnInfo) : List ℕ :=
  conn.bodyref.toList ++ conn.retref :: conn.onprogressref.toList ++ conn.onheaderref.toList ++
    conn.onreadref.toList ++ conn.onwriteref.toList ++ [conn.headerref]

/-- What `cleanup_http_curl` releases. -/
def cleanupRefs (conn : ConnInfo) : List ℕ :=
  conn.bodyref.toList ++ conn.onprogressref.toList ++ conn.onheaderref.toList ++ conn.onreadref.toList ++
    conn.onwriteref.toList ++ [conn.headerref, conn.retref] ++ conn.coref.toList

end ConnInfo

/-- What waits for its timer (`ResumeInfo`). -/
structure ResumeInfo where
  info : ℕ
  resumeTimer : ℕ
  coref : Option ℕ
  deriving DecidableEq, Repr

/-- The state of the core.  `activity` counts `IncrNetworkActivity`, `mainRefs` counts `incrRef`;
`running` are the corefs whose `FAN_RESUME` has not returned.  The last three say which coroutines were
taken on, which were resumed and which were given up. -/
structure HttpCore where
  refs : Handles
  heap : Handles
  mem : Doubly.Memory ConnInfo
  inflightHead : Option ℕ
  multi : List ℕ
  timers : List ResumeInfo
  running : List (Option ℕ)
  activity : ℤ
  mainRefs : ℤ
  started : List (Option ℕ)
  resumed : List (Option ℕ)
  dropped : List (Option ℕ)

namespace HttpCore

def start : HttpCore where
  refs := .empty
  heap := .empty
  mem := fun _ => none
  inflightHead := none
  multi := []
  timers := []
  running := []
  activity := 0
  mainRefs := 0
  started := []
  resumed := []
  dropped := []

/-! ## A request -/

/-- A request under way: `headers` is the list that is not yet kept in `conn`. -/
structure Building where
  refs : Handles
  heap : Handles
  conn : ConnInfo
  oncompleteref : Option ℕ
  headers : Option ℕ
  err : Option HttpStop

/-- An error stops the request. -/
def check (bad : Bool) (err : HttpStop) (b : Building) : Building :=
  if b.err.isNone && bad then { b with err := some err } else b

/-- `luaL_ref` in a branch that is taken if `p`. -/
def refIf (set : ConnInfo → Option ℕ → ConnInfo) (p : Bool) (b : Building) : Building :=
  if b.err.isNone && p then
    { b with refs := b.refs.take, conn := set b.conn (some b.refs.next) }
  else b

/-- A function is kept, `nil` is nothing, anything else stops the request. -/
def callback (set : ConnInfo → Option ℕ → ConnInfo) (t : ArgType) (err : HttpStop) (b : Building) : Building :=
  check (!(t.isFunction || t.isNil)) err (refIf set t.isFunction b)

/-- `curl_slist_append` of a header, with a buffer that is allocated before and freed after it.  What is
allocated for the list is one handle, given out with its first entry. -/
def appendHeader (b : Building) : Building :=
  let buf := b.heap.next
  let heap := b.heap.take
  match b.headers with
  | some _ => { b with heap := heap.give buf }
  | none => { b with heap := heap.take.give buf, headers := some heap.next }

/-- The loop over the table `headers`: `k` buffers were allocated so far. -/
def appendHeaders (malloc : ℕ → Bool) : List HeaderEntry → ℕ → Building → Building
  | [], _, b => { b with conn := { b.conn with outputHeaders := b.headers }, headers := none }
  | e :: entries, k, b =>
      if e.sent && !malloc k then
        -- goto ERROR with a list that only the local `headers` points to
        { b with err := some .memory }
      else
        let b := if e.sent then appendHeader b else b
        if e.key.lost then { b with err := some .next }
        else appendHeaders malloc entries (k + e.sent.toNat) b

def getHeaders (malloc : ℕ → Bool) (headers : HeadersArg) (b : Building) : Building :=
  match b.err, headers with
  | some _, _ => b
  | none, .nil => b
  | none, .table entries => appendHeaders malloc entries 0 b
  | none, .other => { b with err := some .headers }

/-- `curl_slist_append(NULL, resolve)`. -/
def getResolve (t : ArgType) (b : Building) : Building :=
  if b.err.isNone && t.isText then
    { b with heap := b.heap.take, conn := { b.conn with resolve := some b.heap.next } }
  else b

/-- `oncomplete` is kept apart from `conn`. -/
def getOncomplete (t : ArgType) (b : Building) : Building :=
  if b.err.isNone && t.isFunction then
    { b with refs := b.refs.take, oncompleteref := some b.refs.next }
  else check (!t.isNil) .oncomplete b

/-- The parameter table is read, field by field. -/
def getParams (p : HttpParams) (malloc : ℕ → Bool) (b : Building) : Building :=
  let b := check (!(p.verbose.isNil || p.verbose.isNumber)) .verbose b
  let b := check (!p.url.isString) .url b
  let b := refIf (fun conn r => { conn with onprogressref := r }) p.onprogress.isFunction b
  let b := getHeaders malloc p.headers b
  let b := check (!(p.proxytunnel.isNumber || p.proxytunnel.isNil)) .proxytunnel b
  let b := check (!(p.proxy.isString || p.proxy.isNil)) .proxy b
  let b := check (!(p.proxyport.isNumber || p.proxyport.isNil)) .proxyport b
  let b := callback (fun conn r => { conn with onreadref := r }) p.onsend .onsend b
  -- when onsend not defined, check body
  let b := refIf (fun conn r => { conn with bodyref := r }) (p.onsend.isNil && p.body.isString) b
  let b := check (p.onsend.isNil && !(p.body.isString || p.body.isNil)) .body b
  let b := callback (fun conn r => { conn with onwriteref := r }) p.onreceive .onreceive b
  let b := callback (fun conn r => { conn with onheaderref := r }) p.onheader .onheader b
  let b := getOncomplete p.oncomplete b
  let b := getResolve p.resolve b
  check (!(p.cookiejar.isString || p.cookiejar.isNil)) .cookiejar b

/-- The coroutine is kept and the transfer added to curl. -/
def addTransfer (addHandle : Bool) (b : Building) : Building :=
  check (!addHandle) .addHandle (refIf (fun conn r => { conn with coref := r }) true b)

/-- What a request has allocated before it reads its parameters. -/
def newConn (s : HttpCore) : ℕ × Building :=
  let conn := s.heap.next
  let heap := s.heap.take
  let input := heap.next
  let heap := heap.take
  let easy := heap.next
  let heap := heap.take
  let headerref := s.refs.next
  let refs := s.refs.take
  let retref := refs.next
  let refs := refs.take
  (conn,
    { refs := refs
      heap := heap
      conn := { easy := easy, input := input, headerref := headerref, retref := retref }
      oncompleteref := none
      headers := none
      err := none })

/-- The request up to its end or the label `ERROR`. -/
def build (arg : HttpArg) (o : Outside) (b : Building) : Building :=
  match arg with
  | .string => addTransfer o.addHandle (getParams { url := .text } o.malloc b)
  | .table p => addTransfer o.addHandle (getParams p o.malloc b)
  | .other => check true .parameter b

/-- The label `ERROR`, where `bodyref`, `outputHeaders` and `resolve` are not looked at. -/
def fail (conn : ℕ) (b : Building) (s : HttpCore) : HttpCore :=
  { s with
    refs := b.refs.giveAll (b.conn.failedRefs b.oncompleteref)
    heap := b.heap.giveAll [b.conn.easy, b.conn.input, conn] }

/-- The transfer is on its way. -/
def accept (conn : ℕ) (b : Building) (s : HttpCore) : HttpCore :=
  { s with
    refs := b.refs.giveAll b.oncompleteref.toList
    heap := b.heap
    mem := Doubly.insert (Function.update s.mem conn (some ⟨b.conn, none, none⟩)) s.inflightHead conn
    inflightHead := some conn
    multi := conn :: s.multi
    activity := s.activity + 1
    mainRefs := s.mainRefs + 1
    started := b.conn.coref :: s.started }

/-- A request: the text it raises, or whether it yields. -/
def httpGetpost (arg : HttpArg) (o : Outside) (s : HttpCore) : HttpCore × Except (Option String) Bool :=
  if !o.easyInit then
    let conn := s.heap.next
    let heap := s.heap.take
    let input := heap.next
    ({ s with heap := heap.take.giveAll [input, conn] }, .error HttpStop.easyInit.text)
  else
    let conn := (newConn s).1
    let b := build arg o (newConn s).2
    match b.err with
    | none => (accept conn b s, .ok b.oncompleteref.isNone)
    | some err =>
        if err.raises then ({ s with refs := b.refs, heap := b.heap }, .error err.text)
        else (fail conn b s, .error err.text)

/-! ## A transfer that is done -/

/-- Memory that is not there is used. -/
def useAfterFree (s : HttpCore) : HttpCore := { s with heap := { s.heap with fault := true } }

def httpGetpostComplete (a : ℕ) (malloc : Bool) (s : HttpCore) : HttpCore :=
  match s.mem a with
  | none => s.useAfterFree
  | some node =>
      let conn := node.item
      if conn.completed then s
      else
        -- inflight_remove comes after completed = 1
        let mem := Doubly.modify s.mem a fun n => { n with item := { n.item with completed := true } }
        let r := Doubly.remove mem s.inflightHead a
        let s :=
          { s with
            mem := r.1
            inflightHead := r.2
            refs := s.refs.giveAll conn.completedRefs
            heap := s.heap.give conn.input
            activity := s.activity - 1 }
        if malloc then
          let info := s.heap.next
          let heap := s.heap.take
          let resumeTimer := heap.next
          { s with
            heap := heap.take
            timers := ⟨info, resumeTimer, conn.coref⟩ :: s.timers
            mem := Doubly.modify s.mem a fun n => { n with item := { n.item with coref := none } } }
        else
          -- without a timer nothing resumes the coroutine
          { s with
            refs := s.refs.giveAll conn.coref.toList
            mainRefs := s.mainRefs - 1
            dropped := conn.coref :: s.dropped }

/-- What is freed after a transfer. -/
def freeConn (a : ℕ) (s : HttpCore) : HttpCore :=
  match s.mem a with
  | none => s.useAfterFree
  | some node =>
      { s with
        multi := s.multi.erase a
        heap := s.heap.giveAll (node.item.outputHeaders.toList ++ node.item.resolve.toList ++ [node.item.easy, a])
        mem := Function.update s.mem a none }

/-- One message that `timer_check_multi_info_cb` reads. -/
def transferDone (a : ℕ) (malloc : Bool) (s : HttpCore) : HttpCore := freeConn a (httpGetpostComplete a malloc s)

/-- `resume_cb` up to `FAN_RESUME`. -/
def resumeCb (info : ResumeInfo) (s : HttpCore) : HttpCore :=
  { s with
    timers := s.timers.erase info
    heap := s.heap.giveAll [info.resumeTimer, info.info]
    running := info.coref :: s.running
    resumed := info.coref :: s.resumed }

/-- `resume_cb` from there on. -/
def resumeReturned (coref : Option ℕ) (s : HttpCore) : HttpCore :=
  { s with
    running := s.running.erase coref
    refs := s.refs.giveAll coref.toList
    mainRefs := s.mainRefs - 1 }

/-! ## The end -/

/-- One turn of the loop of `cleanup_http_curl`. -/
def cleanupConn (a : ℕ) (s : HttpCore) : HttpCore :=
  match s.mem a with
  | none => s.useAfterFree
  | some node =>
      let conn := node.item
      let r := Doubly.remove s.mem s.inflightHead a
      let s := { s with mem := r.1, inflightHead := r.2 }
      freeConn a <|
        if conn.completed then s
        else
          -- the reference `coref` is released and the coroutine is not resumed
          { s with
            refs := s.refs.giveAll conn.cleanupRefs
            heap := s.heap.give conn.input
            activity := s.activity - 1
            mainRefs := s.mainRefs - 1
            dropped := conn.coref :: s.dropped }

/-- `while (inflight_head)`. -/
def cleanupLoop : ℕ → HttpCore → HttpCore
  | 0, s => s
  | fuel + 1, s =>
      match s.inflightHead with
      | none => s
      | some a => cleanupLoop fuel (cleanupConn a s)

/-- The loop takes one turn for each transfer that curl has. -/
def cleanupHttpCurl (s : HttpCore) : HttpCore := { cleanupLoop s.multi.length s with multi := [] }

/-! ## Runs -/

inductive Event where
  | request (arg : HttpArg) (o : Outside)
  | transferDone (a : ℕ) (malloc : Bool)
  | resume (info : ResumeInfo)
  | resumeReturned (coref : Option ℕ)
  | cleanup

/-- Curl reports only transfers that it has, and a timer fires once. -/
def step (s : HttpCore) : Event → Option HttpCore
  | .request arg o => some (httpGetpost arg o s).1
  | .transferDone a malloc => if a ∈ s.multi then some (transferDone a malloc s) else none
  | .resume info => if info ∈ s.timers then some (resumeCb info s) else none
  | .resumeReturned coref => if coref ∈ s.running then some (resumeReturned coref s) else none
  | .cleanup => some (cleanupHttpCurl s)

end HttpCore

end LuaFan
