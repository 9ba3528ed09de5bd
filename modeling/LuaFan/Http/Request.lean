/-
# Requests that are sent (`modules/fan/http/http.lua`, `request`)

What `request` writes on a new connection, in whichever order `pairs` goes over its headers, and
what the server makes of it.

* `request_served`: a call whose URL can be dialled and whose headers make lines is **one request
  for the service**, with the method, the path and the headers of the call, and it ends the
  connection;
* `call_answered`: **the call returns what the handler tells**.
-/
import LuaFan.Http.Url
import LuaFan.Http.Answer
import LuaFan.Httpd.Framing

namespace LuaFan

open Fp Lines Machine Segments

/-! ## The code -/

/-- The functions of the module that call `request`. -/
inductive HttpFunction where
  | get
  | post
  | put
  | head
  | update
  | delete
  deriving DecidableEq, Repr

namespace HttpFunction

/-- The method, in capitals. -/
def method : HttpFunction → List UInt8
  | get => bytesOf "GET"
  | post => bytesOf "POST"
  | put => bytesOf "PUT"
  | head => bytesOf "HEAD"
  | update => bytesOf "UPDATE"
  | delete => bytesOf "DELETE"

/-- The argument `check_body`. -/
def checkBody : HttpFunction → Bool
  | post => true
  | put => true
  | _ => false

end HttpFunction

/-- A call without callbacks: `args.headers` and `args.body`. -/
structure HttpCall where
  function : HttpFunction
  headers : List Header
  body : Option (List UInt8)

/-- `headers[key] = value`. -/
def setField (headers : List Header) (key value : List UInt8) : List Header :=
  if headers.any fun h => h.1 == key then headers.map fun h => if h.1 = key then (key, value) else h
  else headers ++ [(key, value)]

/-- A line of the head. -/
def fieldText (h : Header) : List UInt8 := h.1 ++ bytesOf ": " ++ h.2 ++ crlf

namespace HttpCall

/-- What is sent behind the head. -/
def sentBody (c : HttpCall) : List UInt8 := if c.function.checkBody then c.body.getD [] else []

/-- `args.headers` when it is written. -/
def fields (c : HttpCall) (host : List UInt8) : List Header :=
  let headers := if c.headers.any fun h => h.1 == bytesOf "Host" then c.headers
    else c.headers ++ [(bytesOf "Host", host)]
  let headers := setField headers (bytesOf "Connection") (bytesOf "close")
  if c.function.checkBody then
    setField headers (bytesOf "Content-Length") (bytesOf (toString (c.body.getD []).length))
  else headers

/-- What is sent for a path, with the headers in the order in which `pairs` goes over them. -/
def sent (c : HttpCall) (path : List UInt8) (order : List Header) : List UInt8 :=
  c.function.method ++ bytesOf " " ++ path ++ bytesOf " HTTP/1.1" ++ crlf ++ order.flatMap fieldText ++ crlf
    ++ c.sentBody

/-- The call can be written as a request: its URL can be dialled, its headers make lines that differ
not only in case, and there is no body, of which the server would not read a byte. -/
structure Askable (c : HttpCall) (a : Address) : Prop where
  dialled : a.Dialled
  path_end : ∀ b ∈ a.path, b ≠ 32 ∧ b ≠ cr ∧ b ≠ lf
  path_le : a.path.length ≤ 2048
  host_end : hasLineEnd a.host = false
  host_le : a.host.length ≤ 8192
  headers : ∀ h ∈ c.headers, HttpAnswer.IsLine h ∧ h.2.length ≤ 8192
  keys : ((c.fields a.host).map Header.key).Nodup
  length : ∀ h ∈ c.headers, h.key ≠ bytesOf "content-length"
  body : c.sentBody = []

end HttpCall

/-- A value as the server records it. -/
def seen (value : List UInt8) : List UInt8 := trimRight (value.dropWhile isBlank)

/-! ## Headers as they arrive -/

/-- A header without its line end. -/
def fieldLine (h : Header) : List UInt8 := h.1 ++ bytesOf ": " ++ h.2

theorem matchHeader_fieldLine {h : Header} (hline : HttpAnswer.IsLine h) :
    matchHeader (fieldLine h) = some (h.1, h.2.dropWhile isBlank) := by
  have hcolon : bytesOf ": " = [ascii ':', 32] := by decide
  have hstop : ∀ b, (ascii ':' :: 32 :: h.2).head? = some b → isTokenChar b = false := by
    intro b hb
    cases hb
    decide
  have hrun : (h.1 ++ ascii ':' :: 32 :: h.2).takeWhile isTokenChar = h.1 :=
    LuaPattern.takeWhile_run hline.token hstop
  have hblank : isBlank 32 = true := by decide
  have htext : fieldLine h = h.1 ++ ascii ':' :: 32 :: h.2 := by
    rw [fieldLine, hcolon]
    simp
  rw [htext, matchHeader]
  simp only [hrun, List.drop_left, ne_eq, hline.name_ne, not_false_eq_true, and_self, if_true,
    List.dropWhile_cons_of_pos hblank]

theorem length_trimRight_le (v : List UInt8) : (trimRight v).length ≤ v.length :=
  (List.rdropWhile_prefix isBlank v).length_le

theorem length_seen_le (v : List UInt8) : (seen v).length ≤ v.length :=
  (length_trimRight_le _).trans (List.dropWhile_suffix isBlank).length_le

theorem isHeaderLine_fieldLine {h : Header} (hline : HttpAnswer.IsLine h) (hle : h.2.length ≤ 8192) :
    IsHeaderLine (fieldLine h) where
  no_end := by
    have hname : hasLineEnd h.1 = false := by
      refine hasLineEnd_of_forall (q := isTokenChar) (fun b hb => ?_) hline.token
      constructor
      · rintro rfl
        exact absurd hb (by decide)
      · rintro rfl
        exact absurd hb (by decide)
    have hcolon : hasLineEnd (bytesOf ": ") = false := by decide
    rw [fieldLine, hasLineEnd_append, hasLineEnd_append, hname, hcolon, hline.value_end]
    rfl
  field := ⟨h.1, h.2.dropWhile isBlank, matchHeader_fieldLine hline, (length_seen_le h.2).trans hle⟩

/-- A table has a header exactly if one of its entries has the key. -/
theorem getHeader_eq_none_iff {headers : List (List UInt8 × HeaderValue)} {key : List UInt8} :
    getHeader headers key = none ↔ key ∉ headers.map Prod.fst := by
  rw [getHeader, Option.map_eq_none_iff, List.find?_eq_none]
  simp only [decide_eq_true_eq, List.mem_map, not_exists, not_and]

/-- **Headers with different keys are recorded one by one.** -/
theorem headerTable_fieldLines {order : List Header} (hline : ∀ h ∈ order, HttpAnswer.IsLine h)
    (hkeys : (order.map Header.key).Nodup) :
    headerTable (order.map fieldLine) = order.map fun h => (h.key, .single (seen h.2)) := by
  induction order using List.reverseRecOn with
  | nil => rfl
  | append_singleton order h ih =>
      have hboth := List.forall_mem_append.mp hline
      rw [List.map_append, List.nodup_append] at hkeys
      obtain ⟨hkeys, -, hnew⟩ := hkeys
      have htable := ih hboth.1 hkeys
      rw [headerTable] at htable ⊢
      rw [List.map_append, List.foldl_append, htable, List.map_append]
      simp only [List.map_cons, List.map_nil, List.foldl_cons, List.foldl_nil]
      rw [addLine, matchHeader_fieldLine (hboth.2 h List.mem_cons_self)]
      have hfresh : getHeader (order.map fun h => (h.key, .single (seen h.2))) h.key = none := by
        rw [getHeader_eq_none_iff, List.map_map]
        intro hmem
        exact hnew _ hmem _ List.mem_cons_self rfl
      show addHeaderValue _ h.key (seen h.2) = _
      rw [addHeaderValue, hfresh]

/-- What the server finds under a key. -/
theorem getHeader_fields {order : List Header} (hkeys : (order.map Header.key).Nodup) {h : Header} (hmem : h ∈ order) :
    getHeader (order.map fun h => (h.key, .single (seen h.2))) h.key = some (.single (seen h.2)) := by
  induction order with
  | nil => cases hmem
  | cons x order ih =>
      obtain ⟨hnew, hkeys⟩ := List.nodup_cons.mp hkeys
      by_cases hx : x.key = h.key
      · rcases List.mem_cons.mp hmem with rfl | hmem
        · rw [List.map_cons, getHeader, List.find?_cons_of_pos (by simp)]
          rfl
        · exact absurd (List.mem_map.mpr ⟨h, hmem, hx.symm⟩) hnew
      · rcases List.mem_cons.mp hmem with rfl | hmem
        · exact absurd rfl hx
        · rw [List.map_cons, getHeader, List.find?_cons_of_neg (by simpa using hx)]
          exact ih hkeys hmem

/-! ## The headers of a call -/

section SetField

variable {headers : List Header} {key value : List UInt8} {x : Header}

theorem mem_setField_self : (key, value) ∈ setField headers key value := by
  rw [setField]
  split
  · rename_i hany
    obtain ⟨y, hy, hkey⟩ := List.any_eq_true.mp hany
    exact List.mem_map.mpr ⟨y, hy, if_pos (beq_iff_eq.mp hkey)⟩
  · exact List.mem_append_right _ List.mem_cons_self

theorem eq_or_mem_of_mem_setField (h : x ∈ setField headers key value) : x = (key, value) ∨ x ∈ headers := by
  rw [setField] at h
  split at h
  · obtain ⟨y, hy, rfl⟩ := List.mem_map.mp h
    split
    · exact Or.inl rfl
    · exact Or.inr hy
  · rcases List.mem_append.mp h with hmem | hmem
    · exact Or.inr hmem
    · exact Or.inl (List.mem_singleton.mp hmem)

theorem mem_setField_of_ne (h : x ∈ headers) (hne : x.1 ≠ key) : x ∈ setField headers key value := by
  rw [setField]
  split
  · exact List.mem_map.mpr ⟨x, h, if_neg hne⟩
  · exact List.mem_append_left _ h

end SetField

namespace HttpCall

variable {c : HttpCall} {a : Address}

/-- Where the headers of a request come from. -/
theorem mem_fields {host : List UInt8} {x : Header} (h : x ∈ c.fields host) :
    x ∈ c.headers ∨ x = (bytesOf "Host", host) ∨ x = (bytesOf "Connection", bytesOf "close") ∨
      (c.function.checkBody = true ∧ x = (bytesOf "Content-Length", bytesOf (toString (c.body.getD []).length))) := by
  have hhost : ∀ x, x ∈ (if c.headers.any fun h => h.1 == bytesOf "Host" then c.headers
      else c.headers ++ [(bytesOf "Host", host)]) → x ∈ c.headers ∨ x = (bytesOf "Host", host) := by
    intro x hx
    split at hx
    · exact Or.inl hx
    · simpa using hx
  rw [fields] at h
  split at h
  · rename_i hbody
    rcases eq_or_mem_of_mem_setField h with heq | hmem
    · exact Or.inr (Or.inr (Or.inr ⟨hbody, heq⟩))
    · rcases eq_or_mem_of_mem_setField hmem with heq | hmem
      · exact Or.inr (Or.inr (Or.inl heq))
      · exact (hhost x hmem).imp_right Or.inl
  · rcases eq_or_mem_of_mem_setField h with heq | hmem
    · exact Or.inr (Or.inr (Or.inl heq))
    · exact (hhost x hmem).imp_right Or.inl

theorem connection_mem (c : HttpCall) (host : List UInt8) :
    (bytesOf "Connection", bytesOf "close") ∈ c.fields host := by
  rw [fields]
  split
  · exact mem_setField_of_ne mem_setField_self (by decide)
  · exact mem_setField_self

theorem host_mem (c : HttpCall) (host : List UInt8) : ∃ value, (bytesOf "Host", value) ∈ c.fields host := by
  have hfirst : ∃ value, (bytesOf "Host", value) ∈ (if c.headers.any fun h => h.1 == bytesOf "Host" then c.headers
      else c.headers ++ [(bytesOf "Host", host)]) := by
    split
    · rename_i hany
      obtain ⟨x, hx, hkey⟩ := List.any_eq_true.mp hany
      exact ⟨x.2, by rw [← beq_iff_eq.mp hkey]; exact hx⟩
    · exact ⟨host, List.mem_append_right _ List.mem_cons_self⟩
  obtain ⟨value, hvalue⟩ := hfirst
  have hnames : bytesOf "Host" ≠ bytesOf "Connection" ∧ bytesOf "Host" ≠ bytesOf "Content-Length" := by decide
  refine ⟨value, ?_⟩
  rw [fields]
  split
  · exact mem_setField_of_ne (mem_setField_of_ne hvalue hnames.1) hnames.2
  · exact mem_setField_of_ne hvalue hnames.1

theorem length_mem (hbody : c.function.checkBody = true) (host : List UInt8) :
    (bytesOf "Content-Length", bytesOf (toString (c.body.getD []).length)) ∈ c.fields host := by
  rw [fields, if_pos hbody]
  exact mem_setField_self

set_option maxRecDepth 4000 in
theorem names_tokens : (∀ b ∈ bytesOf "Host", isTokenChar b = true) ∧
    (∀ b ∈ bytesOf "Connection", isTokenChar b = true) ∧ ∀ b ∈ bytesOf "Content-Length", isTokenChar b = true := by
  decide

/-- The body of a call that can be asked is empty. -/
theorem Askable.length_zero (h : c.Askable a) (hbody : c.function.checkBody = true) : (c.body.getD []).length = 0 := by
  have hnil := h.body
  rw [sentBody, if_pos hbody] at hnil
  rw [hnil]
  rfl

/-- All headers make lines. -/
theorem Askable.isLine (h : c.Askable a) {x : Header} (hx : x ∈ c.fields a.host) :
    HttpAnswer.IsLine x ∧ x.2.length ≤ 8192 := by
  rcases mem_fields hx with hmem | rfl | rfl | ⟨hbody, rfl⟩
  · exact h.headers x hmem
  · exact ⟨⟨List.cons_ne_nil _ _, names_tokens.1, h.host_end⟩, h.host_le⟩
  · exact ⟨⟨by decide, names_tokens.2.1, by decide⟩, by decide⟩
  · rw [h.length_zero hbody]
    exact ⟨⟨by decide, names_tokens.2.2, by decide⟩, by decide⟩

/-- No header of the caller says where the body ends. -/
theorem Askable.eq_length (h : c.Askable a) {x : Header} (hx : x ∈ c.fields a.host)
    (hkey : x.key = bytesOf "content-length") :
    c.function.checkBody = true ∧ x = (bytesOf "Content-Length", bytesOf (toString (c.body.getD []).length)) := by
  rcases mem_fields hx with hmem | rfl | rfl | hlength
  · exact absurd hkey (h.length x hmem)
  · exact absurd hkey (by simp only [Header.key]; decide)
  · exact absurd hkey (by simp only [Header.key]; decide)
  · exact hlength

/-! ## The request -/

/-- The request line. -/
def line (c : HttpCall) (path : List UInt8) : List UInt8 :=
  c.function.method ++ bytesOf " " ++ path ++ bytesOf " HTTP/1.1"

set_option maxRecDepth 4000 in
theorem method_upper (f : HttpFunction) : f.method ≠ [] ∧ ∀ b ∈ f.method, isUpper b = true := by
  cases f <;> decide

/-- The path that is asked for. -/
theorem Askable.path (h : c.Askable a) : a.target.path ≠ [] ∧ a.target.path.length ≤ 2048 ∧
    ∀ b ∈ a.target.path, b ≠ 32 ∧ b ≠ cr ∧ b ≠ lf := by
  simp only [Address.target]
  split
  · exact ⟨List.cons_ne_nil _ _, by simp, by simp; decide⟩
  · rename_i hne
    exact ⟨hne, h.path_le, h.path_end⟩

theorem matchRequestLine_line {path : List UInt8} (hne : path ≠ []) (hpath : ∀ b ∈ path, b ≠ 32) :
    matchRequestLine (c.line path) = some (c.function.method, path, bytesOf "1.1") := by
  obtain ⟨hmethod, hupper⟩ := method_upper c.function
  have hblank : bytesOf " " = [32] := by decide
  have htail : bytesOf " HTTP/1.1" = 32 :: bytesOf "HTTP/1.1" := by decide
  have hline : c.line path = c.function.method ++ (32 :: (path ++ 32 :: bytesOf "HTTP/1.1")) := by
    rw [line, hblank, htail]
    simp
  have hrun : (c.function.method ++ (32 :: (path ++ 32 :: bytesOf "HTTP/1.1"))).takeWhile isUpper = c.function.method := by
    refine LuaPattern.takeWhile_run hupper fun b hb => ?_
    cases hb
    decide
  have hdrop : (c.function.method ++ (32 :: (path ++ 32 :: bytesOf "HTTP/1.1"))).drop (c.function.method.length + 1)
      = path ++ 32 :: bytesOf "HTTP/1.1" := by
    rw [List.drop_length_add_append]
    rfl
  have hrun' : (path ++ 32 :: bytesOf "HTTP/1.1").takeWhile (fun b => decide (b ≠ 32)) = path := by
    refine LuaPattern.takeWhile_run (fun b hb => decide_eq_true (hpath b hb)) fun b hb => ?_
    cases hb
    decide
  have hversion : (32 :: bytesOf "HTTP/1.1").take 6 = bytesOf " HTTP/" ∧ (32 :: bytesOf "HTTP/1.1").drop 6 = bytesOf "1.1"
      ∧ isVersion (bytesOf "1.1") = true := by decide
  have hget : (c.function.method ++ (32 :: (path ++ 32 :: bytesOf "HTTP/1.1"))).getD c.function.method.length 0 = 32 := by
    simp [List.getD]
  rw [hline, matchRequestLine]
  simp only [hrun, hdrop, hrun', List.drop_left, hversion, hget]
  rw [if_pos ⟨hmethod, trivial, hne, trivial, trivial⟩]

theorem Askable.line_end (h : c.Askable a) : hasLineEnd (c.line a.target.path) = false := by
  have hmethod : hasLineEnd c.function.method = false := by
    refine hasLineEnd_of_forall (q := isUpper) (fun b hb => ?_) (method_upper c.function).2
    constructor
    · rintro rfl
      exact absurd hb (by decide)
    · rintro rfl
      exact absurd hb (by decide)
  have hpath : hasLineEnd a.target.path = false := by
    rw [hasLineEnd, List.any_eq_false]
    intro b hb
    obtain ⟨-, hcr, hlf⟩ := h.path.2.2 b hb
    simp [hcr, hlf]
  have hblank : hasLineEnd (bytesOf " ") = false := by decide
  have htail : hasLineEnd (bytesOf " HTTP/1.1") = false := by decide
  rw [line, hasLineEnd_append, hasLineEnd_append, hasLineEnd_append, hmethod, hblank, hpath, htail]
  rfl

section Order

variable {order : List Header} (h : c.Askable a) (hperm : order.Perm (c.fields a.host))

include h hperm

theorem nodup_order : (order.map Header.key).Nodup := (hperm.map Header.key).nodup_iff.mpr h.keys

/-- **The headers that the server has read.** -/
theorem table_order : headerTable (order.map fieldLine) = order.map fun x => (x.key, .single (seen x.2)) :=
  headerTable_fieldLines (fun _ hx => (h.isLine (hperm.subset hx)).1) (nodup_order h hperm)

/-- Under the key of a header the server finds its value. -/
theorem getHeader_order {x : Header} (hx : x ∈ c.fields a.host) :
    getHeader (headerTable (order.map fieldLine)) x.key = some (.single (seen x.2)) := by
  rw [table_order h hperm]
  exact getHeader_fields (nodup_order h hperm) (hperm.symm.subset hx)

/-- Under other keys it finds nothing. -/
theorem getHeader_order_none {key : List UInt8} (hkey : ∀ x ∈ c.fields a.host, x.key ≠ key) :
    getHeader (headerTable (order.map fieldLine)) key = none := by
  rw [table_order h hperm, getHeader_eq_none_iff, List.map_map]
  intro hmem
  obtain ⟨x, hx, heq⟩ := List.mem_map.mp hmem
  exact hkey x (hperm.subset hx) heq

theorem header_order : ∀ l ∈ order.map fieldLine, IsHeaderLine l := by
  intro l hl
  obtain ⟨x, hx, rfl⟩ := List.mem_map.mp hl
  obtain ⟨hline, hle⟩ := h.isLine (hperm.subset hx)
  exact isHeaderLine_fieldLine hline hle

theorem host_order : getHeader (headerTable (order.map fieldLine)) (bytesOf "host") ≠ none := by
  obtain ⟨value, hvalue⟩ := c.host_mem a.host
  have hkey : bytesOf "host" = Header.key (bytesOf "Host", value) := by
    show bytesOf "host" = (bytesOf "Host").map toLower
    decide
  rw [hkey, getHeader_order h hperm hvalue]
  exact Option.some_ne_none _

theorem length_order : match getHeader (headerTable (order.map fieldLine)) (bytesOf "content-length") with
    | none => ([] : List UInt8) = []
    | some (.single text) =>
        text ≠ [] ∧ text.all isDigit = true ∧ digitsValue 10 text = ([] : List UInt8).length
    | some (.many _) => False := by
  have hkey : bytesOf "content-length" = Header.key (bytesOf "Content-Length", bytesOf (toString 0)) := by decide
  by_cases hbody : c.function.checkBody = true
  · have hmem := length_mem hbody a.host
    rw [h.length_zero hbody] at hmem
    rw [hkey, getHeader_order h hperm hmem]
    decide
  · rw [getHeader_order_none h hperm]
    intro x hx heq
    exact hbody (h.eq_length hx heq).1

end Order

/-- The call as a request that the server reads. -/
def Askable.request (h : c.Askable a) {order : List Header} (hperm : order.Perm (c.fields a.host)) : Request where
  line := c.line a.target.path
  method := c.function.method
  target := a.target.path
  headers := order.map fieldLine
  body := []
  line_eq := matchRequestLine_line h.path.1 fun b hb => (h.path.2.2 b hb).1
  line_end := h.line_end
  target_le := h.path.2.1
  header := header_order h hperm
  host := host_order h hperm
  length := length_order h hperm

/-- It is what is sent. -/
theorem Askable.bytes_request (h : c.Askable a) {order : List Header} (hperm : order.Perm (c.fields a.host)) :
    (h.request hperm).bytes = c.sent a.target.path order := by
  have hcrlf : crlf = [cr, lf] := by decide
  have hfields : terminated cr lf (order.map fieldLine) = order.flatMap fieldText := by
    rw [terminated, List.flatMap_map]
    congr 1
  have hlines : (h.request hperm).lines = c.line a.target.path :: (order.map fieldLine ++ [[]]) := rfl
  have hbody : (h.request hperm).body = [] := rfl
  rw [Request.bytes, hlines, hbody, terminated_cons, terminated_append, hfields, sent, h.body, line, hcrlf]
  simp [terminated]

/-- It ends the connection. -/
theorem Askable.closes (h : c.Askable a) {order : List Header} (hperm : order.Perm (c.fields a.host)) :
    shouldKeepAlive (h.request hperm).served = some false := by
  obtain ⟨version, hversion, hle, -⟩ := @versionNumber_oneOne (h.request hperm).served rfl
  have hkey : bytesOf "connection" = Header.key (bytesOf "Connection", bytesOf "close") := by decide
  have hconnection : getHeader (h.request hperm).served.headers (bytesOf "connection")
      = some (.single (seen (bytesOf "close"))) := by
    rw [hkey]
    exact getHeader_order h hperm (c.connection_mem a.host)
  have hclose : (seen (bytesOf "close")).map toLower = bytesOf "close" := by decide
  rw [shouldKeepAlive, hversion, hconnection]
  simp only [hle, if_true, hclose]
  rfl

end HttpCall

/-! ## The service -/

/-- **One request is one call of the service**, if it does not come in pieces of lines. -/
theorem framed_single {σ : Type} (config : HttpdConfig) (z : Zlib σ) (limit : LuaNumber)
    (handler : ℕ → Context → Handling) {q : Request} (hbody : q.body = []) {chunks : List (List UInt8)}
    (hbytes : chunks.flatten = q.bytes) :
    Framed config z limit handler [q] chunks ↔ ∀ k ∈ chunks, EndsLine k := by
  have hstep : (KeepRun.start chunks).step config z limit handler =
      ⟨⟨some Context.new, (TcpRead.new.receive 1).2⟩, chunks, .parked, []⟩ := rfl
  have hwait : KeepRun.At ((KeepRun.start chunks).step config z limit handler) Context.new [] := by
    rw [hstep]
    exact Or.inr ⟨rfl, rfl, rfl, rfl, rfl, rfl, rfl, rfl, newTape [], new_represents [], rfl⟩
  have hsent : [] ++ ((KeepRun.start chunks).step config z limit handler).chunks.flatten =
      terminated cr lf q.lines ++ (q.body ++ wire []) := by
    rw [hstep, List.nil_append, wire_nil, List.append_nil]
    exact hbytes
  have hiff := hwait.settles_iff config z limit handler _ .start hsent (Nat.lt_succ_self _)
  rw [hstep] at hiff
  rw [Framed, ← Run.settles_step_iff, hstep]
  refine hiff.trans ?_
  rw [InStep, EndsLines]
  simp only [List.forall_mem_singleton, hbody, true_and, AllContinue, and_true, EndsLine, true_or]

set_option maxRecDepth 4000 in
theorem pageAddress_digits : ∀ digits, some (bytesOf "8080") = some digits →
    digits ≠ [] ∧ ∀ b ∈ digits, isDigit b = true := by
  rintro _ ⟨⟩
  decide

theorem pageAddress_slash : bytesOf "/p?x=1" = [] ∨ (bytesOf "/p?x=1").head? = some (ascii '/') :=
  Or.inr rfl

theorem pageAddress_texts : bytesOf "http" ≠ [] ∧ ascii ':' ∉ bytesOf "http" ∧ bytesOf "a" ≠ [] ∧
    ascii ':' ∉ bytesOf "a" ∧ ascii '/' ∉ bytesOf "a" := by
  decide

/-- `http://a:8080/p?x=1`. -/
def pageAddress : Address where
  schema := bytesOf "http"
  host := bytesOf "a"
  port := some (bytesOf "8080")
  path := bytesOf "/p?x=1"
  schema_ne := pageAddress_texts.1
  schema_colon := pageAddress_texts.2.1
  host_ne := pageAddress_texts.2.2.1
  host_colon := pageAddress_texts.2.2.2.1
  host_slash := pageAddress_texts.2.2.2.2
  port_digits := pageAddress_digits
  path_slash := pageAddress_slash

/-- A call of `get` with one header. -/
def pageCall : HttpCall := ⟨.get, [(bytesOf "X-A", bytesOf "1")], none⟩

set_option maxRecDepth 4000 in
theorem pageCall_fields : pageCall.fields pageAddress.host =
    [(bytesOf "X-A", bytesOf "1"), (bytesOf "Host", bytesOf "a"), (bytesOf "Connection", bytesOf "close")] := by
  decide

set_option maxRecDepth 4000 in
theorem pageCall_askable : pageCall.Askable pageAddress where
  dialled := by
    refine ⟨?_, fun h => by cases h⟩
    rintro _ ⟨⟩
    decide
  path_end := by decide
  path_le := by decide
  host_end := by decide
  host_le := by decide
  headers := by
    intro h hh
    rw [List.mem_singleton.mp hh]
    exact ⟨⟨by decide, by decide, by decide⟩, by decide⟩
  keys := by
    rw [pageCall_fields]
    decide
  length := by decide
  body := rfl

/-- **A call returns what the handler tells**: whatever answer the handler gives to the context that the
service is called with, the client that sent the request returns its code, message, headers and
body (neither code nor message where the message is empty). -/
theorem call_answered (config : HttpdConfig) {σ : Type} (z : Zlib σ) {c : HttpCall} {a : Address} (h : c.Askable a)
    (hplain : ∀ x ∈ c.headers, x.key ≠ bytesOf "accept-encoding") {order : List Header}
    (hperm : order.Perm (c.fields a.host)) {es : List ReplyContext.Event} {answer : HttpAnswer}
    (htold : told es = some answer) (hw : answer.Writable) :
    ∃ q : Request, q.bytes = c.sent a.target.path order ∧
      (∀ limit handler chunks, chunks.flatten = q.bytes → (∀ k ∈ chunks, EndsLine k) →
        Framed config z limit handler [q] chunks) ∧
      ∃ (s : ReplyContext σ) (p : HttpResponse), run (ReplyContext.step config z) (.ofContext q.served) es = some s ∧
        p.bytes = s.sent.flatMap Piece.bytes ∧
        ∀ chunks message, chunks.flatten = s.sent.flatMap Piece.bytes → p.Uncut chunks →
          (ClientRun.start chunks message).Returns (answer.ret q.served) := by
  have hnone : getHeader (h.request hperm).served.headers (bytesOf "accept-encoding") = none := by
    have hnames : (bytesOf "Host").map toLower ≠ bytesOf "accept-encoding" ∧
        (bytesOf "Connection").map toLower ≠ bytesOf "accept-encoding" ∧
        (bytesOf "Content-Length").map toLower ≠ bytesOf "accept-encoding" := by decide
    refine HttpCall.getHeader_order_none h hperm fun x hx => ?_
    rcases HttpCall.mem_fields hx with hmem | rfl | rfl | ⟨-, rfl⟩
    · exact hplain x hmem
    · exact hnames.1
    · exact hnames.2.1
    · exact hnames.2.2
  have hctx : Answerable (h.request hperm).served :=
    ⟨rfl, rfl, (h.request hperm).contentLengthRaises_served, ⟨false, h.closes hperm⟩, hnone⟩
  obtain ⟨s, hrun, hsent⟩ := ReplyContext.run_told config z hctx ReplyContext.prepared_ofContext
    hctx.replyStatus htold hw.headers
  obtain ⟨p, hbytes, hret, hknown⟩ := HttpAnswer.exists_response hw hsent
  refine ⟨h.request hperm, h.bytes_request hperm, ?_, s, p, hrun, hbytes, ?_⟩
  · intro limit handler chunks hflat hends
    exact (framed_single config z limit handler rfl hflat).mpr hends
  · intro chunks message hflat huncut
    rw [← hret]
    exact ClientRun.returns_expected message (hflat.trans hbytes.symm) hknown huncut

set_option maxRecDepth 4000 in
theorem call_answered_greeting : pageCall.Askable pageAddress ∧
    ∃ q : Request, q.bytes = pageCall.sent (bytesOf "/p?x=1") (pageCall.fields (bytesOf "a")) ∧
      ∃ s : ReplyContext Unit, run (ReplyContext.step {} noZlib) (.ofContext q.served) greeting = some s ∧
        ((s.sent.flatMap Piece.bytes).length + 1 < 2 ^ 32 → ∀ message,
          (ClientRun.start [s.sent.flatMap Piece.bytes] message).Returns (HttpAnswer.ret q.served
            ⟨200, bytesOf "OK", [(bytesOf "X-A", bytesOf "1")], true, bytesOf "hello"⟩)) := by
  have htold : told greeting
      = some ⟨200, bytesOf "OK", [(bytesOf "X-A", bytesOf "1")], true, bytesOf "hello"⟩ := rfl
  have hw : HttpAnswer.Writable
      ⟨200, bytesOf "OK", [(bytesOf "X-A", bytesOf "1")], true, bytesOf "hello"⟩ := by
    refine ⟨by decide, by decide, ?_, by decide⟩
    intro x hx
    rw [List.mem_singleton.mp hx]
    exact ⟨⟨by decide, by decide, by decide⟩, by decide⟩
  obtain ⟨q, hq, -, s, p, hrun, hbytes, hreturns⟩ :=
    call_answered {} noZlib pageCall_askable (by decide) (List.Perm.refl _) htold hw
  refine ⟨pageCall_askable, q, hq, s, hrun, fun hshort message => ?_⟩
  refine hreturns _ message (by simp) ⟨?_, ?_⟩
  · rw [← hbytes, ← HttpResponse.spell_segments]
    exact aligned_single p.segments
  · intro c hc
    rw [List.mem_singleton.mp hc]
    exact hshort

end LuaFan
