/-
# The address of a request (`modules/fan/http/http.lua`, `modules/fan/connector/init.lua`)

`request` takes its URL apart with two patterns: the first looks for a port, and only if it finds
none does the second look for a host alone.  Neither is anchored, and nothing keeps the first from
finding its port in the path.  The connector is given `tcp://host:port` and takes that apart again.

`dial_exact`: a URL leads to its own host, port and path **exactly if** its port is an integer, or,
if it names none, its path does not look as if it did.
-/
import LuaFan.Lib.LuaPattern
import LuaFan.Lib.Decimal
import LuaFan.Http.Response

namespace LuaFan

open Fp LuaPattern

/-! ## The code -/

/-- The local `port` of `request`: a string of digits, or the number its scheme implies. -/
inductive UrlPort where
  | digits (text : List UInt8)
  | implied (port : ℕ)
  deriving DecidableEq, Repr

/-- The locals `schema`, `host`, `port` and `path` of `request`. -/
structure UrlParts where
  schema : List UInt8
  host : List UInt8
  port : UrlPort
  path : List UInt8
  deriving DecidableEq, Repr

def portPattern : List UInt8 := bytesOf "([^:]+)://([^:]+):(%d+)(.*)"

def hostPattern : List UInt8 := bytesOf "([^:]+)://([^:/]+)(.*)"

/-- The port without one in the URL. -/
def impliedPort (schema : List UInt8) : ℕ := if schema = bytesOf "https" then 443 else 80

/-- The two calls of `string.find` at the head of `request`. -/
def splitUrl (url : List UInt8) : Except PatternError (Option UrlParts) := do
  match ← strMatch url portPattern with
  | some [.text schema, .text host, .text port, .text path] => return some ⟨schema, host, .digits port, path⟩
  | _ =>
      match ← strMatch url hostPattern with
      | some [.text schema, .text host, .text path] =>
          return some ⟨schema, host, .implied (impliedPort schema), path⟩
      | _ => return none

/-- `%d` for the port.  A string of digits that is no integer is a float too large to be one, which is
an error. -/
def UrlPort.format : UrlPort → Option (List UInt8)
  | .digits text =>
      match str2num text with
      | some (.integer n) => some (bytesOf (toString n.toInt))
      | _ => none
  | .implied port => some (bytesOf (toString port))

/-- What `extract_url` returns. -/
structure ExtractedUrl where
  scheme : Option (List UInt8)
  host : Option (List UInt8)
  port : Option (List UInt8)
  path : Option (List UInt8)
  deriving DecidableEq, Repr

/-- `extract_url` of the connector. -/
def extractUrl (url : List UInt8) : Except PatternError ExtractedUrl := do
  match ← strMatch url (bytesOf "^(%w+):([/]?[/]?)(.*)") with
  | some [.text scheme, .text twoslash, .text others] =>
      if twoslash.length = 2 then
        match ← strMatch others (bytesOf "([^/]*)(.*)") with
        | some [.text server, .text path] =>
            if server ≠ [] then
              match ← strMatch server (bytesOf "^([^:]+):(%d+)$") with
              | some [.text host, .text port] => return ⟨some scheme, some host, some port, some path⟩
              | _ => return ⟨some scheme, none, none, some path⟩
            else return ⟨some scheme, none, none, some path⟩
        | _ => return ⟨some scheme, none, none, none⟩
      else return ⟨some scheme, none, none, some (twoslash ++ others)⟩
  | _ => return ⟨none, none, none, some []⟩

/-- Where `request` connects to and what it asks for there. -/
structure Dial where
  host : List UInt8
  port : List UInt8
  path : List UInt8
  deriving DecidableEq, Repr

/-- `request` up to `connector.connect`: without a host, `#path` or the connection is an error. -/
def dial (url : List UInt8) : Option Dial :=
  match splitUrl url with
  | .ok (some parts) =>
      match parts.port.format with
      | some port =>
          match extractUrl (bytesOf "tcp://" ++ parts.host ++ ascii ':' :: port) with
          | .ok ⟨_, some host, some port, _⟩ => some ⟨host, port, if parts.path = [] then [ascii '/'] else parts.path⟩
          | _ => none
      | none => none
  | _ => none

/-! ## Addresses -/

/-- The parts of a URL as they are meant. -/
structure Address where
  schema : List UInt8
  host : List UInt8
  port : Option (List UInt8)
  path : List UInt8
  schema_ne : schema ≠ []
  schema_colon : ascii ':' ∉ schema
  host_ne : host ≠ []
  host_colon : ascii ':' ∉ host
  host_slash : ascii '/' ∉ host
  port_digits : ∀ digits, port = some digits → digits ≠ [] ∧ ∀ b ∈ digits, isDigit b = true
  path_slash : path = [] ∨ path.head? = some (ascii '/')

namespace Address

/-- The URL. -/
def text (a : Address) : List UInt8 :=
  a.schema ++ bytesOf "://" ++ a.host ++ (match a.port with
    | some digits => ascii ':' :: digits
    | none => []) ++ a.path

/-- The number of the port. -/
def number (a : Address) : ℕ :=
  match a.port with
  | some digits => digitsValue 10 digits
  | none => impliedPort a.schema

/-- Where the URL should lead. -/
def target (a : Address) : Dial :=
  ⟨a.host, bytesOf (toString a.number), if a.path = [] then [ascii '/'] else a.path⟩

end Address

/-- A text, a colon and a digit: what stands behind `://` if a port is named. -/
def PortBehind (t : List UInt8) : Prop :=
  ∃ host d rest, t = host ++ ascii ':' :: d :: rest ∧ host ≠ [] ∧ ascii ':' ∉ host ∧ isDigit d = true

/-- Somewhere in the text, behind some byte, stands `://` with a port behind it. -/
def PortInside (t : List UInt8) : Prop :=
  ∃ before b behind, t = before ++ b :: bytesOf "://" ++ behind ∧ b ≠ ascii ':' ∧ PortBehind behind

/-! ## The patterns -/

/-- The class of `[^:]`. -/
def notColon (b : UInt8) : Bool := !(ascii ':' == b)

theorem single_notColon : single (bytesOf "[^:]") = notColon := by
  have hset : bytesOf "[^:]" = [91, 94, 58, 93] := by decide
  rw [hset]
  rfl

theorem isItem_notColon : IsItem (bytesOf "[^:]") := by
  have hset : bytesOf "[^:]" = [91, 94, 58, 93] := by decide
  rw [hset]
  exact ⟨fun p => rfl, 91, _, rfl, by decide, by decide, fun h => absurd h (by decide)⟩

theorem single_digit : single (bytesOf "%d") = isDigit := by
  funext b
  show (isDigit b || false) = isDigit b
  exact Bool.or_false _

theorem isItem_digit : IsItem (bytesOf "%d") :=
  @isItem_escaped (ascii 'd') (by decide) (by decide) (by decide)

/-- What `portPattern` captures at the front of a text. -/
def portAt (t : List UInt8) : Option (List (List UInt8)) :=
  let schema := t.takeWhile notColon
  let n := schema.length
  let host := (t.drop (n + 3)).takeWhile notColon
  let m := host.length
  let port := (t.drop (n + (3 + (m + 1)))).takeWhile isDigit
  if (schema ≠ [] ∧ (t.drop n).head? = some (ascii ':')) ∧ (t.drop (n + 1)).head? = some (ascii '/') ∧
      (t.drop (n + 2)).head? = some (ascii '/') ∧
      (host ≠ [] ∧ (t.drop (n + (3 + m))).head? = some (ascii ':')) ∧ port ≠ [] then
    some [schema, host, port, t.drop (n + (3 + (m + (1 + port.length))))]
  else none

/-- **`portPattern` at a place of a text.** -/
theorem attempt_portPattern (src : List UInt8) {s : ℕ} (hs : s ≤ src.length) :
    (portAt (src.drop s) = none ∧ attempt src portPattern s = .ok none) ∨
      ∃ values e caps, portAt (src.drop s) = some values ∧ attempt src portPattern s = .ok (some (e, caps)) ∧
        captureValues src s e caps = .ok (values.map .text) := by
  have hpattern : portPattern = ascii '(' :: (bytesOf "[^:]" ++ ascii '+' :: ascii ')' :: ([ascii ':'] ++
      ([ascii '/'] ++ ([ascii '/'] ++ (ascii '(' :: (bytesOf "[^:]" ++ ascii '+' :: ascii ')' :: ([ascii ':'] ++
        (ascii '(' :: (bytesOf "%d" ++ ascii '+' :: ascii ')' ::
          ascii '(' :: ([ascii '.'] ++ ascii '*' :: [ascii ')'])))))))))) := by decide
  have hslash : ∀ o : Option UInt8, (o.any (single [ascii '/']) = true) = (o = some (ascii '/')) :=
    any_single (by decide)
  have hdrop : ∀ k, src.drop (s + k) = (src.drop s).drop k := fun k => by rw [List.drop_drop]
  rw [attempt, hpattern]
  show _ ∧ matchHere src 28 199 _ s [] = _ ∨ ∃ values e caps, _ ∧ matchHere src 28 199 _ s [] = _ ∧ _
  rw [matchHere_captureRun isItem_notColon (by decide) (by decide) (by decide) (by decide) (by simp [maxCaptures]),
    single_notColon, matchHere_once (isItem_byte (by decide)) (by decide) (by decide),
    matchHere_once (isItem_byte (by decide)) (by decide) (by decide),
    matchHere_captureRun isItem_notColon (by decide) (by decide) (by decide) (by decide) (by simp [maxCaptures]),
    single_notColon, matchHere_captureLongest isItem_digit (by simp [maxCaptures])
      (fun e => captureRest_ne_none (by simp [maxCaptures])), single_digit]
  simp only [hslash, Nat.add_assoc, hdrop, Nat.reduceAdd, ← ite_and]
  unfold portAt
  split
  · rename_i hall
    refine Or.inr ⟨_, _, _, if_pos hall, matchHere_captureRest ?_ (by simp [maxCaptures]), ?_⟩
    · have hport := run_le hall.2.2.2.2
      rw [List.length_drop] at hport
      simp only [Nat.add_assoc] at hport
      omega
    · -- the last capture is the rest of the text
      refine (captureValues_closed _ _ _ [(_, _), (_, _), (_, _), (_, _)] (List.cons_ne_nil _ _)).trans ?_
      simp only [List.reverse_cons, List.reverse_nil, List.nil_append, List.cons_append, List.map_cons,
        List.map_nil, hdrop, take_run]
      rw [← List.length_drop, hdrop, List.take_length]
  · rename_i hall
    exact Or.inl ⟨if_neg hall, rfl⟩

/-- The class of `[^:/]`. -/
def notEnd (b : UInt8) : Bool := !(ascii ':' == b || ascii '/' == b)

theorem single_notEnd : single (bytesOf "[^:/]") = notEnd := by
  have hset : bytesOf "[^:/]" = [91, 94, 58, 47, 93] := by decide
  rw [hset]
  rfl

theorem isItem_notEnd : IsItem (bytesOf "[^:/]") := by
  have hset : bytesOf "[^:/]" = [91, 94, 58, 47, 93] := by decide
  rw [hset]
  exact ⟨fun p => rfl, 91, _, rfl, by decide, by decide, fun h => absurd h (by decide)⟩

/-- What `hostPattern` captures at the front of a text. -/
def hostAt (t : List UInt8) : Option (List (List UInt8)) :=
  let schema := t.takeWhile notColon
  let n := schema.length
  let host := (t.drop (n + 3)).takeWhile notEnd
  if (schema ≠ [] ∧ (t.drop n).head? = some (ascii ':')) ∧ (t.drop (n + 1)).head? = some (ascii '/') ∧
      (t.drop (n + 2)).head? = some (ascii '/') ∧ host ≠ [] then
    some [schema, host, t.drop (n + (3 + host.length))]
  else none

/-- `hostPattern` at a place of a text. -/
theorem attempt_hostPattern (src : List UInt8) {s : ℕ} (hs : s ≤ src.length) :
    (hostAt (src.drop s) = none ∧ attempt src hostPattern s = .ok none) ∨
      ∃ values e caps, hostAt (src.drop s) = some values ∧ attempt src hostPattern s = .ok (some (e, caps)) ∧
        captureValues src s e caps = .ok (values.map .text) := by
  have hpattern : hostPattern = ascii '(' :: (bytesOf "[^:]" ++ ascii '+' :: ascii ')' :: ([ascii ':'] ++
      ([ascii '/'] ++ ([ascii '/'] ++ (ascii '(' :: (bytesOf "[^:/]" ++ ascii '+' :: ascii ')' ::
        ascii '(' :: ([ascii '.'] ++ ascii '*' :: [ascii ')']))))))) := by decide
  have hslash : ∀ o : Option UInt8, (o.any (single [ascii '/']) = true) = (o = some (ascii '/')) :=
    any_single (by decide)
  have hdrop : ∀ k, src.drop (s + k) = (src.drop s).drop k := fun k => by rw [List.drop_drop]
  rw [attempt, hpattern]
  show _ ∧ matchHere src 23 199 _ s [] = _ ∨ ∃ values e caps, _ ∧ matchHere src 23 199 _ s [] = _ ∧ _
  rw [matchHere_captureRun isItem_notColon (by decide) (by decide) (by decide) (by decide) (by simp [maxCaptures]),
    single_notColon, matchHere_once (isItem_byte (by decide)) (by decide) (by decide),
    matchHere_once (isItem_byte (by decide)) (by decide) (by decide),
    matchHere_captureLongest isItem_notEnd (by simp [maxCaptures])
      (fun e => captureRest_ne_none (by simp [maxCaptures])), single_notEnd]
  simp only [hslash, Nat.add_assoc, hdrop, Nat.reduceAdd, ← ite_and]
  unfold hostAt
  split
  · rename_i hall
    refine Or.inr ⟨_, _, _, if_pos hall, matchHere_captureRest ?_ (by simp [maxCaptures]), ?_⟩
    · have hhost := run_le hall.2.2.2
      rw [List.length_drop] at hhost
      simp only [Nat.add_assoc] at hhost
      omega
    · refine (captureValues_closed _ _ _ [(_, _), (_, _), (_, _)] (List.cons_ne_nil _ _)).trans ?_
      simp only [List.reverse_cons, List.reverse_nil, List.nil_append, List.cons_append, List.map_cons,
        List.map_nil, hdrop, take_run]
      rw [← List.length_drop, hdrop, List.take_length]
  · rename_i hall
    exact Or.inl ⟨if_neg hall, rfl⟩

theorem strMatch_portPattern (url : List UInt8) :
    strMatch url portPattern = .ok ((url.tails.findSome? portAt).map fun values => values.map .text) :=
  strMatch_tails (by decide) fun _ hs => attempt_portPattern url hs

theorem strMatch_hostPattern (url : List UInt8) :
    strMatch url hostPattern = .ok ((url.tails.findSome? hostAt).map fun values => values.map .text) :=
  strMatch_tails (by decide) fun _ hs => attempt_hostPattern url hs

/-! ## What they find -/

theorem notColon_iff (x : List UInt8) : (∀ b ∈ x, notColon b = true) ↔ ascii ':' ∉ x := by
  simp only [notColon, Bool.not_eq_true', beq_eq_false_iff_ne, ne_eq]
  exact ⟨fun h hmem => h _ hmem rfl, fun h b hb heq => h (heq ▸ hb)⟩

/-- `portPattern` on the parts of a URL. -/
theorem portAt_parts {schema host port path : List UInt8} (hschema : schema ≠ []) (hcolon : ascii ':' ∉ schema)
    (hhost : host ≠ []) (hcolon' : ascii ':' ∉ host) (hport : port ≠ []) (hdigits : ∀ b ∈ port, isDigit b = true)
    (hpath : ∀ b, path.head? = some b → isDigit b = false) :
    portAt (schema ++ bytesOf "://" ++ host ++ ascii ':' :: (port ++ path)) = some [schema, host, port, path] := by
  have hsep : bytesOf "://" = [ascii ':', ascii '/', ascii '/'] := by decide
  have hstop : ∀ (r : List UInt8) (b : UInt8), (ascii ':' :: r).head? = some b → notColon b = false := by
    rintro r b heq
    cases heq
    decide
  rw [hsep]
  have h₁ : (schema ++ [ascii ':', ascii '/', ascii '/'] ++ host ++ ascii ':' :: (port ++ path)).takeWhile notColon
      = schema := by
    rw [List.append_assoc, List.append_assoc]
    exact takeWhile_run ((notColon_iff schema).mpr hcolon) (hstop _)
  have hdrop : ∀ k, (schema ++ [ascii ':', ascii '/', ascii '/'] ++ host ++ ascii ':' :: (port ++ path)).drop
      (schema.length + k) = ([ascii ':', ascii '/', ascii '/'] ++ (host ++ ascii ':' :: (port ++ path))).drop k := by
    intro k
    rw [List.append_assoc, List.append_assoc, List.drop_length_add_append]
  have hdrop' : ∀ k, ([ascii ':', ascii '/', ascii '/'] ++ (host ++ ascii ':' :: (port ++ path))).drop
      (3 + (host.length + k)) = (ascii ':' :: (port ++ path)).drop k := by
    intro k
    rw [show (3 : ℕ) = [ascii ':', ascii '/', ascii '/'].length from rfl, List.drop_length_add_append,
      List.drop_length_add_append]
  have h₂ : (host ++ ascii ':' :: (port ++ path)).takeWhile notColon = host :=
    takeWhile_run ((notColon_iff host).mpr hcolon') (hstop _)
  have h₃ : (port ++ path).takeWhile isDigit = port := takeWhile_run hdigits hpath
  have hzero := hdrop 0
  have hhead := hdrop' 0
  have hthree : ([ascii ':', ascii '/', ascii '/'] ++ (host ++ ascii ':' :: (port ++ path))).drop 3
      = host ++ ascii ':' :: (port ++ path) := rfl
  rw [Nat.add_zero] at hzero hhead
  simp only [portAt, h₁, hzero, hdrop, hthree, h₂, hdrop', hhead, List.drop_succ_cons, List.drop_zero, h₃]
  rw [if_pos]
  · rw [Nat.add_comm 1, List.drop_succ_cons, List.drop_left]
  · exact ⟨⟨hschema, rfl⟩, rfl, rfl, ⟨hhost, rfl⟩, hport⟩

/-- **What `portPattern` finds is a port behind `://`**. -/
theorem parts_of_portAt {t : List UInt8} {values : List (List UInt8)} (h : portAt t = some values) :
    ∃ schema host port path, values = [schema, host, port, path] ∧ schema ≠ [] ∧ ascii ':' ∉ schema ∧
      host ≠ [] ∧ ascii ':' ∉ host ∧ port ≠ [] ∧ (∀ b ∈ port, isDigit b = true) ∧
      t = schema ++ bytesOf "://" ++ host ++ ascii ':' :: (port ++ path) := by
  have hsep : bytesOf "://" = [ascii ':', ascii '/', ascii '/'] := by decide
  unfold portAt at h
  simp only [Option.ite_none_right_eq_some, Option.some.injEq] at h
  obtain ⟨⟨⟨hschema, hcolon⟩, hfirst, hsecond, ⟨hhost, hcolon'⟩, hport⟩, rfl⟩ := h
  refine ⟨_, _, _, _, rfl, hschema, (notColon_iff _).mp fun b hb => List.mem_takeWhile_imp hb, hhost,
    (notColon_iff _).mp fun b hb => List.mem_takeWhile_imp hb, hport, fun b hb => List.mem_takeWhile_imp hb, ?_⟩
  have hsplit := drop_run notColon t 0
  rw [List.drop_zero, Nat.zero_add] at hsplit
  generalize t.takeWhile notColon = schema at *
  have hsplit' := drop_run notColon t (schema.length + 3)
  generalize (t.drop (schema.length + 3)).takeWhile notColon = host at *
  rw [Nat.add_assoc] at hsplit'
  have hsplit'' := drop_run isDigit t (schema.length + (3 + (host.length + 1)))
  generalize (t.drop (schema.length + (3 + (host.length + 1)))).takeWhile isDigit = port at *
  have hassoc : schema.length + (3 + (host.length + 1)) + port.length
      = schema.length + (3 + (host.length + (1 + port.length))) := by omega
  rw [hassoc] at hsplit''
  have hcolon'' := drop_of_head? hcolon'
  rw [show schema.length + (3 + host.length) + 1 = schema.length + (3 + (host.length + 1)) by omega, hsplit''] at hcolon''
  rw [hcolon''] at hsplit'
  refine hsplit.trans ?_
  rw [drop_of_head? hcolon, drop_of_head? hfirst, drop_of_head? hsecond, hsplit', hsep]
  simp

theorem notEnd_iff (x : List UInt8) : (∀ b ∈ x, notEnd b = true) ↔ ascii ':' ∉ x ∧ ascii '/' ∉ x := by
  simp only [notEnd, Bool.not_eq_true', Bool.or_eq_false_iff, beq_eq_false_iff_ne, ne_eq]
  exact ⟨fun h => ⟨fun hmem => (h _ hmem).1 rfl, fun hmem => (h _ hmem).2 rfl⟩,
    fun h b hb => ⟨fun heq => h.1 (heq ▸ hb), fun heq => h.2 (heq ▸ hb)⟩⟩

/-- `hostPattern` on the parts of a URL. -/
theorem hostAt_parts {schema host path : List UInt8} (hschema : schema ≠ []) (hcolon : ascii ':' ∉ schema)
    (hhost : host ≠ []) (hend : ∀ b ∈ host, notEnd b = true) (hpath : ∀ b, path.head? = some b → notEnd b = false) :
    hostAt (schema ++ ascii ':' :: ([ascii '/', ascii '/'] ++ (host ++ path))) = some [schema, host, path] := by
  have h₁ : (schema ++ ascii ':' :: ([ascii '/', ascii '/'] ++ (host ++ path))).takeWhile notColon = schema := by
    refine takeWhile_run ((notColon_iff schema).mpr hcolon) fun b heq => ?_
    cases heq
    decide
  have hdrop : ∀ k, (schema ++ ascii ':' :: ([ascii '/', ascii '/'] ++ (host ++ path))).drop (schema.length + k)
      = (ascii ':' :: ([ascii '/', ascii '/'] ++ (host ++ path))).drop k :=
    fun k => List.drop_length_add_append k
  have hzero := hdrop 0
  have hthree : (ascii ':' :: ([ascii '/', ascii '/'] ++ (host ++ path))).drop 3 = host ++ path := rfl
  have hthree' : (ascii ':' :: ([ascii '/', ascii '/'] ++ (host ++ path))).drop (3 + host.length) = path := by
    rw [← List.drop_drop, hthree, List.drop_left]
  rw [Nat.add_zero] at hzero
  simp only [hostAt, h₁, hzero, hdrop, hthree, takeWhile_run hend hpath, hthree']
  rw [if_pos]
  exact ⟨⟨hschema, rfl⟩, rfl, rfl, hhost⟩

/-- A byte that a text does not have stands behind it. -/
theorem behind_of_not_mem {u v w y : List UInt8} {c : UInt8} (hc : c ∉ u) (h : u ++ v = w ++ c :: y) :
    ∃ w', w = u ++ w' ∧ v = w' ++ c :: y := by
  rcases List.append_eq_append_iff.mp h with ⟨w', rfl, rfl⟩ | ⟨u', rfl, hv⟩
  · exact ⟨w', rfl, rfl⟩
  · cases u' with
    | nil => exact ⟨[], by simp, by simpa using hv.symm⟩
    | cons b u' =>
        cases hv
        exact absurd (List.mem_append_right w List.mem_cons_self) hc

/-- **A port is found in a text exactly if it names one somewhere.** -/
theorem findSome?_portAt (t : List UInt8) : t.tails.findSome? portAt = none ↔ ¬PortInside t := by
  rw [List.findSome?_eq_none_iff]
  constructor
  · rintro hnone ⟨before, b, behind, rfl, hb, host, d, rest, rfl, hhost, hcolon, hd⟩
    have hport := drop_run isDigit (d :: rest) 0
    rw [List.drop_zero, Nat.zero_add] at hport
    have hfound := @portAt_parts [b] host ((d :: rest).takeWhile isDigit)
      ((d :: rest).drop ((d :: rest).takeWhile isDigit).length) (List.cons_ne_nil _ _)
      (by simpa using Ne.symm hb) hhost hcolon (by rw [List.takeWhile_cons_of_pos hd]; exact List.cons_ne_nil _ _)
      (fun b hb => List.mem_takeWhile_imp hb) (fun c hc => head?_behind_run isDigit _ hc)
    rw [← hport] at hfound
    have htail : [b] ++ bytesOf "://" ++ host ++ ascii ':' :: d :: rest ∈
        (before ++ b :: bytesOf "://" ++ (host ++ ascii ':' :: d :: rest)).tails := by
      rw [List.mem_tails]
      exact ⟨before, by simp⟩
    rw [hnone _ htail] at hfound
    cases hfound
  · intro hnot u hu
    by_contra hsome
    obtain ⟨values, hvalues⟩ := Option.ne_none_iff_exists'.mp hsome
    obtain ⟨schema, host, port, path, -, hschema, hcolon, hhost, hcolon', hport, hdigits, rfl⟩ := parts_of_portAt hvalues
    obtain ⟨before, rfl⟩ := (List.mem_tails _ _).mp hu
    obtain ⟨d, port, rfl⟩ := List.exists_cons_of_ne_nil hport
    refine hnot ⟨before ++ schema.dropLast, schema.getLast hschema, host ++ ascii ':' :: (d :: port ++ path), ?_, ?_,
      host, d, port ++ path, rfl, hhost, hcolon', hdigits d List.mem_cons_self⟩
    · have hlast := List.dropLast_append_getLast hschema
      calc before ++ (schema ++ bytesOf "://" ++ host ++ ascii ':' :: (d :: port ++ path))
          = before ++ (schema.dropLast ++ [schema.getLast hschema] ++ bytesOf "://" ++ host
              ++ ascii ':' :: (d :: port ++ path)) := by rw [hlast]
        _ = _ := by simp
    · rintro heq
      exact hcolon (heq ▸ List.getLast_mem hschema)

namespace Address

/-- The path of a URL is empty or begins with a slash. -/
theorem path_cases (a : Address) : a.path = [] ∨ ∃ rest, a.path = ascii '/' :: rest := by
  rcases a.path_slash with h | h
  · exact Or.inl h
  · right
    cases hpath : a.path with
    | nil =>
        rw [hpath] at h
        cases h
    | cons b rest =>
        rw [hpath] at h
        cases h
        exact ⟨rest, rfl⟩

theorem text_of_none {a : Address} (h : a.port = none) :
    a.text = a.schema ++ ascii ':' :: ([ascii '/', ascii '/'] ++ a.host ++ a.path) := by
  have hsep : bytesOf "://" = [ascii ':', ascii '/', ascii '/'] := by decide
  rw [text, h, hsep]
  simp

theorem text_of_some {a : Address} {digits : List UInt8} (h : a.port = some digits) :
    a.text = a.schema ++ bytesOf "://" ++ a.host ++ ascii ':' :: (digits ++ a.path) := by
  rw [text, h]
  simp

theorem slashes_colon (a : Address) : ascii ':' ∉ [ascii '/', ascii '/'] ++ a.host := by
  have hslash : ascii ':' ≠ ascii '/' := by decide
  simpa [hslash] using a.host_colon

/-- The host does not take part in it. -/
theorem portBehind_host (a : Address) : PortBehind (a.host ++ a.path) ↔ PortBehind a.path := by
  constructor
  · rintro ⟨host, d, rest, heq, -, hcolon, hd⟩
    obtain ⟨w, rfl, hpath⟩ := behind_of_not_mem a.host_colon heq
    refine ⟨w, d, rest, hpath, ?_, fun hmem => hcolon (List.mem_append_right _ hmem), hd⟩
    rintro rfl
    rcases a.path_cases with hnil | ⟨path, hslash⟩
    · rw [hnil] at hpath
      cases hpath
    · rw [hslash] at hpath
      cases hpath
  · rintro ⟨host, d, rest, heq, -, hcolon, hd⟩
    refine ⟨a.host ++ host, d, rest, by rw [heq, List.append_assoc], by simp [a.host_ne], ?_, hd⟩
    simpa using ⟨a.host_colon, hcolon⟩

/-- Without a port, a URL seems to name one exactly if its path does. -/
theorem portInside_text {a : Address} (h : a.port = none) :
    PortInside a.text ↔ PortBehind a.path ∨ PortInside a.path := by
  have hsep : bytesOf "://" = [ascii ':', ascii '/', ascii '/'] := by decide
  constructor
  · rintro ⟨before, b, behind, heq, hb, hport⟩
    have hfirst : a.schema ++ ascii ':' :: ([ascii '/', ascii '/'] ++ a.host ++ a.path)
        = (before ++ [b]) ++ ascii ':' :: ([ascii '/', ascii '/'] ++ behind) := by
      rw [← text_of_none h, heq, hsep]
      simp
    obtain ⟨w, hw, hrest⟩ := behind_of_not_mem a.schema_colon hfirst
    cases w with
    | nil =>
        -- the `://` of the URL itself
        left
        rw [List.nil_append, List.append_assoc] at hrest
        have hbehind : a.host ++ a.path = behind := List.append_cancel_left (List.cons_injective hrest)
        rw [← hbehind] at hport
        exact a.portBehind_host.mp hport
    | cons c w =>
        right
        obtain ⟨w', rfl, hpath⟩ := behind_of_not_mem a.slashes_colon (List.tail_eq_of_cons_eq hrest)
        have hne : w' ≠ [] := by
          rintro rfl
          rcases a.path_cases with hnil | ⟨path, hslash⟩
          · rw [hnil] at hpath
            cases hpath
          · rw [hslash] at hpath
            cases hpath
        obtain ⟨w', last, rfl⟩ : ∃ w'' last, w' = w'' ++ [last] :=
          ⟨_, _, (List.dropLast_append_getLast hne).symm⟩
        have hlast : before ++ [b] = (a.schema ++ c :: ([ascii '/', ascii '/'] ++ a.host ++ w')) ++ [last] := by
          rw [hw]
          simp
        obtain ⟨-, hsame⟩ := List.append_inj' hlast rfl
        refine ⟨w', b, behind, ?_, hb, hport⟩
        rw [hpath, ← hsame, hsep]
        simp
  · rintro (hport | ⟨before, b, behind, heq, hb, hport⟩)
    · refine ⟨a.schema.dropLast, a.schema.getLast a.schema_ne, a.host ++ a.path, ?_, ?_, a.portBehind_host.mpr hport⟩
      · have hlast := List.dropLast_append_getLast a.schema_ne
        calc a.text = a.schema.dropLast ++ [a.schema.getLast a.schema_ne]
              ++ ascii ':' :: ([ascii '/', ascii '/'] ++ a.host ++ a.path) := by rw [hlast, text_of_none h]
          _ = _ := by simp [hsep]
      · exact fun hcolon => a.schema_colon (hcolon ▸ List.getLast_mem a.schema_ne)
    · refine ⟨a.schema ++ ascii ':' :: ([ascii '/', ascii '/'] ++ a.host ++ before), b, behind, ?_, hb, hport⟩
      rw [text_of_none h, heq]
      simp

/-! ## Where a URL leads -/

/-- **A URL that names a port** is split at it. -/
theorem splitUrl_port {a : Address} {digits : List UInt8} (h : a.port = some digits) :
    splitUrl a.text = .ok (some ⟨a.schema, a.host, .digits digits, a.path⟩) := by
  obtain ⟨hne, hdigits⟩ := a.port_digits digits h
  have hpath : ∀ b, a.path.head? = some b → isDigit b = false := by
    intro b hb
    rcases a.path_cases with hnil | ⟨path, hslash⟩
    · rw [hnil] at hb
      cases hb
    · rw [hslash] at hb
      cases hb
      decide
  have hfound := portAt_parts a.schema_ne a.schema_colon a.host_ne a.host_colon hne hdigits hpath
  rw [← text_of_some h] at hfound
  obtain ⟨b, rest, htext⟩ := List.exists_cons_of_ne_nil (l := a.text) (by simp [text_of_some h])
  rw [splitUrl, strMatch_portPattern, htext, List.tails_cons, List.findSome?_cons, ← htext, hfound]
  rfl

/-- **A URL without one** is split at its host, if nothing in it looks like a port. -/
theorem splitUrl_implied {a : Address} (h : a.port = none) (hnot : ¬PortInside a.text) :
    splitUrl a.text = .ok (some ⟨a.schema, a.host, .implied (impliedPort a.schema), a.path⟩) := by
  have hfound : hostAt a.text = some [a.schema, a.host, a.path] := by
    have hpath : ∀ b, a.path.head? = some b → notEnd b = false := by
      intro b hb
      rcases a.path_cases with hnil | ⟨path, hslash⟩
      · rw [hnil] at hb
        cases hb
      · rw [hslash] at hb
        cases hb
        decide
    rw [text_of_none h, List.append_assoc]
    exact hostAt_parts a.schema_ne a.schema_colon a.host_ne ((notEnd_iff a.host).mpr ⟨a.host_colon, a.host_slash⟩) hpath
  obtain ⟨b, rest, htext⟩ := List.exists_cons_of_ne_nil (l := a.text) (by simp [text_of_none h])
  rw [splitUrl, strMatch_portPattern, (findSome?_portAt _).mpr hnot, strMatch_hostPattern, htext, List.tails_cons,
    List.findSome?_cons, ← htext, hfound]
  rfl

/-- A URL without a port that seems to name one is split there, and its path is cut short. -/
theorem splitUrl_inside {a : Address} (h : a.port = none) (hport : PortInside a.text) :
    ∃ schema host port path, splitUrl a.text = .ok (some ⟨schema, host, .digits port, path⟩) ∧
      path.length < a.path.length ∧ ascii ':' ∈ a.path := by
  obtain ⟨values, hvalues⟩ := Option.ne_none_iff_exists'.mp fun hnone => (findSome?_portAt _).mp hnone hport
  obtain ⟨u, hu, hat⟩ := List.exists_of_findSome?_eq_some hvalues
  obtain ⟨schema, host, port, path, rfl, -, -, -, -, -, -, rfl⟩ := parts_of_portAt hat
  obtain ⟨before, hbefore⟩ := (List.mem_tails _ _).mp hu
  have hsep : bytesOf "://" = [ascii ':', ascii '/', ascii '/'] := by decide
  refine ⟨schema, host, port, path, by rw [splitUrl, strMatch_portPattern, hvalues]; rfl, ?_⟩
  have hfirst : a.schema ++ ascii ':' :: ([ascii '/', ascii '/'] ++ a.host ++ a.path)
      = (before ++ schema ++ bytesOf "://" ++ host) ++ ascii ':' :: (port ++ path) := by
    rw [← text_of_none h, ← hbefore]
    simp
  obtain ⟨w, hw, hrest⟩ := behind_of_not_mem a.schema_colon hfirst
  cases w with
  | nil =>
      have hmem : ascii ':' ∈ a.schema := by
        rw [List.append_nil] at hw
        rw [← hw, hsep]
        simp
      exact absurd hmem a.schema_colon
  | cons c w =>
      obtain ⟨w', -, hpath⟩ := behind_of_not_mem a.slashes_colon (List.tail_eq_of_cons_eq hrest)
      rw [hpath]
      refine ⟨?_, by simp⟩
      simp only [List.length_append, List.length_cons]
      omega

end Address

/-! ## The connector -/

theorem single_alnum : single (bytesOf "%w") = isAlnum := by
  funext b
  show (isAlnum b || false) = isAlnum b
  exact Bool.or_false _

theorem isItem_alnum : IsItem (bytesOf "%w") :=
  @isItem_escaped (ascii 'w') (by decide) (by decide) (by decide)

theorem isItem_slash : IsItem (bytesOf "[/]") := by
  have hset : bytesOf "[/]" = [91, 47, 93] := by decide
  rw [hset]
  exact ⟨fun p => rfl, 91, _, rfl, by decide, by decide, fun h => absurd h (by decide)⟩

/-- The two slashes and the rest. -/
theorem matchHere_slashes {src : List UInt8} {s rounds depth : ℕ} {caps : List Capture}
    (hfirst : (src.drop s).head? = some (ascii '/')) (hsecond : (src.drop (s + 1)).head? = some (ascii '/'))
    (hs : s + 2 ≤ src.length) (hcaps : caps.length < 8) :
    matchHere src (rounds + 8) (depth + 7) (ascii '(' :: (bytesOf "[/]" ++ ascii '?' :: (bytesOf "[/]" ++ ascii '?' ::
        ascii ')' :: ascii '(' :: ([ascii '.'] ++ ascii '*' :: [ascii ')'])))) s caps =
      .ok (some (src.length, ⟨s + 2, .closed (src.length - (s + 2))⟩ :: ⟨s, .closed 2⟩ :: caps)) := by
  have hmatch : ∀ o : Option UInt8, o = some (ascii '/') → o.any (single (bytesOf "[/]")) = true := by
    rintro _ rfl
    rfl
  have hrest : matchHere src (rounds + 5) (depth + 4) (ascii ')' :: ascii '(' :: ([ascii '.'] ++ ascii '*' :: [ascii ')']))
      (s + 1 + 1) (⟨s, .unfinished⟩ :: caps) =
      .ok (some (src.length, ⟨s + 2, .closed (src.length - (s + 2))⟩ :: ⟨s, .closed 2⟩ :: caps)) := by
    have hcaps' : (⟨s, .closed (s + 1 + 1 - s)⟩ :: caps : List Capture).length < maxCaptures := by
      rw [List.length_cons, maxCaptures]
      omega
    rw [matchHere_close, matchHere_captureRest hs hcaps', Nat.add_assoc, Nat.add_sub_cancel_left]
  rw [matchHere_open (head?_ne_close isItem_slash) (by rw [maxCaptures]; omega),
    matchHere_query isItem_slash (hmatch _ hfirst), matchHere_query isItem_slash (hmatch _ hsecond), hrest]
  · rw [hrest]
    simp
  · rw [matchHere_query isItem_slash (hmatch _ hsecond), hrest]
    · simp
    · rw [hrest]
      simp

/-- The scheme, the slashes and the others. -/
theorem strMatch_scheme {scheme others : List UInt8} (hne : scheme ≠ []) (hscheme : ∀ b ∈ scheme, isAlnum b = true) :
    strMatch (scheme ++ bytesOf "://" ++ others) (bytesOf "^(%w+):([/]?[/]?)(.*)") =
      .ok (some [.text scheme, .text (bytesOf "//"), .text others]) := by
  have hsep : bytesOf "://" = [ascii ':', ascii '/', ascii '/'] := by decide
  have hpattern : bytesOf "^(%w+):([/]?[/]?)(.*)" = ascii '^' :: (ascii '(' :: (bytesOf "%w" ++ ascii '+' :: ascii ')' ::
      ([ascii ':'] ++ (ascii '(' :: (bytesOf "[/]" ++ ascii '?' :: (bytesOf "[/]" ++ ascii '?' :: ascii ')' ::
        ascii '(' :: ([ascii '.'] ++ ascii '*' :: [ascii ')']))))))) := by decide
  have hrun : (scheme ++ bytesOf "://" ++ others).takeWhile isAlnum = scheme := by
    rw [hsep, List.append_assoc]
    refine takeWhile_run hscheme fun b heq => ?_
    cases heq
    decide
  have hdrop : ∀ k, (scheme ++ bytesOf "://" ++ others).drop (scheme.length + k)
      = ([ascii ':', ascii '/', ascii '/'] ++ others).drop k := by
    intro k
    rw [hsep, List.append_assoc, List.drop_length_add_append]
  have hlen : (scheme ++ bytesOf "://" ++ others).length = scheme.length + 3 + others.length := by
    rw [hsep, List.length_append, List.length_append]
    rfl
  have htake : (scheme ++ bytesOf "://" ++ others).take scheme.length = scheme := by
    rw [List.append_assoc, List.take_left]
  generalize scheme ++ bytesOf "://" ++ others = src at *
  have hcolon : (src.drop scheme.length).head? = some (ascii ':') := by
    rw [← Nat.add_zero scheme.length, hdrop]
    rfl
  have hattempt : attempt src (ascii '(' :: (bytesOf "%w" ++ ascii '+' :: ascii ')' :: ([ascii ':'] ++ (ascii '(' ::
      (bytesOf "[/]" ++ ascii '?' :: (bytesOf "[/]" ++ ascii '?' :: ascii ')' ::
        ascii '(' :: ([ascii '.'] ++ ascii '*' :: [ascii ')']))))))) 0 =
      .ok (some (src.length, [⟨scheme.length + 3, .closed others.length⟩,
        ⟨scheme.length + 1, .closed 2⟩, ⟨0, .closed scheme.length⟩])) := by
    rw [attempt]
    show matchHere src 21 199 _ 0 [] = _
    rw [matchHere_captureRun isItem_alnum (by decide) (by decide) (by decide) (by decide) (by decide), single_alnum,
      List.drop_zero, hrun, Nat.zero_add, if_pos ⟨hne, hcolon⟩,
      matchHere_slashes (by rw [hdrop]; rfl) (by rw [Nat.add_assoc, hdrop]; rfl) (by omega) (by simp), Nat.add_assoc,
      hlen, Nat.add_sub_cancel_left]
  have hvalues := captureValues_closed src 0 src.length
    [(scheme.length + 3, others.length), (scheme.length + 1, 2), (0, scheme.length)] (List.cons_ne_nil _ _)
  simp only [List.map_cons, List.map_nil, List.reverse_cons, List.reverse_nil, List.nil_append, List.cons_append,
    hdrop, List.drop_zero, htake] at hvalues
  rw [hpattern, strMatch, if_pos rfl, search, hattempt]
  simp only [bind, Except.bind, hvalues]
  have hothers : ((ascii ':' :: ascii '/' :: ascii '/' :: others).drop 3).take others.length = others :=
    List.take_length
  rw [hothers]
  rfl

/-- The server and the path. -/
theorem strMatch_server {server path : List UInt8} (hserver : ascii '/' ∉ server)
    (hpath : path = [] ∨ ∃ rest, path = ascii '/' :: rest) :
    strMatch (server ++ path) (bytesOf "([^/]*)(.*)") = .ok (some [.text server, .text path]) := by
  have hpattern : bytesOf "([^/]*)(.*)" = ascii '(' :: (bytesOf "[^/]" ++ ascii '*' :: ascii ')' ::
      ascii '(' :: ([ascii '.'] ++ ascii '*' :: [ascii ')'])) := by decide
  have hrun : (server ++ path).takeWhile (fun c => c != ascii '/') = server := by
    refine takeWhile_run (fun b hb => ?_) fun b hb => ?_
    · simp only [bne_iff_ne, ne_eq]
      rintro rfl
      exact hserver hb
    · rcases hpath with rfl | ⟨rest, rfl⟩
      · cases hb
      · cases hb
        rfl
  have hattempt : attempt (server ++ path) (bytesOf "([^/]*)(.*)") 0 = .ok (some ((server ++ path).length,
      [⟨server.length, .closed path.length⟩, ⟨0, .closed server.length⟩])) := by
    obtain ⟨depth, hdepth, heq⟩ := @matchHere_captureAny (server ++ path) 9 196 0 [] _
      (ascii '(' :: ([ascii '.'] ++ ascii '*' :: [ascii ')'])) isItem_notSlash (by decide)
      (fun e => captureRest_ne_none (by simp [maxCaptures]))
    obtain ⟨depth, rfl⟩ := Nat.exists_eq_add_of_le' hdepth
    rw [hpattern, attempt]
    refine heq.trans ?_
    rw [single_notSlash, List.drop_zero, hrun, Nat.zero_add]
    rw [@matchHere_captureRest _ _ (depth + 193) _ _ (by simp) (by simp [maxCaptures]), List.length_append,
      Nat.add_sub_cancel_left]
  have hvalues := captureValues_closed (server ++ path) 0 (server ++ path).length
    [(server.length, path.length), (0, server.length)] (List.cons_ne_nil _ _)
  simp only [List.map_cons, List.map_nil, List.reverse_cons, List.reverse_nil, List.nil_append, List.cons_append,
    List.drop_zero, List.drop_left, List.take_left, List.take_length] at hvalues
  rw [hpattern] at hattempt ⊢
  rw [strMatch, if_neg (by decide), search, hattempt]
  simp only [bind, Except.bind, hvalues]
  rfl

/-- The host and the port. -/
theorem strMatch_hostPort {host port : List UInt8} (hhost : host ≠ []) (hcolon : ascii ':' ∉ host) (hport : port ≠ [])
    (hdigits : ∀ b ∈ port, isDigit b = true) :
    strMatch (host ++ ascii ':' :: port) (bytesOf "^([^:]+):(%d+)$") = .ok (some [.text host, .text port]) := by
  have hpattern : bytesOf "^([^:]+):(%d+)$" = ascii '^' :: (ascii '(' :: (bytesOf "[^:]" ++ ascii '+' :: ascii ')' ::
      ([ascii ':'] ++ ascii '(' :: (bytesOf "%d" ++ ascii '+' :: [ascii ')', ascii '$'])))) := by decide
  have hrun : (host ++ ascii ':' :: port).takeWhile notColon = host := by
    refine takeWhile_run ((notColon_iff host).mpr hcolon) fun b heq => ?_
    cases heq
    decide
  have hdrop : (host ++ ascii ':' :: port).drop (host.length + 1) = port := by
    rw [List.drop_length_add_append]
    rfl
  have hlen : (host ++ ascii ':' :: port).length = host.length + 1 + port.length := by
    rw [List.length_append, List.length_cons]
    omega
  have hpos := List.length_pos_of_ne_nil hport
  have hattempt : attempt (host ++ ascii ':' :: port) (ascii '(' :: (bytesOf "[^:]" ++ ascii '+' :: ascii ')' ::
      ([ascii ':'] ++ ascii '(' :: (bytesOf "%d" ++ ascii '+' :: [ascii ')', ascii '$'])))) 0 =
      .ok (some ((host ++ ascii ':' :: port).length, [⟨host.length + 1, .closed port.length⟩, ⟨0, .closed host.length⟩])) := by
    rw [attempt]
    show matchHere _ 15 199 _ 0 [] = _
    rw [matchHere_captureRun isItem_notColon (by decide) (by decide) (by decide) (by decide) (by decide), single_notColon,
      List.drop_zero, hrun, Nat.zero_add, List.drop_left, if_pos ⟨hhost, rfl⟩,
      matchHere_captureAll isItem_digit (by omega) (by simp [maxCaptures]), hlen, Nat.add_sub_cancel_left]
    rw [hdrop, single_digit]
    exact hdigits
  have hvalues := captureValues_closed (host ++ ascii ':' :: port) 0 (host ++ ascii ':' :: port).length
    [(host.length + 1, port.length), (0, host.length)] (List.cons_ne_nil _ _)
  simp only [List.map_cons, List.map_nil, List.reverse_cons, List.reverse_nil, List.nil_append, List.cons_append,
    List.drop_zero, hdrop, List.take_left, List.take_length] at hvalues
  rw [hpattern, strMatch, if_pos rfl, search, hattempt]
  simp only [bind, Except.bind, hvalues]
  rfl

/-- **`extract_url` finds the parts of a URL again.** -/
theorem extractUrl_parts {scheme host port path : List UInt8} (hscheme : scheme ≠ [])
    (halnum : ∀ b ∈ scheme, isAlnum b = true) (hhost : host ≠ []) (hcolon : ascii ':' ∉ host) (hslash : ascii '/' ∉ host)
    (hport : port ≠ []) (hdigits : ∀ b ∈ port, isDigit b = true)
    (hpath : path = [] ∨ ∃ rest, path = ascii '/' :: rest) :
    extractUrl (scheme ++ bytesOf "://" ++ (host ++ ascii ':' :: port ++ path)) =
      .ok ⟨some scheme, some host, some port, some path⟩ := by
  have hslash' : ascii '/' ∉ host ++ ascii ':' :: port := by
    have hcolon' : ascii '/' ≠ ascii ':' := by decide
    simp only [List.mem_append, List.mem_cons, hcolon', false_or, not_or]
    refine ⟨hslash, fun hmem => ?_⟩
    have hdigit := hdigits _ hmem
    exact absurd hdigit (by decide)
  have htwo : (bytesOf "//").length = 2 := by decide
  rw [extractUrl, strMatch_scheme hscheme halnum]
  simp only [bind, Except.bind, htwo, if_true]
  rw [strMatch_server hslash' hpath]
  simp only [ne_eq, List.append_eq_nil_iff, hhost, false_and, not_false_eq_true, if_true]
  rw [strMatch_hostPort hhost hcolon hport hdigits]
  rfl

/-! ## The result -/

/-- Digits are an integer numeral unless they are too many. -/
theorem str2int_eq_decimalInteger {digits : List UInt8} (hne : digits ≠ []) (hdigits : ∀ b ∈ digits, isDigit b = true) :
    str2int digits = decimalInteger false digits := by
  have hx : ∀ b ∈ digits, isXDigit b = true := fun b hb => isXDigit_of_isDigit (hdigits b hb)
  have hspace := @dropWhile_isSpace_of_isXDigit digits [] hne hx
  have hsign := @takeSign_of_isXDigit digits [] hne hx
  rw [List.append_nil] at hspace hsign
  have hhex : startsWith ['0', 'x'] digits = false := by
    rw [startsWith, decide_eq_false_iff_not]
    intro hpre
    have hmem : ascii 'x' ∈ (digits.take 2).map toLower := by
      simp only [List.length_cons, List.length_nil, Nat.zero_add, Nat.reduceAdd] at hpre
      rw [hpre]
      decide
    obtain ⟨b, hb, hbx⟩ := List.mem_map.mp hmem
    exact not_x_of_isDigit (hdigits b (List.mem_of_mem_take hb)) hbx
  have hall : digits.takeWhile isDigit = digits := List.takeWhile_eq_self_iff.mpr hdigits
  have hok : ¬(digits = [] ∨ ([] : List UInt8).dropWhile isSpace ≠ []) := by simp [hne]
  simp only [str2int, hspace, hsign, List.drop_zero, hhex, Bool.false_eq_true, if_false, hall, Nat.zero_add,
    List.drop_length, hok]

/-- `%d` for digits. -/
theorem format_digits {digits : List UInt8} (hne : digits ≠ []) (hdigits : ∀ b ∈ digits, isDigit b = true) :
    (UrlPort.digits digits).format =
      if digitsValue 10 digits < 2 ^ 63 then some (bytesOf (toString (digitsValue 10 digits))) else none := by
  have hzero : digits.contains 0 = false := by
    rw [List.contains_eq_mem, decide_eq_false_iff_not]
    intro hmem
    exact absurd (hdigits 0 hmem) (by decide)
  rw [UrlPort.format, str2num, hzero, str2int_eq_decimalInteger hne hdigits, decimalInteger]
  by_cases hlt : digitsValue 10 digits < 2 ^ 63
  · have hint : (Int64.ofInt (digitsValue 10 digits : ℤ)).toInt = digitsValue 10 digits :=
      Int64.toInt_ofInt_of_le (by omega) (by omega)
    simp only [Bool.false_eq_true, if_false, Nat.add_zero, hlt, if_true, hint]
    rfl
  · simp only [Bool.false_eq_true, if_false, Nat.add_zero, hlt]
    cases str2d digits <;> rfl

namespace Address

variable {a : Address}

/-- The connector is given the host and the port. -/
theorem extractUrl_tcp (a : Address) (n : ℕ) :
    extractUrl (bytesOf "tcp://" ++ a.host ++ ascii ':' :: bytesOf (toString n)) =
      .ok ⟨some (bytesOf "tcp"), some a.host, some (bytesOf (toString n)), some []⟩ := by
  have hne : bytesOf (toString n) ≠ [] := by
    rw [bytesOf_toString]
    exact fun h => Nat.toDigits_ne_nil (List.map_eq_nil_iff.mp h)
  have hurl : bytesOf "tcp://" ++ a.host ++ ascii ':' :: bytesOf (toString n)
      = bytesOf "tcp" ++ bytesOf "://" ++ (a.host ++ ascii ':' :: bytesOf (toString n) ++ []) := by
    have htcp : bytesOf "tcp://" = bytesOf "tcp" ++ bytesOf "://" := by decide
    rw [htcp, List.append_nil, List.append_assoc]
  have hscheme : bytesOf "tcp" = [116, 99, 112] := by decide
  have halnum : ∀ b ∈ bytesOf "tcp", isAlnum b = true := by
    rw [hscheme]
    intro b hb
    simp only [List.mem_cons, List.not_mem_nil, or_false] at hb
    rcases hb with rfl | rfl | rfl <;> rfl
  rw [hurl]
  exact extractUrl_parts (by rw [hscheme]; exact List.cons_ne_nil _ _) halnum a.host_ne a.host_colon a.host_slash hne (isDigit_bytesOf_toString n)
    (Or.inl rfl)

/-- A URL that is split into its parts leads where it should. -/
theorem dial_of_split {port : UrlPort} (hsplit : splitUrl a.text = .ok (some ⟨a.schema, a.host, port, a.path⟩))
    (hformat : port.format = some (bytesOf (toString a.number))) : dial a.text = some a.target := by
  rw [dial, hsplit]
  simp only [hformat, extractUrl_tcp]
  rfl

/-- What is asked for is the path that was found. -/
theorem path_of_dial {url : List UInt8} {d : Dial} {parts : UrlParts} (hdial : dial url = some d)
    (hsplit : splitUrl url = .ok (some parts)) : d.path = if parts.path = [] then [ascii '/'] else parts.path := by
  rw [dial, hsplit] at hdial
  simp only at hdial
  split at hdial
  · split at hdial
    · cases hdial
      rfl
    · cases hdial
  · cases hdial

/-- The URL can be dialled: its port is an integer, or it names none and its path does not look as if
it did. -/
def Dialled (a : Address) : Prop :=
  (∀ digits, a.port = some digits → digitsValue 10 digits < 2 ^ 63) ∧
    (a.port = none → ¬PortBehind a.path ∧ ¬PortInside a.path)

/-- A URL that can be dialled leads where it should. -/
theorem dial_of_dialled (h : a.Dialled) : dial a.text = some a.target := by
  cases hport : a.port with
  | some digits =>
      obtain ⟨hne, hdigits⟩ := a.port_digits digits hport
      have hnumber : a.number = digitsValue 10 digits := by rw [number, hport]
      refine dial_of_split (splitUrl_port hport) ?_
      rw [format_digits hne hdigits, if_pos (h.1 digits hport), hnumber]
  | none =>
      have hnumber : a.number = impliedPort a.schema := by rw [number, hport]
      have hinside : ¬PortInside a.text := by
        rw [portInside_text hport, not_or]
        exact h.2 hport
      refine dial_of_split (splitUrl_implied hport hinside) ?_
      rw [UrlPort.format, hnumber]

/-- A URL that cannot leads nowhere, or elsewhere. -/
theorem dialled_of_dial (h : dial a.text = some a.target) : a.Dialled := by
  constructor
  · intro digits hport
    obtain ⟨hne, hdigits⟩ := a.port_digits digits hport
    by_contra hlarge
    have hformat := format_digits hne hdigits
    rw [if_neg hlarge] at hformat
    rw [dial, splitUrl_port hport] at h
    simp [hformat] at h
  · intro hport
    rw [← not_or, ← portInside_text hport]
    intro hinside
    obtain ⟨schema, host, port, path, hsplit, hshort, hcolon⟩ := splitUrl_inside hport hinside
    have hpath := path_of_dial h hsplit
    have hne : a.path ≠ [] := List.ne_nil_of_mem hcolon
    simp only [target, hne, if_false] at hpath
    split at hpath
    · -- only a slash is left of the path, which has a colon
      rw [hpath, List.mem_singleton] at hcolon
      exact absurd hcolon (by decide)
    · rw [hpath] at hshort
      exact lt_irrefl _ hshort

end Address

/-- **A URL leads to its own host, port and path** exactly if its port is an integer, or, where it
names none, its path does not look as if it did. -/
theorem dial_exact (a : Address) : dial a.text = some a.target ↔ a.Dialled :=
  ⟨Address.dialled_of_dial, Address.dial_of_dialled⟩

end LuaFan
