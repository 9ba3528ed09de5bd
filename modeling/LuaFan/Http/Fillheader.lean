/-
# Header lines of a response (`src/http.c`, `fillheader`)

libcurl hands each header line to `fillheader`, which looks for a colon before the first space of
the line and records the text behind it, trimmed, under the text before it.

* `recorded_iff`: one line is recorded as it should be **exactly if** its value is not empty, no
  further colon stands before the first space, and no `charset=` is found behind the value;
* `recordAll`: where that holds of every line, the values of a name are those of its lines, in
  order.

The loop goes on behind a colon it has recorded.  So `Location:http://host` is also recorded
under `Location:http`.
-/
import LuaFan.Lib.Numeral
import Mathlib.Data.List.DropRight
import Mathlib.Data.List.Infix
import Mathlib.Logic.Function.Basic

namespace LuaFan

open Fp Function

/-! ## The code -/

/-- What a slot of the header table holds: a text, or the integer stored as `responseCode`. -/
inductive HeaderItem where
  | text (value : List UInt8)
  | code (value : ℤ)
  deriving DecidableEq, Repr

/-- A value of the header table: one item, or an array of those of repeated lines. -/
inductive HeaderSlot where
  | one (item : HeaderItem)
  | array (items : List HeaderItem)
  deriving DecidableEq, Repr

/-- The header table. -/
abbrev HeaderTable := List UInt8 → Option HeaderSlot

/-- The value a key has after one more item: the field becomes an array if it exists. -/
def HeaderSlot.mix : Option HeaderSlot → HeaderItem → HeaderSlot
  | none, item => one item
  | some (one old), item => array [old, item]
  | some (array items), item => array (items ++ [item])

/-- The fields of `ConnInfo` that `fillheader` reads and writes; `charset` is that of the response
table.  A registered `onheader` is what the function makes of the header table, or none if the
reference does not resolve to a function. -/
structure HeaderConn where
  completed : Bool
  headers : HeaderTable
  charset : Option (List UInt8)
  responseCode : ℤ
  onheader : Option (Option (HeaderTable → HeaderTable))

/-- `for (; size && isspace(*front); size--, front++)`. -/
def trimFront : ℕ → List UInt8 → ℕ × List UInt8
  | size + 1, b :: text => if isSpace b then trimFront size text else (size + 1, b :: text)
  | size, text => (size, text)

/-- The text behind a colon, trimmed at its front; both loops share the counter. -/
def fieldFront (field : List UInt8) : ℕ × List UInt8 := trimFront (field.length - 1) field

/-- The text from `front` to `end`. -/
def fieldValue (field : List UInt8) : List UInt8 :=
  let (size, front) := fieldFront field
  (trimFront size front.reverse).2.reverse

/-- `strstr`: where the pattern first occurs before the first zero byte. -/
def strstr (text pattern : List UInt8) : Option ℕ :=
  (text.takeWhile (· ≠ 0)).tails.findIdx? fun rest => pattern.isPrefixOf rest

/-- The colon at position `i` of the line is recorded.  Behind the line lie the bytes `beyond`;
the result is none if the length of the charset wraps and `lua_pushlstring` raises an error. -/
def HeaderConn.recordField (line beyond : List UInt8) (i : ℕ) (conn : HeaderConn) :
    Option HeaderConn :=
  let key := line.take i
  let field := line.drop (i + 1)
  let value := fieldValue field
  let conn := { conn with
    headers := update conn.headers key (some (HeaderSlot.mix (conn.headers key) (.text value))) }
  if strstr (line ++ beyond) (bytesOf "Content-Type") = some 0 then
    match strstr ((fieldFront field).2 ++ beyond) (bytesOf "charset=") with
    | none => some conn
    | some k =>
        if k + 8 ≤ value.length then some { conn with charset := some (value.drop (k + 8)) }
        else none
  else some conn

/-- The loop over the line, at position `i` with the given text ahead. -/
def HeaderConn.scanLine (line beyond : List UInt8) :
    ℕ → List UInt8 → Bool → HeaderConn → Option HeaderConn
  | _, [], _, conn => some conn
  | i, b :: rest, meetspace, conn =>
      if !meetspace && b == ascii ' ' then scanLine line beyond (i + 1) rest true conn
      else if !meetspace && b == ascii ':' && i + 3 < line.length then
        (recordField line beyond i conn).bind (scanLine line beyond (i + 1) rest meetspace)
      else scanLine line beyond (i + 1) rest meetspace conn

/-- `fillheader`. -/
def HeaderConn.fillheader (line beyond : List UInt8) (conn : HeaderConn) : Option HeaderConn :=
  if conn.completed then some conn
  else
    (scanLine line beyond 0 line false conn).map fun conn =>
      match conn.onheader with
      | some onheader =>
          if line.length ≤ 2 then
            let headers := update conn.headers (bytesOf "responseCode")
              (some (.one (.code conn.responseCode)))
            { conn with headers := (onheader.getD id) headers }
          else conn
      | none => conn

/-! ## What should be recorded -/

/-- A header line: a name without space and colon, a colon and a text that ends with the line.
Behind the line lie the bytes `beyond`. -/
structure FieldLine where
  name : List UInt8
  body : List UInt8
  beyond : List UInt8
  no_space : ascii ' ' ∉ name
  no_colon : ascii ':' ∉ name

/-- The text behind the colon. -/
def FieldLine.rest (line : FieldLine) : List UInt8 := line.body ++ [13, 10]

/-- The line. -/
def FieldLine.bytes (line : FieldLine) : List UInt8 := line.name ++ ascii ':' :: line.rest

/-- The value: the text without the blanks around it. -/
def FieldLine.value (line : FieldLine) : List UInt8 :=
  (line.body.dropWhile isSpace).rdropWhile isSpace

/-- The items recorded under a key, in order. -/
def HeaderSlot.items : Option HeaderSlot → List HeaderItem
  | none => []
  | some (one item) => [item]
  | some (array items) => items

/-- One more item is recorded under the name of the line, and nothing else changes. -/
def FieldLine.Collected (line : FieldLine) (headers headers' : HeaderTable) : Prop :=
  HeaderSlot.items (headers' line.name) = HeaderSlot.items (headers line.name) ++ [.text line.value]
    ∧ ∀ key ≠ line.name, headers' key = headers key

/-- A text has a colon before its first space, and at least three more bytes follow. -/
def StrayColon (rest : List UInt8) : Prop :=
  ∃ k, rest[k]? = some (ascii ':') ∧ ascii ' ' ∉ rest.take k ∧ k + 3 < rest.length

instance (rest : List UInt8) : Decidable (StrayColon rest) :=
  decidable_of_iff (∃ k < rest.length,
      rest[k]? = some (ascii ':') ∧ ascii ' ' ∉ rest.take k ∧ k + 3 < rest.length) <| by
    constructor
    · rintro ⟨k, -, h⟩
      exact ⟨k, h⟩
    · rintro ⟨k, h⟩
      exact ⟨k, by omega, h⟩

/-- `charset=` is first found where the value of a content type does not reach. -/
def FieldLine.Overrun (line : FieldLine) : Prop :=
  strstr (line.bytes ++ line.beyond) (bytesOf "Content-Type") = some 0 ∧
    ∃ k, strstr ((fieldFront line.rest).2 ++ line.beyond) (bytesOf "charset=") = some k ∧
      line.value.length < k + 8

/-! ## Trimming -/

/-- The counter stops the loop when the blanks do not. -/
theorem trimFront_eq (size : ℕ) (text : List UInt8) :
    trimFront size text = (size - min size (text.takeWhile isSpace).length,
      text.drop (min size (text.takeWhile isSpace).length)) := by
  induction text generalizing size with
  | nil => cases size <;> simp [trimFront]
  | cons b text ih =>
    cases size with
    | zero => simp [trimFront]
    | succ size =>
      by_cases hb : isSpace b
      · rw [trimFront, if_pos hb, ih, List.takeWhile_cons_of_pos hb]
        simp [Nat.succ_min_succ]
      · rw [trimFront, if_neg hb, List.takeWhile_cons_of_neg hb]
        simp

/-- A text that does not consist of blanks is longer than the blanks at its front. -/
theorem length_takeWhile_lt {text : List UInt8} {b : UInt8} (hmem : b ∈ text) (hb : isSpace b = false) :
    (text.takeWhile isSpace).length < text.length := by
  apply lt_of_le_of_ne (List.takeWhile_sublist _).length_le
  intro hlen
  have hall := (List.takeWhile_prefix isSpace).eq_of_length hlen
  rw [List.takeWhile_eq_self_iff] at hall
  simp [hall b hmem] at hb

/-- The front loop of a text that does not consist of blanks. -/
theorem fieldFront_eq {field : List UInt8} {b : UInt8} (hmem : b ∈ field) (hb : isSpace b = false) :
    fieldFront field = ((field.dropWhile isSpace).length - 1, field.dropWhile isSpace) := by
  have hlt := length_takeWhile_lt hmem hb
  have hdrop := drop_takeWhile isSpace field
  have hlen := congrArg List.length hdrop
  rw [List.length_drop] at hlen
  rw [fieldFront, trimFront_eq, min_eq_right (by omega), hdrop]
  congr 1
  omega

/-- The value recorded of a text that does not consist of blanks. -/
theorem fieldValue_eq {field : List UInt8} {b : UInt8} (hmem : b ∈ field) (hb : isSpace b = false) :
    fieldValue field = (field.dropWhile isSpace).rdropWhile isSpace := by
  have hmem' : b ∈ (field.dropWhile isSpace).reverse := by
    rw [List.mem_reverse]
    rw [← List.takeWhile_append_dropWhile (p := isSpace) (l := field), List.mem_append] at hmem
    rcases hmem with hmem | hmem
    · simp [List.mem_takeWhile_imp hmem] at hb
    · exact hmem
  have hlt := length_takeWhile_lt hmem' hb
  rw [List.length_reverse] at hlt
  simp only [fieldValue, fieldFront_eq hmem hb]
  rw [trimFront_eq, min_eq_right (by omega), drop_takeWhile, List.rdropWhile]

/-- Of blanks the last one is recorded. -/
theorem fieldValue_blanks {field : List UInt8} {b : UInt8} (hall : ∀ c ∈ field, isSpace c)
    (hb : isSpace b) : fieldValue (field ++ [b]) = [b] := by
  have htake : (field ++ [b]).takeWhile isSpace = field ++ [b] := by
    rw [List.takeWhile_eq_self_iff]
    simpa [or_imp, forall_and, hb] using hall
  have hfront : fieldFront (field ++ [b]) = (0, [b]) := by
    rw [fieldFront, trimFront_eq, htake]
    simp
  simp [fieldValue, hfront, trimFront]

/-! ## The slots -/

/-- An item is added at the end. -/
theorem HeaderSlot.items_mix (slot : Option HeaderSlot) (item : HeaderItem) :
    items (some (mix slot item)) = items slot ++ [item] := by
  rcases slot with - | ⟨old⟩ | ⟨olds⟩ <;> rfl

namespace HeaderConn

variable {line beyond : List UInt8} {i : ℕ} {conn conn' : HeaderConn}

/-- What a recorded colon makes of the header table. -/
theorem recordField_headers (h : recordField line beyond i conn = some conn') :
    conn'.headers = update conn.headers (line.take i)
      (some (HeaderSlot.mix (conn.headers (line.take i)) (.text (fieldValue (line.drop (i + 1)))))) := by
  simp only [recordField] at h
  split at h
  · split at h
    · cases h
      rfl
    · split at h
      · cases h
        rfl
      · cases h
  · cases h
    rfl

/-- A recorded colon changes the header table alone, and the charset. -/
theorem recordField_kept (h : recordField line beyond i conn = some conn') :
    conn'.completed = conn.completed ∧ conn'.onheader = conn.onheader := by
  simp only [recordField] at h
  split at h
  · split at h
    · cases h
      exact ⟨rfl, rfl⟩
    · split at h
      · cases h
        exact ⟨rfl, rfl⟩
      · cases h
  · cases h
    exact ⟨rfl, rfl⟩

/-- The number of items under each key only grows. -/
theorem recordField_grows (h : recordField line beyond i conn = some conn') (key : List UInt8) :
    (HeaderSlot.items (conn.headers key)).length
        + (if key = line.take i then 1 else 0) = (HeaderSlot.items (conn'.headers key)).length := by
  rw [recordField_headers h]
  by_cases hkey : key = line.take i
  · subst hkey
    rw [update_self, HeaderSlot.items_mix]
    simp
  · rw [update_of_ne hkey]
    simp [hkey]

/-! ## The loop -/

/-- Behind the first space no colon is recorded. -/
theorem scanLine_spaced (rest : List UInt8) :
    scanLine line beyond i rest true conn = some conn := by
  induction rest generalizing i with
  | nil => rfl
  | cons b rest ih => simp [scanLine, ih]

/-- A text without space and colon is skipped. -/
theorem scanLine_skip {skipped : List UInt8} (hspace : ascii ' ' ∉ skipped) (hcolon : ascii ':' ∉ skipped)
    (rest : List UInt8) :
    scanLine line beyond i (skipped ++ rest) false conn
      = scanLine line beyond (i + skipped.length) rest false conn := by
  induction skipped generalizing i with
  | nil => rfl
  | cons b skipped ih =>
    simp only [List.mem_cons, not_or] at hspace hcolon
    simp only [List.cons_append, scanLine, beq_eq_false_iff_ne.mpr (Ne.symm hspace.1),
      beq_eq_false_iff_ne.mpr (Ne.symm hcolon.1), Bool.and_false, Bool.false_and, Bool.false_eq_true,
      if_false, ih hspace.2 hcolon.2, List.length_cons]
    congr 1
    omega

/-- Without a stray colon ahead the loop records nothing. -/
theorem scanLine_quiet {rest : List UInt8} (hlen : i + rest.length = line.length)
    (hquiet : ¬StrayColon rest) : scanLine line beyond i rest false conn = some conn := by
  induction rest generalizing i with
  | nil => rfl
  | cons b rest ih =>
    rw [List.length_cons] at hlen
    have hnext : b ≠ ascii ' ' → ¬StrayColon rest := by
      rintro hb ⟨k, hk, hspace, hlt⟩
      have hbefore : ascii ' ' ∉ (b :: rest).take (k + 1) := by
        rw [List.take_succ_cons, List.mem_cons, not_or]
        exact ⟨hb.symm, hspace⟩
      refine hquiet ⟨k + 1, hk, hbefore, ?_⟩
      rw [List.length_cons]
      omega
    rw [scanLine]
    split
    · exact scanLine_spaced rest
    · next hspace =>
      split
      · next hcolon =>
        simp only [Bool.not_false, Bool.true_and, Bool.and_eq_true, beq_iff_eq, decide_eq_true_eq]
          at hcolon
        refine absurd ⟨0, by simp [hcolon.1], by simp, ?_⟩ hquiet
        simp only [List.length_cons]
        omega
      · exact ih (by omega) (hnext (by simpa using hspace))

/-- The loop keeps everything but the header table and the charset, and no item is lost. -/
theorem scanLine_grows {rest : List UInt8} {meetspace : Bool}
    (h : scanLine line beyond i rest meetspace conn = some conn') (key : List UInt8) :
    (HeaderSlot.items (conn.headers key)).length ≤ (HeaderSlot.items (conn'.headers key)).length := by
  induction rest generalizing i meetspace conn with
  | nil =>
    cases h
    exact le_rfl
  | cons b rest ih =>
    rw [scanLine] at h
    split at h
    · exact ih h
    · split at h
      · obtain ⟨mid, hmid, h⟩ := Option.bind_eq_some_iff.mp h
        have hgrow := recordField_grows hmid key
        have hlater := ih h
        omega
      · exact ih h

/-- A stray colon is recorded. -/
theorem scanLine_stray {rest : List UInt8} (hlen : i + rest.length = line.length) {k : ℕ}
    (hk : rest[k]? = some (ascii ':')) (hspace : ascii ' ' ∉ rest.take k) (hlt : k + 3 < rest.length)
    (h : scanLine line beyond i rest false conn = some conn') :
    (HeaderSlot.items (conn.headers (line.take (i + k)))).length
      < (HeaderSlot.items (conn'.headers (line.take (i + k)))).length := by
  induction rest generalizing i k conn with
  | nil => simp at hk
  | cons b rest ih =>
    rw [List.length_cons] at hlen hlt
    rw [scanLine] at h
    cases k with
    | zero =>
      have hb : b = ascii ':' := by simpa using hk
      subst hb
      rw [if_neg (by decide), if_pos (by simp; omega)] at h
      obtain ⟨mid, hmid, h⟩ := Option.bind_eq_some_iff.mp h
      have hgrow := recordField_grows hmid (line.take i)
      rw [if_pos rfl] at hgrow
      have hlater := scanLine_grows h (line.take i)
      rw [Nat.add_zero]
      omega
    | succ k =>
      rw [List.take_succ_cons, List.mem_cons, not_or] at hspace
      rw [if_neg (by simpa using Ne.symm hspace.1)] at h
      rw [show i + (k + 1) = i + 1 + k by omega]
      split at h
      · obtain ⟨mid, hmid, h⟩ := Option.bind_eq_some_iff.mp h
        have hgrow := recordField_grows hmid (line.take (i + 1 + k))
        have hlater := ih (by omega) hk hspace.2 (by omega) h
        omega
      · exact ih (by omega) hk hspace.2 (by omega) h

/-! ## One line -/

theorem take_name (line : FieldLine) : line.bytes.take line.name.length = line.name := by
  rw [FieldLine.bytes, List.take_left]

theorem drop_name (line : FieldLine) : line.bytes.drop (line.name.length + 1) = line.rest := by
  rw [FieldLine.bytes, List.drop_length_add_append]
  rfl

theorem length_bytes (line : FieldLine) :
    line.bytes.length = line.name.length + 1 + line.rest.length := by
  simp only [FieldLine.bytes, List.length_append, List.length_cons]
  omega

/-- The line is longer than the one that ends the head. -/
theorem fillheader_eq (line : FieldLine) (hrun : conn.completed = false) :
    fillheader line.bytes line.beyond conn = scanLine line.bytes line.beyond 0 line.bytes false conn := by
  have hlong : ¬line.bytes.length ≤ 2 := by
    rw [length_bytes, FieldLine.rest, List.length_append]
    simp only [List.length_cons, List.length_nil]
    omega
  rw [fillheader, if_neg (by simp [hrun])]
  cases scanLine line.bytes line.beyond 0 line.bytes false conn with
  | none => rfl
  | some mid => cases honheader : mid.onheader <;> simp [honheader, hlong]

/-- The loop comes to the first colon, and goes on behind it. -/
theorem scanLine_bytes (line : FieldLine) :
    scanLine line.bytes line.beyond 0 line.bytes false conn =
      if 2 < line.rest.length then
        (recordField line.bytes line.beyond line.name.length conn).bind
          (scanLine line.bytes line.beyond (line.name.length + 1) line.rest false)
      else scanLine line.bytes line.beyond (line.name.length + 1) line.rest false conn := by
  have hlen := length_bytes line
  conv_lhs => arg 4; rw [FieldLine.bytes]
  rw [scanLine_skip line.no_space line.no_colon, scanLine, if_neg (by decide)]
  by_cases hlong : 2 < line.rest.length
  · rw [if_pos hlong, if_pos (by simp; omega), Nat.zero_add]
  · rw [if_neg hlong, if_neg (by simp; omega), Nat.zero_add]

end HeaderConn

/-- The value is empty **exactly if** the text consists of blanks. -/
theorem FieldLine.value_eq_nil_iff (line : FieldLine) :
    line.value = [] ↔ ∀ b ∈ line.body, isSpace b := by
  rw [value, List.rdropWhile_eq_nil_iff]
  constructor
  · intro h b hb
    rw [← List.takeWhile_append_dropWhile (p := isSpace) (l := line.body), List.mem_append] at hb
    exact hb.elim List.mem_takeWhile_imp (h b)
  · intro h b hb
    exact h b ((List.dropWhile_sublist _).subset hb)

/-- A value that is not empty is recorded as it is. -/
theorem FieldLine.fieldValue_rest (line : FieldLine) (hne : line.value ≠ []) :
    fieldValue line.rest = line.value := by
  obtain ⟨b, hmem, hb⟩ : ∃ b ∈ line.body, isSpace b = false := by
    simpa using (value_eq_nil_iff line).not.mp hne
  have hbody : (line.body.dropWhile isSpace).isEmpty = false := by
    rw [List.isEmpty_eq_false_iff, ne_eq, List.dropWhile_eq_nil_iff]
    intro hall
    simp [hall b hmem] at hb
  have hrest : line.rest = line.body ++ [13, 10] := rfl
  rw [hrest, fieldValue_eq (List.mem_append_left _ hmem) hb, List.dropWhile_append, hbody,
    if_neg Bool.false_ne_true]
  have hend : ([13, 10] : List UInt8) = [13] ++ [10] := rfl
  rw [hend, ← List.append_assoc, List.rdropWhile_concat_pos _ _ _ (by decide),
    List.rdropWhile_concat_pos _ _ _ (by decide), value]

/-- Of an empty value in a line long enough the line end is recorded. -/
theorem FieldLine.fieldValue_rest_blank (line : FieldLine) (hnil : line.value = []) :
    fieldValue line.rest = [10] := by
  have hblank := (value_eq_nil_iff line).mp hnil
  show fieldValue (line.body ++ ([13] ++ [10])) = [10]
  rw [← List.append_assoc]
  apply fieldValue_blanks _ (by decide)
  intro b hb
  rcases List.mem_append.mp hb with hb | hb
  · exact hblank b hb
  · rw [List.mem_singleton.mp hb]
    decide

/-- What a line needs so that it is recorded as it should be. -/
def FieldLine.Plain (line : FieldLine) : Prop :=
  line.value ≠ [] ∧ ¬StrayColon line.rest ∧ ¬line.Overrun

namespace HeaderConn

variable {conn conn' : HeaderConn}

/-- The field is recorded **exactly if** the charset lies in it. -/
theorem recordField_isSome_iff (conn : HeaderConn) (line : FieldLine) (hne : line.value ≠ []) :
    (∃ conn', recordField line.bytes line.beyond line.name.length conn = some conn')
      ↔ ¬line.Overrun := by
  simp only [recordField, drop_name, line.fieldValue_rest hne, FieldLine.Overrun]
  by_cases htype : strstr (line.bytes ++ line.beyond) (bytesOf "Content-Type") = some 0
  · rw [if_pos htype]
    cases hcharset : strstr ((fieldFront line.rest).2 ++ line.beyond) (bytesOf "charset=") with
    | none => simp
    | some k =>
      by_cases hk : k + 8 ≤ line.value.length
      · simp [hk, not_lt.mpr hk]
      · simp [hk, htype, not_le.mp hk]
  · simp [htype]

/-- A plain line is recorded as it should be. -/
theorem fillheader_plain (line : FieldLine) (hrun : conn.completed = false) (hplain : line.Plain) :
    ∃ conn', fillheader line.bytes line.beyond conn = some conn' ∧ conn'.completed = false
      ∧ line.Collected conn.headers conn'.headers := by
  obtain ⟨hne, hquiet, hcharset⟩ := hplain
  obtain ⟨conn', h⟩ := (recordField_isSome_iff conn line hne).mpr hcharset
  have hlong : 2 < line.rest.length := by
    have hbody : line.body ≠ [] := by
      rintro hnil
      simp [FieldLine.value, hnil] at hne
    have hpos := List.length_pos_iff.mpr hbody
    simp only [FieldLine.rest, List.length_append, List.length_cons, List.length_nil]
    omega
  refine ⟨conn', ?_, (recordField_kept h).1.trans hrun, ?_, ?_⟩
  · rw [fillheader_eq line hrun, scanLine_bytes, if_pos hlong, h, Option.bind_some,
      scanLine_quiet (length_bytes line).symm hquiet]
  · rw [recordField_headers h, take_name, drop_name, update_self, HeaderSlot.items_mix,
      line.fieldValue_rest hne]
  · intro key hkey
    rw [recordField_headers h, take_name, update_of_ne hkey]

/-- Where a line is recorded as it should be, no further colon stands before the first space. -/
theorem not_strayColon (line : FieldLine) (hrun : conn.completed = false)
    (h : fillheader line.bytes line.beyond conn = some conn')
    (hcol : line.Collected conn.headers conn'.headers) : ¬StrayColon line.rest := by
  rintro ⟨k, hk, hspace, hlt⟩
  have hlen := length_bytes line
  have hkey : line.bytes.take (line.name.length + 1 + k) ≠ line.name := by
    intro heq
    have hcount := congrArg List.length heq
    rw [List.length_take] at hcount
    omega
  have hsame := hcol.2 _ hkey
  rw [fillheader_eq line hrun, scanLine_bytes, if_pos (by omega)] at h
  obtain ⟨mid, hmid, h⟩ := Option.bind_eq_some_iff.mp h
  have hgrow := recordField_grows hmid (line.bytes.take (line.name.length + 1 + k))
  have hstray := scanLine_stray hlen.symm hk hspace hlt h
  rw [hsame] at hstray
  omega

/-- Where a line is recorded as it should be, its value is not empty. -/
theorem value_ne_nil (line : FieldLine) (hrun : conn.completed = false)
    (h : fillheader line.bytes line.beyond conn = some conn')
    (hcol : line.Collected conn.headers conn'.headers) : line.value ≠ [] := by
  intro hnil
  have hquiet := not_strayColon line hrun h hcol
  have hadded := hcol.1
  rw [fillheader_eq line hrun, scanLine_bytes] at h
  split at h
  · obtain ⟨mid, hmid, h⟩ := Option.bind_eq_some_iff.mp h
    rw [scanLine_quiet (length_bytes line).symm hquiet] at h
    cases h
    rw [recordField_headers hmid, take_name, drop_name, update_self, HeaderSlot.items_mix,
      line.fieldValue_rest_blank hnil, hnil] at hadded
    simp at hadded
  · rw [scanLine_quiet (length_bytes line).symm hquiet] at h
    cases h
    simp at hadded

/-- One line is recorded as it should be **exactly if** it is plain and arrives while the request
is running. -/
theorem recorded_iff (conn : HeaderConn) (line : FieldLine) :
    (∃ conn', fillheader line.bytes line.beyond conn = some conn'
        ∧ line.Collected conn.headers conn'.headers)
      ↔ conn.completed = false ∧ line.Plain := by
  constructor
  · rintro ⟨conn', h, hcol⟩
    have hrun : conn.completed = false := by
      by_contra hdone
      rw [Bool.not_eq_false] at hdone
      rw [fillheader, if_pos hdone] at h
      cases h
      simpa using hcol.1
    have hne := value_ne_nil line hrun h hcol
    have hquiet := not_strayColon line hrun h hcol
    refine ⟨hrun, hne, hquiet, (recordField_isSome_iff conn line hne).mp ?_⟩
    have hlong : 2 < line.rest.length := by
      by_contra hshort
      rw [fillheader_eq line hrun, scanLine_bytes, if_neg hshort,
        scanLine_quiet (length_bytes line).symm hquiet] at h
      cases h
      simpa using hcol.1
    rw [fillheader_eq line hrun, scanLine_bytes, if_pos hlong] at h
    obtain ⟨mid, hmid, -⟩ := Option.bind_eq_some_iff.mp h
    exact ⟨mid, hmid⟩
  · rintro ⟨hrun, hplain⟩
    obtain ⟨conn', h, -, hcol⟩ := fillheader_plain line hrun hplain
    exact ⟨conn', h, hcol⟩

/-! ## The lines of a response -/

/-- Each line is handed to `fillheader` in a call of its own. -/
def recordAll : List FieldLine → HeaderConn → Option HeaderConn
  | [], conn => some conn
  | line :: lines, conn =>
      (fillheader line.bytes line.beyond conn).bind (recordAll lines)

/-- The values of the lines of a name accumulate in order. -/
theorem recordAll_plain (lines : List FieldLine) (hrun : conn.completed = false)
    (hplain : ∀ line ∈ lines, line.Plain) :
    ∃ conn', recordAll lines conn = some conn' ∧ ∀ key,
      HeaderSlot.items (conn'.headers key) = HeaderSlot.items (conn.headers key)
        ++ (lines.filter fun line => line.name = key).map fun line => .text line.value := by
  induction lines generalizing conn with
  | nil => exact ⟨conn, rfl, fun key => by simp⟩
  | cons line lines ih =>
    rw [List.forall_mem_cons] at hplain
    obtain ⟨mid, hmid, hrun', hcol⟩ := fillheader_plain line hrun hplain.1
    obtain ⟨conn', h, hitems⟩ := ih hrun' hplain.2
    refine ⟨conn', by rw [recordAll, hmid, Option.bind_some, h], fun key => ?_⟩
    rw [hitems key]
    by_cases hkey : line.name = key
    · subst hkey
      rw [hcol.1]
      simp
    · rw [hcol.2 key (Ne.symm hkey)]
      simp [hkey]

/-- **The lines of a response.**  One line is recorded as it should be exactly if it is plain and
arrives while the request is running, and the values of plain lines accumulate in order. -/
theorem header_lines_collected (conn : HeaderConn) :
    (∀ line : FieldLine,
      (∃ conn', fillheader line.bytes line.beyond conn = some conn'
          ∧ line.Collected conn.headers conn'.headers)
        ↔ conn.completed = false ∧ line.Plain) ∧
    ∀ lines : List FieldLine, conn.completed = false → (∀ line ∈ lines, line.Plain) →
      ∃ conn', recordAll lines conn = some conn' ∧ ∀ key,
        HeaderSlot.items (conn'.headers key) = HeaderSlot.items (conn.headers key)
          ++ (lines.filter fun line => line.name = key).map fun line => .text line.value :=
  ⟨recorded_iff conn, fun lines hrun hplain => recordAll_plain lines hrun hplain⟩

/-- A request without a header so far. -/
def running : HeaderConn := ⟨false, fun _ => none, none, 200, none⟩

/-- Two cookies, the second one with a colon in its value. -/
def cookieLines : List FieldLine :=
  [⟨bytesOf "Set-Cookie", bytesOf " a=1 ", [], by decide, by decide⟩,
    ⟨bytesOf "Set-Cookie", bytesOf " b=x:y", [], by decide, by decide⟩]

theorem header_lines_collected_cookies :
    ∃ conn', recordAll cookieLines running = some conn' ∧
      HeaderSlot.items (conn'.headers (bytesOf "Set-Cookie"))
        = [.text (bytesOf "a=1"), .text (bytesOf "b=x:y")] := by
  have hplain : ∀ line ∈ cookieLines, line.Plain := by
    intro line hline
    fin_cases hline
    · exact ⟨by decide, by decide, fun h => absurd h.1 (by decide)⟩
    · exact ⟨by decide, by decide, fun h => absurd h.1 (by decide)⟩
  obtain ⟨conn', h, hitems⟩ := (header_lines_collected running).2 cookieLines rfl hplain
  refine ⟨conn', h, ?_⟩
  rw [hitems (bytesOf "Set-Cookie")]
  decide

/-- A location without a space before its address. -/
def locationLine : FieldLine :=
  ⟨bytesOf "Location", bytesOf "http://x", [], by decide, by decide⟩

/-- The second colon of the location is recorded too. -/
theorem location_recorded_twice :
    ¬∀ (conn : HeaderConn) (line : FieldLine), conn.completed = false →
      ∃ conn', fillheader line.bytes line.beyond conn = some conn'
        ∧ line.Collected conn.headers conn'.headers := by
  intro h
  obtain ⟨conn', hrun, hcol⟩ := h running locationLine rfl
  have hslot : (fillheader locationLine.bytes locationLine.beyond running).map
      (fun conn => conn.headers (bytesOf "Location:http"))
        = some (some (.one (.text (bytesOf "//x")))) := by decide
  rw [hrun, Option.map_some, hcol.2 _ (by decide)] at hslot
  simp [running] at hslot

end HeaderConn

end LuaFan
