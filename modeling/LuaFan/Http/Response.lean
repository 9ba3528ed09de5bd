/-
# Responses in pieces

A well-formed response is a sequence of segments, and `request` needs some of them whole: it
reads the lines of the head and the sizes of the chunks without asking whether they have come to
their end.

* `response_received`: a response whose chunks do not cut these segments, and that is written
  without what `request` does not know, **is returned with its code, its headers and exactly its
  body**, however else it is cut;
* `response_cut_raises`: a header line in two pieces raises an error.
-/
import LuaFan.Http.Client
import LuaFan.Lib.Lines
import LuaFan.Lib.Settle

namespace LuaFan

open Fp Lines Run Segments

/-! ## Responses -/

/-- A header line: a token, a colon, and the value with the blanks around it. -/
structure Field where
  name : List UInt8
  value : List UInt8
  name_ne : name ≠ []
  token : ∀ b ∈ name, isTokenChar b = true
  value_end : hasLineEnd value = false

namespace Field

def line (f : Field) : List UInt8 := f.name ++ ascii ':' :: f.value

/-- The key and the value under which `request` records the line. -/
def key (f : Field) : List UInt8 := f.name.map toLower

def text (f : Field) : List UInt8 := f.value.dropWhile (· = 32)

/-- `request` records the line. -/
def record (headers : List (List UInt8 × HeaderValue)) (f : Field) : List (List UInt8 × HeaderValue) :=
  addHeaderValue headers f.key f.text

/-- The value without the blanks around it. -/
def content (f : Field) : List UInt8 := trimRight (f.value.dropWhile isBlank)

def segment (f : Field) : Segment UInt8 := ⟨true, f.line ++ [cr, lf]⟩

end Field

/-- The decimal numeral of `n`, between blanks. -/
structure IsLength (n : ℕ) (value : List UInt8) : Prop where
  parts : ∃ before digits after, value = before ++ (digits ++ after) ∧ digits ≠ [] ∧
    (∀ b ∈ before, isBlank b = true) ∧ (∀ b ∈ digits, isDigit b = true) ∧
    (∀ b ∈ after, isBlank b = true) ∧ digitsValue 10 digits = n

/-- A chunk: its size in hexadecimal digits, extensions, and the data. -/
structure Chunk where
  size : List UInt8
  ext : List UInt8
  data : List UInt8
  size_ne : size ≠ []
  size_digits : ∀ b ∈ size, isXDigit b = true
  size_eq : digitsValue 16 size = data.length
  ext_end : hasLineEnd ext = false
  ext_start : ext = [] ∨ (ext.dropWhile isBlank).head? = some (ascii ';')

namespace Chunk

def sizeLine (c : Chunk) : List UInt8 := c.size ++ c.ext

def bytes (c : Chunk) : List UInt8 := c.sizeLine ++ [cr, lf] ++ c.data ++ [cr, lf]

def segments (c : Chunk) : List (Segment UInt8) :=
  [⟨true, c.sizeLine ++ [cr, lf]⟩, ⟨false, c.data ++ [cr, lf]⟩]

end Chunk

/-- A body of a given length, or one in chunks, with the chunk of size 0 and the trailers. -/
inductive Payload where
  | sized (b : List UInt8)
  | chunked (chunks : List Chunk) (last : Chunk) (trailers : List Field)

/-- The trailers and the empty line: of the first line of all that, two bytes may come alone. -/
def trailerSegments : List Field → List (Segment UInt8)
  | [] => [⟨false, [cr, lf]⟩]
  | f :: fs =>
      [⟨false, f.line.take 1⟩, ⟨true, f.line.drop 1 ++ [cr, lf]⟩,
        ⟨false, terminated cr lf (fs.map Field.line) ++ [cr, lf]⟩]

namespace Payload

/-- The body that the sender meant. -/
def decoded : Payload → List UInt8
  | sized b => b
  | chunked chunks _ _ => chunks.flatMap Chunk.data

def bytes : Payload → List UInt8
  | sized b => b
  | chunked chunks last trailers =>
      chunks.flatMap Chunk.bytes ++ (last.sizeLine ++ [cr, lf]) ++
        (terminated cr lf (trailers.map Field.line) ++ [cr, lf])

def segments : Payload → List (Segment UInt8)
  | sized b => [⟨false, b⟩]
  | chunked chunks last trailers =>
      chunks.flatMap Chunk.segments ++ ⟨true, last.sizeLine ++ [cr, lf]⟩ :: trailerSegments trailers

/-- Is what follows the head read as it comes? -/
def isCounted : Payload → Bool
  | sized b => b ≠ []
  | chunked _ _ _ => false

end Payload

/-- A well-formed HTTP/1.1 response with a body of a given length or in chunks. -/
structure HttpResponse where
  status : List UInt8
  reason : List UInt8
  fields : List Field
  payload : Payload
  status_length : status.length = 3
  status_digits : ∀ b ∈ status, isDigit b = true
  reason_end : hasLineEnd reason = false
  framed : match payload with
    | .sized b =>
        (∃ f ∈ fields, f.key = bytesOf "content-length") ∧
          (∀ f ∈ fields, f.key = bytesOf "content-length" → IsLength b.length f.value) ∧
          ∀ f ∈ fields, f.key ≠ bytesOf "transfer-encoding"
    | .chunked chunks last _ =>
        (∃ f ∈ fields, f.key = bytesOf "transfer-encoding") ∧
          (∀ f ∈ fields, f.key = bytesOf "transfer-encoding" →
            f.content.map toLower = bytesOf "chunked") ∧
          (∀ c ∈ chunks, c.data ≠ []) ∧ last.data = []

namespace HttpResponse

variable (p : HttpResponse)

def statusLine : List UInt8 := bytesOf "HTTP/1.1 " ++ (p.status ++ 32 :: p.reason)

def bytes : List UInt8 :=
  terminated cr lf (p.statusLine :: (p.fields.map Field.line ++ [[]])) ++ p.payload.bytes

def segments : List (Segment UInt8) :=
  ⟨true, p.statusLine ++ [cr, lf]⟩ ::
    (p.fields.map Field.segment ++ ⟨p.payload.isCounted, [cr, lf]⟩ :: p.payload.segments)

/-- What `request` should return; it knows no status line without a reason. -/
def expected : HttpRet where
  responseCode := if p.reason = [] then none else some (.integer (Int64.ofInt (digitsValue 10 p.status)))
  responseMessage := if p.reason = [] then none else some p.reason
  headers := p.fields.foldl Field.record []
  body := some p.payload.decoded
  error := none

/-- The response is written the way `request` knows: without extensions of chunks, with `chunked`
in lower case and no blank behind it, and with lengths that are Lua integers. -/
def Known : Prop :=
  match p.payload with
  | .sized b => b.length < 2 ^ 63
  | .chunked chunks last _ =>
      (∃ f ∈ p.fields, f.key = bytesOf "transfer-encoding" ∧ f.text = bytesOf "chunked") ∧
        ∀ c ∈ chunks ++ [last], c.ext = [] ∧ c.data.length < 2 ^ 63

end HttpResponse

/-- `request` comes to return `ret`. -/
def ClientRun.Returns (r : ClientRun) (ret : HttpRet) : Prop :=
  Settles ClientRun.step ClientRun.outcome r (.returned ret)

/-! ## Numerals and patterns -/

theorem isSpace_of_isBlank {b : UInt8} (h : isBlank b = true) : isSpace b = true := by
  rw [isBlank, Bool.or_eq_true, beq_iff_eq, beq_iff_eq] at h
  rcases h with rfl | rfl <;> rfl

theorem not_isDigit_of_isBlank {b : UInt8} (h : isBlank b = true) : isDigit b = false := by
  rw [isBlank, Bool.or_eq_true, beq_iff_eq, beq_iff_eq] at h
  rcases h with rfl | rfl <;> rfl

theorem not_isSpace_of_isXDigit {b : UInt8} (h : isXDigit b = true) : isSpace b = false := by
  by_contra hspace
  simp only [isSpace, isXDigit, isDigit, toLower, Bool.or_eq_true, Bool.and_eq_true, beq_iff_eq,
    decide_eq_true_eq, Bool.not_eq_false, UInt8.le_iff_toNat_le, ← UInt8.toNat_inj] at h hspace
  grind

theorem not_sign_of_isXDigit {b : UInt8} (h : isXDigit b = true) : b ≠ ascii '-' ∧ b ≠ ascii '+' := by
  constructor
  · rintro rfl
    exact absurd h (by decide)
  · rintro rfl
    exact absurd h (by decide)

theorem not_x_of_isDigit {b : UInt8} (h : isDigit b = true) : toLower b ≠ ascii 'x' := by
  intro hx
  have hcode : (ascii 'x').toNat = 120 := rfl
  simp only [isDigit, toLower, Bool.and_eq_true, decide_eq_true_eq, UInt8.le_iff_toNat_le,
    ← UInt8.toNat_inj] at h hx
  grind

theorem not_x_of_isBlank {b : UInt8} (h : isBlank b = true) : toLower b ≠ ascii 'x' := by
  rw [isBlank, Bool.or_eq_true, beq_iff_eq, beq_iff_eq] at h
  rcases h with rfl | rfl <;> decide

theorem digitValue_le (b : UInt8) : digitValue b ≤ 256 := by
  have hb := b.toNat_lt
  have hlower := (toLower b).toNat_lt
  rw [digitValue]
  split <;> omega

theorem isXDigit_of_isDigit {b : UInt8} (h : isDigit b = true) : isXDigit b = true := by
  rw [isXDigit, h, Bool.true_or]

theorem takeSign_of_isXDigit {ds rest : List UInt8} (hne : ds ≠ []) (hds : ∀ b ∈ ds, isXDigit b = true) :
    takeSign (ds ++ rest) = (false, 0) := by
  cases ds with
  | nil => exact absurd rfl hne
  | cons d ds =>
      obtain ⟨hminus, hplus⟩ := not_sign_of_isXDigit (hds d List.mem_cons_self)
      simp only [List.cons_append, takeSign, hminus, hplus, if_false]

theorem dropWhile_isSpace_of_isXDigit {ds rest : List UInt8} (hne : ds ≠ [])
    (hds : ∀ b ∈ ds, isXDigit b = true) : (ds ++ rest).dropWhile isSpace = ds ++ rest := by
  cases ds with
  | nil => exact absurd rfl hne
  | cons d ds =>
      rw [List.cons_append, List.dropWhile_cons_of_neg]
      simp [not_isSpace_of_isXDigit (hds d List.mem_cons_self)]

/-- The size of a chunk is read. -/
theorem tonumber16_size {ds : List UInt8} (hne : ds ≠ []) (hds : ∀ b ∈ ds, isXDigit b = true)
    (hlt : digitsValue 16 ds < 2 ^ 63) : (tonumber16 ds).map Int64.toInt = some (digitsValue 16 ds : ℤ) := by
  have hspace := @dropWhile_isSpace_of_isXDigit ds [] hne hds
  have hsign := @takeSign_of_isXDigit ds [] hne hds
  rw [List.append_nil] at hspace hsign
  have hall : ds.takeWhile isXDigit = ds := List.takeWhile_eq_self_iff.mpr hds
  have hnil : ¬(ds = [] ∨ List.dropWhile isSpace ([] : List UInt8) ≠ []) := by simp [hne]
  simp only [tonumber16, hspace, hsign, List.drop_zero, hall, List.drop_length, hnil, if_false,
    Bool.false_eq_true, Option.map_some]
  rw [Int64.toInt_ofInt_of_le (by omega) (by omega)]

/-- Digits between blanks are an integer numeral. -/
theorem str2int_digits {before digits after : List UInt8} (hne : digits ≠ [])
    (hbefore : ∀ b ∈ before, isBlank b = true) (hdigits : ∀ b ∈ digits, isDigit b = true)
    (hafter : ∀ b ∈ after, isBlank b = true) (hlt : digitsValue 10 digits < 2 ^ 63) :
    str2int (before ++ (digits ++ after)) = some (Int64.ofInt (digitsValue 10 digits)) := by
  have hx : ∀ b ∈ digits, isXDigit b = true := fun b hb => isXDigit_of_isDigit (hdigits b hb)
  have hdrop : (before ++ (digits ++ after)).dropWhile isSpace = digits ++ after := by
    rw [List.dropWhile_append_of_pos fun b hb => isSpace_of_isBlank (hbefore b hb)]
    exact dropWhile_isSpace_of_isXDigit hne hx
  have hhex : startsWith ['0', 'x'] (digits ++ after) = false := by
    rw [startsWith, decide_eq_false_iff_not]
    intro hpre
    have hmem : ascii 'x' ∈ ((digits ++ after).take 2).map toLower := by
      simp only [List.length_cons, List.length_nil, Nat.zero_add, Nat.reduceAdd] at hpre
      rw [hpre]
      decide
    obtain ⟨b, hb, hbx⟩ := List.mem_map.mp hmem
    rcases List.mem_append.mp (List.mem_of_mem_take hb) with hd | ha
    · exact not_x_of_isDigit (hdigits b hd) hbx
    · exact not_x_of_isBlank (hafter b ha) hbx
  have htake : (digits ++ after).takeWhile isDigit = digits := by
    have hnone : after.takeWhile isDigit = [] := by
      cases after with
      | nil => rfl
      | cons b after =>
          rw [List.takeWhile_cons_of_neg]
          simp [not_isDigit_of_isBlank (hafter b List.mem_cons_self)]
    rw [List.takeWhile_append_of_pos hdigits, hnone, List.append_nil]
  have hrest : after.dropWhile isSpace = [] :=
    List.dropWhile_eq_nil_iff.mpr fun b hb => isSpace_of_isBlank (hafter b hb)
  have hok : ¬(digits = [] ∨ after.dropWhile isSpace ≠ []) := by simp [hne, hrest]
  simp only [str2int, hdrop, takeSign_of_isXDigit hne hx, List.drop_zero, hhex, Bool.false_eq_true,
    if_false, htake, Nat.zero_add, List.drop_left, hok]
  rw [decimalInteger, if_pos (by simpa using hlt)]
  rfl

theorem str2num_digits {before digits after : List UInt8} (hne : digits ≠ [])
    (hbefore : ∀ b ∈ before, isBlank b = true) (hdigits : ∀ b ∈ digits, isDigit b = true)
    (hafter : ∀ b ∈ after, isBlank b = true) (hlt : digitsValue 10 digits < 2 ^ 63) :
    str2num (before ++ (digits ++ after)) = some (.integer (Int64.ofInt (digitsValue 10 digits))) := by
  have hzero : (before ++ (digits ++ after)).contains 0 = false := by
    have hblank : isBlank 0 = false := by decide
    have hdigit : isDigit 0 = false := by decide
    rw [List.contains_eq_mem, decide_eq_false_iff_not]
    intro hmem
    rcases List.mem_append.mp hmem with hb | hmem
    · rw [hbefore 0 hb] at hblank
      cases hblank
    · rcases List.mem_append.mp hmem with hd | ha
      · rw [hdigits 0 hd] at hdigit
        cases hdigit
      · rw [hafter 0 ha] at hblank
        cases hblank
  rw [str2num, hzero, str2int_digits hne hbefore hdigits hafter hlt]
  rfl

/-- The length of the body is read from the header line. -/
theorem Field.str2num_text {f : Field} {n : ℕ} (h : IsLength n f.value) (hlt : n < 2 ^ 63) :
    str2num f.text = some (.integer (Int64.ofInt n)) := by
  obtain ⟨before, digits, after, hvalue, hne, hbefore, hdigits, hafter, rfl⟩ := h.parts
  have hblank : isDigit 32 = false := by decide
  have hdrop : f.text = before.dropWhile (· = 32) ++ (digits ++ after) := by
    rw [text, hvalue]
    clear hvalue
    induction before with
    | nil =>
        cases digits with
        | nil => exact absurd rfl hne
        | cons d digits =>
            rw [List.nil_append, List.dropWhile_nil, List.nil_append, List.cons_append,
              List.dropWhile_cons_of_neg]
            intro hd
            have hdigit := hdigits d List.mem_cons_self
            rw [decide_eq_true_eq] at hd
            rw [hd, hblank] at hdigit
            cases hdigit
    | cons b before ih =>
        rw [List.cons_append, List.dropWhile_cons, List.dropWhile_cons]
        split
        · exact ih fun b hb => hbefore b (List.mem_cons_of_mem _ hb)
        · rfl
  rw [hdrop]
  refine str2num_digits hne ?_ hdigits hafter hlt
  intro b hb
  exact hbefore b ((List.dropWhile_suffix _).mem hb)

theorem matchAnywhere {α : Type} (m : List UInt8 → Option α) {s : List UInt8} {x : α} (h : m s = some x) :
    s.tails.findSome? m = some x := by
  cases s with
  | nil => simp [h]
  | cons b s => rw [List.tails_cons, List.findSome?_cons, h]

theorem not_colon_of_token {b : UInt8} (h : isTokenChar b = true) : b ≠ ascii ':' := by
  rintro rfl
  exact absurd h (by decide)

/-- A header line is matched. -/
theorem Field.matchField_line (f : Field) : matchField f.line = some (f.name, f.text) := by
  have hname : f.line.takeWhile (· ≠ ascii ':') = f.name := by
    rw [line, List.takeWhile_append_of_pos]
    · simp
    · intro b hb
      simpa using not_colon_of_token (f.token b hb)
  apply matchAnywhere
  rw [matchFieldAt, hname]
  simp only [line, List.drop_left]
  rw [if_pos f.name_ne, text]

/-- Bytes that are no line ends. -/
theorem hasLineEnd_of_forall {q : UInt8 → Bool} (hq : ∀ b, q b = true → b ≠ cr ∧ b ≠ lf) {u : List UInt8}
    (hu : ∀ b ∈ u, q b = true) : hasLineEnd u = false := by
  rw [hasLineEnd, List.any_eq_false]
  intro b hb
  simp [hq b (hu b hb)]

theorem not_lineEnd_of_token {b : UInt8} (h : isTokenChar b = true) : b ≠ cr ∧ b ≠ lf := by
  constructor
  · rintro rfl
    exact absurd h (by decide)
  · rintro rfl
    exact absurd h (by decide)

theorem not_lineEnd_of_isXDigit {b : UInt8} (h : isXDigit b = true) : b ≠ cr ∧ b ≠ lf := by
  constructor
  · rintro rfl
    exact absurd h (by decide)
  · rintro rfl
    exact absurd h (by decide)

theorem Field.line_end (f : Field) : hasLineEnd f.line = false := by
  have hname : hasLineEnd f.name = false := hasLineEnd_of_forall (fun _ => not_lineEnd_of_token) f.token
  have hcolon : hasLineEnd [ascii ':'] = false := by decide
  rw [line, List.append_cons, hasLineEnd_append, hasLineEnd_append, hname, hcolon, f.value_end]
  rfl

theorem Field.line_ne (f : Field) : f.line ≠ [] := by simp [line]

namespace HttpResponse

variable {p : HttpResponse}

theorem statusLine_ne : p.statusLine ≠ [] := by simp [statusLine]

theorem version_end : hasLineEnd (bytesOf "HTTP/1.1 ") = false := by decide

theorem bytesOf_version : bytesOf "HTTP/1.1 " = [72, 84, 84, 80, 47, 49, 46, 49, 32]
    ∧ bytesOf "HTTP/" = [72, 84, 84, 80, 47] ∧ bytesOf "1.1" = [49, 46, 49] := by decide

theorem statusLine_end : hasLineEnd p.statusLine = false := by
  have hstatus : hasLineEnd p.status = false :=
    hasLineEnd_of_forall (fun _ h => not_lineEnd_of_isXDigit (isXDigit_of_isDigit h)) p.status_digits
  have hblank : hasLineEnd [32] = false := by decide
  rw [statusLine, hasLineEnd_append, List.append_cons, hasLineEnd_append, hasLineEnd_append,
    version_end, hstatus, hblank, p.reason_end]
  rfl

/-- The status line is matched, if there is a reason. -/
theorem matchStatus_statusLine : matchStatus p.statusLine =
    if p.reason = [] then none else some (bytesOf "1.1", p.status, p.reason) := by
  obtain ⟨hhttp, hpre, hversion⟩ := bytesOf_version
  have hne : p.status ≠ [] := List.ne_nil_of_length_pos (by rw [p.status_length]; omega)
  have hblank : isDigit 32 = false := by decide
  have hcode : (p.status ++ 32 :: p.reason).takeWhile isDigit = p.status := by
    rw [List.takeWhile_append_of_pos p.status_digits, List.takeWhile_cons_of_neg (by simp [hblank]),
      List.append_nil]
  have htake : ([49, 46, 49, 32] ++ (p.status ++ 32 :: p.reason)).takeWhile
      (fun b => isDigit b || b == ascii '.') = [49, 46, 49] := by
    have h49 : (isDigit 49 || (49 : UInt8) == ascii '.') = true := by decide
    have h46 : (isDigit 46 || (46 : UInt8) == ascii '.') = true := by decide
    have h32 : (isDigit 32 || (32 : UInt8) == ascii '.') = false := by decide
    simp only [List.cons_append, List.takeWhile_cons, h49, h46, h32, if_true, Bool.false_eq_true, if_false]
  have hat : matchStatusAt p.statusLine =
      if p.reason = [] then none else some (bytesOf "1.1", p.status, p.reason) := by
    have hdrop : p.statusLine.drop 5 = [49, 46, 49, 32] ++ (p.status ++ 32 :: p.reason) := by
      rw [statusLine, hhttp]
      rfl
    have hversionEnd : p.statusLine.drop (5 + 3) = 32 :: (p.status ++ 32 :: p.reason) := by
      rw [← List.drop_drop, hdrop]
      rfl
    have hcodeEnd : (32 :: (p.status ++ 32 :: p.reason)).drop (1 + p.status.length) = 32 :: p.reason := by
      rw [← List.drop_drop]
      exact List.drop_left
    have hstart : p.statusLine.take 5 = bytesOf "HTTP/" := by
      rw [statusLine, hhttp, hpre]
      rfl
    rw [matchStatusAt, hdrop, htake]
    simp only [List.length_cons, List.length_nil, Nat.zero_add, Nat.reduceAdd] at hversionEnd ⊢
    rw [hversionEnd, List.drop_one, List.tail_cons, hcode, hcodeEnd, hversion]
    by_cases hreason : p.reason = []
    · rw [if_pos hreason, if_neg (by simp [hreason])]
    · rw [if_neg hreason, if_pos ⟨hstart, by simp, rfl, hne, rfl, hreason⟩]
      rfl
  by_cases hreason : p.reason = []
  · -- nor does the pattern match further behind, where there is no `H`
    rw [if_pos hreason] at hat ⊢
    have hcons : p.statusLine = 72 :: ([84, 84, 80, 47, 49, 46, 49, 32] ++ (p.status ++ [32])) := by
      rw [statusLine, hhttp, hreason]
      rfl
    have hnoH : ∀ b ∈ ([84, 84, 80, 47, 49, 46, 49, 32] ++ (p.status ++ [32]) : List UInt8), b ≠ 72 := by
      have hdigit : isDigit 72 = false := by decide
      rintro b hb rfl
      rcases List.mem_append.mp hb with hb | hb
      · exact absurd hb (by decide)
      · rcases List.mem_append.mp hb with hb | hb
        · rw [p.status_digits 72 hb] at hdigit
          cases hdigit
        · exact absurd hb (by decide)
    rw [hcons] at hat
    rw [matchStatus, hcons, List.tails_cons, List.findSome?_cons, hat]
    refine List.findSome?_eq_none_iff.mpr ?_
    intro s hs
    rw [matchStatusAt, if_neg]
    rintro ⟨hstart, -⟩
    rw [hpre] at hstart
    have hmem : (72 : UInt8) ∈ s := List.mem_of_mem_take (hstart ▸ List.mem_cons_self)
    exact hnoH 72 (((List.mem_tails _ _).mp hs).mem hmem) rfl
  · rw [if_neg hreason] at hat ⊢
    exact matchAnywhere matchStatusAt hat

theorem str2num_status :
    str2num p.status = some (.integer (Int64.ofInt (digitsValue 10 p.status))) := by
  have hlen := p.status_length
  have hlt : digitsValue 10 p.status < 2 ^ 63 := by
    obtain ⟨a, b, c, habc⟩ := List.length_eq_three.mp hlen
    have ha := digitValue_le a
    have hb := digitValue_le b
    have hc := digitValue_le c
    rw [habc]
    simp only [digitsValue, List.foldl_cons, List.foldl_nil]
    omega
  have hnum := @str2num_digits [] p.status [] (List.ne_nil_of_length_pos (by rw [hlen]; omega))
    (by simp) p.status_digits (by simp) hlt
  rwa [List.nil_append, List.append_nil] at hnum

theorem spell_trailerSegments (fs : List Field) :
    spell (trailerSegments fs) = terminated cr lf (fs.map Field.line) ++ [cr, lf] := by
  cases fs with
  | nil => rfl
  | cons f fs =>
      obtain ⟨b, l, hline⟩ := List.exists_cons_of_ne_nil f.line_ne
      simp [trailerSegments, hline]

theorem spell_flatMap_segments (cs : List Chunk) :
    spell (cs.flatMap Chunk.segments) = cs.flatMap Chunk.bytes := by
  induction cs with
  | nil => rfl
  | cons c cs ih =>
      rw [List.flatMap_cons, spell_append, ih, List.flatMap_cons]
      simp [Chunk.segments, Chunk.bytes]

theorem spell_fields (fs : List Field) :
    spell (fs.map Field.segment) = terminated cr lf (fs.map Field.line) := by
  induction fs with
  | nil => rfl
  | cons f fs ih => simp [ih, Field.segment]

/-- The segments are the bytes. -/
theorem spell_segments : spell p.segments = p.bytes := by
  have hpayload : spell p.payload.segments = p.payload.bytes := by
    cases p.payload with
    | sized b => simp [Payload.segments, Payload.bytes]
    | chunked chunks last trailers =>
        simp [Payload.segments, Payload.bytes, spell_flatMap_segments, spell_trailerSegments]
  simp [segments, bytes, spell_fields, hpayload]

end HttpResponse

/-! ## Rounds over the head -/

namespace ClientRun

variable {r : ClientRun} {ret : HttpRet} {ts : List (Segment UInt8)} {u t : List UInt8}

theorem Returns.of_step (h : r.step.Returns ret) : r.Returns ret := Settles.of_step h

theorem returns_of_returned (hphase : r.phase = .returned) : r.Returns r.ret := by
  refine Settles.of_invariant (fun s => s = r) ?_ ?_ rfl
  · rintro s rfl
    rw [step, hphase]
  · rintro s rfl
    rw [outcome, hphase]

theorem step_head (hphase : r.phase = .head) : r.step = r.headRound := by rw [step, hphase]

theorem step_length (hphase : r.phase = .length t) : r.step = r.lengthRound t := by rw [step, hphase]

theorem step_chunks {n : ℤ} (hphase : r.phase = .chunks t (some n)) :
    r.step = if 0 < n then r.chunkData t n else r.chunkSize t n := by
  rw [step, hphase]
  rfl

/-- A line of the head is read. -/
theorem step_line {l : List UInt8} (hphase : r.phase = .head)
    (h : r.conn.At (⟨true, l ++ [cr, lf]⟩ :: ts) u) (hl : hasLineEnd l = false) :
    ∃ conn v, r.step = headLine { r with conn := conn } l ∧ conn.At ts v := by
  obtain ⟨conn, u', hreceive, h', hpos⟩ := h.receive (e := 1) (by omega) (by simp; omega)
  obtain ⟨input, v, hline, hv⟩ := h'.line (List.ne_nil_of_length_pos hpos) hl
  refine ⟨conn.withInput input, v, ?_, hv⟩
  rw [step_head hphase]
  simp only [headRound, hreceive, hline]

/-- The empty line is read; if it may be cut, its LF may be left. -/
theorem step_end {b : Bool} (hphase : r.phase = .head) (h : r.conn.At (⟨b, [cr, lf]⟩ :: ts) u) :
    ∃ conn v, r.step = headLine { r with conn := conn } [] ∧
      (conn.At ts v ∨ b = false ∧ v = [] ∧ conn.At (⟨false, [lf]⟩ :: ts) v) := by
  obtain ⟨conn, u', hreceive, h', hpos⟩ := h.receive (e := 1) (by omega) (by simp)
  by_cases hlen : 2 ≤ u'.length
  · obtain ⟨input, v, hline, hv⟩ := h'.line_of_le (l := []) hlen rfl
    refine ⟨conn.withInput input, v, ?_, Or.inl hv⟩
    rw [step_head hphase]
    simp only [headRound, hreceive, hline]
  · obtain ⟨c, rfl⟩ := List.length_eq_one_iff.mp (by omega : u'.length = 1)
    have hbytes := h'.bytes
    simp only [spell_cons, List.cons_append, List.nil_append, List.cons.injEq] at hbytes
    obtain ⟨rfl, hbytes⟩ := hbytes
    cases b with
    | true =>
        have hcut := h'.aligned [] _ [] _ _ rfl rfl rfl
        simp at hcut
    | false =>
        have hread := readline_reads h'.reads
        have hsplit : splitLine [cr] = some ([], []) := rfl
        rw [hsplit] at hread
        obtain ⟨⟨flag, hline⟩, hinput⟩ := hread
        have haligned : Aligned (⟨false, [lf]⟩ :: ts) [] conn.chunks :=
          Aligned.skip (x := [cr]) h'.aligned
        refine ⟨conn.withInput (readline conn.input).2, [], ?_, Or.inr ⟨rfl, rfl, ?_⟩⟩
        · have hread : readline conn.input = (some ([], flag), (readline conn.input).2) :=
            Prod.ext hline rfl
          rw [step_head hphase, headRound, hreceive]
          simp only
          rw [hread]
        · exact h'.withInput hinput (by simpa using hbytes) haligned (Nat.zero_le _)

/-- What a header line does to the length of the body. -/
def counted (n : Option LuaNumber) (f : Field) : Option LuaNumber :=
  if f.key = bytesOf "content-length" then str2num f.text else n

/-- Does the line ask for chunks? -/
def asksChunks (f : Field) : Bool :=
  decide (f.key = bytesOf "transfer-encoding" ∧ f.text = bytesOf "chunked")

/-- The state in front of the empty line. -/
def afterFields (r : ClientRun) (fs : List Field) (conn : ClientConn) : ClientRun :=
  ⟨conn, { r.ret with headers := fs.foldl Field.record r.ret.headers }, true,
    fs.foldl counted r.contentLength, r.chunked || fs.any asksChunks, .head⟩

theorem headLine_field (hphase : r.phase = .head) (hfirst : r.firstLineCompleted = true) (f : Field) :
    r.headLine f.line = r.afterFields [f] r.conn := by
  obtain ⟨conn, ret, first, n, chunked, phase⟩ := r
  cases hphase
  cases hfirst
  rw [headLine, if_neg f.line_ne, if_pos rfl, f.matchField_line, afterFields, List.any_cons, List.any_nil,
    Bool.or_false]
  rfl

/-- The header lines are read one after the other. -/
theorem returns_fields {fs : List Field} (hphase : r.phase = .head) (hfirst : r.firstLineCompleted = true)
    (h : r.conn.At (fs.map Field.segment ++ ts) u)
    (hret : ∀ conn v, conn.At ts v → (r.afterFields fs conn).Returns ret) : r.Returns ret := by
  induction fs generalizing r u with
  | nil =>
      have hsame : r.afterFields [] r.conn = r := by
        simp only [afterFields, List.foldl_nil, List.any_nil, Bool.or_false, ← hphase, ← hfirst]
      rw [← hsame]
      exact hret r.conn u h
  | cons f fs ih =>
      obtain ⟨conn, v, hstep, hv⟩ := step_line hphase h f.line_end
      rw [headLine_field (r := { r with conn := conn }) hphase hfirst f] at hstep
      apply Returns.of_step
      rw [hstep]
      refine ih rfl rfl hv ?_
      intro conn' v' hv'
      have hnext : ((afterFields { r with conn := conn } [f] conn).afterFields fs conn') =
          r.afterFields (f :: fs) conn' := by
        simp [afterFields, Bool.or_assoc]
      rw [hnext]
      exact hret conn' v' hv'

/-- The length of the body, by lines that agree. -/
theorem counted_eq {n : ℕ} (hlt : n < 2 ^ 63) {fs : List Field}
    (hfs : ∀ f ∈ fs, f.key = bytesOf "content-length" → IsLength n f.value) (init : Option LuaNumber)
    (hinit : init = some (.integer (Int64.ofInt n)) ∨ ∃ f ∈ fs, f.key = bytesOf "content-length") :
    fs.foldl counted init = some (.integer (Int64.ofInt n)) := by
  induction fs generalizing init with
  | nil => simpa using hinit
  | cons f fs ih =>
      rw [List.foldl_cons]
      refine ih (fun f' hf' => hfs f' (List.mem_cons_of_mem f hf')) _ ?_
      by_cases hkey : f.key = bytesOf "content-length"
      · left
        rw [counted, if_pos hkey]
        exact Field.str2num_text (hfs f List.mem_cons_self hkey) hlt
      · rw [counted, if_neg hkey]
        rcases hinit with hinit | ⟨f', hf', hkey'⟩
        · exact Or.inl hinit
        · rcases List.mem_cons.mp hf' with rfl | hf'
          · exact absurd hkey' hkey
          · exact Or.inr ⟨f', hf', hkey'⟩

/-! ## Rounds over a body of a given length -/

theorem bytes_ofBytes (x : List UInt8) : (StreamResult.ofBytes x).bytes = x := by
  rw [StreamResult.ofBytes]
  split
  · rfl
  · rename_i hx
    rw [List.length_eq_zero_iff.mp (by omega : x.length = 0)]
    rfl

theorem intValue_le_iff {i j : ℤ} : (intValue i).le (intValue j) = decide (i ≤ j) := by
  have hpos : (0 : ℤ) < unitsPerOne := by exact_mod_cast unitsPerOne_pos
  simp only [intValue, Value.le, mul_le_mul_iff_left₀ hpos]

/-- `GetBytes()` takes all that is buffered. -/
theorem getAll {ba : Bytearray} (h : Reads ba u) (hlt : u.length < 2 ^ 32) :
    ∃ ba', streamStep ba (.getBytes (-1)) = (ba', .ofBytes u) ∧ Reads ba' [] := by
  have hsize : toSize (-1) = 2 ^ 64 - 1 := rfl
  have hlen : takeLen (-1) u = u.length := by
    rw [takeLen, hsize]
    omega
  obtain ⟨ba', hget, hreads⟩ := h.getBytes (n := -1) (by rw [hsize]; omega)
  rw [hlen, List.take_length] at hget
  rw [hlen, List.drop_length] at hreads
  exact ⟨ba', hget, hreads⟩

/-- The body is whole. -/
theorem returns_whole {n : LuaNumber} {input : Bytearray} (hphase : r.phase = .length t)
    (hn : r.contentLength = some n) (hget : streamStep r.conn.input (.getBytes (-1)) = (input, .ofBytes u))
    (hvalue : n.value = intValue (t ++ u).length) : r.Returns { r.ret with body := some (t ++ u) } := by
  apply Returns.of_step
  have hstep : r.step =
      finish { r with conn := ((r.conn.withInput input).receive 1).2 } (t ++ u) := by
    rw [step_length hphase]
    simp only [lengthRound, hget, hn, bytes_ofBytes, hvalue, intValue_le_iff, le_refl, decide_true,
      Bool.true_or, if_true]
  rw [hstep]
  exact returns_of_returned rfl

/-- **A body of a given length is returned**, however it is cut. -/
theorem returns_length (m : ℕ) : ∀ {r : ClientRun} {t b u : List UInt8} {n : LuaNumber},
    r.phase = .length t → r.contentLength = some n → n.value = intValue (t ++ b).length →
    r.conn.At [⟨false, b⟩] u → b.length + (if u = [] then 1 else 0) < m →
    r.Returns { r.ret with body := some (t ++ b) } := by
  induction m with
  | zero =>
      intro r t b u n _ _ _ _ hlen
      exact absurd hlen (Nat.not_lt_zero _)
  | succ m ih =>
      intro r t b u n hphase hn hvalue h hlen
      obtain ⟨input, hget, hreads⟩ := getAll h.reads h.short
      have hbytes : u ++ r.conn.chunks.flatten = b := by
        rw [h.bytes, spell_cons, spell_nil, List.append_nil]
      by_cases hrest : r.conn.chunks.flatten = []
      · rw [hrest, List.append_nil] at hbytes
        subst hbytes
        exact returns_whole hphase hn hget hvalue
      · -- more is to come
        have haligned : Aligned [⟨false, r.conn.chunks.flatten⟩] [] r.conn.chunks := by
          refine Aligned.skip (x := u) ?_
          rw [hbytes, List.append_nil]
          exact h.aligned
        have hleft : (r.conn.withInput input).At [⟨false, r.conn.chunks.flatten⟩] [] :=
          h.withInput hreads (by simp) haligned (Nat.zero_le _)
        have hpos := List.length_pos_of_ne_nil hrest
        obtain ⟨conn, u', hreceive, h', hpos'⟩ := hleft.receive (e := 1) (by omega) (by
          rw [spell_cons, spell_nil, List.append_nil]
          exact hpos)
        have hcount := congrArg List.length hbytes
        rw [List.length_append] at hcount
        have hless : ¬((t ++ b).length : ℤ) ≤ ((t ++ u).length : ℤ) := by
          simp only [List.length_append]
          omega
        have hstep : r.step = { r with conn := conn, phase := .length (t ++ u) } := by
          rw [step_length hphase]
          simp only [lengthRound, hget, hreceive, hn, bytes_ofBytes, hvalue, intValue_le_iff, hless,
            decide_false, Bool.not_true, Bool.or_false, Bool.false_eq_true, if_false]
        apply Returns.of_step
        rw [hstep, ← hbytes, ← List.append_assoc]
        refine ih (u := u') rfl hn (by rw [hvalue, ← hbytes, List.append_assoc]) h' ?_
        rw [if_neg (List.ne_nil_of_length_pos hpos')]
        have hu : u = [] ∨ 0 < u.length := by
          rcases u with - | ⟨c, u⟩
          · exact Or.inl rfl
          · exact Or.inr (by simp)
        rcases hu with rfl | hu
        · rw [if_pos rfl] at hlen
          simp only [List.length_nil] at hcount
          omega
        · omega

end ClientRun

/-! ## Rounds over chunks -/

namespace ClientRun

variable {r : ClientRun} {ret : HttpRet} {ts : List (Segment UInt8)} {u t : List UInt8}

/-- A round ends, and more is to come. -/
theorem nextChunk_eq (h : r.conn.At ts u) (hpos : 1 ≤ (spell ts).length) (t : List UInt8) (n : Option ℤ) :
    ∃ conn v, r.nextChunk t n = { r with conn := conn, phase := .chunks t n } ∧ conn.At ts v ∧ v ≠ [] := by
  obtain ⟨conn, v, hreceive, hv, hlen⟩ := h.receive (by omega) hpos
  refine ⟨conn, v, ?_, hv, List.ne_nil_of_length_pos hlen⟩
  rw [nextChunk, hreceive]

theorem readline_empty {ba : Bytearray} (h : Reads ba []) :
    ∃ ba', readline ba = (none, ba') ∧ Reads ba' [] := by
  have hread := readline_reads h
  have hsplit : splitLine [] = none := rfl
  rw [hsplit] at hread
  exact ⟨_, Prod.ext hread.1 rfl, hread.2⟩

/-- While nothing is buffered, a round only receives. -/
theorem returns_refill (hphase : r.phase = .chunks t (some 0)) (h : r.conn.At ts u)
    (hpos : 1 ≤ (spell ts).length)
    (hret : ∀ conn v, conn.At ts v → v ≠ [] → Returns { r with conn := conn } ret) : r.Returns ret := by
  by_cases hu : u = []
  · subst hu
    obtain ⟨input, hnone, hinput⟩ := readline_empty h.reads
    have h' : (r.conn.withInput input).At ts [] := h.withInput hinput h.bytes h.aligned le_rfl
    obtain ⟨conn, v, hnext, hv, hne⟩ :=
      nextChunk_eq (r := { r with conn := r.conn.withInput input }) h' hpos t (some 0)
    apply Returns.of_step
    have hstep : r.step = { r with conn := conn } := by
      rw [step_chunks hphase, if_neg (lt_irrefl 0), chunkSize, hnone]
      simp only [hnext, ← hphase]
    rw [hstep]
    exact hret conn v hv hne
  · exact hret r.conn u h hu

/-- A line of one LF is passed over. -/
theorem returns_lf (hphase : r.phase = .chunks t (some 0)) (h : r.conn.At (⟨false, [lf]⟩ :: ts) u)
    (hpos : 1 ≤ (spell ts).length)
    (hret : ∀ conn v, conn.At ts v → Returns { r with conn := conn } ret) : r.Returns ret := by
  refine returns_refill hphase h (by simp) ?_
  intro conn u' h' hne
  obtain ⟨v, rfl, hv⟩ := split_of_length_le (x := [lf]) h'.bytes (List.length_pos_of_ne_nil hne)
  obtain ⟨input, hline, hinput⟩ := readline_line (l := []) (Or.inr rfl) rfl h'.reads
  have hpassed : (conn.withInput input).At ts v :=
    h'.withInput hinput hv h'.aligned.drop (by simp)
  obtain ⟨conn', v', hnext, hv', -⟩ :=
    nextChunk_eq (r := { r with conn := conn.withInput input }) hpassed hpos t (some 0)
  apply Returns.of_step
  have hstep : step { r with conn := conn } = { r with conn := conn' } := by
    have hflag : ([lf] : List UInt8) ≠ [cr, lf] := by decide
    rw [step_chunks (r := { r with conn := conn }) hphase, if_neg (lt_irrefl 0), chunkSize, hline]
    simp only [hflag, if_false, hnext, ← hphase]
  rw [hstep]
  exact hret conn' v' hv'

/-- The size of a chunk is read. -/
theorem step_size {c : Chunk} (hext : c.ext = []) (hlt : c.data.length < 2 ^ 63)
    (hphase : r.phase = .chunks t (some 0)) (h : r.conn.At (⟨true, c.sizeLine ++ [cr, lf]⟩ :: ts) u)
    (hne : u ≠ []) :
    ∃ conn v, conn.At ts v ∧
      r.step = if c.data = [] then lastChunk { r with conn := conn } t
        else nextChunk { r with conn := conn } t (some c.data.length) := by
  have hline : c.sizeLine = c.size := by rw [Chunk.sizeLine, hext, List.append_nil]
  have hend : hasLineEnd c.size = false := hasLineEnd_of_forall (fun _ => not_lineEnd_of_isXDigit) c.size_digits
  rw [hline] at h
  obtain ⟨input, v, hread, hv⟩ := h.line hne hend
  have hnum := tonumber16_size c.size_ne c.size_digits (by rw [c.size_eq]; exact hlt)
  rw [c.size_eq] at hnum
  refine ⟨r.conn.withInput input, v, hv, ?_⟩
  rw [step_chunks hphase, if_neg (lt_irrefl 0), chunkSize, hread]
  simp only [hnum, if_true, Option.some.injEq, Nat.cast_eq_zero, List.length_eq_zero_iff]

/-- What `GetBytes` takes of a chunk: a part of its data that is not empty. -/
theorem getData {conn : ClientConn} {d : List UInt8} (hd : d ≠ []) (hlt : d.length < 2 ^ 63)
    (h : conn.At (⟨false, d ++ [cr, lf]⟩ :: ts) u) (hne : u ≠ []) :
    ∃ x y input, d = x ++ y ∧ x ≠ [] ∧
      streamStep conn.input (.getBytes d.length) = (input, .string x) ∧
      ∃ v, (conn.withInput input).At (⟨false, y ++ [cr, lf]⟩ :: ts) v := by
  have hpos := List.length_pos_of_ne_nil hd
  have hupos := List.length_pos_of_ne_nil hne
  have hsize : toSize d.length = d.length := by
    rw [toSize]
    omega
  have hlen : takeLen d.length u = min d.length u.length := by
    have hshort := h.short
    rw [takeLen, hsize]
    omega
  obtain ⟨input, hget, hreads⟩ := h.reads.getBytes (n := d.length) (by rw [hsize]; omega)
  rw [hlen] at hget hreads
  generalize hk : min d.length u.length = k at hget hreads
  have hbytes := h.bytes
  rw [spell_cons, List.append_assoc] at hbytes
  have htake : u.take k = d.take k := by
    have hpre := congrArg (List.take k) hbytes
    rwa [List.take_append_of_le_length (by omega), List.take_append_of_le_length (by omega)] at hpre
  have hdrop : u.drop k ++ conn.chunks.flatten = d.drop k ++ ([cr, lf] ++ spell ts) := by
    have hsuffix := congrArg (List.drop k) hbytes
    rwa [List.drop_append_of_le_length (by omega), List.drop_append_of_le_length (by omega)] at hsuffix
  have haligned : Aligned (⟨false, d.drop k ++ [cr, lf]⟩ :: ts) (u.drop k) conn.chunks := by
    refine Aligned.skip (x := d.take k) ?_
    rw [← List.append_assoc, List.take_append_drop, ← htake, List.take_append_drop]
    exact h.aligned
  have hx : 0 < (d.take k).length := by
    rw [List.length_take]
    omega
  refine ⟨d.take k, d.drop k, input, (List.take_append_drop k d).symm, List.ne_nil_of_length_pos hx, ?_,
    u.drop k, h.withInput hreads ?_ haligned ?_⟩
  · rw [hget, htake, StreamResult.ofBytes, if_pos hx]
  · rw [hdrop, spell_cons, List.append_assoc]
  · rw [List.length_drop]
    omega

/-- **The data of a chunk is read**, however it is cut, with the CR LF behind it. -/
theorem returns_data (m : ℕ) (hpos : 1 ≤ (spell ts).length) : ∀ {r : ClientRun} {t d u : List UInt8},
    r.phase = .chunks t (some d.length) → d ≠ [] → d.length < 2 ^ 63 → d.length < m →
    r.conn.At (⟨false, d ++ [cr, lf]⟩ :: ts) u → u ≠ [] →
    (∀ conn v, conn.At ts v → Returns { r with conn := conn, phase := .chunks (t ++ d) (some 0) } ret) →
    r.Returns ret := by
  induction m with
  | zero =>
      intro r t d u _ _ _ hm
      exact absurd hm (Nat.not_lt_zero _)
  | succ m ih =>
      intro r t d u hphase hd hlt hm h hne hret
      obtain ⟨x, y, input, rfl, hx, hget, v, hv⟩ := getData hd hlt h hne
      have hxpos := List.length_pos_of_ne_nil hx
      obtain ⟨conn, u', hreceive, h', hlen⟩ := hv.receive (e := 2) le_rfl (by simp; omega)
      have hmissing : (0 : ℤ) < ((x ++ y).length : ℤ) := by
        rw [List.length_append]
        omega
      have hleft : ((x ++ y).length : ℤ) - (x.length : ℤ) = (y.length : ℤ) := by
        rw [List.length_append]
        omega
      apply Returns.of_step
      by_cases hy : y = []
      · -- the chunk is whole
        subst hy
        obtain ⟨input', v', hline, hv'⟩ := h'.line_of_le (l := []) hlen rfl
        obtain ⟨conn', w, hnext, hw, -⟩ :=
          nextChunk_eq (r := { r with conn := conn.withInput input' }) hv' hpos (t ++ x) (some 0)
        have hstep : r.step = { r with conn := conn', phase := .chunks (t ++ x) (some 0) } := by
          rw [step_chunks hphase, if_pos hmissing, chunkData, hget]
          simp only [hreceive, hleft, List.length_nil, Nat.cast_zero, if_true, hline, Option.map_some, hnext]
        rw [hstep]
        rw [List.append_nil] at hret
        exact hret conn' w hw
      · have hypos := List.length_pos_of_ne_nil hy
        have hynat : (y.length : ℤ) ≠ 0 := by omega
        rw [List.length_append] at hm hlt
        obtain ⟨conn', w, hnext, hw, hwne⟩ :=
          nextChunk_eq (r := { r with conn := conn }) h' (by simp; omega) (t ++ x) (some y.length)
        have hstep : r.step = { r with conn := conn', phase := .chunks (t ++ x) (some y.length) } := by
          rw [step_chunks hphase, if_pos hmissing, chunkData, hget]
          simp only [hreceive, hleft, hynat, if_false, hnext]
        rw [hstep]
        refine ih rfl hy (by omega) (by omega) hw hwne ?_
        intro conn'' v'' hv''
        rw [List.append_assoc]
        exact hret conn'' v'' hv''

/-- The chunks are read one after the other. -/
theorem returns_chunks {cs : List Chunk} (hcs : ∀ c ∈ cs, c.ext = [] ∧ c.data.length < 2 ^ 63)
    (hdata : ∀ c ∈ cs, c.data ≠ []) (hpos : 1 ≤ (spell ts).length)
    (hphase : r.phase = .chunks t (some 0)) (h : r.conn.At (cs.flatMap Chunk.segments ++ ts) u)
    (hret : ∀ conn v, conn.At ts v →
      Returns { r with conn := conn, phase := .chunks (t ++ cs.flatMap Chunk.data) (some 0) } ret) :
    r.Returns ret := by
  induction cs generalizing r t u with
  | nil =>
      have hback := hret r.conn u h
      rw [List.flatMap_nil, List.append_nil, ← hphase] at hback
      exact hback
  | cons c cs ih =>
      obtain ⟨hext, hlt⟩ := hcs c List.mem_cons_self
      have hne := hdata c List.mem_cons_self
      have hpos' : 1 ≤ (spell (cs.flatMap Chunk.segments ++ ts)).length := by
        rw [spell_append, List.length_append]
        omega
      refine returns_refill hphase h (by simp [Chunk.segments]; omega) ?_
      intro conn v hv hvne
      obtain ⟨conn₁, v₁, hv₁, hstep⟩ := step_size (r := { r with conn := conn }) hext hlt hphase hv hvne
      obtain ⟨conn₂, v₂, hnext, hv₂, hne₂⟩ :=
        nextChunk_eq (r := { r with conn := conn₁ }) hv₁ (by simp; omega) t (some c.data.length)
      apply Returns.of_step
      rw [hstep, if_neg hne, hnext]
      refine returns_data (c.data.length + 1) hpos' rfl hne hlt (Nat.lt_succ_self _) hv₂ hne₂ ?_
      intro conn₃ v₃ hv₃
      refine ih (fun c' hc' => hcs c' (List.mem_cons_of_mem c hc'))
        (fun c' hc' => hdata c' (List.mem_cons_of_mem c hc')) rfl hv₃ ?_
      intro conn₄ v₄ hv₄
      rw [List.append_assoc, ← List.flatMap_cons]
      exact hret conn₄ v₄ hv₄

/-- What follows the chunk of size 0 begins with a whole line. -/
theorem readline_trailer {conn : ClientConn} {fs : List Field} (h : conn.At (trailerSegments fs) u)
    (hle : 2 ≤ u.length) : ∃ l input, readline conn.input = (some (l, [cr, lf]), input) := by
  cases fs with
  | nil =>
      obtain ⟨input, -, hline, -⟩ := h.line_of_le (l := []) hle rfl
      exact ⟨[], input, hline⟩
  | cons f fs =>
      obtain ⟨b, l, hbl⟩ := List.exists_cons_of_ne_nil f.line_ne
      have hend := f.line_end
      rw [trailerSegments, hbl] at h
      rw [hbl] at hend
      obtain ⟨v, rfl, hv⟩ := split_of_length_le (x := [b]) h.bytes (by simp; omega)
      have hne : v ≠ [] := List.ne_nil_of_length_pos (by
        rw [List.length_append, List.length_singleton] at hle
        omega)
      obtain ⟨w, rfl, -⟩ := Aligned.covers (Aligned.drop h.aligned) rfl hne hv
      have hreads := h.reads
      rw [← List.append_assoc, ← List.append_assoc] at hreads
      obtain ⟨input, hline, -⟩ := readline_line (Or.inl rfl) hend hreads
      exact ⟨b :: l, input, hline⟩

/-- The chunk of size 0 ends the body. -/
theorem returns_last {c : Chunk} {fs : List Field} (hext : c.ext = []) (hdata : c.data = [])
    (hphase : r.phase = .chunks t (some 0))
    (h : r.conn.At (⟨true, c.sizeLine ++ [cr, lf]⟩ :: trailerSegments fs) u) :
    r.Returns { r.ret with body := some t } := by
  refine returns_refill hphase h (by simp; omega) ?_
  intro conn v hv hvne
  obtain ⟨conn₁, v₁, hv₁, hstep⟩ :=
    step_size (r := { r with conn := conn }) hext (by simp [hdata]) hphase hv hvne
  have htwo : 2 ≤ (spell (trailerSegments fs)).length := by
    rw [HttpResponse.spell_trailerSegments]
    simp
  obtain ⟨conn₂, v₂, hreceive, hv₂, hlen⟩ := hv₁.receive le_rfl htwo
  obtain ⟨l, input, hline⟩ := readline_trailer hv₂ hlen
  apply Returns.of_step
  rw [hstep, if_pos hdata]
  have hlast : lastChunk { r with conn := conn₁ } t =
      finish { r with conn := conn₂.withInput input } t := by
    simp only [lastChunk, hreceive, hline, Option.map_some, if_true]
  rw [hlast]
  exact returns_of_returned rfl

end ClientRun

/-! ## Whole responses -/

/-- The chunks of a response do not cut a segment that `request` needs whole, and each of them
fits into the sizes of a stream. -/
structure HttpResponse.Uncut (p : HttpResponse) (chunks : List (List UInt8)) : Prop where
  aligned : Aligned p.segments [] chunks
  short : ∀ c ∈ chunks, c.length + 1 < 2 ^ 32

namespace ClientRun

variable {p : HttpResponse} {chunks : List (List UInt8)} (message : List UInt8)

/-- The state behind the status line. -/
def afterStatus (p : HttpResponse) (conn : ClientConn) : ClientRun :=
  ⟨conn, { p.expected with headers := [], body := none }, true, some (.integer 0), false, .head⟩

theorem headLine_statusLine (conn : ClientConn) :
    headLine { start chunks message with conn := conn } p.statusLine = afterStatus p conn := by
  rw [headLine, if_neg HttpResponse.statusLine_ne, if_neg (by simp [start]), HttpResponse.matchStatus_statusLine,
    afterStatus, HttpResponse.expected]
  by_cases hreason : p.reason = []
  · simp only [hreason, if_true, Option.bind_none, Option.map_none, start]
  · simp only [hreason, if_false, Option.bind_some, Option.map_some, start, HttpResponse.str2num_status]

/-- The status line is read when the first chunk has come. -/
theorem step_start {ts : List (Segment UInt8)} (hbytes : chunks.flatten = p.bytes)
    (huncut : p.Uncut chunks) (hts : p.segments = ⟨true, p.statusLine ++ [cr, lf]⟩ :: ts) :
    ∃ conn v, (start chunks message).step = afterStatus p conn ∧ conn.At ts v := by
  have hempty : (newTape []).unread = [] := rfl
  have hpark := receive_parked TcpRead.new 1 rfl (by decide)
  have hspell : chunks.flatten = spell p.segments := by rw [hbytes, HttpResponse.spell_segments]
  have hpos : 1 ≤ (spell p.segments).length := by
    rw [hts]
    simp
    omega
  obtain ⟨conn, u, harrive, hat, hlen⟩ :=
    ClientConn.arrive_at { TcpRead.new with receivingExpect := 1, receiving := true } message chunks
      (new_represents []) rfl rfl (by rw [hempty]; exact Nat.one_pos) (by decide) hpos hspell
      huncut.aligned huncut.short
  rw [hts] at hat
  obtain ⟨input, v, hline, hv⟩ := hat.line (List.ne_nil_of_length_pos hlen) HttpResponse.statusLine_end
  refine ⟨conn.withInput input, v, ?_, hv⟩
  have hreceive : (start chunks message).conn.receive 1 = (true, conn) := by
    rw [ClientConn.receive, start, hpark]
    exact harrive
  rw [step_head rfl, headRound, hreceive]
  simp only [hline]
  exact headLine_statusLine message _

/-- The body of a given length is returned. -/
theorem returns_sized {b : List UInt8} (hpayload : p.payload = .sized b) (hlt : b.length < 2 ^ 63)
    {conn : ClientConn} {u : List UInt8}
    (h : conn.At (⟨p.payload.isCounted, [cr, lf]⟩ :: p.payload.segments) u) :
    ((afterStatus p conn).afterFields p.fields conn).Returns p.expected := by
  have hframed := p.framed
  rw [hpayload] at hframed h
  obtain ⟨hexists, hlengths, hplain⟩ := hframed
  have hvalue : (LuaNumber.integer (Int64.ofInt b.length)).value = intValue b.length := by
    rw [LuaNumber.value, Int64.toInt_ofInt_of_le (by omega) (by omega)]
  have hcounted := counted_eq hlt hlengths (some (.integer 0)) (Or.inr hexists)
  have hnone : p.fields.any asksChunks = false := by
    rw [List.any_eq_false]
    intro f hf
    simp [asksChunks, hplain f hf]
  have hexpected : { ((afterStatus p conn).afterFields p.fields conn).ret with body := some ([] ++ b) } =
      p.expected := by
    simp only [afterFields, afterStatus, HttpResponse.expected, hpayload, Payload.decoded, List.nil_append]
  obtain ⟨conn', v, hstep, hend⟩ :=
    step_end (r := (afterStatus p conn).afterFields p.fields conn) rfl h
  apply Returns.of_step
  rw [hstep, ← hexpected]
  have hphase : headLine { (afterStatus p conn).afterFields p.fields conn with conn := conn' } [] =
      { (afterStatus p conn).afterFields p.fields conn with conn := conn', phase := .length [] } := by
    simp only [headLine, if_true, afterFields, afterStatus, hnone, Bool.or_false, Bool.false_eq_true,
      if_false]
  rw [hphase]
  rcases hend with hat | ⟨hfree, rfl, hat⟩
  · exact returns_length _ rfl hcounted hvalue hat (Nat.lt_succ_self _)
  · -- there is no body, and the LF is not waited for
    have hb : b = [] := by simpa [Payload.isCounted] using hfree
    subst hb
    obtain ⟨input, hget, -⟩ := getAll hat.reads hat.short
    exact returns_whole rfl hcounted hget hvalue

/-- The body in chunks is returned. -/
theorem returns_chunked {cs : List Chunk} {last : Chunk} {trailers : List Field}
    (hpayload : p.payload = .chunked cs last trailers) (hknown : p.Known) {conn : ClientConn}
    {u : List UInt8} (h : conn.At (⟨p.payload.isCounted, [cr, lf]⟩ :: p.payload.segments) u) :
    ((afterStatus p conn).afterFields p.fields conn).Returns p.expected := by
  have hframed := p.framed
  rw [HttpResponse.Known] at hknown
  rw [hpayload] at hframed h hknown
  obtain ⟨-, -, hdata, hlast⟩ := hframed
  obtain ⟨⟨f, hf, hasks⟩, hcs⟩ := hknown
  have hany : p.fields.any asksChunks = true := by
    rw [List.any_eq_true]
    exact ⟨f, hf, by simp [asksChunks, hasks]⟩
  have hplain : ∀ c ∈ cs, c.ext = [] ∧ c.data.length < 2 ^ 63 :=
    fun c hc => hcs c (List.mem_append_left _ hc)
  have hext := (hcs last (List.mem_append_right cs (List.mem_singleton_self last))).1
  obtain ⟨conn', v, hstep, hend⟩ :=
    step_end (r := (afterStatus p conn).afterFields p.fields conn) rfl h
  have hphase : headLine { (afterStatus p conn).afterFields p.fields conn with conn := conn' } [] =
      { (afterStatus p conn).afterFields p.fields conn with conn := conn', phase := .chunks [] (some 0) } := by
    simp only [headLine, if_true, afterFields, afterStatus, hany, Bool.or_true]
  have hbody : ∀ conn' v', conn'.At (cs.flatMap Chunk.segments ++
      ⟨true, last.sizeLine ++ [cr, lf]⟩ :: trailerSegments trailers) v' →
      Returns { (afterStatus p conn).afterFields p.fields conn with
        conn := conn', phase := .chunks [] (some 0) } p.expected := by
    intro conn' v' hat
    refine returns_chunks hplain hdata (by simp; omega) rfl hat ?_
    intro conn'' v'' hat'
    have hexpected : { ((afterStatus p conn).afterFields p.fields conn).ret with
        body := some ([] ++ cs.flatMap Chunk.data) } = p.expected := by
      simp only [afterFields, afterStatus, HttpResponse.expected, hpayload, Payload.decoded, List.nil_append]
    rw [← hexpected]
    exact returns_last hext hlast rfl hat'
  apply Returns.of_step
  rw [hstep, hphase]
  rcases hend with hat | ⟨-, -, hat⟩
  · exact hbody conn' v hat
  · refine returns_lf rfl hat ?_ fun conn'' v'' hat' => hbody conn'' v'' hat'
    rw [Payload.segments, spell_append, List.length_append, spell_cons, List.length_append]
    simp
    omega

/-- **A response that is not cut is returned.** -/
theorem returns_expected (hbytes : chunks.flatten = p.bytes) (hknown : p.Known) (huncut : p.Uncut chunks) :
    (start chunks message).Returns p.expected := by
  obtain ⟨conn, v, hstep, hat⟩ := step_start message hbytes huncut rfl
  apply Returns.of_step
  rw [hstep]
  refine returns_fields rfl rfl hat ?_
  intro conn' v' hat'
  cases hpayload : p.payload with
  | sized b =>
      rw [HttpResponse.Known, hpayload] at hknown
      exact returns_sized hpayload hknown hat'
  | chunked cs last trailers => exact returns_chunked hpayload hknown hat'

end ClientRun

/-- **What `request` returns does not depend on how the response is cut**, as long as no line of
the head and no size of a chunk is: it is the code, the headers and exactly the body, the same as
for a single chunk, for a response that is written without what `request` does not know. -/
theorem response_received (p : HttpResponse) (chunks : List (List UInt8)) (message : List UInt8)
    (hbytes : chunks.flatten = p.bytes) (hknown : p.Known) (huncut : p.Uncut chunks) :
    (ClientRun.start chunks message).Returns p.expected ∧
      (p.bytes.length + 1 < 2 ^ 32 → (ClientRun.start [p.bytes] message).Returns p.expected) := by
  refine ⟨ClientRun.returns_expected message hbytes hknown huncut, ?_⟩
  intro hshort
  refine ClientRun.returns_expected message (by simp) hknown ⟨?_, ?_⟩
  · rw [← HttpResponse.spell_segments]
    exact aligned_single p.segments
  · intro c hc
    rw [List.mem_singleton.mp hc]
    exact hshort

/-- A response with one chunk. -/
def chunkedResponse : HttpResponse where
  status := bytesOf "200"
  reason := bytesOf "OK"
  fields := [⟨bytesOf "Transfer-Encoding", bytesOf " chunked", by decide +kernel, by decide +kernel,
    by decide +kernel⟩]
  payload := .chunked
    [⟨bytesOf "3", [], bytesOf "abc", by decide +kernel, by decide +kernel, by decide +kernel, rfl,
      Or.inl rfl⟩]
    ⟨bytesOf "0", [], [], by decide +kernel, by decide +kernel, by decide +kernel, rfl, Or.inl rfl⟩ []
  status_length := by decide +kernel
  status_digits := by decide +kernel
  reason_end := by decide +kernel
  framed := by decide +kernel

/-- It comes in pieces that cut the data and the line ends behind it. -/
theorem response_received_chunked :
    (ClientRun.start [bytesOf "HTTP/1.1 200 OK\r\nTransfer-Encoding: chunked\r\n\r",
        bytesOf "\n3\r\na", bytesOf "bc\r", bytesOf "\n0\r\n\r", bytesOf "\n"] []).Returns
        chunkedResponse.expected ∧
      (ClientRun.start [chunkedResponse.bytes] []).Returns chunkedResponse.expected ∧
      chunkedResponse.expected.body = some (bytesOf "abc") := by
  have hknown : chunkedResponse.Known := by
    refine ⟨⟨_, List.mem_cons_self, by decide +kernel, by decide +kernel⟩, ?_⟩
    intro c hc
    rcases List.mem_pair.mp hc with rfl | rfl
    · exact ⟨rfl, by decide +kernel⟩
    · exact ⟨rfl, by decide +kernel⟩
  obtain ⟨hcut, hsingle⟩ := response_received chunkedResponse
    [bytesOf "HTTP/1.1 200 OK\r\nTransfer-Encoding: chunked\r\n\r", bytesOf "\n3\r\na", bytesOf "bc\r",
      bytesOf "\n0\r\n\r", bytesOf "\n"] [] (by decide +kernel) hknown
    ⟨by decide +kernel, by decide +kernel⟩
  exact ⟨hcut, hsingle (by decide +kernel), by decide +kernel⟩

/-- A response with a body of two bytes. -/
def sizedResponse : HttpResponse where
  status := bytesOf "200"
  reason := bytesOf "OK"
  fields := [⟨bytesOf "Content-Length", bytesOf " 2", by decide +kernel, by decide +kernel,
    by decide +kernel⟩]
  payload := .sized (bytesOf "hi")
  status_length := by decide +kernel
  status_digits := by decide +kernel
  reason_end := by decide +kernel
  framed := by
    refine ⟨⟨_, List.mem_cons_self, by decide +kernel⟩, ?_, by decide +kernel⟩
    intro f hf _
    rw [List.mem_singleton.mp hf]
    exact ⟨[32], [50], [], by decide +kernel, by decide +kernel, by decide +kernel, by decide +kernel,
      by decide +kernel, by decide +kernel⟩

theorem ClientRun.settles_raised {r : ClientRun} (hphase : r.phase = .raised) :
    Settles ClientRun.step ClientRun.outcome r .raised := by
  refine Settles.of_invariant (fun s => s = r) ?_ ?_ rfl
  · rintro s rfl
    rw [step, hphase]
  · rintro s rfl
    rw [outcome, hphase]

/-- **A header line in two pieces raises an error**, where the response in one piece is returned. -/
theorem response_cut_raises :
    [bytesOf "HTTP/1.1 200 OK\r\nCont", bytesOf "ent-Length: 2\r\n\r\nhi"].flatten = sizedResponse.bytes ∧
      (ClientRun.start [sizedResponse.bytes] []).Returns sizedResponse.expected ∧
      Settles ClientRun.step ClientRun.outcome
        (ClientRun.start [bytesOf "HTTP/1.1 200 OK\r\nCont", bytesOf "ent-Length: 2\r\n\r\nhi"] []) .raised ∧
      ¬(ClientRun.start [bytesOf "HTTP/1.1 200 OK\r\nCont", bytesOf "ent-Length: 2\r\n\r\nhi"] []).Returns
        sizedResponse.expected := by
  have hraised : Settles ClientRun.step ClientRun.outcome
      (ClientRun.start [bytesOf "HTTP/1.1 200 OK\r\nCont", bytesOf "ent-Length: 2\r\n\r\nhi"] []) .raised := by
    rw [← settles_iterate_iff 2]
    exact ClientRun.settles_raised (by decide +kernel)
  refine ⟨by decide +kernel, ?_, hraised, ?_⟩
  · exact ClientRun.returns_expected [] (by simp) (show 2 < 2 ^ 63 by decide)
      ⟨by decide +kernel, by decide +kernel⟩
  · intro hreturns
    cases hreturns.unique hraised

end LuaFan
