/-
# URL escaping (`modules/fan/http/http.lua`, `escape` and `unescape`)

`escape` keeps the unreserved characters and writes every other byte as a percent sign and its
value in base 16; `unescape` reads a percent sign and two digits back.

* `escape_round_trip`: what is escaped is well formed and read back, **exactly if** no byte is
  below 16.  Such a byte is written with one digit.
-/
import LuaFan.Lib.LuaPattern
import LuaFan.Httpd.Reply
import LuaFan.Http.Response

namespace LuaFan

open Fp LuaPattern

/-! ## The code -/

/-- `byte_white_map`. -/
def byteWhiteMap (ch : UInt8) : Option (List UInt8) :=
  if isAlnum ch || (bytesOf "_-~./").contains ch then some [ch] else none

/-- `byte_white_map_slash`. -/
def byteWhiteMapSlash (ch : UInt8) : Option (List UInt8) :=
  if ch = ascii '/' then some (bytesOf "%2F") else byteWhiteMap ch

/-- What `escape` writes for a byte; the format is `"%%%X"`. -/
def urlByte (encodeSlash : Bool) (ch : UInt8) : List UInt8 :=
  ((if encodeSlash then byteWhiteMapSlash else byteWhiteMap) ch).getD (ascii '%' :: upperHex ch.toNat)

def escape (value : List UInt8) (encodeSlash : Bool) : List UInt8 := value.flatMap (urlByte encodeSlash)

/-- The character with the given number.  The captures of `unescape` are two digits. -/
def unescapeHex : List CaptureValue → List UInt8
  | [.text hex] => [UInt8.ofNat (((tonumber16 hex).map Int64.toInt).getD 0).toNat]
  | _ => []

def unescape (value : List UInt8) : Except PatternError (List UInt8) :=
  gsub value (bytesOf "%%(%x%x)") unescapeHex

/-! ## What is escaped -/

/-- The characters that need no escape. -/
def isUnreserved (c : UInt8) : Bool := isAlnum c || (bytesOf "-._~").contains c

/-- Unreserved characters, percent signs with two hexadecimal digits, and slashes if these are
kept. -/
inductive IsEscaped (encodeSlash : Bool) : List UInt8 → Prop
  | nil : IsEscaped encodeSlash []
  | unreserved {c : UInt8} {text : List UInt8} (hc : isUnreserved c = true) (htext : IsEscaped encodeSlash text) :
      IsEscaped encodeSlash (c :: text)
  | percent {x y : UInt8} {text : List UInt8} (hx : isXDigit x = true) (hy : isXDigit y = true)
      (htext : IsEscaped encodeSlash text) : IsEscaped encodeSlash (ascii '%' :: x :: y :: text)
  | slash {text : List UInt8} (h : encodeSlash = false) (htext : IsEscaped encodeSlash text) :
      IsEscaped encodeSlash (ascii '/' :: text)

/-! ## The pattern of `unescape` -/

/-- A percent sign with two digits. -/
def scanPercent (c : UInt8) : List UInt8 → Option (ℕ × List CaptureValue)
  | x :: y :: _ => if c = ascii '%' ∧ isXDigit x = true ∧ isXDigit y = true then some (2, [.text [x, y]]) else none
  | _ => none

theorem attempt_percent {src rest : List UInt8} {s : ℕ} {c : UInt8} (hdrop : src.drop s = c :: rest) :
    attempt src (bytesOf "%%(%x%x)") s =
      .ok ((scanPercent c rest).map fun _ => (s + 3, [⟨s + 1, .closed 2⟩])) := by
  have hpattern : bytesOf "%%(%x%x)" = [ascii '%', ascii '%'] ++ ascii '(' ::
      ([ascii '%', ascii 'x'] ++ ([ascii '%', ascii 'x'] ++ [ascii ')'])) := by decide
  have hx : single [ascii '%', ascii 'x'] = isXDigit := by
    ext b
    revert b
    decide +kernel
  have hpercent : ∀ b, single [ascii '%', ascii '%'] b = (ascii '%' == b) := by decide +kernel
  have hitem : IsItem [ascii '%', ascii 'x'] := isItem_escaped (by decide) (by decide) (by decide)
  rw [hpattern, attempt]
  show matchHere src 9 199 _ s [] = _
  rw [matchHere_once (isItem_escaped (by decide) (by decide) (by decide)) (by decide) (by decide),
    matchHere_open (by decide) (by decide), matchHere_once hitem (by decide) (by decide),
    matchHere_once hitem (by decide) (by decide), matchHere_close, matchHere_nil, hx]
  have hfirst : src.drop (s + 1) = rest := drop_of_drop_eq_cons hdrop 0
  have hsecond : src.drop (s + 1 + 1) = rest.drop 1 := drop_of_drop_eq_cons hdrop 1
  rw [hdrop, hfirst, hsecond]
  simp only [List.head?_cons, Option.any_some, hpercent, beq_iff_eq]
  match rest with
  | [] => simp [scanPercent]
  | [x] => simp [scanPercent]
  | x :: y :: rest =>
      simp only [List.head?_cons, Option.any_some, List.drop_succ_cons, List.drop_zero, scanPercent]
      by_cases hc : ascii '%' = c
      · by_cases hx : isXDigit x = true
        · by_cases hy : isXDigit y = true <;> simp [hc.symm, hx, hy]
        · simp [hx]
      · simp [hc, Ne.symm hc]

theorem scans_percent : Scans (bytesOf "%%(%x%x)") scanPercent where
  found := by
    intro src s c rest n values hdrop hscan
    rw [attempt_percent hdrop, hscan]
    unfold scanPercent at hscan
    split at hscan
    · split at hscan
      · rename_i x y more hmatch
        cases hscan
        refine ⟨[⟨s + 1, .closed 2⟩], rfl, ?_⟩
        have hfirst : src.drop (s + 1) = x :: y :: more := drop_of_drop_eq_cons hdrop 0
        simp [captureValues, Capture.value, hfirst]
      · cases hscan
    · cases hscan
  missed := by
    intro src s c rest hdrop hscan
    rw [attempt_percent hdrop, hscan]
    rfl
  ended := by
    intro src s hdrop
    have hpattern : bytesOf "%%(%x%x)" = [ascii '%', ascii '%'] ++ bytesOf "(%x%x)" := by decide
    rw [hpattern, attempt]
    show matchHere src 9 199 _ s [] = _
    rw [matchHere_once (isItem_escaped (by decide) (by decide) (by decide)) (by decide) (by decide), hdrop]
    rfl

/-! ## Reading back -/

/-- A text with its escapes replaced. -/
def unescaped (text : List UInt8) : List UInt8 := (tokens scanPercent text).flatMap (Token.replaced unescapeHex)

theorem unescape_eq (text : List UInt8) : unescape text = .ok (unescaped text) := scans_percent.gsub_eq text unescapeHex

theorem unescaped_byte {c : UInt8} {text : List UInt8} (h : scanPercent c text = none) :
    unescaped (c :: text) = c :: unescaped text := by
  rw [unescaped, tokens, h]
  rfl

theorem unescaped_percent {x y : UInt8} {text : List UInt8} (hx : isXDigit x = true) (hy : isXDigit y = true) :
    unescaped (ascii '%' :: x :: y :: text) = unescapeHex [.text [x, y]] ++ unescaped text := by
  have hscan : scanPercent (ascii '%') (x :: y :: text) = some (2, [.text [x, y]]) := if_pos ⟨rfl, hx, hy⟩
  rw [unescaped, tokens, hscan]
  rfl

theorem scanPercent_of_ne {c : UInt8} (hc : c ≠ ascii '%') (text : List UInt8) : scanPercent c text = none := by
  unfold scanPercent
  split
  · exact if_neg fun h => hc h.1
  · rfl

section Escape

variable {encodeSlash : Bool} {c : UInt8} {s : List UInt8}

theorem escape_cons : escape (c :: s) encodeSlash = urlByte encodeSlash c ++ escape s encodeSlash :=
  List.flatMap_cons

/-- A byte from 16 on stands for itself or is written with two digits. -/
theorem urlByte_of_le (encodeSlash : Bool) (hc : 16 ≤ c) :
    urlByte encodeSlash c = [c] ∧ c ≠ ascii '%' ∧
        (isUnreserved c = true ∨ encodeSlash = false ∧ c = ascii '/') ∨
      ∃ x y, urlByte encodeSlash c = [ascii '%', x, y] ∧ isXDigit x = true ∧ isXDigit y = true ∧
        unescapeHex [.text [x, y]] = [c] := by
  have hall : ∀ (encodeSlash : Bool) (c : UInt8), 16 ≤ c →
      urlByte encodeSlash c = [c] ∧ c ≠ ascii '%' ∧
          (isUnreserved c = true ∨ encodeSlash = false ∧ c = ascii '/') ∨
        let x := (urlByte encodeSlash c).getD 1 0
        let y := (urlByte encodeSlash c).getD 2 0
        urlByte encodeSlash c = [ascii '%', x, y] ∧ isXDigit x = true ∧ isXDigit y = true ∧
          unescapeHex [.text [x, y]] = [c] := by decide +kernel
  rcases hall encodeSlash c hc with h | h
  · exact Or.inl h
  · exact Or.inr ⟨_, _, h⟩

/-- A byte below 16 is written with one digit. -/
theorem urlByte_of_lt (encodeSlash : Bool) (hc : ¬16 ≤ c) :
    ∃ x, urlByte encodeSlash c = [ascii '%', x] ∧ isXDigit x = true ∧ x ≠ ascii '%' ∧ x ≠ c := by
  have hall : ∀ (encodeSlash : Bool) (c : UInt8), ¬16 ≤ c →
      let x := (urlByte encodeSlash c).getD 1 0
      urlByte encodeSlash c = [ascii '%', x] ∧ isXDigit x = true ∧ x ≠ ascii '%' ∧ x ≠ c := by
    decide +kernel
  exact ⟨_, hall encodeSlash c hc⟩

/-- A text that is escaped and begins with a digit began with it before. -/
theorem eq_cons_of_escape {y : UInt8} {text : List UInt8} (h : escape s encodeSlash = y :: text)
    (hy : isXDigit y = true) : ∃ t, s = y :: t ∧ text = escape t encodeSlash := by
  have hpercent : y ≠ ascii '%' := by
    rintro rfl
    exact absurd hy (by decide)
  cases s with
  | nil => cases h
  | cons c t =>
      rw [escape_cons] at h
      by_cases hc : 16 ≤ c
      · rcases urlByte_of_le encodeSlash hc with ⟨hself, -, -⟩ | ⟨x, z, htwo, -, -, -⟩
        · rw [hself] at h
          injection h with hhead htail
          exact ⟨t, by rw [hhead], htail.symm⟩
        · rw [htwo] at h
          injection h with hhead htail
          exact absurd hhead.symm hpercent
      · obtain ⟨x, hone, -, -, -⟩ := urlByte_of_lt encodeSlash hc
        rw [hone] at h
        injection h with hhead htail
        exact absurd hhead.symm hpercent

theorem unescaped_escape_of_le (hc : 16 ≤ c) :
    unescaped (escape (c :: s) encodeSlash) = c :: unescaped (escape s encodeSlash) := by
  rw [escape_cons]
  rcases urlByte_of_le encodeSlash hc with ⟨hself, hne, -⟩ | ⟨x, y, htwo, hx, hy, hback⟩
  · rw [hself]
    exact unescaped_byte (scanPercent_of_ne hne _)
  · rw [htwo]
    exact (unescaped_percent hx hy).trans (by rw [hback]; rfl)

/-- A byte below 16 is read as a percent sign and a digit, or together with the digit behind
it. -/
theorem unescaped_escape_of_lt (encodeSlash : Bool) (hc : ¬16 ≤ c) :
    (∃ x, x ≠ c ∧ unescaped (escape (c :: s) encodeSlash) = ascii '%' :: x :: unescaped (escape s encodeSlash)) ∨
      ∃ b y t, s = y :: t ∧ unescaped (escape (c :: s) encodeSlash) = b :: unescaped (escape t encodeSlash) := by
  obtain ⟨x, hone, hx, hpercent, hne⟩ := urlByte_of_lt encodeSlash hc
  rw [escape_cons, hone]
  cases hscan : scanPercent (ascii '%') (x :: escape s encodeSlash) with
  | none =>
      refine Or.inl ⟨x, hne, ?_⟩
      exact (unescaped_byte hscan).trans
        (congrArg (ascii '%' :: ·) (unescaped_byte (scanPercent_of_ne hpercent _)))
  | some found =>
      cases hescape : escape s encodeSlash with
      | nil =>
          rw [hescape] at hscan
          cases hscan
      | cons y text =>
          rw [hescape] at hscan
          have hy : isXDigit y = true := by
            by_contra hnot
            have hnone : scanPercent (ascii '%') (x :: y :: text) = none := if_neg fun h => hnot h.2.2
            rw [hnone] at hscan
            cases hscan
          obtain ⟨t, hs, htext⟩ := eq_cons_of_escape hescape hy
          refine Or.inr ⟨UInt8.ofNat (((tonumber16 [x, y]).map Int64.toInt).getD 0).toNat, y, t, hs, ?_⟩
          rw [htext]
          exact unescaped_percent hx hy

/-- No text with something before it is what is read back. -/
theorem unescaped_ne_append {n : ℕ} : ∀ {s w : List UInt8}, s.length ≤ n → w ≠ [] →
    unescaped (escape s encodeSlash) ≠ w ++ s := by
  induction n with
  | zero =>
      intro s w hlen hw h
      rw [List.length_eq_zero_iff.mp (Nat.le_zero.mp hlen), List.append_nil] at h
      exact hw (h.symm.trans (by simp [escape, unescaped, tokens]))
  | succ n ih =>
      intro s w hlen hw h
      cases s with
      | nil =>
          rw [List.append_nil] at h
          exact hw (h.symm.trans (by simp [escape, unescaped, tokens]))
      | cons c t =>
          obtain ⟨a, w, rfl⟩ := List.exists_cons_of_ne_nil hw
          rw [List.length_cons] at hlen
          by_cases hc : 16 ≤ c
          · rw [unescaped_escape_of_le hc] at h
            injection h with hhead htail
            exact ih (s := t) (w := w ++ [c]) (by omega) (by simp) (by rw [htail]; simp)
          · rcases unescaped_escape_of_lt (s := t) encodeSlash hc with ⟨x, hne, heq⟩ | ⟨b, y, t', rfl, heq⟩
            · rw [heq] at h
              injection h with hhead htail
              cases w with
              | nil =>
                  injection htail with hx htail
                  exact hne hx
              | cons a' w =>
                  injection htail with hx htail
                  exact ih (s := t) (w := w ++ [c]) (by omega) (by simp) (by rw [htail]; simp)
            · rw [heq] at h
              injection h with hhead htail
              rw [List.length_cons] at hlen
              exact ih (s := t') (w := w ++ [c, y]) (by omega) (by simp) (by rw [htail]; simp)

theorem unescaped_escape (h : ∀ b ∈ s, 16 ≤ b) : unescaped (escape s encodeSlash) = s := by
  induction s with
  | nil => simp [escape, unescaped, tokens]
  | cons c t ih =>
      rw [List.forall_mem_cons] at h
      rw [unescaped_escape_of_le h.1, ih h.2]

/-- What is read back has no byte below 16. -/
theorem le_of_unescaped_escape (h : unescaped (escape s encodeSlash) = s) : ∀ b ∈ s, 16 ≤ b := by
  induction s with
  | nil => simp
  | cons c t ih =>
      have hc : 16 ≤ c := by
        by_contra hc
        rcases unescaped_escape_of_lt (s := t) encodeSlash hc with ⟨x, -, heq⟩ | ⟨b, y, t', rfl, heq⟩
        · rw [heq] at h
          injection h with hhead htail
          exact hc (by rw [← hhead]; decide)
        · rw [heq] at h
          injection h with hhead htail
          exact unescaped_ne_append le_rfl (List.cons_ne_nil y []) htail
      rw [unescaped_escape_of_le hc] at h
      injection h with hhead htail
      exact List.forall_mem_cons.mpr ⟨hc, ih htail⟩

theorem isEscaped_escape (h : ∀ b ∈ s, 16 ≤ b) : IsEscaped encodeSlash (escape s encodeSlash) := by
  induction s with
  | nil => exact .nil
  | cons c t ih =>
      rw [List.forall_mem_cons] at h
      have ht := ih h.2
      rw [escape_cons]
      rcases urlByte_of_le encodeSlash h.1 with ⟨hself, -, hkept⟩ | ⟨x, y, htwo, hx, hy, -⟩
      · rw [hself]
        rcases hkept with hc | ⟨hslash, rfl⟩
        · exact .unreserved hc ht
        · exact .slash hslash ht
      · rw [htwo]
        exact .percent hx hy ht

end Escape

/-- **Escaping a text**: it is read back and what is written is well formed exactly if it has no
byte below 16. -/
theorem escape_round_trip (s : List UInt8) (encodeSlash : Bool) :
    unescape (escape s encodeSlash) = .ok s ∧ IsEscaped encodeSlash (escape s encodeSlash) ↔
      ∀ b ∈ s, 16 ≤ b := by
  rw [unescape_eq, Except.ok.injEq]
  exact ⟨fun h => le_of_unescaped_escape h.1, fun h => ⟨unescaped_escape h, isEscaped_escape h⟩⟩

/-- A line feed and a zero are read back as one byte. -/
theorem escape_of_line_feed :
    escape [10, 48] true = bytesOf "%A0" ∧ unescape (escape [10, 48] true) = .ok [160] ∧
      unescape (escape [10, 48] true) ≠ .ok [10, 48] := by
  have hback : unescape (escape [10, 48] true) = .ok [160] := by decide +kernel
  refine ⟨by decide +kernel, hback, ?_⟩
  rw [hback]
  decide

end LuaFan
