/-
# JSON texts

The grammar of RFC 8259 over bytes, with what a reader may do differently left open: which
words are numbers, which strings it takes, and whether a comma may stand before a closing
bracket.  `Derives d k s r` says that the text `s` starts with a `k` and that `r` is left.

`scan` reads such a text from left to right.  It finds exactly the derivable texts
(`scanText_iff`), and what two readers both find is derivable with the tokens they share
(`text_meet`).  The grammar has characters of its own, so that a reader can be compared with it.
-/
import LuaFan.Lib.Numeral

namespace JsonText

open Fp

/-! ## Characters -/

def isWs (c : UInt8) : Bool := c == 32 || c == 9 || c == 13 || c == 10

/-- What ends a number or a literal. -/
def isDelim (c : UInt8) : Bool := isWs c || c == ascii ']' || c == ascii '\x7d' || c == ascii ','

def skipWs (s : List UInt8) : List UInt8 := s.dropWhile isWs

/-- The bytes before the next delimiter. -/
def word (s : List UInt8) : List UInt8 := s.takeWhile fun c => !isDelim c

/-! ## Tokens -/

/-- A piece of a string: a byte, a one-letter escape, or four hexadecimal digits. -/
inductive Piece where
  | raw (c : UInt8)
  | esc (c : UInt8)
  | uni (a b c d : UInt8)
  deriving DecidableEq

namespace Piece

def spell : Piece → List UInt8
  | raw c => [c]
  | esc c => [ascii '\\', c]
  | uni a b c d => [ascii '\\', ascii 'u', a, b, c, d]

def isEscape (c : UInt8) : Bool :=
  c == ascii '"' || c == ascii '\\' || c == ascii '/' || c == ascii 'b' || c == ascii 'f'
    || c == ascii 'n' || c == ascii 'r' || c == ascii 't'

def isValid : Piece → Bool
  | raw c => !decide (c < 0x20) && c != ascii '"' && c != ascii '\\'
  | esc c => isEscape c
  | uni a b c d => isXDigit a && isXDigit b && isXDigit c && isXDigit d

end Piece

/-- What a reader takes; a number is a word that starts like one. -/
structure Dialect where
  number : List UInt8 → Bool
  number_start : ∀ w, number w = true → ∃ c ∈ w.head?, isDigit c || c == ascii '-'
  number_word : ∀ w, number w = true → ∀ c ∈ w, isDelim c = false
  pieces : List Piece → Bool
  trailing : Bool

/-- `true`, `false` and `null`. -/
def literals : List (List UInt8) := [bytesOf "true", bytesOf "false", bytesOf "null"]

/-! ## Grammar -/

/-- White space in front of `r`. -/
def Ws (s r : List UInt8) : Prop := ∃ w : List UInt8, (∀ c ∈ w, isWs c = true) ∧ s = w ++ r

/-- What follows is a delimiter or nothing. -/
def Ended (r : List UInt8) : Prop := ∀ c ∈ r.head?, isDelim c = true

/-- A string in front of `r`. -/
def Quoted (d : Dialect) (s r : List UInt8) : Prop :=
  ∃ ps : List Piece, (∀ p ∈ ps, p.isValid = true) ∧ d.pieces ps = true ∧
    s = ascii '"' :: ps.flatMap Piece.spell ++ ascii '"' :: r

/-- A value, or with `true` a member; and a list of them. -/
inductive Kind where
  | one (isMember : Bool)
  | many (isMember : Bool)

/-- The brackets around values and members. -/
def opening : Bool → UInt8
  | false => ascii '['
  | true => ascii '\x7b'

def closing : Bool → UInt8
  | false => ascii ']'
  | true => ascii '\x7d'

inductive Derives (d : Dialect) : Kind → List UInt8 → List UInt8 → Prop
  | string {s r} : Quoted d s r → Derives d (.one false) s r
  | number {w r} : d.number w = true → Derives d (.one false) (w ++ r) r
  | literal {w r} : w ∈ literals → Derives d (.one false) (w ++ r) r
  | empty {m s r} : Ws s (closing m :: r) → Derives d (.one false) (opening m :: s) r
  | container {m s r} : Derives d (.many m) s (closing m :: r) →
      Derives d (.one false) (opening m :: s) r
  | member {s s₁ s₂ s₃ r} : Quoted d s s₁ → Ws s₁ (ascii ':' :: s₂) → Ws s₂ s₃ →
      Derives d (.one false) s₃ r → Derives d (.one true) s r
  | single {m s s₁ s₂ r} : Ws s s₁ → Derives d (.one m) s₁ s₂ → Ws s₂ r → Derives d (.many m) s r
  | more {m s s₁ s₂ s₃ r} : Ws s s₁ → Derives d (.one m) s₁ s₂ → Ws s₂ (ascii ',' :: s₃) →
      Derives d (.many m) s₃ r → Derives d (.many m) s r
  | trailing {m s s₁ s₂ s₃ r} : d.trailing = true → Ws s s₁ → Derives d (.one m) s₁ s₂ →
      Ws s₂ (ascii ',' :: s₃) → Ws s₃ r → Derives d (.many m) s r

/-- A JSON text: a value with white space around it. -/
def Text (d : Dialect) (s : List UInt8) : Prop :=
  ∃ s₁ s₂, Ws s s₁ ∧ Derives d (.one false) s₁ s₂ ∧ Ws s₂ []

/-! ## Reading -/

/-- One piece, and what is behind it. -/
def nextPiece : List UInt8 → Option (Piece × List UInt8)
  | [] => none
  | c :: s =>
      if c = ascii '\\' then
        match s with
        | [] => none
        | e :: s =>
            if e = ascii 'u' then
              match s with
              | a :: b :: c :: d :: s =>
                  if (Piece.uni a b c d).isValid then some (.uni a b c d, s) else none
              | _ => none
            else if Piece.isEscape e then some (.esc e, s)
            else none
      else if (Piece.raw c).isValid then some (.raw c, s)
      else none

/-- The pieces up to the closing quote, and what is behind it.  The first argument bounds
their number. -/
def readPieces : ℕ → List UInt8 → Option (List Piece × List UInt8)
  | 0, _ => none
  | n + 1, s =>
      if s.head? = some (ascii '"') then some ([], s.tail)
      else (nextPiece s).bind fun r => (readPieces n r.2).map fun r' => (r.1 :: r'.1, r'.2)

def scanString (d : Dialect) : List UInt8 → Option (List UInt8)
  | [] => none
  | c :: s =>
      if c = ascii '"' then
        (readPieces s.length s).bind fun r => if d.pieces r.1 then some r.2 else none
      else none

def scanMember (d : Dialect) (value : List UInt8 → Option (List UInt8)) (s : List UInt8) :
    Option (List UInt8) :=
  (scanString d s).bind fun s =>
    match skipWs s with
    | [] => none
    | c :: s => if c = ascii ':' then value (skipWs s) else none

/-- The items up to the closing bracket.  The first argument bounds their number. -/
def scanMany (d : Dialect) (close : UInt8) (item : List UInt8 → Option (List UInt8)) :
    ℕ → Bool → List UInt8 → Option (List UInt8)
  | 0, _, _ => none
  | n + 1, first, s =>
      if (first || d.trailing) = true ∧ (skipWs s).head? = some close then some (skipWs s).tail
      else
        (item (skipWs s)).bind fun s =>
          match skipWs s with
          | [] => none
          | c :: s =>
              if c = close then some s
              else if c = ascii ',' then scanMany d close item n false s
              else none

/-- What is left behind a value.  The first argument bounds the depth of the nesting. -/
def scan (d : Dialect) : ℕ → List UInt8 → Option (List UInt8)
  | 0, _ => none
  | _ + 1, [] => none
  | n + 1, c :: s =>
      if c = ascii '"' then scanString d (c :: s)
      else if c = ascii '[' then scanMany d (ascii ']') (scan d n) (s.length + 1) true s
      else if c = ascii '\x7b' then
        scanMany d (ascii '\x7d') (scanMember d (scan d n)) (s.length + 1) true s
      else if d.number (word (c :: s)) || literals.contains (word (c :: s)) then
        some ((c :: s).drop (word (c :: s)).length)
      else none

def scanText (d : Dialect) (s : List UInt8) : Bool :=
  match scan d (s.length + 1) (skipWs s) with
  | some r => (skipWs r).isEmpty
  | none => false

/-! ## White space and words -/

theorem ws_skipWs (s : List UInt8) : Ws s (skipWs s) :=
  ⟨s.takeWhile isWs, fun _ => List.mem_takeWhile_imp, (List.takeWhile_append_dropWhile ..).symm⟩

/-- White space is skipped as far as it goes. -/
theorem Ws.skipWs_eq {s r : List UInt8} (h : Ws s r) (hr : ∀ c ∈ r.head?, isWs c = false) :
    skipWs s = r := by
  obtain ⟨w, hw, rfl⟩ := h
  rw [skipWs, List.dropWhile_append_of_pos hw]
  cases r with
  | nil => rfl
  | cons c r => exact List.dropWhile_cons_of_neg (by simpa using hr c)

theorem Ws.length_le {s r : List UInt8} (h : Ws s r) : r.length ≤ s.length := by
  obtain ⟨w, -, rfl⟩ := h
  simp

theorem Ws.ended {s r : List UInt8} (h : Ws s r) (hr : Ended r) : Ended s := by
  obtain ⟨w, hw, rfl⟩ := h
  cases w with
  | nil => exact hr
  | cons c w =>
    intro c' hc'
    obtain rfl : c = c' := by simpa using hc'
    simp [isDelim, hw c List.mem_cons_self]

theorem ended_nil : Ended [] := fun _ h => nomatch h

theorem ended_cons {c : UInt8} {r : List UInt8} (h : isDelim c = true) : Ended (c :: r) := by
  intro c' hc'
  obtain rfl : c = c' := by simpa using hc'
  exact h

theorem isDelim_closing (m : Bool) : isDelim (closing m) = true := by cases m <;> decide

theorem isDelim_comma : isDelim (ascii ',') = true := by decide

theorem isWs_closing (m : Bool) : isWs (closing m) = false := by cases m <;> decide

/-- A word that ends where it should is found again. -/
theorem word_append {w r : List UInt8} (hw : ∀ c ∈ w, isDelim c = false) (hr : Ended r) :
    word (w ++ r) = w := by
  rw [word, List.takeWhile_append_of_pos (by simpa using hw)]
  cases r with
  | nil => simp
  | cons c r =>
    have hc : isDelim c = true := hr c rfl
    rw [List.takeWhile_cons_of_neg (by simp [hc]), List.append_nil]

theorem word_literal {w : List UInt8} (h : w ∈ literals) : ∀ c ∈ w, isDelim c = false := by
  simp only [literals, List.mem_cons, List.not_mem_nil, or_false] at h
  rcases h with rfl | rfl | rfl <;> simp [bytesOf, isDelim, isWs, ascii]

/-! ## Strings -/

theorem nextPiece_eq_some_iff {s r : List UInt8} {p : Piece} :
    nextPiece s = some (p, r) ↔ p.isValid = true ∧ s = p.spell ++ r := by
  constructor
  · intro h
    unfold nextPiece at h
    split at h
    · cases h
    · next c s =>
      split_ifs at h with hb hraw
      · subst hb
        split at h
        · cases h
        · next e s =>
          split_ifs at h with hu hesc
          · subst hu
            split at h
            · split_ifs at h with hhex
              cases h
              exact ⟨hhex, rfl⟩
            · cases h
          · cases h
            exact ⟨hesc, rfl⟩
      · cases h
        exact ⟨hraw, rfl⟩
  · rintro ⟨hp, rfl⟩
    cases p with
    | raw c =>
      have hb : c ≠ ascii '\\' := by
        rintro rfl
        exact absurd hp (by decide)
      simp [nextPiece, Piece.spell, hb, hp]
    | esc e =>
      have hu : e ≠ ascii 'u' := by
        rintro rfl
        exact absurd hp (by decide)
      have he : Piece.isEscape e = true := hp
      simp [nextPiece, Piece.spell, hu, he]
    | uni a b c d => simp [nextPiece, Piece.spell, hp]

theorem Piece.spell_head {p : Piece} (h : p.isValid = true) (r : List UInt8) :
    (p.spell ++ r).head? ≠ some (ascii '"') := by
  cases p with
  | raw c =>
    rintro hc
    obtain rfl : c = ascii '"' := by simpa [Piece.spell] using hc
    exact absurd h (by decide)
  | esc | uni => simp [Piece.spell, ascii]

theorem Piece.spell_length (p : Piece) : 0 < p.spell.length := by
  cases p <;> simp [Piece.spell]

theorem readPieces_eq_some_iff {n : ℕ} {s r : List UInt8} {ps : List Piece} (hn : s.length ≤ n) :
    readPieces n s = some (ps, r) ↔
      (∀ p ∈ ps, p.isValid = true) ∧ s = ps.flatMap Piece.spell ++ ascii '"' :: r := by
  induction n generalizing s ps with
  | zero =>
    obtain rfl := List.length_eq_zero_iff.mp (Nat.le_zero.mp hn)
    simp [readPieces]
  | succ n ih =>
    rw [readPieces]
    constructor
    · intro h
      split_ifs at h with hquote
      · obtain ⟨rfl, rfl⟩ := Prod.mk.inj (Option.some.inj h)
        obtain ⟨c, s⟩ | _ := s
        · simp at hquote
        · simp_all
      · obtain ⟨⟨p, s'⟩, hp, hmap⟩ := Option.bind_eq_some_iff.mp h
        obtain ⟨⟨ps', r'⟩, hps, heq⟩ := Option.map_eq_some_iff.mp hmap
        obtain ⟨rfl, rfl⟩ := Prod.mk.inj heq
        obtain ⟨hvalid, rfl⟩ := nextPiece_eq_some_iff.mp hp
        have hlen := p.spell_length
        rw [List.length_append] at hn
        have hn' : s'.length ≤ n := by omega
        obtain ⟨hall, rfl⟩ := (ih hn').mp hps
        exact ⟨List.forall_mem_cons.mpr ⟨hvalid, hall⟩, by simp⟩
    · rintro ⟨hall, rfl⟩
      cases ps with
      | nil => simp
      | cons p ps =>
        obtain ⟨hvalid, hall⟩ := List.forall_mem_cons.mp hall
        have hlen := p.spell_length
        simp only [List.flatMap_cons, List.append_assoc, List.length_append] at hn ⊢
        rw [if_neg (Piece.spell_head hvalid _), nextPiece_eq_some_iff.mpr ⟨hvalid, rfl⟩]
        have hn' : (ps.flatMap Piece.spell ++ ascii '"' :: r).length ≤ n := by
          rw [List.length_append]
          omega
        rw [Option.bind_some, (ih hn').mpr ⟨hall, rfl⟩]
        rfl

theorem scanString_eq_some_iff {d : Dialect} {s r : List UInt8} :
    scanString d s = some r ↔ Quoted d s r := by
  constructor
  · intro h
    unfold scanString at h
    split at h
    · cases h
    · split_ifs at h with hc
      subst hc
      obtain ⟨⟨ps, r'⟩, hps, hif⟩ := Option.bind_eq_some_iff.mp h
      split_ifs at hif with hpieces
      obtain rfl := Option.some.inj hif
      obtain ⟨hall, rfl⟩ := (readPieces_eq_some_iff le_rfl).mp hps
      exact ⟨ps, hall, hpieces, rfl⟩
  · rintro ⟨ps, hall, hpieces, rfl⟩
    rw [List.cons_append, scanString, if_pos rfl, (readPieces_eq_some_iff le_rfl).mpr ⟨hall, rfl⟩]
    simp [hpieces]

/-! ## What is derivable is found -/

variable {d : Dialect}

/-- One item of a list of values or members. -/
def scanItem (d : Dialect) (n : ℕ) : Bool → List UInt8 → Option (List UInt8)
  | false => scan d n
  | true => scanMember d (scan d n)

theorem Quoted.head {s r : List UInt8} (h : Quoted d s r) : s.head? = some (ascii '"') := by
  obtain ⟨ps, -, -, rfl⟩ := h
  rfl

theorem Quoted.length_lt {s r : List UInt8} (h : Quoted d s r) : r.length < s.length := by
  obtain ⟨ps, -, -, rfl⟩ := h
  simp
  omega

/-- The first byte of a word that is a value. -/
def startsWord (c : UInt8) : Bool :=
  isDigit c || c == ascii '-' || c == ascii 't' || c == ascii 'f' || c == ascii 'n'

theorem literal_head {w : List UInt8} (h : w ∈ literals) : ∃ c ∈ w.head?, startsWord c = true := by
  simp only [literals, List.mem_cons, List.not_mem_nil, or_false] at h
  rcases h with rfl | rfl | rfl <;> exact ⟨_, rfl, by decide⟩

theorem number_head {w : List UInt8} (h : d.number w = true) :
    ∃ c ∈ w.head?, startsWord c = true := by
  obtain ⟨c, hc, hstart⟩ := d.number_start w h
  rw [Bool.or_eq_true] at hstart
  refine ⟨c, hc, ?_⟩
  rcases hstart with h | h <;> simp [startsWord, h]

/-- The first byte of a value or a member. -/
def startsItem (c : UInt8) : Bool :=
  c == ascii '"' || c == ascii '[' || c == ascii '\x7b' || startsWord c

theorem startsItem_free {c : UInt8} (h : startsItem c = true) :
    isWs c = false ∧ ∀ m, c ≠ closing m := by
  constructor
  · by_contra hws
    rw [Bool.not_eq_false] at hws
    simp only [isWs, Bool.or_eq_true, beq_iff_eq] at hws
    rcases hws with ((rfl | rfl) | rfl) | rfl <;> exact absurd h (by decide)
  · rintro m rfl
    revert h
    cases m <;> decide

theorem Derives.head {k : Kind} {s r : List UInt8} (h : Derives d k s r) :
    ∀ m, k = .one m → ∃ c ∈ s.head?, startsItem c = true := by
  intro m hk
  have happend : ∀ w r : List UInt8, (∃ c ∈ w.head?, startsWord c = true) →
      ∃ c ∈ (w ++ r).head?, startsItem c = true := by
    rintro w r ⟨c, hc, hstart⟩
    refine ⟨c, ?_, by simp [startsItem, hstart]⟩
    cases w with
    | nil => cases hc
    | cons => exact hc
  cases h with
  | string hq => exact ⟨_, hq.head, by decide⟩
  | number hnum => exact happend _ _ (number_head hnum)
  | literal hlit => exact happend _ _ (literal_head hlit)
  | @empty m | @container m => exact ⟨_, rfl, by cases m <;> decide⟩
  | member hq => exact ⟨_, hq.head, by decide⟩
  | single | more | trailing => cases hk

theorem Derives.length_le {k : Kind} {s r : List UInt8} (h : Derives d k s r) :
    r.length ≤ s.length := by
  induction h with
  | string hq => exact hq.length_lt.le
  | number | literal => simp
  | empty hws =>
    have := hws.length_le
    simp only [List.length_cons] at this ⊢
    omega
  | container _ ih =>
    simp only [List.length_cons] at ih ⊢
    omega
  | member hq hws hws' _ ih =>
    have := hq.length_lt
    have := hws.length_le
    have := hws'.length_le
    simp only [List.length_cons] at *
    omega
  | single hws _ hws' ih =>
    have := hws.length_le
    have := hws'.length_le
    omega
  | more hws _ hws' _ ih ih' =>
    have := hws.length_le
    have := hws'.length_le
    simp only [List.length_cons] at *
    omega
  | trailing _ hws _ hws' hws'' ih =>
    have := hws.length_le
    have := hws'.length_le
    have := hws''.length_le
    simp only [List.length_cons] at *
    omega

theorem scan_string {n : ℕ} {s : List UInt8} (h : s.head? = some (ascii '"')) :
    scan d (n + 1) s = scanString d s := by
  cases s with
  | nil => cases h
  | cons c s =>
    obtain rfl := Option.some.inj h
    rw [scan, if_pos rfl]

theorem scan_container (m : Bool) (n : ℕ) (s : List UInt8) :
    scan d (n + 1) (opening m :: s)
      = scanMany d (closing m) (scanItem d n m) (s.length + 1) true s := by
  cases m with
  | false => rw [scan, if_neg (by decide), if_pos (by rfl)]; rfl
  | true => rw [scan, if_neg (by decide), if_neg (by decide), if_pos (by rfl)]; rfl

/-- What else a value may be is a word. -/
theorem scan_word {n : ℕ} {c : UInt8} {s : List UInt8} (hq : c ≠ ascii '"')
    (hm : ∀ m, c ≠ opening m) :
    scan d (n + 1) (c :: s) =
      if d.number (word (c :: s)) || literals.contains (word (c :: s)) then
        some ((c :: s).drop (word (c :: s)).length)
      else none := by
  have hbracket : c ≠ ascii '[' := hm false
  have hbrace : c ≠ ascii '\x7b' := hm true
  rw [scan, if_neg hq, if_neg hbracket, if_neg hbrace]

theorem startsWord_free {c : UInt8} (h : startsWord c = true) :
    c ≠ ascii '"' ∧ ∀ m, c ≠ opening m := by
  constructor
  · rintro rfl
    exact absurd h (by decide)
  · rintro m rfl
    revert h
    cases m <;> decide

theorem scan_word_append {n : ℕ} {w r : List UInt8} (hw : d.number w = true ∨ w ∈ literals)
    (hr : Ended r) : scan d (n + 1) (w ++ r) = some r := by
  have hstart : ∃ c ∈ w.head?, startsWord c = true := hw.elim number_head literal_head
  have hword := word_append (hw.elim (d.number_word w) word_literal) hr
  cases w with
  | nil =>
    obtain ⟨c, hc, -⟩ := hstart
    cases hc
  | cons c w =>
    obtain ⟨hq, hm⟩ := startsWord_free (c := c) (by simpa using hstart)
    rw [List.cons_append] at hword ⊢
    rw [scan_word hq hm, hword, if_pos (by simpa [List.contains_iff_mem] using hw)]
    simp

/-- A round of the list that finds no closing bracket. -/
theorem scanMany_item {m first : Bool} {N : ℕ} {item : List UInt8 → Option (List UInt8)}
    {s s₁ : List UInt8} (hws : Ws s s₁) (hhead : ∃ c ∈ s₁.head?, startsItem c = true) :
    scanMany d (closing m) item (N + 1) first s = (item s₁).bind fun s =>
      match skipWs s with
      | [] => none
      | c :: s =>
          if c = closing m then some s
          else if c = ascii ',' then scanMany d (closing m) item N false s
          else none := by
  obtain ⟨c, hc, hstart⟩ := hhead
  obtain ⟨hfree, hclose⟩ := startsItem_free hstart
  have hskip : skipWs s = s₁ := hws.skipWs_eq fun c' hc' => Option.mem_unique hc hc' ▸ hfree
  rw [scanMany, hskip, if_neg]
  rintro ⟨-, hhead⟩
  exact hclose m (Option.mem_unique hc hhead)

theorem scanMany_close {m first : Bool} {N : ℕ} {item : List UInt8 → Option (List UInt8)}
    {s r : List UInt8} (hws : Ws s (closing m :: r)) (h : (first || d.trailing) = true) :
    scanMany d (closing m) item (N + 1) first s = some r := by
  have hskip : skipWs s = closing m :: r := hws.skipWs_eq fun c hc => by
    obtain rfl := Option.some.inj hc
    exact isWs_closing m
  rw [scanMany, hskip, if_pos ⟨h, rfl⟩]
  rfl

/-- What the reader makes of what is derivable. -/
def Found (d : Dialect) (s r : List UInt8) : Kind → Prop
  | .one m => Ended r → ∀ n, s.length < n → scanItem d n m s = some r
  | .many m => ∀ t, r = closing m :: t → ∀ n N first, s.length < n → s.length < N →
      scanMany d (closing m) (scanItem d n m) N first s = some t

theorem Derives.found {k : Kind} {s r : List UInt8} (h : Derives d k s r) : Found d s r k := by
  induction h with
  | string hq =>
    rintro - n hn
    obtain ⟨n, rfl⟩ := Nat.exists_eq_succ_of_ne_zero (Nat.ne_zero_of_lt hn)
    exact (scan_string hq.head).trans (scanString_eq_some_iff.mpr hq)
  | number hnum =>
    intro hr n hn
    obtain ⟨n, rfl⟩ := Nat.exists_eq_succ_of_ne_zero (Nat.ne_zero_of_lt hn)
    exact scan_word_append (Or.inl hnum) hr
  | literal hlit =>
    intro hr n hn
    obtain ⟨n, rfl⟩ := Nat.exists_eq_succ_of_ne_zero (Nat.ne_zero_of_lt hn)
    exact scan_word_append (Or.inr hlit) hr
  | @empty m s r hws =>
    rintro - n hn
    obtain ⟨n, rfl⟩ := Nat.exists_eq_succ_of_ne_zero (Nat.ne_zero_of_lt hn)
    exact (scan_container m n s).trans (scanMany_close hws rfl)
  | @container m s r _ ih =>
    rintro - n hn
    obtain ⟨n, rfl⟩ := Nat.exists_eq_succ_of_ne_zero (Nat.ne_zero_of_lt hn)
    rw [List.length_cons] at hn
    exact (scan_container m n s).trans (ih r rfl n _ true (by omega) (by omega))
  | @member s s₁ s₂ s₃ r hq hws hws' hv ih =>
    intro hr n hn
    have hlen := hq.length_lt
    have hlen₁ := hws.length_le
    have hlen₂ := hws'.length_le
    rw [List.length_cons] at hlen₁
    have hcolon : skipWs s₁ = ascii ':' :: s₂ := hws.skipWs_eq fun c hc => by
      obtain rfl := Option.some.inj hc
      decide
    obtain ⟨c, hc, hstart⟩ := hv.head false rfl
    have hvalue : skipWs s₂ = s₃ := hws'.skipWs_eq fun c' hc' =>
      Option.mem_unique hc hc' ▸ (startsItem_free hstart).1
    show scanMember d (scan d n) s = some r
    rw [scanMember, scanString_eq_some_iff.mpr hq, Option.bind_some, hcolon]
    simp only [if_true, hvalue]
    exact ih hr n (by omega)
  | @single m s s₁ s₂ r hws hv hws' ih =>
    rintro t rfl n N first hn hN
    obtain ⟨N, rfl⟩ := Nat.exists_eq_succ_of_ne_zero (Nat.ne_zero_of_lt hN)
    have hlen := hws.length_le
    have hclose : skipWs s₂ = closing m :: t := hws'.skipWs_eq fun c hc => by
      obtain rfl := Option.some.inj hc
      exact isWs_closing m
    rw [scanMany_item hws (hv.head m rfl),
      ih (hws'.ended (ended_cons (isDelim_closing m))) n (by omega), Option.bind_some, hclose]
    simp only [if_true]
  | @more m s s₁ s₂ s₃ r hws hv hws' _ ih ih' =>
    rintro t rfl n N first hn hN
    obtain ⟨N, rfl⟩ := Nat.exists_eq_succ_of_ne_zero (Nat.ne_zero_of_lt hN)
    have hlen := hws.length_le
    have hlen₁ := hv.length_le
    have hlen₂ := hws'.length_le
    rw [List.length_cons] at hlen₂
    have hcomma : skipWs s₂ = ascii ',' :: s₃ := hws'.skipWs_eq fun c hc => by
      obtain rfl := Option.some.inj hc
      decide
    have hne : ascii ',' ≠ closing m := by cases m <;> decide
    rw [scanMany_item hws (hv.head m rfl),
      ih (hws'.ended (ended_cons isDelim_comma)) n (by omega), Option.bind_some, hcomma]
    simp only [hne, if_false, if_true]
    exact ih' t rfl n N false (by omega) (by omega)
  | @trailing m s s₁ s₂ s₃ r htrail hws hv hws' hws'' ih =>
    rintro t rfl n N first hn hN
    obtain ⟨N, rfl⟩ := Nat.exists_eq_succ_of_ne_zero (Nat.ne_zero_of_lt hN)
    have hlen := hws.length_le
    have hlen₁ := hv.length_le
    have hlen₂ := hws'.length_le
    rw [List.length_cons] at hlen₂
    have hcomma : skipWs s₂ = ascii ',' :: s₃ := hws'.skipWs_eq fun c hc => by
      obtain rfl := Option.some.inj hc
      decide
    have hne : ascii ',' ≠ closing m := by cases m <;> decide
    rw [scanMany_item hws (hv.head m rfl),
      ih (hws'.ended (ended_cons isDelim_comma)) n (by omega), Option.bind_some, hcomma]
    simp only [hne, if_false, if_true]
    have hlen₃ := hws''.length_le
    rw [List.length_cons] at hlen₃
    obtain ⟨N, rfl⟩ := Nat.exists_eq_succ_of_ne_zero (by omega : N ≠ 0)
    exact scanMany_close hws'' (by simp [htrail])

/-! ## What is found is derivable -/

theorem derives_of_scanMany {m : Bool} {item : List UInt8 → Option (List UInt8)}
    (hitem : ∀ s r, item s = some r → Derives d (.one m) s r) {N : ℕ} :
    ∀ {first : Bool} {s r : List UInt8}, scanMany d (closing m) item N first s = some r →
      (first || d.trailing) = true ∧ Ws s (closing m :: r) ∨ Derives d (.many m) s (closing m :: r) := by
  induction N with
  | zero =>
    intro first s r h
    cases h
  | succ N ih =>
    intro first s r h
    rw [scanMany] at h
    split_ifs at h with hclose
    · left
      refine ⟨hclose.1, ?_⟩
      obtain rfl := Option.some.inj h
      have hws := ws_skipWs s
      rwa [List.eq_cons_of_mem_head? hclose.2] at hws
    · right
      obtain ⟨s₂, hs₂, hrest⟩ := Option.bind_eq_some_iff.mp h
      have hone := hitem _ _ hs₂
      have hws := ws_skipWs s₂
      cases hskip : skipWs s₂ with
      | nil => simp [hskip] at hrest
      | cons c s₃ =>
        rw [hskip] at hws
        simp only [hskip] at hrest
        split_ifs at hrest with hc hcomma
        · obtain rfl := Option.some.inj hrest
          exact .single (ws_skipWs s) hone (hc ▸ hws)
        · subst hcomma
          rcases ih hrest with ⟨htrail, hws'⟩ | hmany
          · exact .trailing (by simpa using htrail) (ws_skipWs s) hone hws hws'
          · exact .more (ws_skipWs s) hone hws hmany

theorem derives_of_scanMember {n : ℕ}
    (hscan : ∀ s r, scan d n s = some r → Derives d (.one false) s r) {s r : List UInt8}
    (h : scanMember d (scan d n) s = some r) : Derives d (.one true) s r := by
  obtain ⟨s₁, hs₁, hrest⟩ := Option.bind_eq_some_iff.mp h
  have hws := ws_skipWs s₁
  cases hskip : skipWs s₁ with
  | nil => simp [hskip] at hrest
  | cons c s₂ =>
    rw [hskip] at hws
    simp only [hskip] at hrest
    split_ifs at hrest with hc
    subst hc
    exact .member (scanString_eq_some_iff.mp hs₁) hws (ws_skipWs s₂) (hscan _ _ hrest)

theorem derives_of_scan {n : ℕ} : ∀ {s r : List UInt8}, scan d n s = some r →
    Derives d (.one false) s r := by
  induction n with
  | zero =>
    intro s r h
    cases h
  | succ n ih =>
    intro s r h
    cases s with
    | nil => cases h
    | cons c s =>
      by_cases hq : c = ascii '"'
      · subst hq
        rw [scan_string rfl] at h
        exact .string (scanString_eq_some_iff.mp h)
      · by_cases hm : ∃ m, c = opening m
        · obtain ⟨m, rfl⟩ := hm
          rw [scan_container] at h
          have hitem : ∀ s r, scanItem d n m s = some r → Derives d (.one m) s r := by
            intro s r hs
            cases m with
            | false => exact ih hs
            | true => exact derives_of_scanMember (fun s r => ih) hs
          rcases derives_of_scanMany hitem h with ⟨-, hws⟩ | hmany
          · exact .empty hws
          · exact .container hmany
        · rw [scan_word hq (not_exists.mp hm)] at h
          split_ifs at h with hw
          obtain rfl := Option.some.inj h
          have hsplit : word (c :: s) ++ (c :: s).drop (word (c :: s)).length = c :: s :=
            List.prefix_iff_eq_append.mp (List.takeWhile_prefix _)
          rw [Bool.or_eq_true, List.contains_iff_mem] at hw
          have hone : Derives d (.one false) (word (c :: s) ++ (c :: s).drop (word (c :: s)).length)
              ((c :: s).drop (word (c :: s)).length) := by
            rcases hw with hw | hw
            · exact .number hw
            · exact .literal hw
          rwa [hsplit] at hone

/-- **The reader takes the derivable texts.** -/
theorem scanText_iff (d : Dialect) (s : List UInt8) : scanText d s = true ↔ Text d s := by
  unfold scanText
  constructor
  · intro h
    cases hscan : scan d (s.length + 1) (skipWs s) with
    | none => simp [hscan] at h
    | some r =>
      simp only [hscan, List.isEmpty_iff] at h
      exact ⟨_, r, ws_skipWs s, derives_of_scan hscan, h ▸ ws_skipWs r⟩
  · rintro ⟨s₁, s₂, hws, hv, hws'⟩
    obtain ⟨c, hc, hstart⟩ := hv.head false rfl
    have hskip : skipWs s = s₁ := hws.skipWs_eq fun c' hc' =>
      Option.mem_unique hc hc' ▸ (startsItem_free hstart).1
    have hlen := hws.length_le
    have hscan : scan d (s.length + 1) s₁ = some s₂ :=
      hv.found (hws'.ended ended_nil) (s.length + 1) (by omega)
    have hend : skipWs s₂ = [] := hws'.skipWs_eq fun _ h => nomatch h
    simp only [hskip, hscan, hend, List.isEmpty_nil]

instance (d : Dialect) (s : List UInt8) : Decidable (Text d s) :=
  decidable_of_iff (scanText d s = true) (scanText_iff d s)

/-! ## Two readers -/

namespace Dialect

/-- What both readers take. -/
def meet (d e : Dialect) : Dialect where
  number w := d.number w && e.number w
  number_start w h := d.number_start w (Bool.and_eq_true_iff.mp h).1
  number_word w h := d.number_word w (Bool.and_eq_true_iff.mp h).1
  pieces ps := d.pieces ps && e.pieces ps
  trailing := d.trailing && e.trailing

/-- The second reader takes the tokens of the first. -/
structure Within (d e : Dialect) : Prop where
  number : ∀ w, d.number w = true → e.number w = true
  pieces : ∀ ps, d.pieces ps = true → e.pieces ps = true
  trailing : d.trailing = true → e.trailing = true

end Dialect

theorem Quoted.mono {e : Dialect} (hle : d.Within e) {s r : List UInt8} (h : Quoted d s r) :
    Quoted e s r := by
  obtain ⟨ps, hvalid, hpieces, rfl⟩ := h
  exact ⟨ps, hvalid, hle.pieces ps hpieces, rfl⟩

theorem Derives.mono {e : Dialect} (hle : d.Within e) {k : Kind} {s r : List UInt8}
    (h : Derives d k s r) : Derives e k s r := by
  induction h with
  | string hq => exact .string (hq.mono hle)
  | number hnum => exact .number (hle.number _ hnum)
  | literal hlit => exact .literal hlit
  | empty hws => exact .empty hws
  | container _ ih => exact .container ih
  | member hq hws hws' _ ih => exact .member (hq.mono hle) hws hws' ih
  | single hws _ hws' ih => exact .single hws ih hws'
  | more hws _ hws' _ ih ih' => exact .more hws ih hws' ih'
  | trailing htrail hws _ hws' hws'' ih => exact .trailing (hle.trailing htrail) hws ih hws' hws''

theorem Text.mono {e : Dialect} (hle : d.Within e) {s : List UInt8} (h : Text d s) : Text e s := by
  obtain ⟨s₁, s₂, hws, hv, hws'⟩ := h
  exact ⟨s₁, s₂, hws, hv.mono hle, hws'⟩

theorem scanString_meet {e : Dialect} {s r r' : List UInt8} (h : scanString d s = some r)
    (h' : scanString e s = some r') : r = r' ∧ scanString (d.meet e) s = some r := by
  cases s with
  | nil => cases h
  | cons c s =>
    simp only [scanString] at h h' ⊢
    split_ifs at h h' ⊢ with hc
    obtain ⟨⟨ps, t⟩, hps, hif⟩ := Option.bind_eq_some_iff.mp h
    rw [hps, Option.bind_some] at h' ⊢
    split_ifs at hif h' with hd he
    obtain rfl := Option.some.inj hif
    obtain rfl := Option.some.inj h'
    simp [Dialect.meet, hd, he]

theorem scanMember_meet {e : Dialect} {v v' v'' : List UInt8 → Option (List UInt8)}
    (hv : ∀ s r r', v s = some r → v' s = some r' → r = r' ∧ v'' s = some r) {s r r' : List UInt8}
    (h : scanMember d v s = some r) (h' : scanMember e v' s = some r') :
    r = r' ∧ scanMember (d.meet e) v'' s = some r := by
  obtain ⟨t, ht, hrest⟩ := Option.bind_eq_some_iff.mp h
  obtain ⟨t', ht', hrest'⟩ := Option.bind_eq_some_iff.mp h'
  obtain ⟨rfl, hmeet⟩ := scanString_meet ht ht'
  rw [scanMember, hmeet, Option.bind_some]
  cases hskip : skipWs t with
  | nil => simp [hskip] at hrest
  | cons c u =>
    simp only [hskip] at hrest hrest' ⊢
    split_ifs at hrest hrest' ⊢
    exact hv _ _ _ hrest hrest'

theorem scanMany_meet {e : Dialect} {m : Bool} {v v' v'' : List UInt8 → Option (List UInt8)}
    (hv : ∀ s r r', v s = some r → v' s = some r' → r = r' ∧ v'' s = some r)
    (hclose : ∀ s r, s.head? = some (closing m) → v s ≠ some r ∧ v' s ≠ some r) {N : ℕ} :
    ∀ {first : Bool} {s r r' : List UInt8}, scanMany d (closing m) v N first s = some r →
      scanMany e (closing m) v' N first s = some r' →
      r = r' ∧ scanMany (d.meet e) (closing m) v'' N first s = some r := by
  induction N with
  | zero =>
    intro first s r r' h
    cases h
  | succ N ih =>
    intro first s r r' h h'
    rw [scanMany] at h h' ⊢
    by_cases hhead : (skipWs s).head? = some (closing m)
    · -- neither reader takes an item here
      split_ifs at h h' with hd he
      · obtain rfl := Option.some.inj h
        obtain rfl := Option.some.inj h'
        have hmeet : (first || (d.meet e).trailing) = true := by
          cases first with
          | true => rfl
          | false => exact Bool.and_eq_true_iff.mpr ⟨hd.1, he.1⟩
        rw [if_pos ⟨hmeet, hhead⟩]
        exact ⟨rfl, rfl⟩
      · obtain ⟨t, ht, -⟩ := Option.bind_eq_some_iff.mp h'
        exact absurd ht (hclose _ _ hhead).2
      · obtain ⟨t, ht, -⟩ := Option.bind_eq_some_iff.mp h
        exact absurd ht (hclose _ _ hhead).1
      · obtain ⟨t, ht, -⟩ := Option.bind_eq_some_iff.mp h
        exact absurd ht (hclose _ _ hhead).1
    · have hno : ∀ b : Bool, ¬ (b = true ∧ (skipWs s).head? = some (closing m)) := fun b hb => hhead hb.2
      rw [if_neg (hno _)] at h h' ⊢
      obtain ⟨t, ht, hrest⟩ := Option.bind_eq_some_iff.mp h
      obtain ⟨t', ht', hrest'⟩ := Option.bind_eq_some_iff.mp h'
      obtain ⟨rfl, hmeet⟩ := hv _ _ _ ht ht'
      rw [hmeet, Option.bind_some]
      cases hskip : skipWs t with
      | nil => simp [hskip] at hrest
      | cons c u =>
        simp only [hskip] at hrest hrest' ⊢
        split_ifs at hrest hrest' ⊢
        · exact ⟨Option.some.inj (hrest.symm.trans hrest'), hrest⟩
        · exact ih hrest hrest'

theorem scan_meet {e : Dialect} {n : ℕ} : ∀ {s r r' : List UInt8}, scan d n s = some r →
    scan e n s = some r' → r = r' ∧ scan (d.meet e) n s = some r := by
  induction n with
  | zero =>
    intro s r r' h
    cases h
  | succ n ih =>
    intro s r r' h h'
    cases s with
    | nil => cases h
    | cons c s =>
      by_cases hq : c = ascii '"'
      · subst hq
        rw [scan_string rfl] at h h' ⊢
        exact scanString_meet h h'
      · by_cases hm : ∃ m, c = opening m
        · obtain ⟨m, rfl⟩ := hm
          rw [scan_container] at h h' ⊢
          refine scanMany_meet ?_ ?_ h h'
          · have hv : ∀ s r r', scan d n s = some r → scan e n s = some r' →
                r = r' ∧ scan (d.meet e) n s = some r := fun _ _ _ hs hs' => ih hs hs'
            intro s r r' hs hs'
            cases m with
            | false => exact hv s r r' hs hs'
            | true => exact scanMember_meet hv hs hs'
          · intro s r hhead
            have hfree : ∀ (d : Dialect), scanItem d n m s ≠ some r := by
              intro d hs
              have hone : Derives d (.one m) s r := by
                cases m with
                | false => exact derives_of_scan hs
                | true => exact derives_of_scanMember (fun s r => derives_of_scan) hs
              obtain ⟨c, hc, hstart⟩ := hone.head m rfl
              exact (startsItem_free hstart).2 m (Option.mem_unique hc hhead)
            exact ⟨hfree d, hfree e⟩
        · rw [scan_word hq (not_exists.mp hm)] at h h' ⊢
          split_ifs at h h' with hd he
          obtain rfl := Option.some.inj h
          obtain rfl := Option.some.inj h'
          rw [if_pos]
          · exact ⟨rfl, rfl⟩
          · simp only [Dialect.meet, Bool.or_eq_true, Bool.and_eq_true] at hd he ⊢
            tauto

/-- **What two readers take, they take with the tokens they share.** -/
theorem text_meet {e : Dialect} {s : List UInt8} (h : Text d s) (h' : Text e s) :
    Text (d.meet e) s := by
  rw [← scanText_iff] at h h' ⊢
  unfold scanText at h h' ⊢
  cases hscan : scan d (s.length + 1) (skipWs s) with
  | none => simp [hscan] at h
  | some r =>
    cases hscan' : scan e (s.length + 1) (skipWs s) with
    | none => simp [hscan'] at h'
    | some r' =>
      rw [(scan_meet hscan hscan').2]
      simpa only [hscan] using h

/-! ## The grammar of RFC 8259 -/

/-- `exp`, if there is one. -/
def isExponent (s : List UInt8) : Bool :=
  match s with
  | [] => true
  | e :: s =>
      let ds := s.drop (takeSign s).2
      toLower e == ascii 'e' && !ds.isEmpty && ds.all isDigit

/-- `frac` and `exp`, if they are there. -/
def isFraction (s : List UInt8) : Bool :=
  match s with
  | [] => true
  | c :: t =>
      if c = ascii '.' then !(t.takeWhile isDigit).isEmpty && isExponent (t.dropWhile isDigit)
      else isExponent s

/-- `int`: no zero stands in front of other digits. -/
def isInt : List UInt8 → Bool
  | [] => false
  | [c] => isDigit c
  | c :: ds => c != ascii '0' && (c :: ds).all isDigit

def isUnsigned (s : List UInt8) : Bool :=
  isInt (s.takeWhile isDigit) && isFraction (s.dropWhile isDigit)

def isNumber (s : List UInt8) : Bool :=
  isUnsigned (if s.head? = some (ascii '-') then s.tail else s)

/-- The bytes of numbers. -/
def isNumberByte (c : UInt8) : Bool :=
  isDigit c || c == ascii '-' || c == ascii '+' || c == ascii '.' || toLower c == ascii 'e'

theorem toLower_eq {c : UInt8} (h : toLower c = ascii 'e') : c = 101 ∨ c = 69 := by
  unfold toLower at h
  split_ifs at h with hupper
  · right
    have hnat := congrArg UInt8.toNat h
    simp only [UInt8.toNat_add] at hnat
    have hle := UInt8.le_iff_toNat_le.mp hupper.2
    apply UInt8.toNat.inj
    simp [ascii] at hnat hle ⊢
    omega
  · left
    exact h

theorem isNumberByte_free {c : UInt8} (h : isNumberByte c = true) : isDelim c = false ∧ c ≠ 0 := by
  constructor
  · by_contra hdelim
    rw [Bool.not_eq_false] at hdelim
    simp only [isDelim, isWs, Bool.or_eq_true, beq_iff_eq] at hdelim
    rcases hdelim with (((((rfl | rfl) | rfl) | rfl) | rfl) | rfl) | rfl <;> exact absurd h (by decide)
  · rintro rfl
    exact absurd h (by decide)

theorem isNumberByte_digit {c : UInt8} (h : isDigit c = true) : isNumberByte c = true := by
  simp [isNumberByte, h]

theorem isExponent_bytes {s : List UInt8} (h : isExponent s = true) :
    ∀ c ∈ s, isNumberByte c = true := by
  unfold isExponent at h
  split at h
  · nofun
  · next e s =>
    simp only [Bool.and_eq_true, beq_iff_eq, List.all_eq_true] at h
    obtain ⟨⟨he, -⟩, hds⟩ := h
    have hdrop : ∀ c ∈ s.drop (takeSign s).2, isNumberByte c = true :=
      fun c hc => isNumberByte_digit (hds c hc)
    refine List.forall_mem_cons.mpr ⟨by simp [isNumberByte, he], ?_⟩
    -- in front of the digits there is at most a sign
    cases s with
    | nil => nofun
    | cons c s =>
      simp only [takeSign] at hdrop
      split_ifs at hdrop with hm hp
      · exact List.forall_mem_cons.mpr ⟨by rw [hm]; decide, hdrop⟩
      · exact List.forall_mem_cons.mpr ⟨by rw [hp]; decide, hdrop⟩
      · exact hdrop

theorem isFraction_bytes {s : List UInt8} (h : isFraction s = true) :
    ∀ c ∈ s, isNumberByte c = true := by
  unfold isFraction at h
  split at h
  · nofun
  · next c t =>
    split_ifs at h with hc
    · rw [Bool.and_eq_true] at h
      refine List.forall_mem_cons.mpr ⟨by rw [hc]; decide, ?_⟩
      rw [← List.takeWhile_append_dropWhile (p := isDigit) (l := t)]
      intro b hb
      rcases List.mem_append.mp hb with hb | hb
      · exact isNumberByte_digit (List.mem_takeWhile_imp hb)
      · exact isExponent_bytes h.2 b hb
    · exact isExponent_bytes h

theorem isUnsigned_bytes {s : List UInt8} (h : isUnsigned s = true) :
    ∀ c ∈ s, isNumberByte c = true := by
  rw [isUnsigned, Bool.and_eq_true] at h
  rw [← List.takeWhile_append_dropWhile (p := isDigit) (l := s)]
  intro c hc
  rcases List.mem_append.mp hc with hc | hc
  · exact isNumberByte_digit (List.mem_takeWhile_imp hc)
  · exact isFraction_bytes h.2 c hc

theorem isNumber_bytes {s : List UInt8} (h : isNumber s = true) :
    ∀ c ∈ s, isNumberByte c = true := by
  unfold isNumber at h
  split_ifs at h with hs
  · rw [List.eq_cons_of_mem_head? hs]
    exact List.forall_mem_cons.mpr ⟨by decide, isUnsigned_bytes h⟩
  · exact isUnsigned_bytes h

theorem isUnsigned_head {s : List UInt8} (h : isUnsigned s = true) : ∃ c ∈ s.head?, isDigit c = true := by
  rw [isUnsigned, Bool.and_eq_true] at h
  cases s with
  | nil => cases h.1
  | cons c s =>
    refine ⟨c, rfl, ?_⟩
    by_contra hc
    rw [List.takeWhile_cons_of_neg hc] at h
    cases h.1

theorem isNumber_head {s : List UInt8} (h : isNumber s = true) :
    ∃ c ∈ s.head?, isDigit c || c == ascii '-' := by
  unfold isNumber at h
  split_ifs at h with hs
  · exact ⟨_, hs, by decide⟩
  · obtain ⟨c, hc, hd⟩ := isUnsigned_head h
    exact ⟨c, hc, by simp [hd]⟩

/-- The grammar itself: numbers as above, any string, no comma before a closing bracket. -/
def rfc8259 : Dialect where
  number := isNumber
  number_start _ h := isNumber_head h
  number_word _ h c hc := (isNumberByte_free (isNumber_bytes h c hc)).1
  pieces _ := true
  trailing := false

/-! ## Numbers are numerals -/

theorem startsWith_cons {c : Char} {cs : List Char} {b : UInt8} {s : List UInt8}
    (h : toLower b ≠ ascii c) : startsWith (c :: cs) (b :: s) = false := by
  simp [startsWith, h]

theorem startsWith_one {c : Char} {b : UInt8} {s : List UInt8} :
    startsWith [c] (b :: s) = decide (toLower b = ascii c) := by
  simp [startsWith]

theorem toLower_digit {c : UInt8} (h : isDigit c = true) : toLower c = c := by
  simp only [isDigit, Bool.and_eq_true, decide_eq_true_eq, UInt8.le_iff_toNat_le] at h
  rw [toLower, if_neg]
  rw [UInt8.le_iff_toNat_le]
  rintro ⟨h65, -⟩
  have h57 := h.2
  simp at h57 h65
  omega

theorem toLower_eq_dot {c : UInt8} : toLower c = ascii '.' ↔ c = ascii '.' := by
  constructor
  · intro h
    unfold toLower at h
    split_ifs at h with hupper
    · have hnat := congrArg UInt8.toNat h
      simp only [UInt8.toNat_add] at hnat
      have hle := UInt8.le_iff_toNat_le.mp hupper.1
      have hle' := UInt8.le_iff_toNat_le.mp hupper.2
      simp [ascii] at hnat hle hle'
      omega
    · exact h
  · rintro rfl
    decide

theorem takeExponent_isExponent {s : List UInt8} (h : isExponent s = true) :
    (takeExponent 'e' s).2 = s.length := by
  unfold isExponent at h
  split at h
  · rfl
  · next e s =>
    simp only [Bool.and_eq_true, beq_iff_eq] at h
    obtain ⟨⟨he, hne⟩, hds⟩ := h
    have hall : (s.drop (takeSign s).2).takeWhile isDigit = s.drop (takeSign s).2 :=
      List.takeWhile_eq_self_iff.mpr (List.all_eq_true.mp hds)
    have hne' : s.drop (takeSign s).2 ≠ [] := by simpa using hne
    have hlt : (takeSign s).2 < s.length := List.drop_eq_nil_iff.not.mp hne' |> not_le.mp
    simp only [takeExponent, startsWith_one, he, decide_true, if_true, List.drop_succ_cons,
      List.drop_zero, Nat.add_comm 1, hall, hne', if_false, List.length_drop, List.length_cons]
    omega

theorem takeNumeral_isUnsigned {s : List UInt8} (h : isUnsigned s = true) (neg : Bool) :
    ∃ x, takeNumeral 10 10 1 'e' isDigit neg s = some (x, s.length) := by
  rw [isUnsigned, Bool.and_eq_true] at h
  obtain ⟨hint, hfrac⟩ := h
  have hne : s.takeWhile isDigit ≠ [] := by
    intro hnil
    rw [hnil] at hint
    cases hint
  have hlen := congrArg List.length (List.takeWhile_append_dropWhile (p := isDigit) (l := s))
  rw [List.length_append] at hlen
  unfold takeNumeral
  simp only [drop_takeWhile, hne, false_and, if_false]
  refine ⟨_, congrArg some (Prod.ext rfl ?_)⟩
  have hused : ∀ dot frac : ℕ, s.drop ((s.takeWhile isDigit).length + dot + frac)
      = ((s.dropWhile isDigit).drop dot).drop frac := by
    intro dot frac
    rw [← drop_takeWhile, List.drop_drop, List.drop_drop, Nat.add_assoc]
  simp only [hused]
  cases hrest : s.dropWhile isDigit with
  | nil =>
    rw [hrest] at hlen
    simp [startsWith, takeExponent] at hlen ⊢
    exact hlen
  | cons c t =>
    rw [hrest] at hfrac hlen
    by_cases hc : c = ascii '.'
    · simp only [isFraction, hc, if_true, Bool.and_eq_true] at hfrac
      have hexp := takeExponent_isExponent hfrac.2
      have ht := congrArg List.length (List.takeWhile_append_dropWhile (p := isDigit) (l := t))
      have hdot : startsWith ['.'] (ascii '.' :: t) = true := rfl
      simp only [hc, hdot, if_true, List.drop_succ_cons, List.drop_zero, drop_takeWhile, hexp]
      simp only [List.length_append, List.length_cons] at ht hlen
      omega
    · simp only [isFraction, if_neg hc] at hfrac
      have hexp := takeExponent_isExponent hfrac
      have hdot : startsWith ['.'] (c :: t) = false := by
        rw [startsWith_one, decide_eq_false_iff_not, toLower_eq_dot]
        exact hc
      simp only [hdot, Bool.false_eq_true, if_false, List.length_nil, List.drop_zero, hexp]
      omega

/-- A number in the sense of JSON is not hexadecimal, infinite or no number. -/
theorem takeUnsigned_isUnsigned {s : List UInt8} (h : isUnsigned s = true) (neg : Bool) :
    takeUnsigned neg s = takeNumeral 10 10 1 'e' isDigit neg s := by
  obtain ⟨c, hc, hd⟩ := isUnsigned_head h
  have hspecial : takeSpecial neg s = none := by
    cases s with
    | nil => cases hc
    | cons b s =>
      obtain rfl := Option.some.inj hc
      have hlow := toLower_digit hd
      have hi : toLower b ≠ ascii 'i' := by
        rw [hlow]
        rintro rfl
        exact absurd hd (by decide)
      have hn : toLower b ≠ ascii 'n' := by
        rw [hlow]
        rintro rfl
        exact absurd hd (by decide)
      have hinf : "infinity".toList = 'i' :: "nfinity".toList := rfl
      have hinf' : "inf".toList = 'i' :: "nf".toList := rfl
      have hnan : "nan".toList = 'n' :: "an".toList := rfl
      simp only [takeSpecial, hinf, hinf', hnan, startsWith_cons hi, startsWith_cons hn,
        Bool.false_eq_true, if_false]
  have hhex : startsWith ['0', 'x'] s = false := by
    rw [isUnsigned, Bool.and_eq_true] at h
    rcases s with _ | ⟨b, _ | ⟨b', s⟩⟩
    · rfl
    · simp [startsWith]
    · by_cases hb : toLower b = ascii '0' ∧ toLower b' = ascii 'x'
      · obtain ⟨hzero, hx'⟩ := hb
        obtain rfl := Option.some.inj hc
        have hnd : isDigit b' = false := by
          by_contra hd'
          rw [Bool.not_eq_false] at hd'
          rw [toLower_digit hd'] at hx'
          rw [hx'] at hd'
          exact absurd hd' (by decide)
        have hdot : b' ≠ ascii '.' := by
          rintro rfl
          exact absurd hx' (by decide)
        have hfrac := h.2
        rw [List.dropWhile_cons_of_pos hd, List.dropWhile_cons_of_neg (by simp [hnd])] at hfrac
        simp only [isFraction, if_neg hdot, isExponent, hx'] at hfrac
        exact absurd hfrac (by simp [ascii])
      · simpa [startsWith] using hb
  simp only [takeUnsigned, hspecial, hhex, Bool.false_eq_true, if_false]

/-- A number starts with no blank and no plus. -/
theorem number_start_free {c : UInt8} (h : isDigit c = true ∨ c = ascii '-') :
    isSpace c = false ∧ c ≠ ascii '+' := by
  rcases h with hd | rfl
  · constructor
    · by_contra hs
      rw [Bool.not_eq_false] at hs
      simp only [isSpace, isDigit, Bool.or_eq_true, beq_iff_eq, Bool.and_eq_true, decide_eq_true_eq,
        UInt8.le_iff_toNat_le] at hs hd
      rcases hs with rfl | hs
      · exact absurd hd (by decide)
      · simp at hs hd
        omega
    · rintro rfl
      exact absurd hd (by decide)
  · decide

/-- `strtod` on a number, and on one with a minus. -/
theorem strtod_isUnsigned {s : List UInt8} (h : isUnsigned s = true) :
    (∀ {x n}, takeNumeral 10 10 1 'e' isDigit false s = some (x, n) → strtod s = (x, n)) ∧
      ∀ {x n}, takeNumeral 10 10 1 'e' isDigit true s = some (x, n) →
        strtod (ascii '-' :: s) = (x, 1 + n) := by
  obtain ⟨c, hc, hd⟩ := isUnsigned_head h
  have hminus : isSpace (ascii '-') = false := by decide
  constructor
  · intro x n hx
    obtain ⟨hspace, hplus⟩ := number_start_free (Or.inl hd)
    have hne : c ≠ ascii '-' := by
      rintro rfl
      exact absurd hd (by decide)
    cases s with
    | nil => cases hc
    | cons b s =>
      obtain rfl : b = c := Option.some.inj hc
      simp only [strtod, List.takeWhile_cons_of_neg (by simp [hspace] : ¬isSpace b = true),
        List.length_nil, List.drop_zero, takeSign, hne, hplus, if_false, Nat.zero_add,
        takeUnsigned_isUnsigned h, hx]
  · intro x n hx
    simp only [strtod, List.takeWhile_cons_of_neg (by simp [hminus] : ¬isSpace (ascii '-') = true),
      List.length_nil, List.drop_zero, takeSign, if_true, Nat.zero_add, List.drop_succ_cons,
      takeUnsigned_isUnsigned h, hx]

theorem strtod_isNumber {s : List UInt8} (h : isNumber s = true) : (strtod s).2 = s.length := by
  unfold isNumber at h
  split at h
  · rename_i hhead
    obtain ⟨s, rfl⟩ : ∃ t, s = ascii '-' :: t := by
      cases s with
      | nil => cases hhead
      | cons b t => exact ⟨t, by rw [Option.some.inj hhead]⟩
    rw [List.tail_cons] at h
    obtain ⟨x, hx⟩ := takeNumeral_isUnsigned h true
    rw [(strtod_isUnsigned h).2 hx, List.length_cons, Nat.add_comm]
  · obtain ⟨x, hx⟩ := takeNumeral_isUnsigned h false
    rw [(strtod_isUnsigned h).1 hx]

end JsonText
