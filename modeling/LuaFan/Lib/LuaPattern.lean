/-
# Lua patterns

The matcher behind `string.match`, `string.gmatch` and `string.gsub`: it walks over the bytes
of a pattern, goes back to try shorter or longer repetitions, and collects captures.  A
malformed pattern is an error when the matcher comes to the place.

The equations of `matchHere` are stated item by item; for the items of a pattern that is known
they replace its definition.
-/
import LuaFan.Lib.Numeral

namespace LuaPattern

open Fp

/-! ## Character classes -/

/-- `isalpha` of the C locale. -/
def isAlpha (b : UInt8) : Bool := 97 ≤ toLower b && toLower b ≤ 122

/-- `isalnum`. -/
def isAlnum (b : UInt8) : Bool := isAlpha b || isDigit b

/-- `isgraph`. -/
def isGraph (b : UInt8) : Bool := 33 ≤ b && b ≤ 126

/-- The classes `%a`, `%c` and so on, by their letters in lower case. -/
def classOf (letter : UInt8) : Option (UInt8 → Bool) :=
  [(ascii 'a', isAlpha), (ascii 'c', fun b => b < 32 || b == 127), (ascii 'd', isDigit),
    (ascii 'g', isGraph), (ascii 'l', fun b => 97 ≤ b && b ≤ 122),
    (ascii 'p', fun b => isGraph b && !isAlnum b), (ascii 's', isSpace),
    (ascii 'u', fun b => 65 ≤ b && b ≤ 90), (ascii 'w', isAlnum), (ascii 'x', isXDigit)].lookup letter

/-- Is the byte in the class behind an escape?  A capital letter is the complement, and any
other character stands for itself. -/
def matchClass (c letter : UInt8) : Bool :=
  match classOf (toLower letter) with
  | some p => if 65 ≤ letter ∧ letter ≤ 90 then !p c else p c
  | none => letter == c

/-- Is the byte among the members of a set: classes, ranges and single bytes? -/
def inSet (c : UInt8) : List UInt8 → Bool
  | [] => false
  | [b] => b == c
  | [b, b'] => if b = ascii '%' then matchClass c b' else b == c || b' == c
  | b :: b' :: b'' :: rest =>
      if b = ascii '%' then matchClass c b' || inSet c (b'' :: rest)
      else if b' = ascii '-' then (b ≤ c && c ≤ b'') || inSet c rest
      else b == c || inSet c (b' :: b'' :: rest)

/-- A set without its brackets. -/
def matchSet (c : UInt8) (set : List UInt8) : Bool :=
  if set.head? = some (ascii '^') then !inSet c set.tail else inSet c set

/-- Does the byte match the item? -/
def single (item : List UInt8) (c : UInt8) : Bool :=
  match item with
  | [] => false
  | b :: rest =>
      if b = ascii '.' then true
      else if b = ascii '%' then rest.any fun letter => matchClass c letter
      else if b = ascii '[' then matchSet c rest.dropLast
      else b == c

/-! ## Items -/

/-- The errors of the matcher. -/
inductive PatternError where
  | tooComplex
  | tooManyCaptures
  | unfinishedCapture
  | invalidCapture
  | invalidIndex
  | endsWithEscape
  | missingBracket
  | missingSet
  | missingBalance
  deriving DecidableEq, Repr

/-- How many bytes a set takes behind its first one: the first byte never closes it, nor does
one behind an escape. -/
def setEnd : List UInt8 → Option ℕ
  | [] => none
  | [_] => none
  | b :: b' :: rest =>
      if b = ascii '%' then
        if rest.head? = some (ascii ']') then some 3 else (setEnd rest).map (· + 2)
      else if b' = ascii ']' then some 2
      else (setEnd (b' :: rest)).map (· + 1)

/-- How many bytes the item at the head of the pattern takes. -/
def classEnd : List UInt8 → Except PatternError ℕ
  | [] => .ok 0
  | b :: rest =>
      if b = ascii '%' then if rest = [] then .error .endsWithEscape else .ok 2
      else if b = ascii '[' then
        let negated := if rest.head? = some (ascii '^') then 1 else 0
        match setEnd (rest.drop negated) with
        | some n => .ok (1 + negated + n)
        | none => .error .missingBracket
      else .ok 1

/-! ## Captures -/

/-- How long a capture is, as far as that is known. -/
inductive CaptureLength where
  | unfinished
  | position
  | closed (length : ℕ)
  deriving DecidableEq, Repr

/-- A capture: where it begins in the subject, and how long it is. -/
structure Capture where
  start : ℕ
  len : CaptureLength
  deriving DecidableEq, Repr

/-- The last capture that is open is closed.  The captures are listed from the last one on. -/
def closeCapture (s : ℕ) : List Capture → Option (List Capture)
  | [] => none
  | c :: caps =>
      if c.len = .unfinished then some ({ c with len := .closed (s - c.start) } :: caps)
      else (closeCapture s caps).map (c :: ·)

/-- How many captures a match may have. -/
def maxCaptures : ℕ := 32

/-- How deep the calls of the matcher may be nested. -/
def maxDepth : ℕ := 200

/-! ## The matcher -/

/-- What an attempt comes to: an error, no match, or its end and its captures. -/
abbrev Attempt := Except PatternError (Option (ℕ × List Capture))

/-- The longest of the first `n` repetitions with which the rest matches. -/
def maxExpand (k : ℕ → Attempt) (s : ℕ) : ℕ → Attempt
  | 0 => k s
  | n + 1 =>
      match k (s + (n + 1)) with
      | .ok none => maxExpand k s n
      | result => result

/-- The shortest repetition with which the rest matches; the last argument is the subject from
`s` on. -/
def minExpand (p : UInt8 → Bool) (k : ℕ → Attempt) (s : ℕ) : List UInt8 → Attempt
  | [] => k s
  | c :: rest =>
      match k s with
      | .ok none => if p c then minExpand p k (s + 1) rest else .ok none
      | result => result

/-- A call of the matcher by itself. -/
def nested (depth : ℕ) (k : ℕ → Attempt) : Attempt :=
  match depth with
  | 0 => .error .tooComplex
  | depth + 1 => k depth

/-- How far a balanced text goes behind its first delimiter. -/
def balanceEnd (x y : UInt8) : ℕ → List UInt8 → Option ℕ
  | _, [] => none
  | opened, c :: rest =>
      if c = y then if opened = 1 then some 1 else (balanceEnd x y (opened - 1) rest).map (· + 1)
      else (balanceEnd x y (if c = x then opened + 1 else opened) rest).map (· + 1)

section Matcher

variable (src : List UInt8)

/-- `%b`: where the balanced text at `s` ends. -/
def matchBalance (s : ℕ) : List UInt8 → Except PatternError (Option ℕ)
  | x :: y :: _ =>
      match src.drop s with
      | [] => .ok none
      | c :: rest => if c = x then .ok ((balanceEnd x y 1 rest).map (s + 1 + ·)) else .ok none
  | _ => .error .missingBalance

/-- `%1` and so on: where the text of the capture ends if it is repeated at `s`. -/
def matchCapture (s : ℕ) (caps : List Capture) (digit : UInt8) : Except PatternError (Option ℕ) :=
  if digit = ascii '0' then .error .invalidIndex
  else
    match caps.reverse[digit.toNat - 49]? with
    | none => .error .invalidIndex
    | some ⟨_, .unfinished⟩ => .error .invalidIndex
    | some ⟨_, .position⟩ => .ok none
    | some ⟨start, .closed len⟩ =>
        if s + len ≤ src.length ∧ (src.drop s).take len = (src.drop start).take len then .ok (some (s + len))
        else .ok none

/-- `%f`: is `s` a place where the set begins to hold? -/
def atFrontier (s : ℕ) (set : List UInt8) : Bool :=
  let previous := if s = 0 then 0 else src.getD (s - 1) 0
  !matchSet previous set && matchSet (src.getD s 0) set

/-- An item that matches single bytes, with the suffix behind it.  `self` is the matcher. -/
def matchItem (self : ℕ → List UInt8 → ℕ → Attempt) (depth : ℕ) (pattern : List UInt8) (s : ℕ) :
    Attempt := do
  let n ← classEnd pattern
  let p := single (pattern.take n)
  let next := pattern.drop n
  let suffix := next.headD 0
  let after := fun s => nested depth fun depth => self depth next.tail s
  if (src.drop s).head?.any p then
    let run := ((src.drop s).takeWhile p).length
    if suffix = ascii '?' then
      match after (s + 1) with
      | .ok none => self depth next.tail s
      | result => result
    else if suffix = ascii '+' then maxExpand after (s + 1) (run - 1)
    else if suffix = ascii '*' then maxExpand after s run
    else if suffix = ascii '-' then minExpand p after s (src.drop s)
    else self depth next (s + 1)
  else if suffix = ascii '*' ∨ suffix = ascii '?' ∨ suffix = ascii '-' then self depth next.tail s
  else .ok none

/-- The matcher, on the rest of a pattern at a place of the subject.  Each round takes an item
of the pattern, so that the first argument bounds their number; the second is how many more
calls may be nested. -/
def matchHere : ℕ → ℕ → List UInt8 → ℕ → List Capture → Attempt
  | 0, _, _, _, _ => .error .tooComplex
  | rounds + 1, depth, pattern, s, caps =>
      let self := fun depth pattern s => matchHere rounds depth pattern s caps
      match pattern with
      | [] => .ok (some (s, caps))
      | b :: rest =>
          if b = ascii '(' then
            if maxCaptures ≤ caps.length then .error .tooManyCaptures
            else if rest.head? = some (ascii ')') then
              nested depth fun depth => matchHere rounds depth rest.tail s (⟨s, .position⟩ :: caps)
            else nested depth fun depth => matchHere rounds depth rest s (⟨s, .unfinished⟩ :: caps)
          else if b = ascii ')' then
            match closeCapture s caps with
            | none => .error .invalidCapture
            | some caps => nested depth fun depth => matchHere rounds depth rest s caps
          else if b = ascii '$' ∧ rest = [] then
            .ok (if s = src.length then some (s, caps) else none)
          else if b = ascii '%' then
            match rest with
            | [] => .error .endsWithEscape
            | e :: args =>
                if e = ascii 'b' then do
                  match ← matchBalance src s args with
                  | none => .ok none
                  | some s => self depth (args.drop 2) s
                else if e = ascii 'f' then
                  if args.head? = some (ascii '[') then do
                    let n ← classEnd args
                    if atFrontier src s ((args.take n).tail.dropLast) then self depth (args.drop n) s
                    else .ok none
                  else .error .missingSet
                else if isDigit e then do
                  match ← matchCapture src s caps e with
                  | none => .ok none
                  | some s => self depth args s
                else matchItem src self depth pattern s
          else matchItem src self depth pattern s

/-- The pattern is tried at a place of the subject. -/
def attempt (pattern : List UInt8) (s : ℕ) : Attempt :=
  matchHere src (pattern.length + 1) (maxDepth - 1) pattern s []

/-! ## The functions of the string library -/

/-- The value of a capture. -/
inductive CaptureValue where
  | text (bytes : List UInt8)
  | position (index : ℕ)
  deriving DecidableEq, Repr

/-- The value of one capture. -/
def Capture.value (c : Capture) : Except PatternError CaptureValue :=
  match c.len with
  | .unfinished => .error .unfinishedCapture
  | .position => .ok (.position (c.start + 1))
  | .closed len => .ok (.text ((src.drop c.start).take len))

/-- The values of a match from `s` to `e`: its captures, or the whole of it. -/
def captureValues (s e : ℕ) (caps : List Capture) : Except PatternError (List CaptureValue) :=
  if caps = [] then .ok [.text ((src.drop s).take (e - s))] else caps.reverse.mapM (Capture.value src)

/-- The places from `s` on at which a pattern is tried. -/
def search (pattern : List UInt8) : ℕ → ℕ → Except PatternError (Option (List CaptureValue))
  | 0, _ => .ok none
  | places + 1, s => do
      match ← attempt src pattern s with
      | some (e, caps) => return some (← captureValues src s e caps)
      | none => search pattern places (s + 1)

/-- `string.match`. -/
def strMatch (pattern : List UInt8) : Except PatternError (Option (List CaptureValue)) :=
  match pattern with
  | b :: rest => if b = ascii '^' then search src rest 1 0 else search src pattern (src.length + 1) 0
  | [] => search src [] (src.length + 1) 0

/-- The matches from `s` on, none at the place where the last one ended. -/
def gmatchFrom (pattern : List UInt8) :
    ℕ → ℕ → Option ℕ → Except PatternError (List (List CaptureValue))
  | 0, _, _ => .ok []
  | rounds + 1, s, last =>
      if src.length < s then .ok []
      else do
        match ← attempt src pattern s with
        | some (e, caps) =>
            if some e ≠ last then
              return (← captureValues src s e caps) :: (← gmatchFrom pattern rounds e (some e))
            else gmatchFrom pattern rounds (s + 1) last
        | none => gmatchFrom pattern rounds (s + 1) last

/-- `string.gmatch`, with all its matches. -/
def gmatch (pattern : List UInt8) : Except PatternError (List (List CaptureValue)) :=
  gmatchFrom src pattern (2 * src.length + 2) 0 none

/-- The subject from `s` on, each match replaced. -/
def gsubFrom (pattern : List UInt8) (repl : List CaptureValue → List UInt8) :
    ℕ → ℕ → Option ℕ → Except PatternError (List UInt8)
  | 0, s, _ => .ok (src.drop s)
  | rounds + 1, s, last =>
      let copy := match src.drop s with
        | [] => .ok []
        | c :: _ => (gsubFrom pattern repl rounds (s + 1) last).map (c :: ·)
      do
        match ← attempt src pattern s with
        | some (e, caps) =>
            if some e ≠ last then
              return repl (← captureValues src s e caps) ++ (← gsubFrom pattern repl rounds e (some e))
            else copy
        | none => copy

/-- `string.gsub` with a pattern that is not anchored; `repl` is what replaces a match. -/
def gsub (pattern : List UInt8) (repl : List CaptureValue → List UInt8) : Except PatternError (List UInt8) :=
  gsubFrom src pattern repl (2 * src.length + 2) 0 none

end Matcher

/-! ## Equations -/

/-- An item that matches single bytes, whatever stands behind it. -/
structure IsItem (item : List UInt8) : Prop where
  classEnd : ∀ p, classEnd (item ++ p) = .ok item.length
  first : ∃ b rest, item = b :: rest ∧ b ≠ ascii '(' ∧ b ≠ ascii ')' ∧
    (b = ascii '%' → ∃ e more, rest = e :: more ∧ e ≠ ascii 'b' ∧ e ≠ ascii 'f' ∧ isDigit e = false)

/-- A byte that is no magic character of its own. -/
def IsPlain (b : UInt8) : Prop :=
  b ≠ ascii '(' ∧ b ≠ ascii ')' ∧ b ≠ ascii '%' ∧ b ≠ ascii '[' ∧ b ≠ ascii '.'

instance (b : UInt8) : Decidable (IsPlain b) := inferInstanceAs (Decidable (_ ∧ _))

/-- The characters that repeat the item before them. -/
def isSuffix (b : UInt8) : Bool := (bytesOf "*+-?").contains b

theorem isItem_byte {b : UInt8} (hb : IsPlain b) : IsItem [b] := by
  obtain ⟨hopen, hclose, hesc, hset, -⟩ := hb
  refine ⟨fun p => ?_, b, [], rfl, hopen, hclose, fun h => absurd h hesc⟩
  simp [LuaPattern.classEnd, hesc, hset]

theorem single_byte {b : UInt8} (hb : IsPlain b) (c : UInt8) : single [b] c = (b == c) := by
  obtain ⟨-, -, hesc, hset, hdot⟩ := hb
  simp only [single, if_neg hdot, if_neg hesc, if_neg hset]

/-- What an item of one byte matches. -/
theorem any_single {b : UInt8} (hb : IsPlain b) (o : Option UInt8) : (o.any (single [b]) = true) = (o = some b) := by
  cases o with
  | none => simp
  | some c =>
      rw [Option.any_some, single_byte hb, beq_iff_eq, Option.some.injEq]
      exact propext eq_comm

/-- The item that matches every byte. -/
theorem isItem_notSlash : IsItem (bytesOf "[^/]") := by
  have hset : bytesOf "[^/]" = [91, 94, 47, 93] := by decide
  rw [hset]
  exact ⟨fun p => rfl, 91, _, rfl, by decide, by decide, fun h => absurd h (by decide)⟩

theorem single_notSlash : single (bytesOf "[^/]") = fun c => c != ascii '/' := by
  ext c
  revert c
  decide +kernel

theorem isItem_dot : IsItem [ascii '.'] :=
  ⟨fun p => rfl, ascii '.', [], rfl, by decide, by decide, fun h => absurd h (by decide)⟩

theorem isItem_escaped {letter : UInt8} (hb : letter ≠ ascii 'b') (hf : letter ≠ ascii 'f')
    (hdigit : isDigit letter = false) : IsItem [ascii '%', letter] := by
  refine ⟨fun p => ?_, ascii '%', [letter], rfl, by decide, by decide, fun _ => ?_⟩
  · simp [LuaPattern.classEnd]
  · exact ⟨letter, [], rfl, hb, hf, hdigit⟩

section Equations

variable {src : List UInt8} {rounds depth s : ℕ} {caps : List Capture} {item p : List UInt8}

@[simp] theorem matchHere_nil : matchHere src (rounds + 1) depth [] s caps = .ok (some (s, caps)) := rfl

theorem matchHere_end : matchHere src (rounds + 1) depth [ascii '$'] s caps =
    .ok (if s = src.length then some (s, caps) else none) := rfl

theorem matchHere_open (hp : p.head? ≠ some (ascii ')')) (hcaps : caps.length < maxCaptures) :
    matchHere src (rounds + 1) (depth + 1) (ascii '(' :: p) s caps =
      matchHere src rounds depth p s (⟨s, .unfinished⟩ :: caps) := by
  simp only [matchHere, if_true, if_neg (not_le.mpr hcaps), if_neg hp, nested]

theorem matchHere_close {start : ℕ} :
    matchHere src (rounds + 1) (depth + 1) (ascii ')' :: p) s (⟨start, .unfinished⟩ :: caps) =
      matchHere src rounds depth p s (⟨start, .closed (s - start)⟩ :: caps) := by
  have hopen : ascii ')' ≠ ascii '(' := by decide
  simp only [matchHere, if_neg hopen, if_true, closeCapture, nested]

/-- The matcher at an item. -/
theorem matchHere_item (h : IsItem item) (hend : item = [ascii '$'] → p ≠ []) :
    matchHere src (rounds + 1) depth (item ++ p) s caps =
      matchItem src (fun depth pattern s => matchHere src rounds depth pattern s caps) depth (item ++ p) s := by
  obtain ⟨b, rest, rfl, hopen, hclose, hesc⟩ := h.first
  have hdollar : ¬(b = ascii '$' ∧ rest ++ p = []) := by
    rintro ⟨rfl, hnil⟩
    obtain ⟨rfl, rfl⟩ := List.append_eq_nil_iff.mp hnil
    exact hend rfl rfl
  rw [List.cons_append, matchHere.eq_def]
  simp only [if_neg hopen, if_neg hclose, if_neg hdollar]
  split
  · rename_i hb
    obtain ⟨e, more, rfl, heb, hef, hdigit⟩ := hesc hb
    simp only [List.cons_append, if_neg heb, if_neg hef, hdigit, Bool.false_eq_true, if_false]
  · rfl

/-- An item without a suffix. -/
theorem matchHere_once (h : IsItem item) (hend : item = [ascii '$'] → p ≠ [])
    (hp : isSuffix (p.headD 0) = false) :
    matchHere src (rounds + 1) depth (item ++ p) s caps =
      if (src.drop s).head?.any (single item) then matchHere src rounds depth p (s + 1) caps
      else .ok none := by
  have hsuffix : ∀ c : Char, isSuffix (ascii c) = true → p.headD 0 ≠ ascii c := by
    intro c hc heq
    rw [heq, hc] at hp
    cases hp
  have hstar := hsuffix '*' (by decide)
  have hplus := hsuffix '+' (by decide)
  have hminus := hsuffix '-' (by decide)
  have hquery := hsuffix '?' (by decide)
  rw [matchHere_item h hend, matchItem, h.classEnd]
  simp only [bind, Except.bind, List.take_left, List.drop_left, hstar, hplus, hminus, hquery, or_self,
    if_false]

/-- One or more repetitions of an item, with calls as deep as may be. -/
theorem matchHere_plus_nested (h : IsItem item) :
    matchHere src (rounds + 1) depth (item ++ ascii '+' :: p) s caps =
      if (src.drop s).head?.any (single item) then
        maxExpand (fun s => nested depth fun depth => matchHere src rounds depth p s caps) (s + 1)
          (((src.drop s).takeWhile (single item)).length - 1)
      else .ok none := by
  have hquery : ascii '+' ≠ ascii '?' := by decide
  have hstar : ascii '+' ≠ ascii '*' := by decide
  have hminus : ascii '+' ≠ ascii '-' := by decide
  rw [matchHere_item h (by simp), matchItem, h.classEnd]
  simp only [bind, Except.bind, List.take_left, List.drop_left, List.headD_cons, List.tail_cons, if_true,
    hstar, hquery, hminus, or_self, if_false]

/-- One or more repetitions of an item. -/
theorem matchHere_plus (h : IsItem item) :
    matchHere src (rounds + 1) (depth + 1) (item ++ ascii '+' :: p) s caps =
      if (src.drop s).head?.any (single item) then
        maxExpand (fun s => matchHere src rounds depth p s caps) (s + 1)
          (((src.drop s).takeWhile (single item)).length - 1)
      else .ok none :=
  matchHere_plus_nested h

/-- Any number of repetitions of an item. -/
theorem matchHere_star (h : IsItem item) :
    matchHere src (rounds + 1) (depth + 1) (item ++ ascii '*' :: p) s caps =
      if (src.drop s).head?.any (single item) then
        maxExpand (fun s => matchHere src rounds depth p s caps) s
          ((src.drop s).takeWhile (single item)).length
      else matchHere src rounds (depth + 1) p s caps := by
  have hquery : ascii '*' ≠ ascii '?' := by decide
  have hplus : ascii '*' ≠ ascii '+' := by decide
  rw [matchHere_item h (by simp), matchItem, h.classEnd]
  simp only [bind, Except.bind, List.take_left, List.drop_left, List.headD_cons, List.tail_cons, if_true,
    hquery, hplus, true_or, if_false, nested]

end Equations

/-! ## Repetitions -/

section Repetitions

variable {k : ℕ → Attempt} {s n : ℕ}

/-- The longest repetition decides, unless the rest does not match there. -/
theorem maxExpand_longest (h : k (s + n) ≠ .ok none) : maxExpand k s n = k (s + n) := by
  cases n with
  | zero => rfl
  | succ n =>
      rw [maxExpand]
      split
      · rename_i hnone
        exact absurd hnone h
      · rfl

theorem maxExpand_shorter (h : k (s + (n + 1)) = .ok none) : maxExpand k s (n + 1) = maxExpand k s n := by
  rw [maxExpand, h]

/-- What is found is found by some repetition. -/
theorem exists_of_maxExpand : maxExpand k s n ≠ .ok none → ∃ i ≤ n, maxExpand k s n = k (s + i) := by
  induction n with
  | zero => exact fun _ => ⟨0, le_rfl, rfl⟩
  | succ n ih =>
      intro h
      by_cases hk : k (s + (n + 1)) = .ok none
      · rw [maxExpand_shorter hk] at h ⊢
        obtain ⟨i, hi, heq⟩ := ih h
        exact ⟨i, Nat.le_succ_of_le hi, heq⟩
      · exact ⟨n + 1, le_rfl, maxExpand_longest hk⟩

/-- Nothing is found only if no repetition does. -/
theorem forall_of_maxExpand : maxExpand k s n = .ok none → ∀ i ≤ n, k (s + i) = .ok none := by
  induction n with
  | zero =>
      intro h i hi
      rw [Nat.le_zero.mp hi]
      exact h
  | succ n ih =>
      intro h i hi
      by_cases hk : k (s + (n + 1)) = .ok none
      · rcases Nat.le_succ_iff.mp hi with hle | rfl
        · exact ih (by rwa [maxExpand_shorter hk] at h) i hle
        · exact hk
      · rw [maxExpand_longest hk] at h
        exact absurd h hk

/-- If no shorter repetition does, the longest decides. -/
theorem maxExpand_of_shorter (h : ∀ i < n, k (s + i) = .ok none) :
    maxExpand k s n = k (s + n) := by
  induction n with
  | zero => rfl
  | succ n ih =>
      by_cases hk : k (s + (n + 1)) = .ok none
      · rw [maxExpand_shorter hk, ih fun i hi => h i (Nat.lt_succ_of_lt hi), h n (Nat.lt_succ_self n), hk]
      · exact maxExpand_longest hk

end Repetitions

/-! ## Captured runs -/

section Runs

variable {src : List UInt8} {rounds depth s : ℕ} {caps : List Capture} {item p : List UInt8}

/-- What follows the longest run of an item does not match it. -/
theorem head?_behind_run (q : UInt8 → Bool) (t : List UInt8) {b : UInt8}
    (h : (t.drop (t.takeWhile q).length).head? = some b) : q b = false := by
  induction t with
  | nil => cases h
  | cons c t ih =>
      by_cases hc : q c = true
      · rw [List.takeWhile_cons_of_pos hc] at h
        exact ih h
      · rw [List.takeWhile_cons_of_neg hc] at h
        cases h
        simpa using hc

/-- Inside a run stands a byte of it. -/
theorem head?_inside_run (q : UInt8 → Bool) {t : List UInt8} {i : ℕ} (h : i < (t.takeWhile q).length) :
    ∃ c, (t.drop i).head? = some c ∧ q c = true := by
  induction t generalizing i with
  | nil => cases h
  | cons c t ih =>
      by_cases hc : q c = true
      · rw [List.takeWhile_cons_of_pos hc] at h
        cases i with
        | zero => exact ⟨c, rfl, hc⟩
        | succ i => exact ih (Nat.lt_of_succ_lt_succ h)
      · rw [List.takeWhile_cons_of_neg hc] at h
        cases h

theorem head?_ne_close (h : IsItem item) : (item ++ p).head? ≠ some (ascii ')') := by
  obtain ⟨b, rest, rfl, -, hclose, -⟩ := h.first
  simpa using hclose

/-- An item that matches the first byte has a run. -/
theorem any_head?_iff (q : UInt8 → Bool) (t : List UInt8) : t.head?.any q = true ↔ t.takeWhile q ≠ [] := by
  cases t with
  | nil => simp
  | cons c t => by_cases hc : q c = true <;> simp [hc]

/-- A run that ends where it should. -/
theorem takeWhile_run {q : UInt8 → Bool} {x t : List UInt8} (hx : ∀ b ∈ x, q b = true)
    (ht : ∀ b, t.head? = some b → q b = false) : (x ++ t).takeWhile q = x := by
  rw [List.takeWhile_append_of_pos hx]
  cases t with
  | nil => exact List.append_nil x
  | cons b t => rw [List.takeWhile_cons_of_neg (by simp [ht b rfl]), List.append_nil]

/-- A text, the run at a place of it and the rest. -/
theorem drop_run (q : UInt8 → Bool) (t : List UInt8) (k : ℕ) :
    t.drop k = (t.drop k).takeWhile q ++ t.drop (k + ((t.drop k).takeWhile q).length) := by
  rw [← List.drop_drop, drop_takeWhile, List.takeWhile_append_dropWhile]

theorem drop_of_head? {t : List UInt8} {k : ℕ} {c : UInt8} (h : (t.drop k).head? = some c) :
    t.drop k = c :: t.drop (k + 1) := by
  rw [← List.tail_drop]
  cases hdrop : t.drop k with
  | nil =>
      rw [hdrop] at h
      cases h
  | cons b rest =>
      rw [hdrop] at h
      cases h
      rfl

/-- The text of a run. -/
theorem take_run (q : UInt8 → Bool) (t : List UInt8) : t.take (t.takeWhile q).length = t.takeWhile q :=
  (List.prefix_iff_eq_take.mp (List.takeWhile_prefix q)).symm

theorem run_le {q : UInt8 → Bool} {t : List UInt8} {k : ℕ} (h : (t.drop k).takeWhile q ≠ []) :
    k + ((t.drop k).takeWhile q).length ≤ t.length := by
  have hle := (List.takeWhile_prefix q (l := t.drop k)).length_le
  have hpos := List.length_pos_of_ne_nil h
  rw [List.length_drop] at hle
  omega

/-- **A captured run and the byte behind it**: the item does not match that byte, so that only
the longest run will do. -/
theorem matchHere_captureRun (h : IsItem item) {b : UInt8} (hb : IsPlain b) (hnot : single item b = false)
    (hend : [b] = [ascii '$'] → p ≠ []) (hp : isSuffix (p.headD 0) = false) (hcaps : caps.length < maxCaptures) :
    matchHere src (rounds + 4) (depth + 3) (ascii '(' :: (item ++ ascii '+' :: ascii ')' :: ([b] ++ p))) s caps =
      if (src.drop s).takeWhile (single item) ≠ [] ∧
          (src.drop (s + ((src.drop s).takeWhile (single item)).length)).head? = some b then
        matchHere src rounds depth p (s + ((src.drop s).takeWhile (single item)).length + 1)
          (⟨s, .closed ((src.drop s).takeWhile (single item)).length⟩ :: caps)
      else .ok none := by
  have hclose : ∀ e, matchHere src (rounds + 2) (depth + 1) (ascii ')' :: ([b] ++ p)) e (⟨s, .unfinished⟩ :: caps) =
      if (src.drop e).head? = some b then matchHere src rounds depth p (e + 1) (⟨s, .closed (e - s)⟩ :: caps)
      else .ok none := by
    intro e
    rw [matchHere_close, matchHere_once (isItem_byte hb) hend hp]
    congr 1
    cases (src.drop e).head? with
    | none => simp
    | some c =>
        rw [Option.any_some, single_byte hb, beq_iff_eq, Option.some.injEq]
        exact propext eq_comm
  rw [matchHere_open (head?_ne_close h) hcaps, matchHere_plus h]
  simp only [hclose, any_head?_iff]
  by_cases hrun : (src.drop s).takeWhile (single item) = []
  · rw [if_neg (not_not.mpr hrun), if_neg fun hboth => hboth.1 hrun]
  · have hpos : 0 < ((src.drop s).takeWhile (single item)).length := List.length_pos_of_ne_nil hrun
    have hlast : s + 1 + (((src.drop s).takeWhile (single item)).length - 1)
        = s + ((src.drop s).takeWhile (single item)).length := by omega
    rw [if_pos hrun, maxExpand_of_shorter, hlast, Nat.add_sub_cancel_left]
    · simp only [ne_eq, hrun, not_false_eq_true, true_and]
    · -- inside the run no such byte stands
      intro i hi
      obtain ⟨c, hc, hmatch⟩ := head?_inside_run (single item) (t := src.drop s) (i := i + 1) (by omega)
      rw [List.drop_drop] at hc
      have hne : c ≠ b := by
        rintro rfl
        rw [hnot] at hmatch
        cases hmatch
      rw [show s + 1 + i = s + (i + 1) by omega, hc, if_neg (by simpa using hne)]

/-- A captured run with nothing behind it that could fail. -/
theorem matchHere_captureLongest (h : IsItem item) (hcaps : caps.length < maxCaptures)
    (hrest : ∀ e, matchHere src rounds depth p e (⟨s, .closed (e - s)⟩ :: caps) ≠ .ok none) :
    matchHere src (rounds + 3) (depth + 3) (ascii '(' :: (item ++ ascii '+' :: ascii ')' :: p)) s caps =
      if (src.drop s).takeWhile (single item) ≠ [] then
        matchHere src rounds depth p (s + ((src.drop s).takeWhile (single item)).length)
          (⟨s, .closed ((src.drop s).takeWhile (single item)).length⟩ :: caps)
      else .ok none := by
  rw [matchHere_open (head?_ne_close h) hcaps, matchHere_plus h]
  simp only [matchHere_close, any_head?_iff]
  by_cases hrun : (src.drop s).takeWhile (single item) = []
  · rw [if_neg (not_not.mpr hrun), if_neg (not_not.mpr hrun)]
  · have hpos : 0 < ((src.drop s).takeWhile (single item)).length := List.length_pos_of_ne_nil hrun
    have hlast : s + 1 + (((src.drop s).takeWhile (single item)).length - 1)
        = s + ((src.drop s).takeWhile (single item)).length := by omega
    rw [if_pos hrun, if_pos hrun, maxExpand_longest (hrest _), hlast, Nat.add_sub_cancel_left]

/-- A captured run that may be empty, with nothing behind it that could fail. -/
theorem matchHere_captureAny (h : IsItem item) (hcaps : caps.length < maxCaptures)
    (hrest : ∀ e, matchHere src rounds depth p e (⟨s, .closed (e - s)⟩ :: caps) ≠ .ok none) :
    ∃ depth', depth ≤ depth' ∧
    matchHere src (rounds + 3) (depth + 3) (ascii '(' :: (item ++ ascii '*' :: ascii ')' :: p)) s caps =
      matchHere src rounds depth' p (s + ((src.drop s).takeWhile (single item)).length)
        (⟨s, .closed ((src.drop s).takeWhile (single item)).length⟩ :: caps) := by
  rw [matchHere_open (head?_ne_close h) hcaps, matchHere_star h]
  simp only [matchHere_close, any_head?_iff]
  by_cases hrun : (src.drop s).takeWhile (single item) = []
  · rw [if_neg (not_not.mpr hrun), hrun]
    exact ⟨depth + 1, Nat.le_succ depth, by simp⟩
  · refine ⟨depth, le_rfl, ?_⟩
    rw [if_pos hrun, maxExpand_longest (hrest _), Nat.add_sub_cancel_left]

/-- The rest of the subject, captured. -/
theorem matchHere_captureRest (hs : s ≤ src.length) (hcaps : caps.length < maxCaptures) :
    matchHere src (rounds + 4) (depth + 3) (ascii '(' :: ([ascii '.'] ++ ascii '*' :: [ascii ')'])) s caps =
      .ok (some (src.length, ⟨s, .closed (src.length - s)⟩ :: caps)) := by
  have hall : (src.drop s).takeWhile (single [ascii '.']) = src.drop s :=
    List.takeWhile_eq_self_iff.mpr fun b _ => rfl
  obtain ⟨depth', -, heq⟩ := @matchHere_captureAny src (rounds + 1) depth s caps _ [] isItem_dot hcaps
    (by simp)
  rw [heq, hall, matchHere_nil, List.length_drop, Nat.add_sub_cancel' hs]

/-- The rest of the subject, captured, if the item matches all of it. -/
theorem matchHere_captureAll (h : IsItem item) (hs : s < src.length) (hcaps : caps.length < maxCaptures)
    (hall : ∀ c ∈ src.drop s, single item c = true) :
    matchHere src (rounds + 4) (depth + 3) (ascii '(' :: (item ++ ascii '+' :: [ascii ')', ascii '$'])) s caps =
      .ok (some (src.length, ⟨s, .closed (src.length - s)⟩ :: caps)) := by
  have hrun : (src.drop s).takeWhile (single item) = src.drop s := List.takeWhile_eq_self_iff.mpr hall
  have hne : src.drop s ≠ [] := by
    rw [ne_eq, List.drop_eq_nil_iff]
    omega
  have hlast : s + 1 + ((src.drop s).length - 1) = src.length := by
    rw [List.length_drop]
    omega
  rw [matchHere_open (head?_ne_close h) hcaps, matchHere_plus h, if_pos ((any_head?_iff _ _).mpr (by rwa [hrun])),
    hrun, maxExpand_longest]
  · simp only [matchHere_close, matchHere_end, hlast, if_true]
  · simp only [matchHere_close, matchHere_end, hlast, if_true, ne_eq, Except.ok.injEq, reduceCtorEq, not_false_eq_true]

/-- An item that may be left out is taken if nothing fails behind it. -/
theorem matchHere_query (h : IsItem item) (hc : (src.drop s).head?.any (single item) = true)
    (hrest : matchHere src rounds depth p (s + 1) caps ≠ .ok none) :
    matchHere src (rounds + 1) (depth + 1) (item ++ ascii '?' :: p) s caps = matchHere src rounds depth p (s + 1) caps := by
  rw [matchHere_item h (by simp), matchItem, h.classEnd]
  simp only [bind, Except.bind, List.take_left, List.drop_left, List.headD_cons, List.tail_cons, hc, if_true, nested]

/-- Nothing can fail at the rest of the subject. -/
theorem captureRest_ne_none (hcaps : caps.length < maxCaptures) :
    matchHere src (rounds + 4) (depth + 3) (ascii '(' :: ([ascii '.'] ++ ascii '*' :: [ascii ')'])) s caps ≠
      .ok none := by
  obtain ⟨depth', -, heq⟩ := @matchHere_captureAny src (rounds + 1) depth s caps _ [] isItem_dot hcaps
    (by simp)
  rw [heq, matchHere_nil]
  simp

end Runs

/-! ## Attempts that succeed -/

section Succeeds

variable {src : List UInt8} {rounds depth s : ℕ} {caps : List Capture} {item p : List UInt8}

theorem exists_of_nested {k : ℕ → Attempt} {r : Option (ℕ × List Capture)} (h : nested depth k = .ok r) :
    ∃ depth, k depth = .ok r := by
  cases depth with
  | zero => cases h
  | succ depth => exact ⟨depth, h⟩

theorem exists_of_matchHere_open {r : Option (ℕ × List Capture)} (hp : p.head? ≠ some (ascii ')'))
    (h : matchHere src (rounds + 1) depth (ascii '(' :: p) s caps = .ok r) :
    caps.length < maxCaptures ∧ ∃ depth, matchHere src rounds depth p s (⟨s, .unfinished⟩ :: caps) = .ok r := by
  simp only [matchHere, if_true, if_neg hp] at h
  split at h
  · cases h
  · rename_i hcaps
    exact ⟨not_le.mp hcaps, exists_of_nested h⟩

theorem exists_of_matchHere_close {start : ℕ} {r : Option (ℕ × List Capture)}
    (h : matchHere src (rounds + 1) depth (ascii ')' :: p) s (⟨start, .unfinished⟩ :: caps) = .ok r) :
    ∃ depth, matchHere src rounds depth p s (⟨start, .closed (s - start)⟩ :: caps) = .ok r := by
  have hopen : ascii ')' ≠ ascii '(' := by decide
  simp only [matchHere, if_neg hopen, if_true, closeCapture] at h
  exact exists_of_nested h

theorem exists_of_matchHere_plus (hitem : IsItem item) {r : ℕ × List Capture}
    (h : matchHere src (rounds + 1) depth (item ++ ascii '+' :: p) s caps = .ok (some r)) :
    ∃ depth e, matchHere src rounds depth p e caps = .ok (some r) := by
  rw [matchHere_plus_nested hitem] at h
  split at h
  · obtain ⟨i, -, hi⟩ := exists_of_maxExpand (k := fun s => nested depth fun depth => matchHere src rounds depth p s caps)
      (by
        rw [h]
        exact nofun)
    obtain ⟨depth, hfound⟩ := exists_of_nested (hi.symm.trans h)
    exact ⟨depth, _, hfound⟩
  · cases h

end Succeeds

/-! ## Attempts that come to something

An attempt that finds a match or raises an error has not failed; nor has one that goes on to
it. -/

section NotNone

variable {src : List UInt8} {self : ℕ → List UInt8 → ℕ → Attempt} {depth s : ℕ} {item p : List UInt8}

theorem nested_ne_none {k : ℕ → Attempt} (h : ∀ depth, k depth ≠ .ok none) : nested depth k ≠ .ok none := by
  cases depth with
  | zero => exact nofun
  | succ depth => exact h depth

/-- An item that may be left out. -/
theorem matchItem_ne_none {q : UInt8} (h : IsItem item) (hq : q = ascii '*' ∨ q = ascii '?' ∨ q = ascii '-')
    (hself : ∀ depth, self depth p s ≠ .ok none) : matchItem src self depth (item ++ q :: p) s ≠ .ok none := by
  have hafter : nested depth (fun depth => self depth p s) ≠ .ok none := nested_ne_none hself
  have hplus : q ≠ ascii '+' := by
    rcases hq with rfl | rfl | rfl <;> decide
  rw [matchItem, h.classEnd]
  simp only [bind, Except.bind, List.take_left, List.drop_left, List.headD_cons, List.tail_cons, if_neg hplus,
    if_pos hq]
  split
  · split
    · split
      · exact hself depth
      · rename_i hne
        exact hne
    · split
      · intro hnone
        exact hafter (forall_of_maxExpand hnone 0 (Nat.zero_le _))
      · rw [if_pos (by tauto)]
        cases src.drop s with
        | nil => exact hafter
        | cons c rest =>
            rw [minExpand]
            split
            · rename_i hnone
              exact absurd hnone hafter
            · rename_i hne
              exact hne
  · exact hself depth

/-- An item that is repeated at least once. -/
theorem matchItem_plus_ne_none (h : IsItem item) {c : UInt8} (hc : (src.drop s).head? = some c)
    (hmatch : single item c = true) (hself : ∀ depth, self depth p (s + 1) ≠ .ok none) :
    matchItem src self depth (item ++ ascii '+' :: p) s ≠ .ok none := by
  have hquery : ascii '+' ≠ ascii '?' := by decide
  rw [matchItem, h.classEnd]
  simp only [bind, Except.bind, List.take_left, List.drop_left, List.headD_cons, List.tail_cons, hc,
    Option.any_some, hmatch, if_true, if_neg hquery]
  exact fun hnone => nested_ne_none hself (forall_of_maxExpand hnone 0 (Nat.zero_le _))

variable {rounds : ℕ} {caps : List Capture}

theorem matchHere_open_ne_none (hself : ∀ depth caps, matchHere src rounds depth p s caps ≠ .ok none)
    (hposition : p.head? = some (ascii ')') → ∀ depth caps, matchHere src rounds depth p.tail s caps ≠ .ok none) :
    matchHere src (rounds + 1) depth (ascii '(' :: p) s caps ≠ .ok none := by
  simp only [matchHere, if_true]
  split
  · exact nofun
  · split
    · rename_i hhead
      exact nested_ne_none fun depth => hposition hhead depth _
    · exact nested_ne_none fun depth => hself depth _

theorem matchHere_close_ne_none (hself : ∀ depth caps, matchHere src rounds depth p s caps ≠ .ok none) :
    matchHere src (rounds + 1) depth (ascii ')' :: p) s caps ≠ .ok none := by
  have hopen : ascii ')' ≠ ascii '(' := by decide
  simp only [matchHere, if_neg hopen, if_true]
  split
  · exact nofun
  · exact nested_ne_none fun depth => hself depth _

end NotNone

/-! ## Trying every place -/

/-- The values of closed captures. -/
theorem captureValues_closed (src : List UInt8) (s e : ℕ) (caps : List (ℕ × ℕ)) (hne : caps ≠ []) :
    captureValues src s e (caps.map fun c => ⟨c.1, .closed c.2⟩) =
      .ok (caps.reverse.map fun c => .text ((src.drop c.1).take c.2)) := by
  have hcaps : caps.map (fun c => (⟨c.1, .closed c.2⟩ : Capture)) ≠ [] := by simpa using hne
  rw [captureValues, if_neg hcaps, ← List.map_reverse, List.mapM_map]
  exact List.mapM_pure

/-- **`string.match`** with a pattern that is not anchored tries the tails of the subject. -/
theorem strMatch_tails {src pattern : List UInt8} (hb : pattern.head? ≠ some (ascii '^'))
    {f : List UInt8 → Option (List (List UInt8))}
    (h : ∀ s ≤ src.length, (f (src.drop s) = none ∧ attempt src pattern s = .ok none) ∨
      ∃ values e caps, f (src.drop s) = some values ∧ attempt src pattern s = .ok (some (e, caps)) ∧
        captureValues src s e caps = .ok (values.map .text)) :
    strMatch src pattern = .ok ((src.tails.findSome? f).map fun values => values.map .text) := by
  have hsearch : ∀ n s, s + n = src.length → search src pattern (n + 1) s =
      .ok (((src.drop s).tails.findSome? f).map fun values => values.map .text) := by
    intro n
    induction n with
    | zero =>
        intro s hs
        have hend : src.drop s = [] := List.drop_of_length_le (by omega)
        have htails : (src.drop s).tails = [src.drop s] := by rw [hend]; rfl
        rw [search, htails, List.findSome?_cons]
        rcases h s (by omega) with ⟨hf, hat⟩ | ⟨values, e, caps, hf, hat, hvalues⟩
        · rw [hat, hf]
          rfl
        · rw [hat, hf]
          simp only [bind, Except.bind, hvalues]
          rfl
    | succ n ih =>
        intro s hs
        have htails : (src.drop s).tails = src.drop s :: (src.drop (s + 1)).tails := by
          rw [List.drop_eq_getElem_cons (by omega), List.tails_cons]
        rw [search, htails, List.findSome?_cons]
        rcases h s (by omega) with ⟨hf, hat⟩ | ⟨values, e, caps, hf, hat, hvalues⟩
        · rw [hat, hf]
          exact ih (s + 1) (by omega)
        · rw [hat, hf]
          simp only [bind, Except.bind, hvalues]
          rfl
  have hstart : strMatch src pattern = search src pattern (src.length + 1) 0 := by
    cases pattern with
    | nil => rfl
    | cons b rest => rw [strMatch, if_neg fun heq => hb (by rw [heq]; rfl)]
  rw [hstart, hsearch src.length 0 (Nat.zero_add _), List.drop_zero]

/-! ## Scanning

A pattern whose matches are not empty and depend on nothing before them cuts a subject into
matches and single bytes. -/

/-- A stretch of a subject: a byte, or a match with its values. -/
inductive Token where
  | byte (b : UInt8)
  | hit (values : List CaptureValue)
  deriving DecidableEq

/-- The stretches of a text.  `scan` tells how many bytes of the rest a match that begins with
a byte takes, and its values. -/
def tokens (scan : UInt8 → List UInt8 → Option (ℕ × List CaptureValue)) : List UInt8 → List Token
  | [] => []
  | c :: rest =>
      match scan c rest with
      | some (n, values) => .hit values :: tokens scan (rest.drop n)
      | none => .byte c :: tokens scan rest
termination_by l => l.length
decreasing_by
  · rw [List.length_drop, List.length_cons]
    omega
  · rw [List.length_cons]
    omega

/-- What a stretch becomes when matches are replaced. -/
def Token.replaced (repl : List CaptureValue → List UInt8) : Token → List UInt8
  | byte b => [b]
  | hit values => repl values

/-- The values of a match. -/
def Token.values : Token → Option (List CaptureValue)
  | byte _ => none
  | hit values => some values

/-- The pattern matches what the scanner tells. -/
structure Scans (pattern : List UInt8) (scan : UInt8 → List UInt8 → Option (ℕ × List CaptureValue)) :
    Prop where
  found : ∀ {src s c rest n values}, src.drop s = c :: rest → scan c rest = some (n, values) →
    ∃ caps, attempt src pattern s = .ok (some (s + (n + 1), caps)) ∧
      captureValues src s (s + (n + 1)) caps = .ok values
  missed : ∀ {src s c rest}, src.drop s = c :: rest → scan c rest = none → attempt src pattern s = .ok none
  ended : ∀ {src s}, src.drop s = [] → attempt src pattern s = .ok none

section Scanning

variable {pattern : List UInt8} {scan : UInt8 → List UInt8 → Option (ℕ × List CaptureValue)}

theorem drop_of_drop_eq_cons {src rest : List UInt8} {s : ℕ} {c : UInt8} (h : src.drop s = c :: rest) (n : ℕ) :
    src.drop (s + (n + 1)) = rest.drop n := by
  rw [← List.drop_drop, h, List.drop_succ_cons]

/-- Each round of `gsub` takes a stretch. -/
theorem Scans.gsubFrom_eq (h : Scans pattern scan) (repl : List CaptureValue → List UInt8) {src : List UInt8}
    {rounds : ℕ} :
    ∀ {s : ℕ} {last : Option ℕ}, (src.drop s).length < rounds → (∀ e, last = some e → e ≤ s) →
      gsubFrom src pattern repl rounds s last =
        .ok ((tokens scan (src.drop s)).flatMap (Token.replaced repl)) := by
  induction rounds with
  | zero => exact fun hlt => absurd hlt (Nat.not_lt_zero _)
  | succ rounds ih =>
      intro s last hlt hlast
      rw [gsubFrom]
      cases hdrop : src.drop s with
      | nil =>
          rw [h.ended hdrop]
          simp [tokens, bind, Except.bind]
      | cons c rest =>
          rw [hdrop, List.length_cons] at hlt
          have hnext : ∀ n, (src.drop (s + (n + 1))).length < rounds := by
            intro n
            rw [drop_of_drop_eq_cons hdrop, List.length_drop]
            omega
          cases hscan : scan c rest with
          | none =>
              have hrest := ih (hnext 0) fun e he => (hlast e he).trans (Nat.le_succ s)
              rw [h.missed hdrop hscan, tokens, hscan]
              simp only [bind, Except.bind, hrest, drop_of_drop_eq_cons hdrop, List.drop_zero,
                List.flatMap_cons, Token.replaced]
              rfl
          | some found =>
              obtain ⟨n, values⟩ := found
              obtain ⟨caps, hattempt, hvalues⟩ := h.found hdrop hscan
              have hne : some (s + (n + 1)) ≠ last := by
                intro heq
                have hle := hlast _ heq.symm
                omega
              have hrest := ih (hnext n) fun e he => (Option.some.inj he).symm.le
              rw [hattempt, tokens, hscan]
              simp only [bind, Except.bind, if_pos hne, hvalues, hrest, drop_of_drop_eq_cons hdrop,
                List.flatMap_cons, Token.replaced]
              rfl

/-- **`gsub`** replaces the matches. -/
theorem Scans.gsub_eq (h : Scans pattern scan) (src : List UInt8) (repl : List CaptureValue → List UInt8) :
    gsub src pattern repl = .ok ((tokens scan src).flatMap (Token.replaced repl)) := by
  rw [gsub, h.gsubFrom_eq repl (by rw [List.drop_zero]; omega) (by simp), List.drop_zero]

theorem Scans.gmatchFrom_eq (h : Scans pattern scan) {src : List UInt8} {rounds : ℕ} :
    ∀ {s : ℕ} {last : Option ℕ}, (src.drop s).length + 1 < rounds → (∀ e, last = some e → e ≤ s) →
      gmatchFrom src pattern rounds s last = .ok ((tokens scan (src.drop s)).filterMap Token.values) := by
  induction rounds with
  | zero => exact fun hlt => absurd hlt (Nat.not_lt_zero _)
  | succ rounds ih =>
      intro s last hlt hlast
      rw [gmatchFrom]
      cases hdrop : src.drop s with
      | nil =>
          have hlen := List.drop_eq_nil_iff.mp hdrop
          split
          · simp [tokens]
          · rw [h.ended hdrop]
            simp only [bind, Except.bind]
            cases rounds with
            | zero => omega
            | succ rounds => rw [gmatchFrom, if_pos (by omega)]; simp [tokens]
      | cons c rest =>
          have hlen : ¬src.length < s := by
            intro hlt
            rw [List.drop_eq_nil_iff.mpr hlt.le] at hdrop
            cases hdrop
          rw [hdrop, List.length_cons] at hlt
          have hnext : ∀ n, (src.drop (s + (n + 1))).length + 1 < rounds := by
            intro n
            rw [drop_of_drop_eq_cons hdrop, List.length_drop]
            omega
          rw [if_neg hlen]
          cases hscan : scan c rest with
          | none =>
              have hrest := ih (hnext 0) fun e he => (hlast e he).trans (Nat.le_succ s)
              rw [h.missed hdrop hscan, tokens, hscan]
              simp only [bind, Except.bind, hrest, drop_of_drop_eq_cons hdrop, List.drop_zero]
              rfl
          | some found =>
              obtain ⟨n, values⟩ := found
              obtain ⟨caps, hattempt, hvalues⟩ := h.found hdrop hscan
              have hne : some (s + (n + 1)) ≠ last := by
                intro heq
                have hle := hlast _ heq.symm
                omega
              have hrest := ih (hnext n) fun e he => (Option.some.inj he).symm.le
              rw [hattempt, tokens, hscan]
              simp only [bind, Except.bind, if_pos hne, hvalues, hrest, drop_of_drop_eq_cons hdrop]
              rfl

/-- **`gmatch`** goes over the matches. -/
theorem Scans.gmatch_eq (h : Scans pattern scan) (src : List UInt8) :
    gmatch src pattern = .ok ((tokens scan src).filterMap Token.values) := by
  rw [gmatch, h.gmatchFrom_eq (by rw [List.drop_zero]; omega) (by simp), List.drop_zero]

end Scanning

end LuaPattern
