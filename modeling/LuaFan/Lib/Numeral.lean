/-
# Numerals: `strtod` and `%g`

`strtod` skips white space, takes the longest numeral in front of it and answers
the nearest binary64 word with the number of bytes used (none used when there is
no numeral).  The numerals are those of the C standard: decimal and hexadecimal
ones with an optional exponent, infinities and NaNs.

`formatG` is the `%g` conversion of `printf`: a given number of significant
digits, trailing zeros removed, scientific notation for large and small exponents.
-/
import LuaFan.Lib.Binary64

namespace Fp

/-- The byte of an ASCII character. -/
def ascii (c : Char) : UInt8 := UInt8.ofNat c.toNat

/-- `isspace` of the C locale. -/
def isSpace (b : UInt8) : Bool := b == 32 || (9 ≤ b && b ≤ 13)

/-- `isdigit`. -/
def isDigit (b : UInt8) : Bool := 48 ≤ b && b ≤ 57

/-- `tolower` of the C locale. -/
def toLower (b : UInt8) : UInt8 := if 65 ≤ b ∧ b ≤ 90 then b + 32 else b

/-- `isxdigit`. -/
def isXDigit (b : UInt8) : Bool := isDigit b || (97 ≤ toLower b && toLower b ≤ 102)

/-- The value of a decimal or hexadecimal digit. -/
def digitValue (b : UInt8) : ℕ :=
  if isDigit b then b.toNat - 48 else (toLower b).toNat - 87

/-- The number a run of digits denotes. -/
def digitsValue (base : ℕ) (ds : List UInt8) : ℕ :=
  ds.foldl (fun acc d => acc * base + digitValue d) 0

/-- An optional sign: whether it is a minus, and how many bytes it takes. -/
def takeSign : List UInt8 → Bool × ℕ
  | b :: _ => if b = ascii '-' then (true, 1) else if b = ascii '+' then (false, 1) else (false, 0)
  | [] => (false, 0)

/-- Does `s` start with the lower-case word `w`, in either case? -/
def startsWith (w : List Char) (s : List UInt8) : Bool :=
  decide ((s.take w.length).map toLower = w.map ascii)

/-- An exponent part introduced by `mark`: its value and its length, if `s` starts
with one. -/
def takeExponent (mark : Char) (s : List UInt8) : ℤ × ℕ :=
  if startsWith [mark] s then
    let sign := takeSign (s.drop 1)
    let ds := (s.drop (1 + sign.2)).takeWhile isDigit
    if ds = [] then (0, 0)
    else (if sign.1 then -(digitsValue 10 ds) else digitsValue 10 ds, 1 + sign.2 + ds.length)
  else (0, 0)

/-- A numeral without its sign, in the given base: digits with an optional point,
and an exponent that scales by `expBase`; a digit after the point counts as
`fracScale` steps of that scale.  The word gets the sign `neg`. -/
def takeNumeral (base expBase fracScale : ℕ) (mark : Char) (isDig : UInt8 → Bool) (neg : Bool)
    (s : List UInt8) : Option (Binary64 × ℕ) :=
  let whole := s.takeWhile isDig
  let rest := s.drop whole.length
  let frac := if startsWith ['.'] rest then (rest.drop 1).takeWhile isDig else []
  let dot := if startsWith ['.'] rest then 1 else 0
  if whole = [] ∧ frac = [] then none
  else
    let used := whole.length + dot + frac.length
    let exponent := takeExponent mark (s.drop used)
    let scale : ℤ := exponent.1 - fracScale * frac.length
    let digits := digitsValue base (whole ++ frac)
    some (ofRatio neg (digits * expBase ^ scale.toNat) (expBase ^ (-scale).toNat),
      used + exponent.2)

/-- A character of the text a NaN may carry in parentheses. -/
def isNanChar (b : UInt8) : Bool :=
  isDigit b || (97 ≤ toLower b && toLower b ≤ 122) || b == ascii '_'

/-- An infinity or NaN spelled out. -/
def takeSpecial (neg : Bool) (s : List UInt8) : Option (Binary64 × ℕ) :=
  if startsWith "infinity".toList s then some (⟨neg, infMag, infMag_lt⟩, 8)
  else if startsWith "inf".toList s then some (⟨neg, infMag, infMag_lt⟩, 3)
  else if startsWith "nan".toList s then
    let chars := (s.drop 4).takeWhile isNanChar
    let closed := startsWith ['('] (s.drop 3) && startsWith [')'] (s.drop (4 + chars.length))
    some (⟨neg, infMag + 2 ^ 51, by norm_num [infMag]⟩, if closed then 5 + chars.length else 3)
  else none

/-- A numeral without its sign. -/
def takeUnsigned (neg : Bool) (s : List UInt8) : Option (Binary64 × ℕ) :=
  match takeSpecial neg s with
  | some r => some r
  | none =>
      let hex :=
        if startsWith ['0', 'x'] s then takeNumeral 16 2 4 'p' isXDigit neg (s.drop 2) else none
      match hex with
      | some (x, used) => some (x, 2 + used)
      | none => takeNumeral 10 10 1 'e' isDigit neg s

/-- `strtod`: the word read and the number of bytes used. -/
def strtod (s : List UInt8) : Binary64 × ℕ :=
  let blanks := (s.takeWhile isSpace).length
  let sign := takeSign (s.drop blanks)
  match takeUnsigned sign.1 (s.drop (blanks + sign.2)) with
  | some (x, used) => (x, blanks + sign.2 + used)
  | none => (ofRatio false 0 1, 0)

/-- What is left behind the elements taken. -/
theorem drop_takeWhile {α : Type*} (q : α → Bool) (s : List α) :
    s.drop (s.takeWhile q).length = s.dropWhile q := by
  have hsplit := List.prefix_iff_eq_append.mp (List.takeWhile_prefix q (l := s))
  have hsplit' := List.takeWhile_append_dropWhile (p := q) (l := s)
  exact List.append_cancel_left (hsplit.trans hsplit'.symm)

/-! ## Writing -/

/-- The text of a string of ASCII characters. -/
def bytesOf (s : String) : List UInt8 := s.toList.map ascii

/-- The decimal exponent of `p / q`: the `e` with `10 ^ e ≤ p / q < 10 ^ (e + 1)`. -/
def decimalExponent (p q : ℕ) : ℤ :=
  if q ≤ p then Nat.log 10 (p / q) else -(Nat.clog 10 ((q + p - 1) / p) : ℤ)

/-- The first `prec` significant digits of `p / q`, rounded half to even, and the
exponent of the first one. -/
def significant (prec p q : ℕ) : ℕ × ℤ :=
  let e := decimalExponent p q
  let shift : ℤ := prec - 1 - e
  let m := roundHalfEven (p * 10 ^ shift.toNat) (q * 10 ^ (-shift).toNat)
  if m = 10 ^ prec then (10 ^ (prec - 1), e + 1) else (m, e)

/-- The decimal digits of `m`, padded to `width` with leading zeros. -/
def decimalDigits : ℕ → ℕ → List UInt8
  | 0, _ => []
  | width + 1, m => decimalDigits width (m / 10) ++ [UInt8.ofNat (48 + m % 10)]

/-- A fraction part, with its point unless it is empty. -/
def fraction (ds : List UInt8) : List UInt8 := if ds = [] then [] else ascii '.' :: ds

/-- The exponent of the scientific notation, with at least two digits. -/
def exponentText (e : ℤ) : List UInt8 :=
  [ascii 'e', ascii (if e < 0 then '-' else '+')]
    ++ (if e.natAbs < 10 then [ascii '0'] else []) ++ bytesOf (toString e.natAbs)

/-- The `%g` text of a positive number with these significant digits. -/
def formatDigits (prec : ℕ) (m : ℕ) (e : ℤ) : List UInt8 :=
  let ds := (decimalDigits prec m).rdropWhile (· == ascii '0')
  if e < -4 ∨ (prec : ℤ) ≤ e then ds.take 1 ++ fraction (ds.drop 1) ++ exponentText e
  else if 0 ≤ e then
    (ds ++ List.replicate prec (ascii '0')).take (e.toNat + 1) ++ fraction (ds.drop (e.toNat + 1))
  else ascii '0' :: fraction (List.replicate (-e - 1).toNat (ascii '0') ++ ds)

/-- The `%g` conversion with `prec` significant digits. -/
def formatG (prec : ℕ) (x : Binary64) : List UInt8 :=
  (if x.neg then [ascii '-'] else []) ++
    if infMag < x.mag then bytesOf "nan"
    else if x.mag = infMag then bytesOf "inf"
    else if x.mag = 0 then bytesOf "0"
    else
      let digits := significant prec (units x.mag) unitsPerOne
      formatDigits prec digits.1 digits.2

end Fp
