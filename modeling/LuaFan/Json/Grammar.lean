/-
# What the JSON decoder accepts (`src/json.c`, decode)

The decoder reads the grammar of RFC 8259 with four changes: a comma may stand before a
closing bracket, a number is any word of less than 128 bytes that starts like one and that
`strtod` takes whole, a long number is none, and two `\u` escapes of which the first is a
high surrogate are one code point, which must not be beyond the last one.

* `jsonDecode_ok_iff`: exactly the texts of this grammar are decoded.
* `json_decode_grammar`: so the decoder is right about a text **if and only if** a text
  it reads has no such comma and no such number, and a JSON text no long number and no
  such pair.
-/
import LuaFan.Json.Decode
import LuaFan.Lib.JsonText

namespace LuaFan

open Fp JsonText

/-! ## Tokens -/

/-- The words that `parse_number` takes. -/
def decodedNumber (w : List UInt8) : Bool :=
  (w.head?.any fun c => isDigit c || c == ascii '-') && w.all (fun c => !JsonText.isDelim c)
    && decide (w.length < 128) && decide ((strtod (cString w)).2 = w.length)

/-- What a high surrogate makes of the next `\u` escape is a code point. -/
def pairFits (high low : List UInt8) : Bool :=
  decide (0x400 * ((hex4 high).toNat - 0xd800) + (hex4 low).toNat < 0x10dc00)

/-- `\u` escapes as `parse_string` pairs them. -/
def paired : List Piece → Bool
  | .uni a b c d :: .uni a' b' c' d' :: ps =>
      if isHighSurrogateHex [a, b, c, d] then pairFits [a, b, c, d] [a', b', c', d'] && paired ps
      else paired (.uni a' b' c' d' :: ps)
  | _ :: ps => paired ps
  | [] => true

theorem decodedNumber_iff {w : List UInt8} : decodedNumber w = true ↔
    (∃ c ∈ w.head?, isDigit c || c == ascii '-') ∧ (∀ c ∈ w, JsonText.isDelim c = false) ∧
      w.length < 128 ∧ (strtod (cString w)).2 = w.length := by
  simp only [decodedNumber, Bool.and_eq_true, Option.any_eq_true, List.all_eq_true, Bool.not_eq_true',
    decide_eq_true_eq, and_assoc]
  rfl

/-- What `json_decode` reads. -/
def decoded : Dialect where
  number := decodedNumber
  number_start _ h := (decodedNumber_iff.mp h).1
  number_word _ h := (decodedNumber_iff.mp h).2.1
  pieces := paired
  trailing := true

/-- The tokens of RFC 8259 that the decoder takes as well. -/
def common : Dialect where
  number w := isNumber w && decide (w.length < 128)
  number_start w h := rfc8259.number_start w (Bool.and_eq_true_iff.mp h).1
  number_word w h := rfc8259.number_word w (Bool.and_eq_true_iff.mp h).1
  pieces := paired
  trailing := false

/-- A number of RFC 8259 that is not too long is decoded. -/
theorem decodedNumber_isNumber {w : List UInt8} (h : isNumber w = true) (hlen : w.length < 128) :
    decodedNumber w = true := by
  have hzero : cString w = w :=
    List.takeWhile_eq_self_iff.mpr fun c hc => by
      simpa using (isNumberByte_free (isNumber_bytes h c hc)).2
  exact decodedNumber_iff.mpr ⟨rfc8259.number_start w h, rfc8259.number_word w h, hlen,
    by rw [hzero, strtod_isNumber h]⟩

theorem common_within_rfc8259 : common.Within rfc8259 where
  number _ h := (Bool.and_eq_true_iff.mp h).1
  pieces _ _ := rfl
  trailing := nofun

theorem common_within_decoded : common.Within decoded where
  number w h := by
    have h' := Bool.and_eq_true_iff.mp h
    exact decodedNumber_isNumber h'.1 (of_decide_eq_true h'.2)
  pieces _ h := h
  trailing := nofun

theorem meet_within_common : (decoded.meet rfc8259).Within common where
  number w h := by
    have h' := Bool.and_eq_true_iff.mp h
    exact Bool.and_eq_true_iff.mpr
      ⟨h'.2, decide_eq_true (decodedNumber_iff.mp h'.1).2.2.1⟩
  pieces _ h := (Bool.and_eq_true_iff.mp h).1
  trailing := nofun

/-! ## What the parser leaves -/

/-- What is left of the text, unless an error is raised. -/
def leaves {α : Type} (x : Except JsonError (α × List UInt8)) : Option (List UInt8) :=
  x.toOption.map Prod.snd

@[simp] theorem leaves_ok {α : Type} (a : α) (s : List UInt8) :
    leaves (.ok (a, s) : Except JsonError (α × List UInt8)) = some s := rfl

@[simp] theorem leaves_error {α : Type} (e : JsonError) :
    leaves (.error e : Except JsonError (α × List UInt8)) = none := rfl

@[simp] theorem leaves_decodeErrorAt {α : Type} (p : JsonInput) (left msg : List UInt8) :
    leaves (decodeErrorAt p left msg : Except JsonError (α × List UInt8)) = none := by
  unfold decodeErrorAt
  split_ifs <;> rfl

theorem leaves_ok_bind {α β : Type} (a : α) (f : α → Except JsonError (β × List UInt8)) :
    leaves (Except.ok a >>= f) = leaves (f a) := rfl

theorem decodeErrorAt_ne_ok {α : Type} {p : JsonInput} {left msg : List UInt8} {a : α} :
    decodeErrorAt p left msg ≠ .ok a := by
  unfold decodeErrorAt
  split_ifs <;> nofun

/-! ## Strings -/

/-- The rest of a string whose escapes pair up, and its closing quote, are in front of `r`. -/
def Closed (s r : List UInt8) : Prop :=
  ∃ ps : List Piece, (∀ q ∈ ps, q.isValid = true) ∧ paired ps = true ∧
    s = ps.flatMap Piece.spell ++ ascii '"' :: r

theorem closed_quote (s r : List UInt8) : Closed (ascii '"' :: s) r ↔ s = r := by
  constructor
  · rintro ⟨ps, hvalid, -, heq⟩
    cases ps with
    | nil => simpa using heq
    | cons q ps =>
      have hhead := Piece.spell_head (hvalid q List.mem_cons_self)
        (ps.flatMap Piece.spell ++ ascii '"' :: r)
      rw [← List.append_assoc, ← List.flatMap_cons, ← heq] at hhead
      exact absurd rfl hhead
  · rintro rfl
    exact ⟨[], nofun, rfl, rfl⟩

/-- A string that goes on starts with a piece. -/
theorem closed_iff {c : UInt8} {s r : List UInt8} (hc : c ≠ ascii '"') :
    Closed (c :: s) r ↔ ∃ q s', nextPiece (c :: s) = some (q, s') ∧
      ∃ ps : List Piece, (∀ q ∈ ps, q.isValid = true) ∧ paired (q :: ps) = true ∧
        s' = ps.flatMap Piece.spell ++ ascii '"' :: r := by
  constructor
  · rintro ⟨ps, hvalid, hpair, heq⟩
    cases ps with
    | nil => exact absurd (List.cons.inj heq).1 hc
    | cons q ps =>
      rw [List.flatMap_cons, List.append_assoc] at heq
      obtain ⟨hq, hvalid⟩ := List.forall_mem_cons.mp hvalid
      exact ⟨q, _, nextPiece_eq_some_iff.mpr ⟨hq, heq⟩, ps, hvalid, hpair, rfl⟩
  · rintro ⟨q, s', hnext, ps, hvalid, hpair, rfl⟩
    obtain ⟨hq, heq⟩ := nextPiece_eq_some_iff.mp hnext
    exact ⟨q :: ps, List.forall_mem_cons.mpr ⟨hq, hvalid⟩, hpair, by rw [heq, List.flatMap_cons, List.append_assoc]⟩

theorem paired_uni_low {a b c d : UInt8} (h : isHighSurrogateHex [a, b, c, d] = false)
    (ps : List Piece) : paired (.uni a b c d :: ps) = paired ps := by
  rcases ps with _ | ⟨_ | _ | _, ps⟩ <;> simp [paired, h]

theorem paired_uni_last {a b c d : UInt8} {ps : List Piece}
    (h : ∀ a' b' c' d' ps', ps ≠ .uni a' b' c' d' :: ps') :
    paired (.uni a b c d :: ps) = paired ps := by
  rcases ps with _ | ⟨_ | _ | _, ps⟩
  · rfl
  · rfl
  · rfl
  · exact (h _ _ _ _ _ rfl).elim

/-! ### Code points -/

theorem digitValue_lt {c : UInt8} (h : isXDigit c = true) : digitValue c < 16 := by
  unfold digitValue
  split_ifs with hd
  · simp only [isDigit, Bool.and_eq_true, decide_eq_true_eq, UInt8.le_iff_toNat_le] at hd
    have h57 : c.toNat ≤ 57 := hd.2
    omega
  · simp only [isXDigit, hd, Bool.false_or, Bool.and_eq_true, decide_eq_true_eq,
      UInt8.le_iff_toNat_le] at h
    have h102 : (toLower c).toNat ≤ 102 := h.2
    omega

theorem toNat_hexStep {n : UInt32} {v : ℕ} (hn : n.toNat < 2 ^ 28) (hv : v < 16) :
    ((n <<< 4) ||| UInt32.ofNat v).toNat = n.toNat * 16 + v := by
  have hshift : (n <<< 4).toNat = n.toNat <<< 4 := by
    rw [UInt32.toNat_shiftLeft]
    simp [Nat.shiftLeft_eq]
    omega
  have hsize : v < UInt32.size := by
    show v < 2 ^ 32
    omega
  rw [UInt32.toNat_or, hshift, UInt32.toNat_ofNat_of_lt' hsize,
    ← Nat.shiftLeft_add_eq_or_of_lt (by omega), Nat.shiftLeft_eq]

theorem toNat_hex4 {a b c d : UInt8} (h : (Piece.uni a b c d).isValid = true) :
    (hex4 [a, b, c, d]).toNat
      = ((digitValue a * 16 + digitValue b) * 16 + digitValue c) * 16 + digitValue d := by
  simp only [Piece.isValid, Bool.and_eq_true] at h
  obtain ⟨⟨⟨ha, hb⟩, hc⟩, hd⟩ := h
  have ha := digitValue_lt ha
  have hb := digitValue_lt hb
  have hc := digitValue_lt hc
  have hd := digitValue_lt hd
  have h1 : ((0 : UInt32) <<< 4 ||| UInt32.ofNat (digitValue a)).toNat = digitValue a := by
    rw [toNat_hexStep (by decide) ha]
    simp
  have h2 := toNat_hexStep (n := (0 : UInt32) <<< 4 ||| UInt32.ofNat (digitValue a)) (by omega) hb
  have h3 := toNat_hexStep (n := ((0 : UInt32) <<< 4 ||| UInt32.ofNat (digitValue a)) <<< 4
    ||| UInt32.ofNat (digitValue b)) (by omega) hc
  have h4 := toNat_hexStep (n := (((0 : UInt32) <<< 4 ||| UInt32.ofNat (digitValue a)) <<< 4
    ||| UInt32.ofNat (digitValue b)) <<< 4 ||| UInt32.ofNat (digitValue c)) (by omega) hd
  show (((((0 : UInt32) <<< 4 ||| UInt32.ofNat (digitValue a)) <<< 4
    ||| UInt32.ofNat (digitValue b)) <<< 4 ||| UInt32.ofNat (digitValue c)) <<< 4
    ||| UInt32.ofNat (digitValue d)).toNat = _
  rw [h4, h3, h2, h1]

theorem digitValue_letter {c x : UInt8} (h : toLower c = x) (hx : isDigit x = false) :
    digitValue c = x.toNat - 87 := by
  have hc : isDigit c = false := by
    by_contra hd
    rw [Bool.not_eq_false] at hd
    rw [toLower_digit hd] at h
    rw [h, hx] at hd
    cases hd
  simp [digitValue, hc, h]

/-- A high surrogate is one in value as well. -/
theorem highSurrogate_bounds {a b c d : UInt8} (hvalid : (Piece.uni a b c d).isValid = true)
    (h : isHighSurrogateHex [a, b, c, d] = true) :
    0xd800 ≤ (hex4 [a, b, c, d]).toNat ∧ (hex4 [a, b, c, d]).toNat < 0xdc00 := by
  simp only [isHighSurrogateHex, Bool.and_eq_true, List.getD_cons_zero, List.getD_cons_succ,
    Bool.or_eq_true, beq_iff_eq, decide_eq_true_eq] at h
  obtain ⟨⟨-, ha⟩, hb⟩ := h
  have hda : digitValue a = 13 := digitValue_letter ha (by decide)
  have hdb : 8 ≤ digitValue b ∧ digitValue b ≤ 11 := by
    rcases hb with (hb | hb) | hb
    · rw [UInt8.le_iff_toNat_le, UInt8.le_iff_toNat_le] at hb
      have h56 : 56 ≤ b.toNat := hb.1
      have h57 : b.toNat ≤ 57 := hb.2
      have hd : isDigit b = true := by
        simp only [isDigit, Bool.and_eq_true, decide_eq_true_eq, UInt8.le_iff_toNat_le]
        exact ⟨by show 48 ≤ b.toNat; omega, h57⟩
      simp only [digitValue, hd, if_true]
      omega
    · rw [digitValue_letter hb (by decide)]
      decide
    · rw [digitValue_letter hb (by decide)]
      decide
  have hbounds := hvalid
  simp only [Piece.isValid, Bool.and_eq_true] at hbounds
  have hdc := digitValue_lt hbounds.1.2
  have hdd := digitValue_lt hbounds.2
  rw [toNat_hex4 hvalid, hda]
  omega

theorem hex4_le {a b c d : UInt8} (hvalid : (Piece.uni a b c d).isValid = true) :
    (hex4 [a, b, c, d]).toNat ≤ 0xffff := by
  have hbounds := hvalid
  simp only [Piece.isValid, Bool.and_eq_true] at hbounds
  obtain ⟨⟨⟨ha, hb⟩, hc⟩, hd⟩ := hbounds
  have ha := digitValue_lt ha
  have hb := digitValue_lt hb
  have hc := digitValue_lt hc
  have hd := digitValue_lt hd
  rw [toNat_hex4 hvalid]
  omega

theorem codepointToUtf8_isSome (n : UInt32) :
    (codepointToUtf8 n).isSome = decide (n.toNat ≤ 0x10ffff) := by
  unfold codepointToUtf8
  simp only [UInt32.le_iff_toNat_le, UInt32.reduceToNat]
  split_ifs with h1 h2 h3 h4
  · simp
    omega
  · simp
    omega
  · simp
    omega
  · simp [h4]
  · simp
    omega

/-- A single escape is always a code point. -/
theorem codepointToUtf8_single {a b c d : UInt8} (hvalid : (Piece.uni a b c d).isValid = true) :
    ∃ utf8, codepointToUtf8 (hex4 [a, b, c, d]) = some utf8 := by
  have hle := hex4_le hvalid
  rw [← Option.isSome_iff_exists, codepointToUtf8_isSome, decide_eq_true_eq]
  omega

/-- What a high surrogate and the escape behind it are taken for. -/
def pairPoint (high low : List UInt8) : UInt32 :=
  (hex4 high - 0xd800) * 0x400 + (hex4 low - 0xdc00) + 0x10000

/-- What two escapes make is a code point if they fit. -/
theorem codepointToUtf8_pair {a b c d a' b' c' d' : UInt8}
    (hvalid : (Piece.uni a b c d).isValid = true) (hvalid' : (Piece.uni a' b' c' d').isValid = true)
    (hhigh : isHighSurrogateHex [a, b, c, d] = true) :
    (codepointToUtf8 (pairPoint [a, b, c, d] [a', b', c', d'])).isSome
      = pairFits [a, b, c, d] [a', b', c', d'] := by
  obtain ⟨hge, hlt⟩ := highSurrogate_bounds hvalid hhigh
  have hle := hex4_le hvalid'
  rw [codepointToUtf8_isSome, pairFits, pairPoint, decide_eq_decide]
  simp only [UInt32.toNat_add, UInt32.toNat_mul, UInt32.toNat_sub, UInt32.reduceToNat]
  omega

/-! ### Escapes -/

theorem isHex4_uni {a b c d : UInt8} (s : List UInt8) :
    isHex4 (a :: b :: c :: d :: s) = (Piece.uni a b c d).isValid := by
  simp [isHex4, Piece.isValid, Bool.and_assoc]

theorem exists_of_isHex4 {s : List UInt8} (h : isHex4 s = true) :
    ∃ a b c d t, s = a :: b :: c :: d :: t ∧ (Piece.uni a b c d).isValid = true := by
  rcases s with _ | ⟨a, _ | ⟨b, _ | ⟨c, _ | ⟨d, t⟩⟩⟩⟩
  · cases h
  · cases h
  · cases h
  · cases h
  · exact ⟨a, b, c, d, t, rfl, (isHex4_uni t).symm.trans h⟩

theorem isHighSurrogateHex_uni {a b c d : UInt8} (s : List UInt8) :
    isHighSurrogateHex (a :: b :: c :: d :: s) = isHighSurrogateHex [a, b, c, d] := by
  simp [isHighSurrogateHex, isHex4_uni]

theorem hex4_uni {a b c d : UInt8} (s : List UInt8) :
    hex4 (a :: b :: c :: d :: s) = hex4 [a, b, c, d] := by
  simp [hex4]

/-- A high surrogate with another escape behind it. -/
theorem unicodeEscape_pair (p : JsonInput) (start : List UInt8) {a b c d a' b' c' d' : UInt8}
    {s : List UInt8} (hvalid' : (Piece.uni a' b' c' d').isValid = true)
    (hhigh : isHighSurrogateHex [a, b, c, d] = true) :
    unicodeEscape p start (a :: b :: c :: d :: ((Piece.uni a' b' c' d').spell ++ s))
      = match codepointToUtf8 (pairPoint [a, b, c, d] [a', b', c', d']) with
        | some utf8 => .ok (utf8, s)
        | none => decodeErrorAt p start (bytesOf "invalid unicode codepoint") := by
  have hlen : ¬ (a :: b :: c :: d :: ((Piece.uni a' b' c' d').spell ++ s)).length < 4 := by simp
  have hcond : isHighSurrogateHex (a :: b :: c :: d :: ((Piece.uni a' b' c' d').spell ++ s)) ∧
      (a :: b :: c :: d :: ((Piece.uni a' b' c' d').spell ++ s)).getD 4 0 = ascii '\\' ∧
      (a :: b :: c :: d :: ((Piece.uni a' b' c' d').spell ++ s)).getD 5 0 = ascii 'u' ∧
      isHex4 ((a :: b :: c :: d :: ((Piece.uni a' b' c' d').spell ++ s)).drop 6) := by
    refine ⟨by rw [isHighSurrogateHex_uni]; exact hhigh, rfl, rfl, ?_⟩
    exact (isHex4_uni s).trans hvalid'
  have hlow : hex4 ((a :: b :: c :: d :: ((Piece.uni a' b' c' d').spell ++ s)).drop 6)
      = hex4 [a', b', c', d'] := hex4_uni s
  unfold unicodeEscape
  simp only [if_neg hlen, if_pos hcond, hlow, hex4_uni, pairPoint]
  cases codepointToUtf8 ((hex4 [a, b, c, d] - 0xd800) * 0x400 + (hex4 [a', b', c', d'] - 0xdc00)
      + 0x10000) with
  | none => rfl
  | some utf8 => rfl

/-- An escape that is not paired. -/
theorem unicodeEscape_single (p : JsonInput) (start : List UInt8) {a b c d : UInt8}
    {s : List UInt8} (hvalid : (Piece.uni a b c d).isValid = true)
    (halone : isHighSurrogateHex [a, b, c, d] = false ∨
      ∀ a' b' c' d' s', nextPiece s ≠ some (.uni a' b' c' d', s')) :
    ∃ utf8, codepointToUtf8 (hex4 [a, b, c, d]) = some utf8 ∧
      unicodeEscape p start (a :: b :: c :: d :: s) = .ok (utf8, s) := by
  have hlen : ¬ (a :: b :: c :: d :: s).length < 4 := by simp
  have hcond : ¬ (isHighSurrogateHex (a :: b :: c :: d :: s) ∧
      (a :: b :: c :: d :: s).getD 4 0 = ascii '\\' ∧ (a :: b :: c :: d :: s).getD 5 0 = ascii 'u' ∧
      isHex4 ((a :: b :: c :: d :: s).drop 6)) := by
    rintro ⟨hhigh, hb, hu, hhex⟩
    rw [isHighSurrogateHex_uni] at hhigh
    rcases halone with hlow | hnone
    · rw [hlow] at hhigh
      cases hhigh
    · obtain ⟨a', b', c', d', t, hdrop, hvalid'⟩ := exists_of_isHex4 hhex
      rcases s with _ | ⟨x, _ | ⟨y, s⟩⟩
      · cases hdrop
      · cases hdrop
      · obtain rfl : x = ascii '\\' := hb
        obtain rfl : y = ascii 'u' := hu
        obtain rfl : s = a' :: b' :: c' :: d' :: t := hdrop
        exact hnone a' b' c' d' t (nextPiece_eq_some_iff.mpr ⟨hvalid', rfl⟩)
  obtain ⟨utf8, hutf8⟩ := codepointToUtf8_single hvalid
  refine ⟨utf8, hutf8, ?_⟩
  unfold unicodeEscape
  simp only [if_neg hlen, if_neg hcond, isHex4_uni, hvalid, if_true, hex4_uni, hutf8]
  rfl

theorem simpleEscape_isSome (e : UInt8) : (simpleEscape e).isSome = Piece.isEscape e := by
  unfold simpleEscape Piece.isEscape
  split_ifs <;> simp_all

/-- An escape that is no piece is an error. -/
theorem parseEscape_none (p : JsonInput) (quote : List UInt8) {s : List UInt8}
    (h : nextPiece (ascii '\\' :: s) = none) : leaves (parseEscape p quote (ascii '\\' :: s)) = none := by
  unfold parseEscape
  cases s with
  | nil => simp
  | cons e s =>
    simp only [List.drop_succ_cons, List.drop_zero]
    split_ifs with hu
    · subst hu
      have hhex : isHex4 s = false := by
        by_contra hhex
        rw [Bool.not_eq_false] at hhex
        obtain ⟨a, b, c, d, s, rfl, hvalid⟩ := exists_of_isHex4 hhex
        have hnext : nextPiece (ascii '\\' :: ascii 'u' :: a :: b :: c :: d :: s)
            = some (.uni a b c d, s) := nextPiece_eq_some_iff.mpr ⟨hvalid, rfl⟩
        rw [hnext] at h
        cases h
      simp only [unicodeEscape, isHighSurrogateHex, hhex, Bool.false_and, Bool.false_eq_true, false_and,
        if_false]
      split_ifs <;> simp
    · have hnone : simpleEscape e = none := by
        rw [← Option.not_isSome_iff_eq_none, simpleEscape_isSome]
        intro he
        have hnext : nextPiece (ascii '\\' :: e :: s) = some (.esc e, s) :=
          nextPiece_eq_some_iff.mpr ⟨he, rfl⟩
        rw [hnext] at h
        cases h
      simp [hnone]

theorem parseEscape_esc (p : JsonInput) (quote s : List UInt8) {e : UInt8}
    (h : (Piece.esc e).isValid = true) :
    ∃ out, simpleEscape e = some out ∧
      parseEscape p quote ((Piece.esc e).spell ++ s) = .ok ([out], s) := by
  have hu : e ≠ ascii 'u' := by
    rintro rfl
    exact absurd h (by decide)
  have hsome : (simpleEscape e).isSome = true := (simpleEscape_isSome e).trans h
  obtain ⟨out, hout⟩ := Option.isSome_iff_exists.mp hsome
  exact ⟨out, hout, by simp [parseEscape, Piece.spell, hu, hout]⟩

theorem parseEscape_uni (p : JsonInput) (quote s : List UInt8) {a b c d : UInt8} :
    parseEscape p quote ((Piece.uni a b c d).spell ++ s)
      = unicodeEscape p ((Piece.uni a b c d).spell ++ s) (a :: b :: c :: d :: s) := by
  simp [parseEscape, Piece.spell]

/-- A string that goes on with a piece that is not paired with the next one. -/
theorem closed_single {q : Piece} {s s' r : List UInt8} {c : UInt8} (hc : c ≠ ascii '"')
    (hnext : nextPiece (c :: s) = some (q, s'))
    (hpair : ∀ ps : List Piece, (∀ q ∈ ps, q.isValid = true) →
      s' = ps.flatMap Piece.spell ++ ascii '"' :: r → paired (q :: ps) = paired ps) :
    Closed (c :: s) r ↔ Closed s' r := by
  rw [closed_iff hc]
  constructor
  · rintro ⟨q', t, hnext', ps, hvalid, hpaired, rfl⟩
    rw [hnext] at hnext'
    obtain ⟨rfl, rfl⟩ := Prod.mk.inj (Option.some.inj hnext')
    exact ⟨ps, hvalid, hpair ps hvalid rfl ▸ hpaired, rfl⟩
  · rintro ⟨ps, hvalid, hpaired, rfl⟩
    exact ⟨q, _, hnext, ps, hvalid, (hpair ps hvalid rfl).symm ▸ hpaired, rfl⟩

/-- A string that goes on with a pair. -/
theorem closed_pair {a b c d a' b' c' d' : UInt8} {s r : List UInt8}
    (hvalid : (Piece.uni a b c d).isValid = true) (hvalid' : (Piece.uni a' b' c' d').isValid = true)
    (hhigh : isHighSurrogateHex [a, b, c, d] = true) :
    Closed ((Piece.uni a b c d).spell ++ ((Piece.uni a' b' c' d').spell ++ s)) r ↔
      pairFits [a, b, c, d] [a', b', c', d'] = true ∧ Closed s r := by
  have hfirst : nextPiece ((Piece.uni a b c d).spell ++ ((Piece.uni a' b' c' d').spell ++ s))
      = some (.uni a b c d, (Piece.uni a' b' c' d').spell ++ s) := nextPiece_eq_some_iff.mpr ⟨hvalid, rfl⟩
  constructor
  · rintro ⟨ps, hall, hpaired, heq⟩
    rcases ps with _ | ⟨q, ps⟩
    · exact absurd (List.cons.inj heq).1 (by decide)
    · obtain ⟨hq, hrest⟩ := List.forall_mem_cons.mp hall
      rw [List.flatMap_cons, List.append_assoc] at heq
      rw [nextPiece_eq_some_iff.mpr ⟨hq, heq⟩] at hfirst
      obtain ⟨rfl, htail⟩ := Prod.mk.inj (Option.some.inj hfirst)
      have hsecond : nextPiece ((Piece.uni a' b' c' d').spell ++ s) = some (.uni a' b' c' d', s) :=
        nextPiece_eq_some_iff.mpr ⟨hvalid', rfl⟩
      rcases ps with _ | ⟨q', ps⟩
      · exact absurd (List.cons.inj htail).1 (by decide)
      · obtain ⟨hq', hlast⟩ := List.forall_mem_cons.mp hrest
        rw [List.flatMap_cons, List.append_assoc] at htail
        have hsecond' : nextPiece ((Piece.uni a' b' c' d').spell ++ s)
            = some (q', ps.flatMap Piece.spell ++ ascii '"' :: r) :=
          nextPiece_eq_some_iff.mpr ⟨hq', htail.symm⟩
        rw [hsecond'] at hsecond
        obtain ⟨rfl, rfl⟩ := Prod.mk.inj (Option.some.inj hsecond)
        simp only [paired, hhigh, if_true, Bool.and_eq_true] at hpaired
        exact ⟨hpaired.1, ps, hlast, hpaired.2, rfl⟩
  · rintro ⟨hfits, ps, hall, hpaired, rfl⟩
    refine ⟨.uni a b c d :: .uni a' b' c' d' :: ps, ?_, ?_, ?_⟩
    · exact List.forall_mem_cons.mpr ⟨hvalid, List.forall_mem_cons.mpr ⟨hvalid', hall⟩⟩
    · simp [paired, hhigh, hfits, hpaired]
    · simp

/-- **The strings that are read.** -/
theorem parseStringLoop_leaves (p : JsonInput) (quote : List UInt8) {n : ℕ} :
    ∀ {s acc r : List UInt8}, s.length ≤ n →
      (leaves (parseStringLoop p quote n s acc) = some r ↔ Closed s r) := by
  have hnil : ∀ r, ¬ Closed [] r := by
    rintro r ⟨ps, -, -, heq⟩
    simp at heq
  induction n with
  | zero =>
    intro s acc r hn
    obtain rfl := List.length_eq_zero_iff.mp (Nat.le_zero.mp hn)
    simp [parseStringLoop, hnil]
  | succ n ih =>
    intro s acc r hn
    cases s with
    | nil => simp [parseStringLoop, hnil]
    | cons x s =>
      rw [List.length_cons] at hn
      rw [parseStringLoop]
      by_cases hquote : x = ascii '"'
      · subst hquote
        rw [closed_quote, if_neg (by decide), if_neg (by decide), if_pos rfl]
        simp
      · -- the loop goes on where the escape ends
        have hescape : ∀ o, leaves (parseEscape p quote (x :: s)) = o → (∀ t, o = some t → t.length ≤ n) →
            (leaves (parseEscape p quote (x :: s) >>= fun out =>
              parseStringLoop p quote n out.2 (acc ++ out.1)) = some r ↔ ∃ t, o = some t ∧ Closed t r) := by
          rintro o rfl hlen
          cases hx : parseEscape p quote (x :: s) with
          | error e =>
            refine iff_of_false (by rintro ⟨⟩) ?_
            rintro ⟨t, ht, -⟩
            cases ht
          | ok out =>
            obtain ⟨out, t⟩ := out
            rw [hx] at hlen
            simp only [leaves_ok, Option.some.injEq, exists_eq_left']
            exact ih (hlen t rfl)
        cases hnext : nextPiece (x :: s) with
        | none =>
          have hclosed : ¬ Closed (x :: s) r := by
            rw [closed_iff hquote, hnext]
            rintro ⟨q, s', hsome, -⟩
            cases hsome
          refine iff_of_false ?_ hclosed
          by_cases hb : x = ascii '\\'
          · subst hb
            rw [if_neg (by decide), if_pos rfl,
              hescape none (parseEscape_none p quote hnext) fun _ h => by cases h]
            rintro ⟨t, hsome, -⟩
            cases hsome
          · have h32 : x < 32 := by
              by_contra h32
              have hvalid : (Piece.raw x).isValid = true := by simp [Piece.isValid, h32, hquote, hb]
              have hsome : nextPiece (x :: s) = some (.raw x, s) :=
                nextPiece_eq_some_iff.mpr ⟨hvalid, rfl⟩
              rw [hsome] at hnext
              cases hnext
            rw [if_pos h32]
            simp
        | some qs =>
          obtain ⟨q, s'⟩ := qs
          obtain ⟨hvalid, hs⟩ := nextPiece_eq_some_iff.mp hnext
          have hlen : s'.length ≤ n := by
            have hlen := congrArg List.length hs
            have hpos := q.spell_length
            rw [List.length_cons, List.length_append] at hlen
            omega
          cases q with
          | raw c =>
            obtain ⟨rfl, rfl⟩ := List.cons.inj hs
            obtain ⟨⟨h32, -⟩, hb⟩ : (¬ x < 32 ∧ x ≠ ascii '"') ∧ x ≠ ascii '\\' := by
              simpa [Piece.isValid] using hvalid
            rw [if_neg h32, if_neg hb, if_neg hquote, closed_single hquote hnext fun _ _ _ => rfl]
            exact ih hlen
          | esc e =>
            obtain ⟨rfl, rfl⟩ := List.cons.inj hs
            obtain ⟨out, -, hout⟩ := parseEscape_esc p quote s' hvalid
            have hleaves : leaves (parseEscape p quote ((Piece.esc e).spell ++ s')) = some s' := by
              rw [hout, leaves_ok]
            rw [if_neg (by decide), if_pos rfl, closed_single hquote hnext fun _ _ _ => rfl,
              hescape (some s') hleaves (by simpa using hlen)]
            simp
          | uni a b c d =>
            obtain ⟨rfl, rfl⟩ := List.cons.inj hs
            rw [if_neg (by decide), if_pos rfl]
            by_cases hhigh : isHighSurrogateHex [a, b, c, d] = true ∧
                ∃ a' b' c' d' t, nextPiece s' = some (.uni a' b' c' d', t)
            · obtain ⟨hhigh, a', b', c', d', t, hsecond⟩ := hhigh
              obtain ⟨hvalid', rfl⟩ := nextPiece_eq_some_iff.mp hsecond
              rw [List.length_append] at hlen
              have hleaves : leaves (parseEscape p quote ((Piece.uni a b c d).spell
                  ++ ((Piece.uni a' b' c' d').spell ++ t)))
                  = if pairFits [a, b, c, d] [a', b', c', d'] then some t else none := by
                rw [parseEscape_uni, unicodeEscape_pair p _ hvalid' hhigh,
                  ← codepointToUtf8_pair hvalid hvalid' hhigh]
                cases codepointToUtf8 (pairPoint [a, b, c, d] [a', b', c', d']) with
                | none => simp
                | some utf8 => rfl
              rw [hescape _ hleaves]
              · refine Iff.trans ?_ (closed_pair hvalid hvalid' hhigh).symm
                split_ifs with hfits <;> simp [hfits]
              · intro t' ht'
                split_ifs at ht'
                obtain rfl := Option.some.inj ht'
                omega
            · have halone : isHighSurrogateHex [a, b, c, d] = false ∨
                  ∀ a' b' c' d' t, nextPiece s' ≠ some (.uni a' b' c' d', t) := by
                by_contra hno
                rw [not_or, Bool.not_eq_false] at hno
                push Not at hno
                exact hhigh hno
              obtain ⟨utf8, -, hsingle⟩ :=
                unicodeEscape_single p ((Piece.uni a b c d).spell ++ s') hvalid halone
              have hleaves : leaves (parseEscape p quote ((Piece.uni a b c d).spell ++ s')) = some s' := by
                rw [parseEscape_uni, hsingle, leaves_ok]
              rw [hescape _ hleaves (by simpa using hlen), closed_single hquote hnext]
              · simp
              · intro ps hall heq
                rcases halone with hlow | hnone
                · exact paired_uni_low hlow ps
                · refine paired_uni_last ?_
                  rintro a' b' c' d' ps' rfl
                  rw [List.flatMap_cons, List.append_assoc] at heq
                  exact hnone a' b' c' d' _
                    (nextPiece_eq_some_iff.mpr ⟨hall _ List.mem_cons_self, heq⟩)

theorem parseString_leaves (p : JsonInput) (s : List UInt8) :
    leaves (parseString p s) = scanString decoded s := by
  refine Option.ext fun r => ?_
  rw [scanString_eq_some_iff]
  have hno : ∀ s : List UInt8, s.head? ≠ some (ascii '"') → ¬ Quoted decoded s r :=
    fun s hs hq => hs hq.head
  unfold parseString
  cases s with
  | nil =>
    rw [leaves_decodeErrorAt]
    exact iff_of_false (by simp) (hno [] (by simp))
  | cons c s =>
    simp only
    split_ifs with hc
    · subst hc
      refine (parseStringLoop_leaves p _ le_rfl).trans ⟨?_, ?_⟩
      · rintro ⟨ps, hvalid, hpaired, rfl⟩
        exact ⟨ps, hvalid, hpaired, rfl⟩
      · rintro ⟨ps, hvalid, hpaired, heq⟩
        exact ⟨ps, hvalid, hpaired, (List.cons.inj heq).2⟩
    · rw [leaves_decodeErrorAt]
      exact iff_of_false (by simp) (hno _ fun h => hc (Option.some.inj h))

/-! ## Words -/

theorem word_cons {c : UInt8} (s : List UInt8) (h : JsonText.isDelim c = false) :
    word (c :: s) = c :: word s := List.takeWhile_cons_of_pos (by simp [h])

theorem word_bytes (s : List UInt8) : ∀ c ∈ word s, JsonText.isDelim c = false := by
  intro c hc
  simpa using List.mem_takeWhile_imp hc

theorem startsNumber_isDelim {c : UInt8} (h : isDigit c = true ∨ c = ascii '-') :
    JsonText.isDelim c = false := by
  refine (isNumberByte_free ?_).1
  rcases h with h | rfl
  · exact isNumberByte_digit h
  · decide

theorem head_word {b c : UInt8} {s : List UInt8} (h : b ∈ (word (c :: s)).head?) : b = c := by
  rw [word, List.takeWhile_cons] at h
  split_ifs at h
  · exact (Option.some.inj h).symm
  · cases h

theorem literal_start {c : UInt8} {s : List UInt8} (h : word (c :: s) ∈ literals) :
    c = ascii 't' ∨ c = ascii 'f' ∨ c = ascii 'n' := by
  have hhead : ∃ b ∈ (word (c :: s)).head?, b = ascii 't' ∨ b = ascii 'f' ∨ b = ascii 'n' := by
    simp only [literals, List.mem_cons, List.not_mem_nil, or_false] at h
    rcases h with h | h | h <;> rw [h] <;> exact ⟨_, rfl, by decide⟩
  obtain ⟨b, hb, hbs⟩ := hhead
  exact head_word hb ▸ hbs

theorem parseNumber_leaves (p : JsonInput) {c : UInt8} {s : List UInt8}
    (h : isDigit c = true ∨ c = ascii '-') :
    leaves (parseNumber p (c :: s)) = if decodedNumber (word (c :: s)) then
      some ((c :: s).drop (word (c :: s)).length) else none := by
  have hhead : (word (c :: s)).head? = some c := by
    rw [word_cons s (startsNumber_isDelim h)]
    rfl
  have hlen : (word (c :: s)).length ≠ 0 := by
    intro h0
    rw [List.length_eq_zero_iff.mp h0] at hhead
    cases hhead
  have hstart : ∃ b ∈ (word (c :: s)).head?, isDigit b || b == ascii '-' :=
    ⟨c, hhead, by simpa using h⟩
  have hiff : decodedNumber (word (c :: s)) = true ↔ (word (c :: s)).length < 128 ∧
      (strtod (cString (word (c :: s)))).2 = (word (c :: s)).length := by
    rw [decodedNumber_iff]
    exact ⟨fun h => h.2.2, fun h => ⟨hstart, word_bytes _, h⟩⟩
  have hword : nextWord (c :: s) = word (c :: s) := rfl
  unfold parseNumber
  simp only [hword, hlen, false_or]
  by_cases hlong : 128 ≤ (word (c :: s)).length
  · rw [if_pos hlong, if_neg fun hdec => absurd (hiff.mp hdec).1 (not_lt.mpr hlong)]
    exact leaves_decodeErrorAt ..
  · rw [if_neg hlong]
    by_cases hused : (strtod (cString (word (c :: s)))).2 = (word (c :: s)).length
    · rw [if_neg (not_not.mpr hused), if_pos (hiff.mpr ⟨not_le.mp hlong, hused⟩)]
      rfl
    · rw [if_pos hused, if_neg fun hdec => hused (hiff.mp hdec).2]
      exact leaves_decodeErrorAt ..

theorem parseLiteral_leaves (p : JsonInput) (s : List UInt8) :
    leaves (parseLiteral p s) = if word s ∈ literals then some (s.drop (word s).length) else none := by
  have hword : nextWord s = word s := rfl
  unfold parseLiteral
  simp only [hword, literals, List.mem_cons, List.not_mem_nil, or_false]
  split_ifs with htrue hfalse hnull hany hany hany hany <;> simp_all

/-! ## Containers and values -/

theorem parseArrayLoop_leaves (p : JsonInput) {pv : ValueParser}
    {value : List UInt8 → Option (List UInt8)} (hpv : ∀ H s, leaves (pv H s) = value s) {k : ℕ} :
    ∀ (n : Int32) (T : LuaTable) (H : LuaHeap) (s : List UInt8) (first : Bool),
      leaves (parseArrayLoop p pv k n T H s) = scanMany decoded (ascii ']') value k first s := by
  induction k with
  | zero => exact fun _ _ _ _ _ => rfl
  | succ k ih =>
    intro n T H s first
    have hskip : skipSpaces s = skipWs s := rfl
    have htrail : (first || decoded.trailing) = true := Bool.or_true first
    rw [parseArrayLoop, scanMany]
    simp only [hskip, htrail, true_and]
    split_ifs with hclose
    · rfl
    · rw [← hpv H (skipWs s)]
      cases pv H (skipWs s) with
      | error e => rfl
      | ok r =>
        obtain ⟨⟨v, H⟩, t⟩ := r
        have hskip' : skipSpaces t = skipWs t := rfl
        simp only [leaves_ok, leaves_ok_bind, Option.bind_some, hskip']
        cases skipWs t with
        | nil => exact leaves_decodeErrorAt ..
        | cons c t =>
          simp only
          split_ifs
          · rfl
          · exact ih ..
          · exact leaves_decodeErrorAt ..

theorem parseObjectLoop_leaves (p : JsonInput) {pv : ValueParser}
    {value : List UInt8 → Option (List UInt8)} (hpv : ∀ H s, leaves (pv H s) = value s) {k : ℕ} :
    ∀ (T : LuaTable) (H : LuaHeap) (s : List UInt8) (first : Bool),
      leaves (parseObjectLoop p pv k T H s)
        = scanMany decoded (ascii '\x7d') (scanMember decoded value) k first s := by
  induction k with
  | zero => exact fun _ _ _ _ => rfl
  | succ k ih =>
    intro T H s first
    have hskip : ∀ s, skipSpaces s = skipWs s := fun _ => rfl
    have htrail : (first || decoded.trailing) = true := Bool.or_true first
    rw [parseObjectLoop, scanMany]
    simp only [hskip, htrail, true_and]
    cases hs : skipWs s with
    | nil => simp [scanMember, scanString]
    | cons c s =>
      simp only [List.head?_cons, Option.some.injEq, List.tail_cons]
      by_cases hclose : c = ascii '\x7d'
      · rw [if_pos hclose, if_pos hclose]
        rfl
      · rw [if_neg hclose, if_neg hclose]
        by_cases hquote : c = ascii '"'
        · rw [if_neg (not_not.mpr hquote), scanMember, ← parseString_leaves p]
          cases parseString p (c :: s) with
          | error e => rfl
          | ok r =>
            obtain ⟨key, t⟩ := r
            simp only [leaves_ok, leaves_ok_bind, Option.bind_some]
            cases skipWs t with
            | nil => exact leaves_decodeErrorAt ..
            | cons c t =>
              by_cases hcolon : c = ascii ':'
              · simp only [hcolon, ne_eq, not_true_eq_false, if_false, if_true]
                rw [← hpv H (skipWs t)]
                cases pv H (skipWs t) with
                | error e => rfl
                | ok r =>
                  obtain ⟨⟨v, H⟩, u⟩ := r
                  simp only [leaves_ok, leaves_ok_bind, Option.bind_some]
                  cases skipWs u with
                  | nil => exact leaves_decodeErrorAt ..
                  | cons c u =>
                    simp only
                    split_ifs
                    · rfl
                    · exact ih ..
                    · exact leaves_decodeErrorAt ..
              · simp only [ne_eq, hcolon, not_false_eq_true, if_true, if_false]
                exact leaves_decodeErrorAt ..
        · have hnone : scanString decoded (c :: s) = none := by rw [scanString, if_neg hquote]
          rw [if_pos hquote, scanMember, hnone]
          exact leaves_decodeErrorAt ..

theorem parseValue_leaves (p : JsonInput) {n : ℕ} :
    ∀ (H : LuaHeap) (s : List UInt8), leaves (parseValue p n H s) = scan decoded n s := by
  induction n with
  | zero => exact fun _ _ => rfl
  | succ n ih =>
    intro H s
    cases s with
    | nil => exact leaves_decodeErrorAt ..
    | cons c s =>
      rw [parseValue]
      by_cases hquote : c = ascii '"'
      · subst hquote
        rw [if_pos rfl, scan_string rfl, ← parseString_leaves p]
        cases parseString p (ascii '"' :: s) <;> rfl
      · rw [if_neg hquote]
        by_cases hnum : isDigit c = true ∨ c = ascii '-'
        · obtain ⟨hq, hm⟩ := startsWord_free (c := c) (by
            rcases hnum with h | h <;> simp [startsWord, h])
          have hlit : literals.contains (word (c :: s)) = false := by
            rw [← Bool.not_eq_true, List.contains_iff_mem]
            intro hmem
            rcases literal_start hmem with rfl | rfl | rfl <;> exact absurd hnum (by decide)
          rw [if_pos hnum, scan_word hq hm, hlit, Bool.or_false]
          refine Eq.trans ?_ (parseNumber_leaves p hnum)
          cases parseNumber p (c :: s) <;> rfl
        · rw [if_neg hnum]
          have hno : decodedNumber (word (c :: s)) = false := by
            rw [← Bool.not_eq_true, decodedNumber_iff]
            rintro ⟨⟨b, hb, hstart⟩, -⟩
            exact hnum (head_word hb ▸ by simpa using hstart)
          by_cases hlet : c = ascii 't' ∨ c = ascii 'f' ∨ c = ascii 'n'
          · obtain ⟨hq, hm⟩ := startsWord_free (c := c) (by
              rcases hlet with h | h | h <;> simp [startsWord, h])
            rw [if_pos hlet, scan_word hq hm]
            simp only [show decoded.number = decodedNumber from rfl, hno, Bool.false_or,
              List.contains_iff_mem]
            refine Eq.trans ?_ (parseLiteral_leaves p (c :: s))
            cases parseLiteral p (c :: s) <;> rfl
          · rw [if_neg hlet]
            by_cases hbracket : c = ascii '['
            · rw [if_pos hbracket, hbracket]
              refine Eq.trans ?_ ((parseArrayLoop_leaves p ih 1 (.new (some .jsonArray)) H s true).trans
                (scan_container false n s).symm)
              cases parseArrayLoop p (parseValue p n) (s.length + 1) 1 (.new (some .jsonArray)) H s <;> rfl
            · rw [if_neg hbracket]
              by_cases hbrace : c = ascii '\x7b'
              · rw [if_pos hbrace, hbrace]
                refine Eq.trans ?_ ((parseObjectLoop_leaves p ih (.new (some .jsonObject)) H s true).trans
                  (scan_container true n s).symm)
                cases parseObjectLoop p (parseValue p n) (s.length + 1) (.new (some .jsonObject)) H s <;> rfl
              · have hm : ∀ m, c ≠ opening m := by
                  rintro (_ | _)
                  · exact hbracket
                  · exact hbrace
                have hlit : literals.contains (word (c :: s)) = false := by
                  rw [← Bool.not_eq_true, List.contains_iff_mem]
                  exact fun hmem => hlet (literal_start hmem)
                rw [if_neg hbrace, scan_word hquote hm, hlit]
                simp only [show decoded.number = decodedNumber from rfl, hno, Bool.false_or,
                  Bool.false_eq_true, if_false]
                exact leaves_decodeErrorAt ..

/-- **What is decoded**: the texts of the decoder's grammar. -/
theorem jsonDecode_ok_iff (st : JsonState) (s : List UInt8) :
    (∃ r, jsonDecode st (.string s) = .ok r) ↔ Text decoded s := by
  rw [← scanText_iff, scanText, ← parseValue_leaves ⟨st, s⟩ []]
  have hskip : ∀ s, skipSpaces s = skipWs s := fun _ => rfl
  simp only [jsonDecode, hskip]
  cases parseValue ⟨st, s⟩ (s.length + 1) [] (skipWs s) with
  | error e => exact iff_of_false (fun ⟨r, hr⟩ => nomatch hr) nofun
  | ok r =>
    obtain ⟨v, t⟩ := r
    simp only [leaves_ok, List.isEmpty_iff]
    show (∃ r, (if skipSpaces t ≠ [] then _ else _) = Except.ok r) ↔ _
    rw [hskip t]
    by_cases hend : skipWs t = []
    · rw [if_neg (not_not.mpr hend)]
      exact iff_of_true ⟨v, rfl⟩ hend
    · rw [if_pos hend]
      refine iff_of_false ?_ hend
      rintro ⟨r, hr⟩
      exact decodeErrorAt_ne_ok hr

/-- **The JSON grammar**: the decoder is right about a text if and only if nothing but JSON
is needed to read it, and nothing in JSON is too much for it. -/
theorem json_decode_grammar (st : JsonState) (s : List UInt8) :
    ((∃ r, jsonDecode st (.string s) = .ok r) ↔ Text rfc8259 s) ↔
      (Text decoded s → Text common s) ∧ (Text rfc8259 s → Text common s) := by
  rw [jsonDecode_ok_iff]
  have hcommon : Text decoded s → Text rfc8259 s → Text common s :=
    fun h h' => (text_meet h h').mono meet_within_common
  constructor
  · intro hiff
    exact ⟨fun h => hcommon h (hiff.mp h), fun h => hcommon (hiff.mpr h) h⟩
  · rintro ⟨hdec, hrfc⟩
    exact ⟨fun h => (hdec h).mono common_within_rfc8259, fun h => (hrfc h).mono common_within_decoded⟩

/-- Texts that are decoded and are no JSON. -/
def moreThanJson : List (List UInt8) :=
  [bytesOf "[1,]", bytesOf "\x7b\"a\":null,\x7d", bytesOf "01", bytesOf "-.5", bytesOf "[0x1F]",
    bytesOf "-Infinity"]

/-- JSON texts that are not decoded: a pair beyond the last code point, and a number of
128 digits. -/
def lessThanJson : List (List UInt8) :=
  [bytesOf "\"\\uDBFF\\uFFFF\"", List.replicate 128 (ascii '1')]

theorem json_decode_not_grammar :
    (∀ st, ∀ s ∈ moreThanJson, (∃ r, jsonDecode st (.string s) = .ok r) ∧ ¬ Text rfc8259 s) ∧
      ∀ st, ∀ s ∈ lessThanJson, (¬ ∃ r, jsonDecode st (.string s) = .ok r) ∧ Text rfc8259 s := by
  simp only [jsonDecode_ok_iff]
  constructor
  · intro _
    decide +kernel
  · intro _
    decide +kernel

end LuaFan
