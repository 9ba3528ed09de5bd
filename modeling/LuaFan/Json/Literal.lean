/-
# String literals (`src/json.c`, `parse_string`)

`written` is what `parse_string` makes of the pieces of a literal.  It is the text they
denote if every surrogate is one of a pair.  Otherwise they denote nothing, and a literal
is accepted all the same: a surrogate alone is encoded like any other code point, and a
high surrogate is put together with whatever escape is behind it.

* `parse_string_denoted`: what is accepted is decoded to the text it denotes **exactly if**
  a literal with a surrogate alone goes beyond U+10FFFF with some pair.
-/
import LuaFan.Lib.JsonString
import LuaFan.Json.Grammar

namespace LuaFan

open Fp JsonText

/-! ## Code points -/

/-- Bits that do not meet are added. -/
theorem toUInt8_or {a n : UInt32} (k x : ℕ) (ha : a.toNat = 2 ^ k * x) (hn : n.toNat < 2 ^ k) :
    (a ||| n).toUInt8 = UInt8.ofNat (n.toNat + a.toNat) := by
  rw [← UInt8.toNat_inj, UInt32.toNat_toUInt8, UInt32.toNat_or, ha, ← Nat.two_pow_add_eq_or_of_lt hn,
    UInt8.toNat_ofNat', Nat.add_comm]

theorem toNat_and_3f (n : UInt32) : (n &&& 0x3f).toNat = n.toNat % 64 := by
  rw [UInt32.toNat_and]
  exact Nat.and_two_pow_sub_one_eq_mod _ 6

theorem toNat_shiftRight_nat (n : UInt32) {k : UInt32} (hk : k.toNat < 32) :
    (n >>> k).toNat = n.toNat / 2 ^ k.toNat := by
  rw [UInt32.toNat_shiftRight, Nat.mod_eq_of_lt hk, Nat.shiftRight_eq_div_pow]

/-- A byte behind the first one. -/
theorem toUInt8_tail (n : UInt32) : ((0x80 : UInt32) ||| (n &&& 0x3f)).toUInt8 = UInt8.ofNat (n.toNat % 64 + 0x80) := by
  rw [toUInt8_or 6 2 rfl (by rw [toNat_and_3f]; omega), toNat_and_3f]
  rfl

/-- **`codepoint_to_utf8` encodes the characters.** -/
theorem codepointToUtf8_char {n : UInt32} {c : Char} (h : c.val.toNat = n.toNat) :
    codepointToUtf8 n = some (Utf8.encode c) := by
  have hvalid : c.val.toNat.isValidChar := c.valid
  rw [h, Nat.isValidChar] at hvalid
  have h6 : (n >>> 6).toNat = n.toNat / 64 := toNat_shiftRight_nat n (by decide)
  have h12 : (n >>> 12).toNat = n.toNat / 4096 := toNat_shiftRight_nat n (by decide)
  have h18 : (n >>> 18).toNat = n.toNat / 262144 := toNat_shiftRight_nat n (by decide)
  simp only [codepointToUtf8, Utf8.encode, String.utf8EncodeChar, h, UInt32.le_iff_toNat_le,
    UInt32.reduceToNat, toUInt8_tail, h6, h12]
  split_ifs with h₁ h₂ h₃ h₄
  · simp
  · rw [toUInt8_or 6 3 rfl (by rw [h6]; omega), h6, Nat.mod_eq_of_lt (a := n.toNat / 64) (by omega)]
    rfl
  · rw [toUInt8_or 5 7 rfl (by rw [h12]; omega), h12, Nat.mod_eq_of_lt (a := n.toNat / 4096) (by omega)]
    rfl
  · rw [toUInt8_or 4 15 rfl (by rw [h18]; omega), h18, Nat.mod_eq_of_lt (a := n.toNat / 262144) (by omega)]
    rfl
  · omega

/-! ## Surrogates -/

theorem hex4_eq {a b c d : UInt8} (h : (Piece.uni a b c d).isValid = true) :
    (hex4 [a, b, c, d]).toNat = codeUnit a b c d := toNat_hex4 h

/-- A hexadecimal digit is one of `0` to `9`, or a letter. -/
theorem digitValue_cases {c : UInt8} (h : isXDigit c = true) :
    (48 ≤ c.toNat ∧ c.toNat ≤ 57 ∧ digitValue c = c.toNat - 48) ∨
      (97 ≤ (toLower c).toNat ∧ digitValue c = (toLower c).toNat - 87) := by
  cases hd : isDigit c with
  | true =>
      have hrange := hd
      simp only [isDigit, Bool.and_eq_true, decide_eq_true_eq, UInt8.le_iff_toNat_le] at hrange
      exact Or.inl ⟨hrange.1, hrange.2, by simp [digitValue, hd]⟩
  | false =>
      simp only [isXDigit, hd, Bool.false_or, Bool.and_eq_true, decide_eq_true_eq,
        UInt8.le_iff_toNat_le] at h
      exact Or.inr ⟨h.1, by simp [digitValue, hd]⟩

/-- **The digits of a high surrogate are recognised by its value.** -/
theorem isHighSurrogateHex_iff {a b c d : UInt8} (h : (Piece.uni a b c d).isValid = true) :
    isHighSurrogateHex [a, b, c, d] = true ↔ IsHigh (codeUnit a b c d) := by
  constructor
  · intro hhigh
    have hbounds := highSurrogate_bounds h hhigh
    rwa [hex4_eq h] at hbounds
  · rintro ⟨hge, hlt⟩
    have hdigits := h
    simp only [Piece.isValid, Bool.and_eq_true] at hdigits
    obtain ⟨⟨⟨ha, hb⟩, hc⟩, hd⟩ := hdigits
    have hc' := digitValue_lt hc
    have hd' := digitValue_lt hd
    have hb' := digitValue_lt hb
    rw [codeUnit] at hge hlt
    have hvala : digitValue a = 13 := by omega
    have hvalb : 8 ≤ digitValue b ∧ digitValue b ≤ 11 := by omega
    have hlettera : toLower a = ascii 'd' := by
      rw [← UInt8.toNat_inj]
      show (toLower a).toNat = 100
      rcases digitValue_cases ha with ⟨-, hle, heq⟩ | ⟨-, heq⟩
      · omega
      · omega
    have hletterb : (ascii '8' ≤ b ∧ b ≤ ascii '9') ∨ toLower b = ascii 'a' ∨ toLower b = ascii 'b' := by
      simp only [← UInt8.toNat_inj, UInt8.le_iff_toNat_le]
      show (56 ≤ b.toNat ∧ b.toNat ≤ 57) ∨ (toLower b).toNat = 97 ∨ (toLower b).toNat = 98
      rcases digitValue_cases hb with ⟨hge, hle, heq⟩ | ⟨hge, heq⟩
      · omega
      · omega
    have hhex : isHex4 [a, b, c, d] = true := (isHex4_uni []).trans h
    simp only [isHighSurrogateHex, hhex, Bool.true_and, List.getD_cons_zero, List.getD_cons_succ,
      Bool.and_eq_true, Bool.or_eq_true, beq_iff_eq, decide_eq_true_eq, hlettera, true_and, or_assoc]
    exact hletterb

/-! ## What is written -/

/-- The bytes of a code point; an escape has one. -/
def pointBytes (n : UInt32) : List UInt8 := (codepointToUtf8 n).getD []

/-- What `parse_string` makes of the pieces of a literal. -/
def written : List Piece → List UInt8
  | .uni a b c d :: .uni a' b' c' d' :: ps =>
      if isHighSurrogateHex [a, b, c, d] then
        pointBytes (pairPoint [a, b, c, d] [a', b', c', d']) ++ written ps
      else pointBytes (hex4 [a, b, c, d]) ++ written (.uni a' b' c' d' :: ps)
  | [.uni a b c d] => pointBytes (hex4 [a, b, c, d])
  | .uni a b c d :: p :: ps => pointBytes (hex4 [a, b, c, d]) ++ written (p :: ps)
  | .esc e :: ps => (simpleEscape e).toList ++ written ps
  | .raw c :: ps => c :: written ps
  | [] => []

theorem written_uni_alone {a b c d : UInt8} {ps : List Piece}
    (h : isHighSurrogateHex [a, b, c, d] = false ∨ ∀ a' b' c' d' ps', ps ≠ .uni a' b' c' d' :: ps') :
    written (.uni a b c d :: ps) = pointBytes (hex4 [a, b, c, d]) ++ written ps := by
  rcases ps with _ | ⟨_ | _ | ⟨a', b', c', d'⟩, ps⟩
  · rw [written, written, List.append_nil]
  · rw [written]
    nofun
  · rw [written]
    nofun
  · rcases h with h | h
    · rw [written, h, if_neg Bool.false_ne_true]
    · exact absurd rfl (h a' b' c' d' ps)

section Loop

variable {p : JsonInput} {quote : List UInt8}

theorem parseStringLoop_raw {c : UInt8} (h : (Piece.raw c).isValid = true) (n : ℕ) (s acc : List UInt8) :
    parseStringLoop p quote (n + 1) (c :: s) acc = parseStringLoop p quote n s (acc ++ [c]) := by
  obtain ⟨⟨h32, hquote⟩, hb⟩ : (¬c < 32 ∧ c ≠ ascii '"') ∧ c ≠ ascii '\\' := by
    simpa [Piece.isValid] using h
  rw [parseStringLoop, if_neg h32, if_neg hb, if_neg hquote]

theorem parseStringLoop_escape {s s' out : List UInt8}
    (h : parseEscape p quote (ascii '\\' :: s) = .ok (out, s')) (n : ℕ) (acc : List UInt8) :
    parseStringLoop p quote (n + 1) (ascii '\\' :: s) acc = parseStringLoop p quote n s' (acc ++ out) := by
  rw [parseStringLoop, if_neg (by decide), if_pos rfl, h]
  rfl

theorem parseStringLoop_quote (n : ℕ) (r acc : List UInt8) :
    parseStringLoop p quote (n + 1) (ascii '"' :: r) acc = .ok (acc, r) := by
  rw [parseStringLoop, if_neg (by decide), if_neg (by decide), if_pos rfl]

/-- An escape that is not put together with the next one. -/
theorem parseEscape_alone {a b c d : UInt8} {s : List UInt8} (hvalid : (Piece.uni a b c d).isValid = true)
    (halone : isHighSurrogateHex [a, b, c, d] = false ∨
      ∀ a' b' c' d' s', nextPiece s ≠ some (.uni a' b' c' d', s')) :
    parseEscape p quote ((Piece.uni a b c d).spell ++ s) = .ok (pointBytes (hex4 [a, b, c, d]), s) := by
  obtain ⟨utf8, hutf8, hsingle⟩ :=
    unicodeEscape_single p ((Piece.uni a b c d).spell ++ s) hvalid halone
  rw [parseEscape_uni, hsingle, pointBytes, hutf8]
  rfl

/-- An escape that is put together with the next one. -/
theorem parseEscape_pair {a b c d a' b' c' d' : UInt8} {s : List UInt8}
    (hvalid : (Piece.uni a b c d).isValid = true) (hvalid' : (Piece.uni a' b' c' d').isValid = true)
    (hhigh : isHighSurrogateHex [a, b, c, d] = true)
    (hfits : pairFits [a, b, c, d] [a', b', c', d'] = true) :
    parseEscape p quote ((Piece.uni a b c d).spell ++ ((Piece.uni a' b' c' d').spell ++ s))
      = .ok (pointBytes (pairPoint [a, b, c, d] [a', b', c', d']), s) := by
  rw [← codepointToUtf8_pair hvalid hvalid' hhigh] at hfits
  obtain ⟨utf8, hutf8⟩ := Option.isSome_iff_exists.mp hfits
  rw [parseEscape_uni, unicodeEscape_pair p _ hvalid' hhigh, hutf8, pointBytes, hutf8]
  rfl

/-- The next piece of a literal is its first one. -/
theorem exists_of_nextPiece {ps : List Piece} {q : Piece} {r s' : List UInt8}
    (hall : ∀ q ∈ ps, q.isValid = true)
    (h : nextPiece (ps.flatMap Piece.spell ++ ascii '"' :: r) = some (q, s')) : ∃ ps', ps = q :: ps' := by
  cases ps with
  | nil =>
      obtain ⟨hq, heq⟩ := nextPiece_eq_some_iff.mp h
      exact absurd (heq ▸ rfl) (Piece.spell_head hq s')
  | cons q' ps =>
      obtain ⟨hq', -⟩ := List.forall_mem_cons.mp hall
      rw [List.flatMap_cons, List.append_assoc, nextPiece_eq_some_iff.mpr ⟨hq', rfl⟩] at h
      obtain ⟨rfl, -⟩ := Prod.mk.inj (Option.some.inj h)
      exact ⟨ps, rfl⟩

/-- **What `parse_string` reads**: the pieces up to the closing quote. -/
theorem parseStringLoop_written (r : List UInt8) (ps : List Piece) :
    ∀ {n : ℕ} {acc : List UInt8}, (∀ q ∈ ps, q.isValid = true) → paired ps = true →
      (ps.flatMap Piece.spell ++ ascii '"' :: r).length ≤ n →
        parseStringLoop p quote n (ps.flatMap Piece.spell ++ ascii '"' :: r) acc
          = .ok (acc ++ written ps, r) := by
  induction hlen : ps.length using Nat.strongRecOn generalizing ps with
  | ind m ih =>
      intro n acc hvalid hpaired hn
      cases ps with
      | nil =>
          obtain ⟨n, rfl⟩ := Nat.exists_eq_succ_of_ne_zero (Nat.ne_of_gt (lt_of_lt_of_le (by simp) hn))
          rw [List.flatMap_nil, List.nil_append, parseStringLoop_quote, written, List.append_nil]
      | cons q ps =>
          obtain ⟨hq, hall⟩ := List.forall_mem_cons.mp hvalid
          have hpos := q.spell_length
          rw [List.flatMap_cons, List.append_assoc, List.length_append] at hn
          obtain ⟨n, rfl⟩ := Nat.exists_eq_succ_of_ne_zero (Nat.ne_of_gt (by omega : 0 < n))
          have hnext : ∀ acc, paired ps = true →
              parseStringLoop p quote n (ps.flatMap Piece.spell ++ ascii '"' :: r) acc
                = .ok (acc ++ written ps, r) :=
            fun _ h => ih ps.length (by rw [← hlen]; simp) ps rfl hall h (by omega)
          rw [List.flatMap_cons, List.append_assoc]
          cases q with
          | raw c =>
              rw [Piece.spell, List.singleton_append, parseStringLoop_raw hq,
                hnext _ hpaired, written, List.append_assoc, List.singleton_append]
          | esc e =>
              obtain ⟨out, hout, hesc⟩ := parseEscape_esc p quote (ps.flatMap Piece.spell ++ ascii '"' :: r) hq
              rw [Piece.spell, List.cons_append] at hesc ⊢
              rw [parseStringLoop_escape hesc, hnext _ hpaired, written, hout, List.append_assoc]
              rfl
          | uni a b c d =>
              by_cases hpair : isHighSurrogateHex [a, b, c, d] = true ∧
                  ∃ a' b' c' d' ps', ps = .uni a' b' c' d' :: ps'
              · obtain ⟨hhigh, a', b', c', d', ps', rfl⟩ := hpair
                obtain ⟨hq', hall'⟩ := List.forall_mem_cons.mp hall
                rw [paired, if_pos hhigh, Bool.and_eq_true] at hpaired
                have hesc : parseEscape p quote ((Piece.uni a b c d).spell
                    ++ ((Piece.uni a' b' c' d').spell ++ (ps'.flatMap Piece.spell ++ ascii '"' :: r)))
                      = .ok (pointBytes (pairPoint [a, b, c, d] [a', b', c', d']),
                          ps'.flatMap Piece.spell ++ ascii '"' :: r) :=
                  parseEscape_pair hq hq' hhigh hpaired.1
                rw [List.flatMap_cons, List.append_assoc, List.length_append] at hn
                rw [List.flatMap_cons, List.append_assoc, written, if_pos hhigh]
                rw [Piece.spell, List.cons_append] at hesc ⊢
                rw [parseStringLoop_escape hesc, ih ps'.length (by rw [← hlen]; simp) ps' rfl hall'
                  hpaired.2 (by omega), List.append_assoc]
              · have hpieces : isHighSurrogateHex [a, b, c, d] = false ∨
                    ∀ a' b' c' d' ps', ps ≠ .uni a' b' c' d' :: ps' := by
                  by_contra hno
                  rw [not_or, Bool.not_eq_false] at hno
                  push Not at hno
                  exact hpair hno
                have hesc : parseEscape p quote ((Piece.uni a b c d).spell
                    ++ (ps.flatMap Piece.spell ++ ascii '"' :: r))
                      = .ok (pointBytes (hex4 [a, b, c, d]), ps.flatMap Piece.spell ++ ascii '"' :: r) := by
                  refine parseEscape_alone hq (hpieces.imp_right fun hne a' b' c' d' s' hsome => ?_)
                  obtain ⟨ps', rfl⟩ := exists_of_nextPiece hall hsome
                  exact hne a' b' c' d' ps' rfl
                have hpaired' : paired ps = true := by
                  rcases hpieces with hlow | hne
                  · rwa [paired_uni_low hlow] at hpaired
                  · rwa [paired_uni_last hne] at hpaired
                rw [written_uni_alone hpieces]
                rw [Piece.spell, List.cons_append] at hesc ⊢
                rw [parseStringLoop_escape hesc, hnext _ hpaired', List.append_assoc]

end Loop

/-- A literal with these pieces, and what is behind it. -/
def literal (ps : List Piece) (rest : List UInt8) : List UInt8 :=
  ascii '"' :: (ps.flatMap Piece.spell ++ ascii '"' :: rest)

/-- A literal is taken apart in one way. -/
theorem literal_inj {ps ps' : List Piece} {r r' : List UInt8} (hps : ∀ q ∈ ps, q.isValid = true)
    (hps' : ∀ q ∈ ps', q.isValid = true) (h : literal ps r = literal ps' r') : ps = ps' ∧ r = r' := by
  have hread := (readPieces_eq_some_iff le_rfl).mpr ⟨hps, (List.cons.inj h).2.symm⟩
  have hread' := (readPieces_eq_some_iff le_rfl).mpr
    ⟨hps', (rfl : ps'.flatMap Piece.spell ++ ascii '"' :: r' = _)⟩
  rw [hread'] at hread
  obtain ⟨rfl, rfl⟩ := Prod.mk.inj (Option.some.inj hread)
  exact ⟨rfl, rfl⟩

/-- **The literals that are accepted, and their results.** -/
theorem parseString_ok_iff (p : JsonInput) {s out rest : List UInt8} :
    parseString p s = .ok (out, rest) ↔
      ∃ ps, (∀ q ∈ ps, q.isValid = true) ∧ paired ps = true ∧ s = literal ps rest ∧ out = written ps := by
  have hok : ∀ ps : List Piece, (∀ q ∈ ps, q.isValid = true) → paired ps = true →
      parseString p (literal ps rest) = .ok (written ps, rest) := by
    intro ps hvalid hpaired
    rw [literal, parseString, if_pos rfl, parseStringLoop_written rest ps hvalid hpaired le_rfl]
    rfl
  constructor
  · intro h
    have hleaves : leaves (parseString p s) = some rest := by rw [h, leaves_ok]
    rw [parseString_leaves] at hleaves
    obtain ⟨ps, hvalid, hpaired, rfl⟩ := scanString_eq_some_iff.mp hleaves
    refine ⟨ps, hvalid, hpaired, rfl, ?_⟩
    have hps := hok ps hvalid hpaired
    rw [literal, ← List.cons_append] at hps
    rw [hps] at h
    exact (Prod.mk.inj (Except.ok.inj h)).1.symm
  · rintro ⟨ps, hvalid, hpaired, rfl, rfl⟩
    exact hok ps hvalid hpaired

/-! ## What is denoted -/

theorem simpleEscape_letters {e x : UInt8} (h : simpleEscape e = some x) : (e, x) ∈ letters := by
  unfold simpleEscape at h
  split_ifs at h <;> subst_vars <;> cases h <;> decide

theorem pointBytes_char {n : UInt32} {c : Char} (h : c.val.toNat = n.toNat) :
    pointBytes n = Utf8.encode c := by
  rw [pointBytes, codepointToUtf8_char h]
  rfl

theorem toNat_pairPoint {a b c d a' b' c' d' : UInt8} (hvalid : (Piece.uni a b c d).isValid = true)
    (hvalid' : (Piece.uni a' b' c' d').isValid = true) (hhigh : IsHigh (codeUnit a b c d))
    (hlow : IsLow (codeUnit a' b' c' d')) :
    (pairPoint [a, b, c, d] [a', b', c', d']).toNat
      = pairValue (codeUnit a b c d) (codeUnit a' b' c' d') := by
  obtain ⟨hge, hlt⟩ := hhigh
  obtain ⟨hge', hlt'⟩ := hlow
  unfold pairPoint pairValue
  simp only [UInt32.toNat_add, UInt32.toNat_mul, UInt32.toNat_sub, UInt32.reduceToNat, hex4_eq hvalid,
    hex4_eq hvalid']
  omega

/-- **A literal without a surrogate alone is decoded to what it denotes.** -/
theorem denotes_written : ∀ ps : List Piece, (∀ q ∈ ps, q.isValid = true) → wellPaired ps = true →
    Denotes ps (written ps) := by
  intro ps
  induction hlen : ps.length using Nat.strongRecOn generalizing ps with
  | ind m ih =>
      intro hvalid hpaired
      cases ps with
      | nil => exact .nil
      | cons q ps =>
          obtain ⟨hq, hall⟩ := List.forall_mem_cons.mp hvalid
          have hnext := ih ps.length (by rw [← hlen]; simp) ps rfl hall
          cases q with
          | raw c => exact .raw (hnext hpaired)
          | esc e =>
              have hsome : (simpleEscape e).isSome = true := (simpleEscape_isSome e).trans hq
              obtain ⟨x, hx⟩ := Option.isSome_iff_exists.mp hsome
              rw [written, hx]
              exact .esc (simpleEscape_letters hx) (hnext hpaired)
          | uni a b c d =>
              by_cases hhigh : IsHigh (codeUnit a b c d)
              · -- the next piece is the low surrogate
                obtain ⟨a', b', c', d', ps', rfl, hlow, hpaired'⟩ := wellPaired_high hhigh hpaired
                obtain ⟨hq', hall'⟩ := List.forall_mem_cons.mp hall
                obtain ⟨ch, hch⟩ := exists_char_pair hhigh hlow
                have hbytes : pointBytes (pairPoint [a, b, c, d] [a', b', c', d']) = Utf8.encode ch :=
                  pointBytes_char (hch.trans (toNat_pairPoint hq hq' hhigh hlow).symm)
                rw [written, if_pos ((isHighSurrogateHex_iff hq).mpr hhigh), hbytes]
                exact .pair hhigh hlow hch (ih ps'.length (by rw [← hlen]; simp) ps' rfl hall' hpaired')
              · rw [wellPaired_not_high hhigh, Bool.and_eq_true, Bool.not_eq_true',
                  decide_eq_false_iff_not] at hpaired
                obtain ⟨ch, hch⟩ := exists_char_unit ((hex4_eq hq).symm.le.trans (hex4_le hq)) hhigh hpaired.1
                have halone : isHighSurrogateHex [a, b, c, d] = false := by
                  rw [← Bool.not_eq_true, isHighSurrogateHex_iff hq]
                  exact hhigh
                rw [written_uni_alone (Or.inl halone), pointBytes_char (hch.trans (hex4_eq hq).symm)]
                exact .uni hch (hnext hpaired.2)

/-- A surrogate alone is encoded to bytes that are no text. -/
theorem not_valid_pointBytes {n : UInt32} (h : IsHigh n.toNat ∨ IsLow n.toNat) :
    ¬Utf8.Valid (pointBytes n) := by
  have hbounds : 0xd800 ≤ n.toNat ∧ n.toNat < 0xe000 := by
    rcases h with ⟨hge, hlt⟩ | ⟨hge, hlt⟩
    · omega
    · omega
  have h6 : (n >>> 6).toNat = n.toNat / 64 := toNat_shiftRight_nat n (by decide)
  have h12 : (n >>> 12).toNat = n.toNat / 4096 := toNat_shiftRight_nat n (by decide)
  have hfirst : ((0xe0 : UInt32) ||| (n >>> 12)).toUInt8 = 0xED := by
    rw [toUInt8_or 5 7 rfl (by rw [h12]; omega), h12,
      show n.toNat / 4096 = 13 by omega]
    rfl
  have hsecond : (0x9F : UInt8) < UInt8.ofNat ((n >>> 6).toNat % 64 + 0x80) := by
    rw [UInt8.lt_iff_toNat_lt, UInt8.toNat_ofNat', h6]
    show 159 < _
    omega
  have hbytes : pointBytes n = 0xED :: UInt8.ofNat ((n >>> 6).toNat % 64 + 0x80)
      :: [UInt8.ofNat (n.toNat % 64 + 0x80)] := by
    simp only [pointBytes, codepointToUtf8, UInt32.le_iff_toNat_le, UInt32.reduceToNat, toUInt8_tail, hfirst]
    rw [if_neg (by omega), if_neg (by omega), if_pos (by omega)]
    rfl
  rw [hbytes]
  exact Utf8.not_valid_surrogate hsecond _

/-- What is accepted is decoded to the text it denotes. -/
def DecodesAsDenoted (p : JsonInput) (s : List UInt8) : Prop :=
  ∀ out rest, parseString p s = .ok (out, rest) →
    ∃ ps, (∀ q ∈ ps, q.isValid = true) ∧ s = literal ps rest ∧ Denotes ps out

/-- **String literals** are decoded to the text they denote exactly if every literal with a
surrogate alone goes beyond U+10FFFF with a pair. -/
theorem parse_string_denoted (p : JsonInput) (s : List UInt8) :
    DecodesAsDenoted p s ↔ ∀ ps rest, (∀ q ∈ ps, q.isValid = true) → s = literal ps rest →
      paired ps = true → wellPaired ps = true := by
  constructor
  · intro h ps rest hvalid hs hpaired
    obtain ⟨ps', hvalid', hs', hdenotes⟩ :=
      h _ _ ((parseString_ok_iff p).mpr ⟨ps, hvalid, hpaired, hs, rfl⟩)
    obtain ⟨rfl, -⟩ := literal_inj hvalid hvalid' (hs.symm.trans hs')
    exact hdenotes.wellPaired
  · intro h out rest hok
    obtain ⟨ps, hvalid, hpaired, hs, rfl⟩ := (parseString_ok_iff p).mp hok
    exact ⟨ps, hvalid, hs, denotes_written ps hvalid (h ps rest hvalid hs hpaired)⟩

/-- A high surrogate with a letter behind it is decoded to U+2441, and a surrogate alone to
the bytes that it would have. -/
theorem parse_string_not_denoted :
    parseString ⟨⟨[], false⟩, []⟩ (bytesOf "\"\\uD800\\u0041\"") = .ok ([0xE2, 0x91, 0x81], []) ∧
      ¬DecodesAsDenoted ⟨⟨[], false⟩, []⟩ (bytesOf "\"\\uD800\\u0041\"") ∧
      parseString ⟨⟨[], false⟩, []⟩ (bytesOf "\"\\uD800\"") = .ok ([0xED, 0xA0, 0x80], []) ∧
      ¬DecodesAsDenoted ⟨⟨[], false⟩, []⟩ (bytesOf "\"\\uD800\"") := by
  have hno : ∀ ps out, (∀ q ∈ ps, q.isValid = true) → wellPaired ps = false →
      parseString ⟨⟨[], false⟩, []⟩ (literal ps []) = .ok (out, []) →
        ¬DecodesAsDenoted ⟨⟨[], false⟩, []⟩ (literal ps []) := by
    intro ps out hvalid hpaired hok h
    obtain ⟨ps', hvalid', heq, hdenotes⟩ := h out [] hok
    obtain ⟨rfl, -⟩ := literal_inj hvalid hvalid' heq
    rw [hdenotes.wellPaired] at hpaired
    cases hpaired
  have hletter : parseString ⟨⟨[], false⟩, []⟩ (bytesOf "\"\\uD800\\u0041\"") = .ok ([0xE2, 0x91, 0x81], []) := by
    decide +kernel
  have halone : parseString ⟨⟨[], false⟩, []⟩ (bytesOf "\"\\uD800\"") = .ok ([0xED, 0xA0, 0x80], []) := by
    decide +kernel
  have h₁ : bytesOf "\"\\uD800\\u0041\"" = literal [.uni 0x44 0x38 0x30 0x30, .uni 0x30 0x30 0x34 0x31] [] := by
    decide +kernel
  have h₂ : bytesOf "\"\\uD800\"" = literal [.uni 0x44 0x38 0x30 0x30] [] := by decide +kernel
  refine ⟨hletter, ?_, halone, ?_⟩
  · rw [h₁] at hletter ⊢
    exact hno _ _ (by decide) (by decide) hletter
  · rw [h₂] at halone ⊢
    exact hno _ _ (by decide) (by decide) halone

end LuaFan
