/-
# `%g` and back

The text `%g` writes for a finite number is a number in the sense of JSON, and `strtod`
takes all of it.  What it stands for is the number rounded to the significant digits.

* `significant_spec`: the significant digits of a positive number;
* `isNumber_formatG`: the texts are JSON numbers;
* `strtod_formatG`: what they are read as.
-/
import LuaFan.Lib.JsonText

namespace Fp

open JsonText

/-! ## Ratios -/

theorem roundHalfEven_mul_right (num den k : ℕ) (hk : 0 < k) :
    roundHalfEven (num * k) (den * k) = roundHalfEven num den := by
  unfold roundHalfEven
  rw [Nat.mul_div_mul_right _ _ hk, Nat.mul_mod_mul_right]
  have hlt : ∀ a b : ℕ, a * k < b * k ↔ a < b := fun a b => Nat.mul_lt_mul_right hk
  simp only [← Nat.mul_assoc, hlt]

theorem magOf_mul_right (num den k : ℕ) (hk : 0 < k) : magOf (num * k) (den * k) = magOf num den := by
  unfold magOf
  rw [Nat.mul_div_mul_right _ _ hk]
  simp only
  rw [Nat.mul_right_comm den k, roundHalfEven_mul_right _ _ _ hk]

/-- Only the ratio counts. -/
theorem ofRatio_congr {a b c d : ℕ} (neg : Bool) (hb : 0 < b) (hd : 0 < d) (h : (a : ℚ) / b = c / d) :
    ofRatio neg a b = ofRatio neg c d := by
  have hcross : a * d = c * b := by
    rw [div_eq_div_iff (by positivity) (by positivity)] at h
    exact_mod_cast h
  have hmag : magOf (a * unitsPerOne) b = magOf (c * unitsPerOne) d := by
    rw [← magOf_mul_right _ b d hd, ← magOf_mul_right _ d b hb, Nat.mul_right_comm, hcross,
      Nat.mul_right_comm, Nat.mul_comm b d]
  simp only [ofRatio, ofUnits, hmag]

/-- A power of ten, split into a numerator and a denominator. -/
theorem ten_zpow (e : ℤ) : (10 : ℚ) ^ e = (10 ^ e.toNat : ℕ) / (10 ^ (-e).toNat : ℕ) := by
  push_cast
  rw [← zpow_natCast, ← zpow_natCast, ← zpow_sub₀ (by norm_num)]
  congr 1
  omega

/-! ## Significant digits -/

/-- The exponent of the first digit. -/
theorem decimalExponent_spec {p q : ℕ} (hp : 0 < p) (hq : 0 < q) :
    (10 : ℚ) ^ decimalExponent p q ≤ (p : ℚ) / q ∧ (p : ℚ) / q < 10 ^ (decimalExponent p q + 1) := by
  have hq' : (0 : ℚ) < q := by exact_mod_cast hq
  have hp' : (0 : ℚ) < p := by exact_mod_cast hp
  unfold decimalExponent
  split
  · rename_i hle
    have hpos : p / q ≠ 0 := Nat.ne_of_gt (Nat.div_pos hle hq)
    have hlow : 10 ^ Nat.log 10 (p / q) * q ≤ p :=
      (Nat.le_div_iff_mul_le hq).mp (Nat.pow_log_le_self 10 hpos)
    have hhigh : p < 10 ^ (Nat.log 10 (p / q) + 1) * q :=
      (Nat.div_lt_iff_lt_mul hq).mp (Nat.lt_pow_succ_log_self (by norm_num) _)
    rw [show (Nat.log 10 (p / q) : ℤ) + 1 = ((Nat.log 10 (p / q) + 1 : ℕ) : ℤ) by push_cast; rfl,
      zpow_natCast, zpow_natCast, le_div_iff₀ hq', div_lt_iff₀ hq']
    exact ⟨by exact_mod_cast hlow, by exact_mod_cast hhigh⟩
  · rename_i hlt
    obtain ⟨c, hc⟩ : ∃ c, c = Nat.clog 10 ((q + p - 1) / p) := ⟨_, rfl⟩
    rw [← hc]
    have hceil : (q + p - 1) / p ≤ 10 ^ c := hc ▸ Nat.le_pow_clog (by norm_num) _
    have hlow : q ≤ p * 10 ^ c := by
      have := (Nat.div_le_iff_le_mul_add_pred hp).mp hceil
      omega
    have hone : 1 < (q + p - 1) / p := (Nat.lt_div_iff_mul_lt hp).mpr (by omega)
    have hhigh : p * 10 ^ c < q * 10 := by
      have hcpos : 0 < c := hc ▸ Nat.clog_pos (by norm_num) hone
      obtain ⟨c, rfl⟩ := Nat.exists_eq_succ_of_ne_zero hcpos.ne'
      have hlast : 10 ^ c < (q + p - 1) / p := by
        have := Nat.pow_pred_clog_lt_self (b := 10) (by norm_num) hone
        rwa [← hc] at this
      have := (Nat.lt_div_iff_mul_lt hp).mp hlast
      rw [Nat.pow_succ, ← Nat.mul_assoc, Nat.mul_comm p]
      omega
    rw [zpow_add₀ (by norm_num), zpow_neg, zpow_natCast, zpow_one, inv_eq_one_div, div_le_div_iff₀
      (by positivity) hq', one_mul, div_mul_eq_mul_div, one_mul, div_lt_div_iff₀ hq' (by positivity)]
    refine ⟨by exact_mod_cast hlow, ?_⟩
    rw [mul_comm (10 : ℚ)]
    exact_mod_cast hhigh

theorem roundHalfEven_le (num den : ℕ) : roundHalfEven num den ≤ num / den + 1 := by
  unfold roundHalfEven
  simp only
  split
  · omega
  · split <;> omega

theorem roundHalfEven_le_of_le {num den b : ℕ} (h : num < b * den) : roundHalfEven num den ≤ b := by
  have hden : 0 < den := by
    by_contra h0
    rw [Nat.eq_zero_of_not_pos h0] at h
    simp at h
  exact (roundHalfEven_le num den).trans ((Nat.div_lt_iff_lt_mul hden).mpr h)

/-- The number that is rounded to a whole number of units of the last digit. -/
def scaledRound (prec p q : ℕ) : ℕ :=
  let shift : ℤ := prec - 1 - decimalExponent p q
  roundHalfEven (p * 10 ^ shift.toNat) (q * 10 ^ (-shift).toNat)

/-- The number of units of the last digit, before it is rounded. -/
theorem scaled_bounds {prec p q : ℕ} (hprec : 0 < prec) (hp : 0 < p) (hq : 0 < q) :
    10 ^ (prec - 1) * (q * 10 ^ (-((prec : ℤ) - 1 - decimalExponent p q)).toNat)
        ≤ p * 10 ^ ((prec : ℤ) - 1 - decimalExponent p q).toNat ∧
      p * 10 ^ ((prec : ℤ) - 1 - decimalExponent p q).toNat
        < 10 ^ prec * (q * 10 ^ (-((prec : ℤ) - 1 - decimalExponent p q)).toNat) := by
  obtain ⟨hlow, hhigh⟩ := decimalExponent_spec hp hq
  generalize decimalExponent p q = e at *
  generalize hshift : (prec : ℤ) - 1 - e = shift at *
  have hq' : (0 : ℚ) < q := by exact_mod_cast hq
  have hpos : (0 : ℚ) < 10 ^ shift := by positivity
  have hQ : (0 : ℚ) < (q * 10 ^ (-shift).toNat : ℕ) := by
    push_cast
    positivity
  have hscale : ((p * 10 ^ shift.toNat : ℕ) : ℚ) / (q * 10 ^ (-shift).toNat : ℕ)
      = p / q * 10 ^ shift := by
    rw [ten_zpow shift]
    push_cast
    rw [div_mul_div_comm]
  have hmul : ∀ k : ℤ, (10 : ℚ) ^ k * 10 ^ shift = 10 ^ (k + shift) := fun k =>
    (zpow_add₀ (by norm_num) k shift).symm
  constructor
  · have h : (10 : ℚ) ^ (prec - 1) ≤ (p : ℚ) / q * 10 ^ shift := by
      calc (10 : ℚ) ^ (prec - 1) = 10 ^ e * 10 ^ shift := by
            rw [hmul, ← zpow_natCast]
            congr 1
            omega
        _ ≤ p / q * 10 ^ shift := by gcongr
    rw [← hscale, le_div_iff₀ hQ] at h
    exact_mod_cast h
  · have h : (p : ℚ) / q * 10 ^ shift < 10 ^ prec := by
      calc (p : ℚ) / q * 10 ^ shift < 10 ^ (e + 1) * 10 ^ shift := by gcongr
        _ = (10 : ℚ) ^ prec := by
            rw [hmul, ← zpow_natCast]
            congr 1
            omega
    rw [← hscale, div_lt_iff₀ hQ] at h
    exact_mod_cast h

/-- **The significant digits**: as many as wanted, and their value. -/
theorem significant_spec {prec p q : ℕ} (hprec : 0 < prec) (hp : 0 < p) (hq : 0 < q) :
    10 ^ (prec - 1) ≤ (significant prec p q).1 ∧ (significant prec p q).1 < 10 ^ prec ∧
      ((significant prec p q).1 : ℚ) * 10 ^ ((significant prec p q).2 - (prec - 1))
        = scaledRound prec p q * 10 ^ (decimalExponent p q - (prec - 1)) := by
  obtain ⟨hlow, hhigh⟩ := scaled_bounds hprec hp hq
  have hQ : 0 < q * 10 ^ (-((prec : ℤ) - 1 - decimalExponent p q)).toNat := by positivity
  have hge : 10 ^ (prec - 1) ≤ scaledRound prec p q :=
    ((Nat.le_div_iff_mul_le hQ).mpr hlow).trans (le_roundHalfEven _ _)
  have hle : scaledRound prec p q ≤ 10 ^ prec := roundHalfEven_le_of_le hhigh
  have hsucc : 10 ^ prec = 10 ^ (prec - 1) * 10 := by
    rw [← pow_succ]
    congr 1
    omega
  have hsig : significant prec p q = if scaledRound prec p q = 10 ^ prec then
      (10 ^ (prec - 1), decimalExponent p q + 1) else (scaledRound prec p q, decimalExponent p q) := rfl
  rw [hsig]
  split
  · rename_i hcarry
    refine ⟨le_rfl, ?_, ?_⟩
    · show 10 ^ (prec - 1) < 10 ^ prec
      have : 0 < 10 ^ (prec - 1) := by positivity
      omega
    · show ((10 ^ (prec - 1) : ℕ) : ℚ) * 10 ^ (decimalExponent p q + 1 - (prec - 1)) = _
      rw [hcarry, hsucc, show decimalExponent p q + 1 - ((prec : ℤ) - 1)
        = 1 + (decimalExponent p q - (prec - 1)) by ring, zpow_add₀ (by norm_num), zpow_one]
      push_cast
      ring
  · rename_i hno
    exact ⟨hge, lt_of_le_of_ne hle hno, rfl⟩

/-! ## Digits -/

theorem digitsValue_concat (base : ℕ) (ds : List UInt8) (d : UInt8) :
    digitsValue base (ds ++ [d]) = digitsValue base ds * base + digitValue d := by
  simp [digitsValue]

theorem digitsValue_append (base : ℕ) (as bs : List UInt8) :
    digitsValue base (as ++ bs) = digitsValue base as * base ^ bs.length + digitsValue base bs := by
  induction bs using List.reverseRecOn with
  | nil => simp [digitsValue]
  | append_singleton bs d ih =>
      rw [← List.append_assoc, digitsValue_concat, ih, digitsValue_concat, List.length_append,
        List.length_singleton, pow_succ]
      ring

theorem digitsValue_zeros (k : ℕ) : digitsValue 10 (List.replicate k (ascii '0')) = 0 := by
  induction k with
  | zero => rfl
  | succ k ih =>
      rw [List.replicate_succ', digitsValue_concat, ih]
      decide

/-- A digit and its value. -/
theorem digit_ofNat : ∀ d : Fin 10, isDigit (UInt8.ofNat (48 + d.val)) = true ∧
    digitValue (UInt8.ofNat (48 + d.val)) = d.val ∧
      (UInt8.ofNat (48 + d.val) = ascii '0' ↔ d.val = 0) := by
  decide

section Digits

variable {width m : ℕ}

theorem length_decimalDigits (width m : ℕ) : (decimalDigits width m).length = width := by
  induction width generalizing m with
  | zero => rfl
  | succ width ih => rw [decimalDigits, List.length_append, ih, List.length_singleton]

theorem isDigit_decimalDigits : ∀ c ∈ decimalDigits width m, isDigit c = true := by
  induction width generalizing m with
  | zero => simp [decimalDigits]
  | succ width ih =>
      intro c hc
      rw [decimalDigits, List.mem_append, List.mem_singleton] at hc
      rcases hc with hc | rfl
      · exact ih c hc
      · exact (digit_ofNat ⟨m % 10, Nat.mod_lt _ (by norm_num)⟩).1

theorem digitsValue_decimalDigits (h : m < 10 ^ width) :
    digitsValue 10 (decimalDigits width m) = m := by
  induction width generalizing m with
  | zero =>
      rw [pow_zero, Nat.lt_one_iff] at h
      rw [h]
      rfl
  | succ width ih =>
      have hlast : digitValue (UInt8.ofNat (48 + m % 10)) = m % 10 :=
        (digit_ofNat ⟨m % 10, Nat.mod_lt _ (by norm_num)⟩).2.1
      rw [decimalDigits, digitsValue_concat, ih (by rw [pow_succ] at h; omega), hlast]
      omega

/-- The first digit is no zero. -/
theorem head_decimalDigits (h : 10 ^ width ≤ m) (hlt : m < 10 ^ (width + 1)) :
    (decimalDigits (width + 1) m).head? ≠ some (ascii '0') := by
  induction width generalizing m with
  | zero =>
      have hd := digit_ofNat ⟨m, by omega⟩
      rw [decimalDigits, decimalDigits, List.nil_append, Nat.mod_eq_of_lt (by omega)]
      intro hzero
      have := hd.2.2.mp (Option.some.inj hzero)
      simp only at this
      omega
  | succ width ih =>
      have hhead := ih (m := m / 10) (by rw [pow_succ] at h; omega) (by rw [pow_succ] at hlt; omega)
      rw [decimalDigits, List.head?_append]
      cases hds : (decimalDigits (width + 1) (m / 10)).head? with
      | none =>
          have hlen := length_decimalDigits (width + 1) (m / 10)
          rw [List.head?_eq_none_iff.mp hds] at hlen
          cases hlen
      | some c =>
          rw [hds] at hhead
          exact hhead

/-- The digits without the zeros at their end. -/
def strippedDigits (prec m : ℕ) : List UInt8 := (decimalDigits prec m).rdropWhile (· == ascii '0')

theorem strippedDigits_append (prec m : ℕ) : ∃ k, strippedDigits prec m
    ++ List.replicate k (ascii '0') = decimalDigits prec m ∧
      (strippedDigits prec m).length + k = prec := by
  have hsplit := List.rdropWhile_append_rtakeWhile (p := (· == ascii '0')) (l := decimalDigits prec m)
  obtain ⟨zeros, hzeros⟩ : ∃ zeros, strippedDigits prec m ++ zeros = decimalDigits prec m := ⟨_, hsplit⟩
  have hall : ∀ c ∈ zeros, c = ascii '0' := by
    have heq := List.append_cancel_left (hzeros.trans hsplit.symm)
    intro c hc
    rw [heq] at hc
    simpa using List.mem_rtakeWhile_imp hc
  refine ⟨zeros.length, ?_, ?_⟩
  · rw [← List.eq_replicate_of_mem hall]
    exact hzeros
  · have hlen := congrArg List.length hzeros
    rw [List.length_append, length_decimalDigits] at hlen
    exact hlen

theorem isDigit_strippedDigits : ∀ c ∈ strippedDigits width m, isDigit c = true := fun c hc =>
  isDigit_decimalDigits c ((strippedDigits_append width m).elim fun _ h => h.1 ▸ List.mem_append_left _ hc)

/-- Their value, and their first one. -/
theorem strippedDigits_spec {prec : ℕ} (hprec : 0 < prec) (hlow : 10 ^ (prec - 1) ≤ m)
    (hhigh : m < 10 ^ prec) :
    (digitsValue 10 (strippedDigits prec m) : ℚ) * 10 ^ ((prec : ℤ) - (strippedDigits prec m).length)
        = m ∧
      ∃ c ds, strippedDigits prec m = c :: ds ∧ c ≠ ascii '0' := by
  obtain ⟨k, happend, hlen⟩ := strippedDigits_append prec m
  obtain ⟨width, rfl⟩ : ∃ width, prec = width + 1 := ⟨prec - 1, by omega⟩
  have hvalue := digitsValue_decimalDigits hhigh
  rw [← happend, digitsValue_append, digitsValue_zeros, List.length_replicate, Nat.add_zero] at hvalue
  have hhead : (decimalDigits (width + 1) m).head? ≠ some (ascii '0') :=
    head_decimalDigits hlow hhigh
  constructor
  · rw [show ((width + 1 : ℕ) : ℤ) - (strippedDigits (width + 1) m).length = (k : ℤ) by omega,
      zpow_natCast]
    exact_mod_cast hvalue
  · rw [← happend] at hhead
    cases hds : strippedDigits (width + 1) m with
    | nil =>
        rw [hds] at hhead hlen
        simp only [List.length_nil, Nat.zero_add] at hlen
        rw [hlen, List.nil_append] at hhead
        exact absurd rfl hhead
    | cons c ds =>
        rw [hds] at hhead
        exact ⟨c, ds, rfl, fun hc => hhead (by rw [hc]; rfl)⟩

end Digits

/-! ## Exponents -/

theorem isDigit_ascii {c : Char} (h : c.isDigit = true) :
    isDigit (ascii c) = true ∧ digitValue (ascii c) = c.toNat - 48 := by
  have hrange : 48 ≤ c.toNat ∧ c.toNat ≤ 57 := by
    simpa [Char.isDigit, UInt32.le_iff_toNat_le] using h
  have hd := digit_ofNat ⟨c.toNat - 48, by omega⟩
  simp only [show 48 + (c.toNat - 48) = c.toNat by omega] at hd
  exact ⟨hd.1, hd.2.1⟩

theorem bytesOf_toString (n : ℕ) : bytesOf (toString n) = (Nat.toDigits 10 n).map ascii := by
  show (n.repr.toList).map ascii = _
  rw [Nat.toList_repr]

theorem isDigit_bytesOf_toString (n : ℕ) : ∀ c ∈ bytesOf (toString n), isDigit c = true := by
  intro c hc
  rw [bytesOf_toString] at hc
  obtain ⟨d, hd, rfl⟩ := List.mem_map.mp hc
  exact (isDigit_ascii (Nat.isDigit_of_mem_toDigits (by norm_num) (by norm_num) hd)).1

theorem digitsValue_map_ascii {cs : List Char} (h : ∀ c ∈ cs, c.isDigit = true) :
    digitsValue 10 (cs.map ascii) = Nat.ofDigitChars 10 cs 0 := by
  induction cs using List.reverseRecOn with
  | nil => rfl
  | append_singleton cs c ih =>
      rw [List.map_append, List.map_singleton, digitsValue_concat, Nat.ofDigitChars_append,
        ih fun d hd => h d (by simp [hd]), (isDigit_ascii (h c (by simp))).2, Nat.ofDigitChars_cons,
        Nat.ofDigitChars_nil, Nat.mul_comm]
      rfl

theorem digitsValue_bytesOf_toString (n : ℕ) : digitsValue 10 (bytesOf (toString n)) = n := by
  rw [bytesOf_toString, digitsValue_map_ascii fun c hc =>
    Nat.isDigit_of_mem_toDigits (by norm_num) (by norm_num) hc]
  exact Nat.ofDigitChars_toDigits (by norm_num) (by norm_num)

/-- The digits of an exponent, at least two. -/
def exponentDigits (e : ℤ) : List UInt8 :=
  (if e.natAbs < 10 then [ascii '0'] else []) ++ bytesOf (toString e.natAbs)

theorem exponentText_eq (e : ℤ) : exponentText e
    = ascii 'e' :: ascii (if e < 0 then '-' else '+') :: exponentDigits e := by
  simp [exponentText, exponentDigits]

theorem exponentDigits_spec (e : ℤ) : (∀ c ∈ exponentDigits e, isDigit c = true) ∧
    exponentDigits e ≠ [] ∧ digitsValue 10 (exponentDigits e) = e.natAbs := by
  have hne : bytesOf (toString e.natAbs) ≠ [] := by
    rw [bytesOf_toString]
    simp [Nat.toDigits_ne_nil]
  refine ⟨?_, fun h => hne (List.append_eq_nil_iff.mp h).2, ?_⟩
  · intro c hc
    rw [exponentDigits, List.mem_append] at hc
    rcases hc with hc | hc
    · split at hc
      · rw [List.mem_singleton.mp hc]
        decide
      · cases hc
    · exact isDigit_bytesOf_toString _ c hc
  · rw [exponentDigits, digitsValue_append, digitsValue_bytesOf_toString]
    split <;> simp [digitsValue, digitValue, isDigit, ascii]

/-- An exponent part is read as its exponent. -/
structure IsExponentOf (text : List UInt8) (e : ℤ) : Prop where
  valid : isExponent text = true
  read : takeExponent 'e' text = (e, text.length)

theorem isExponentOf_nil : IsExponentOf [] 0 := ⟨rfl, rfl⟩

theorem isExponentOf_exponentText (e : ℤ) : IsExponentOf (exponentText e) e := by
  obtain ⟨hdigits, hne, hvalue⟩ := exponentDigits_spec e
  have hsign : takeSign (ascii (if e < 0 then '-' else '+') :: exponentDigits e)
      = (decide (e < 0), 1) := by
    by_cases h : e < 0
    · simp [takeSign, h]
    · have hp : ascii '+' ≠ ascii '-' := by decide
      simp [takeSign, h, hp]
  have hall : (exponentDigits e).takeWhile isDigit = exponentDigits e :=
    List.takeWhile_eq_self_iff.mpr hdigits
  rw [exponentText_eq]
  constructor
  · have he : toLower (ascii 'e') = ascii 'e' := by decide
    simp only [isExponent, hsign, List.drop_succ_cons, List.drop_zero, he, beq_self_eq_true,
      Bool.true_and, Bool.and_eq_true, Bool.not_eq_true', List.isEmpty_eq_false_iff, List.all_eq_true]
    exact ⟨hne, hdigits⟩
  · have he : startsWith ['e'] (ascii 'e' :: ascii (if e < 0 then '-' else '+') :: exponentDigits e)
        = true := by
      rw [startsWith_one]
      decide
    simp only [takeExponent, he, if_true, List.drop_succ_cons, List.drop_zero, hsign,
      Nat.reduceAdd, hall, hne, if_false, hvalue, List.length_cons, Prod.mk.injEq]
    refine ⟨?_, by omega⟩
    by_cases h : e < 0
    · simp only [h, decide_true, if_true]
      omega
    · simp only [h, decide_false, Bool.false_eq_true, if_false]
      omega

/-! ## Numerals -/

/-- Digits, a fraction and an exponent. -/
def numeral (whole frac exponent : List UInt8) : List UInt8 := whole ++ (fraction frac ++ exponent)

section Numeral

variable {whole frac exponent : List UInt8} {e : ℤ}

/-- What follows the first digits is none. -/
theorem dropWhile_numeral (frac : List UInt8) (hwhole : ∀ c ∈ whole, isDigit c = true) (hexp : IsExponentOf exponent e) :
    (numeral whole frac exponent).takeWhile isDigit = whole ∧
      (numeral whole frac exponent).dropWhile isDigit = fraction frac ++ exponent := by
  have hnot : ∀ c ∈ (fraction frac ++ exponent).head?, isDigit c = false := by
    intro c hc
    unfold fraction at hc
    split at hc
    · have hvalid := hexp.valid
      cases exponent with
      | nil => cases hc
      | cons b s =>
          obtain rfl : b = c := Option.some.inj hc
          simp only [isExponent, Bool.and_eq_true, beq_iff_eq] at hvalid
          rcases toLower_eq hvalid.1.1 with rfl | rfl <;> decide
    · obtain rfl : ascii '.' = c := Option.some.inj hc
      decide
  rw [numeral]
  constructor
  · rw [List.takeWhile_append_of_pos hwhole]
    cases hrest : fraction frac ++ exponent with
    | nil => simp
    | cons c s => rw [List.takeWhile_cons_of_neg (by simp [hnot c (by rw [hrest]; rfl)]), List.append_nil]
  · rw [List.dropWhile_append_of_pos hwhole]
    cases hrest : fraction frac ++ exponent with
    | nil => rfl
    | cons c s => exact List.dropWhile_cons_of_neg (by simp [hnot c (by rw [hrest]; rfl)])

/-- The fraction that is found behind the first digits. -/
theorem takeWhile_fraction (hfrac : ∀ c ∈ frac, isDigit c = true) (hexp : IsExponentOf exponent e) :
    (frac ++ exponent).takeWhile isDigit = frac ∧
      (frac ++ exponent).dropWhile isDigit = exponent := by
  have h := dropWhile_numeral [] hfrac hexp
  exact h

/-- An exponent part starts with no point. -/
theorem IsExponentOf.no_point (hexp : IsExponentOf exponent e) : startsWith ['.'] exponent = false := by
  have hvalid := hexp.valid
  cases exponent with
  | nil => rfl
  | cons b s =>
      simp only [isExponent, Bool.and_eq_true, beq_iff_eq] at hvalid
      rw [startsWith_one, hvalid.1.1]
      decide

theorem isUnsigned_numeral (hwhole : ∀ c ∈ whole, isDigit c = true) (hint : isInt whole = true)
    (hfrac : ∀ c ∈ frac, isDigit c = true) (hexp : IsExponentOf exponent e) :
    isUnsigned (numeral whole frac exponent) = true := by
  obtain ⟨htake, hdrop⟩ := dropWhile_numeral frac hwhole hexp
  rw [isUnsigned, htake, hdrop, hint, Bool.true_and, fraction]
  split
  · rw [List.nil_append]
    cases exponent with
    | nil => rfl
    | cons b s =>
        have hb : b ≠ ascii '.' := by
          rintro rfl
          have := hexp.no_point
          rw [startsWith_one] at this
          exact absurd this (by decide)
        rw [isFraction, if_neg hb]
        exact hexp.valid
  · rename_i hne
    obtain ⟨htake', hdrop'⟩ := takeWhile_fraction hfrac hexp
    simp only [List.cons_append, isFraction, if_true, htake', hdrop', hexp.valid, Bool.and_true]
    simpa using hne

/-- **What a numeral is read as.** -/
theorem takeNumeral_numeral (neg : Bool) (hne : whole ≠ []) (hwhole : ∀ c ∈ whole, isDigit c = true)
    (hfrac : ∀ c ∈ frac, isDigit c = true) (hexp : IsExponentOf exponent e) :
    takeNumeral 10 10 1 'e' isDigit neg (numeral whole frac exponent)
      = some (ofRatio neg (digitsValue 10 (whole ++ frac) * 10 ^ (e - frac.length).toNat)
          (10 ^ (-(e - frac.length)).toNat), (numeral whole frac exponent).length) := by
  obtain ⟨htake, hdrop⟩ := dropWhile_numeral frac hwhole hexp
  have hrest : (numeral whole frac exponent).drop whole.length = fraction frac ++ exponent := by
    rw [← hdrop, ← drop_takeWhile, htake]
  have hused : ∀ dot n : ℕ, (numeral whole frac exponent).drop (whole.length + dot + n)
      = ((fraction frac ++ exponent).drop dot).drop n := by
    intro dot n
    rw [← hrest, List.drop_drop, List.drop_drop, Nat.add_assoc]
  unfold takeNumeral
  simp only [htake, hrest, hused]
  by_cases hempty : frac = []
  · subst hempty
    rw [fraction, if_pos rfl, List.nil_append]
    simp only [hexp.no_point, Bool.false_eq_true, if_false, hne, false_and, List.length_nil,
      List.drop_zero, hexp.read, numeral, fraction, if_true, List.nil_append, List.length_append,
      Nat.cast_zero, mul_zero, Nat.add_zero]
  · obtain ⟨htake', hdrop'⟩ := takeWhile_fraction hfrac hexp
    have hdot : startsWith ['.'] (ascii '.' :: (frac ++ exponent)) = true := by
      rw [startsWith_one]
      decide
    have hskip : (frac ++ exponent).drop frac.length = exponent := List.drop_left
    rw [fraction, if_neg hempty]
    simp only [List.cons_append, hdot, if_true, List.drop_succ_cons, List.drop_zero, htake', hne,
      false_and, if_false, hskip, hexp.read, numeral, fraction, hempty, List.length_append,
      List.length_cons, Nat.cast_one, one_mul]
    congr 2
    omega

end Numeral

/-! ## The texts of `%g` -/

/-- The text of the digits `m` and the exponent `e`, in its parts. -/
structure IsTextOf (prec m : ℕ) (e : ℤ) (whole frac exponent : List UInt8) (e' : ℤ) : Prop where
  text : formatDigits prec m e = numeral whole frac exponent
  ne_nil : whole ≠ []
  digits : ∀ c ∈ whole, isDigit c = true
  int : isInt whole = true
  fraction : ∀ c ∈ frac, isDigit c = true
  exponent : IsExponentOf exponent e'
  value : (digitsValue 10 (whole ++ frac) : ℚ) * 10 ^ (e' - frac.length) = m * 10 ^ (e - (prec - 1))
  length : (formatDigits prec m e).length ≤ 2 * prec + 8 + (exponentText e).length

theorem isInt_of_head {c : UInt8} {ds : List UInt8} (hc : c ≠ ascii '0')
    (hall : ∀ d ∈ c :: ds, isDigit d = true) : isInt (c :: ds) = true := by
  cases ds with
  | nil => exact hall c (by simp)
  | cons d ds =>
      rw [isInt, Bool.and_eq_true, bne_iff_ne, List.all_eq_true]
      exact ⟨hc, hall⟩
      simp

theorem length_fraction_le (ds : List UInt8) : (fraction ds).length ≤ ds.length + 1 := by
  unfold fraction
  split <;> simp

section Format

variable {prec m : ℕ} {e : ℤ}

/-- Scientific notation. -/
theorem isTextOf_scientific (hprec : 0 < prec) (hlow : 10 ^ (prec - 1) ≤ m) (hhigh : m < 10 ^ prec)
    (he : e < -4 ∨ (prec : ℤ) ≤ e) :
    IsTextOf prec m e ((strippedDigits prec m).take 1) ((strippedDigits prec m).drop 1)
      (exponentText e) e := by
  obtain ⟨hvalue, c, ds, hds, hc⟩ := strippedDigits_spec hprec hlow hhigh
  obtain ⟨k, -, hk⟩ := strippedDigits_append prec m
  have hdigits : ∀ d ∈ strippedDigits prec m, isDigit d = true := isDigit_strippedDigits
  have htext : formatDigits prec m e = numeral ((strippedDigits prec m).take 1)
      ((strippedDigits prec m).drop 1) (exponentText e) := by
    unfold formatDigits numeral
    rw [if_pos he, List.append_assoc]
    rfl
  constructor
  · exact htext
  · simp [hds]
  · exact fun d hd => hdigits d (List.mem_of_mem_take hd)
  · rw [hds]
    exact hdigits c (by simp [hds])
  · exact fun d hd => hdigits d (List.mem_of_mem_drop hd)
  · exact isExponentOf_exponentText e
  · rw [List.take_append_drop, ← hvalue, mul_assoc, ← zpow_add₀ (by norm_num), List.length_drop, hds,
      List.length_cons]
    congr 2
    push_cast
    omega
  · have hfrac := length_fraction_le ((strippedDigits prec m).drop 1)
    rw [htext, numeral]
    simp only [List.length_append, List.length_take, List.length_drop] at hfrac ⊢
    omega

/-- Digits with a point among them or behind them. -/
theorem isTextOf_fixed (hlow : 10 ^ (prec - 1) ≤ m) (hhigh : m < 10 ^ prec) (he : 0 ≤ e)
    (hlt : e < prec) :
    IsTextOf prec m e
      ((strippedDigits prec m ++ List.replicate prec (ascii '0')).take (e.toNat + 1))
      ((strippedDigits prec m).drop (e.toNat + 1)) [] 0 := by
  obtain ⟨hvalue, c, ds, hds, hc⟩ := strippedDigits_spec (by omega) hlow hhigh
  obtain ⟨k, -, hk⟩ := strippedDigits_append prec m
  have hdigits : ∀ d ∈ strippedDigits prec m, isDigit d = true := isDigit_strippedDigits
  have hwhole : ∀ d ∈ (strippedDigits prec m ++ List.replicate prec (ascii '0')).take (e.toNat + 1),
      isDigit d = true := by
    intro d hd
    rcases List.mem_append.mp (List.mem_of_mem_take hd) with h | h
    · exact hdigits d h
    · rw [List.eq_of_mem_replicate h]
      decide
  have htext : formatDigits prec m e
      = numeral ((strippedDigits prec m ++ List.replicate prec (ascii '0')).take (e.toNat + 1))
        ((strippedDigits prec m).drop (e.toNat + 1)) [] := by
    unfold formatDigits numeral
    rw [if_neg (by omega), if_pos he, List.append_nil]
    rfl
  constructor
  · exact htext
  · simp [hds]
  · exact hwhole
  · rw [hds, List.cons_append, List.take_succ_cons] at hwhole ⊢
    exact isInt_of_head hc hwhole
  · exact fun d hd => hdigits d (List.mem_of_mem_drop hd)
  · exact isExponentOf_nil
  · rw [← hvalue, mul_assoc, ← zpow_add₀ (by norm_num)]
    rcases Nat.le_total (strippedDigits prec m).length (e.toNat + 1) with hle | hle
    · -- zeros up to the point
      rw [List.take_append, List.take_of_length_le hle, List.take_replicate, List.drop_of_length_le hle,
        List.append_nil, digitsValue_append, digitsValue_zeros, List.length_replicate, List.length_nil,
        Nat.min_eq_left (by omega)]
      rw [Nat.cast_add, Nat.cast_mul, Nat.cast_pow, Nat.cast_zero, Nat.cast_ofNat,
        add_zero, Nat.cast_zero, sub_zero, zpow_zero, mul_one, ← zpow_natCast]
      congr 2
      omega
    · rw [List.take_append_of_le_length hle, List.take_append_drop, List.length_drop]
      congr 2
      omega
  · have hfrac := length_fraction_le ((strippedDigits prec m).drop (e.toNat + 1))
    rw [htext, numeral]
    simp only [List.length_append, List.length_take, List.length_drop, List.length_replicate,
      List.length_nil] at hfrac ⊢
    omega

/-- A zero, and zeros behind the point. -/
theorem isTextOf_small (hprec : 0 < prec) (hlow : 10 ^ (prec - 1) ≤ m) (hhigh : m < 10 ^ prec)
    (he : e < 0) (hge : -4 ≤ e) :
    IsTextOf prec m e [ascii '0']
      (List.replicate (-e - 1).toNat (ascii '0') ++ strippedDigits prec m) [] 0 := by
  obtain ⟨hvalue, c, ds, hds, hc⟩ := strippedDigits_spec hprec hlow hhigh
  obtain ⟨k, -, hk⟩ := strippedDigits_append prec m
  have htext : formatDigits prec m e
      = numeral [ascii '0'] (List.replicate (-e - 1).toNat (ascii '0') ++ strippedDigits prec m) [] := by
    unfold formatDigits numeral
    rw [if_neg (by omega), if_neg (by omega), List.append_nil]
    rfl
  constructor
  · exact htext
  · exact List.cons_ne_nil _ _
  · intro d hd
    rw [List.mem_singleton.mp hd]
    decide
  · decide
  · intro d hd
    rcases List.mem_append.mp hd with h | h
    · rw [List.eq_of_mem_replicate h]
      decide
    · exact isDigit_strippedDigits d h
  · exact isExponentOf_nil
  · have hzeros : digitsValue 10 ([ascii '0']
        ++ (List.replicate (-e - 1).toNat (ascii '0') ++ strippedDigits prec m))
        = digitsValue 10 (strippedDigits prec m) := by
      rw [← List.append_assoc, digitsValue_append, digitsValue_append, digitsValue_zeros]
      simp [digitsValue, digitValue, isDigit, ascii]
    rw [hzeros, ← hvalue, mul_assoc, ← zpow_add₀ (by norm_num), List.length_append,
      List.length_replicate]
    congr 2
    omega
  · have hfrac := length_fraction_le (List.replicate (-e - 1).toNat (ascii '0')
      ++ strippedDigits prec m)
    rw [htext, numeral]
    simp only [List.length_append, List.length_replicate, List.length_nil, List.length_singleton]
      at hfrac ⊢
    omega

theorem exists_isTextOf (hprec : 0 < prec) (hlow : 10 ^ (prec - 1) ≤ m) (hhigh : m < 10 ^ prec)
    (e : ℤ) : ∃ whole frac exponent e', IsTextOf prec m e whole frac exponent e' := by
  by_cases hsci : e < -4 ∨ (prec : ℤ) ≤ e
  · exact ⟨_, _, _, _, isTextOf_scientific hprec hlow hhigh hsci⟩
  · rcases lt_or_ge e 0 with he | he
    · exact ⟨_, _, _, _, isTextOf_small hprec hlow hhigh he (by omega)⟩
    · exact ⟨_, _, _, _, isTextOf_fixed hlow hhigh he (by omega)⟩

end Format

/-! ## `%g` and `strtod` -/

/-- The exponent is not larger than those of the numerator and the denominator. -/
theorem natAbs_decimalExponent_le {p q K : ℕ} (hp : 0 < p) (hpK : p < 10 ^ K) (hqK : q < 10 ^ K) :
    (decimalExponent p q).natAbs ≤ K := by
  unfold decimalExponent
  split
  · rw [Int.natAbs_natCast]
    exact (Nat.log_lt_of_lt_pow' (by rintro rfl; omega) ((Nat.div_le_self p q).trans_lt hpK)).le
  · rw [Int.natAbs_neg, Int.natAbs_natCast]
    refine Nat.clog_le_of_le_pow ?_
    rw [Nat.div_le_iff_le_mul_add_pred hp]
    have : 10 ^ K ≤ p * 10 ^ K := Nat.le_mul_of_pos_left _ hp
    omega

theorem length_exponentText_le {e : ℤ} {k : ℕ} (hk : 0 < k) (h : e.natAbs < 10 ^ k) :
    (exponentText e).length ≤ k + 3 := by
  have hdigits : (bytesOf (toString e.natAbs)).length ≤ k := by
    rw [bytesOf_toString, List.length_map]
    exact (Nat.length_toDigits_le_iff (by norm_num) hk).mpr h
  rw [exponentText_eq, exponentDigits]
  simp only [List.length_cons, List.length_append]
  split <;> simp only [List.length_singleton, List.length_nil] <;> omega

section Words

variable {prec : ℕ} {x : Binary64}

theorem units_pos (h : x.mag ≠ 0) : 0 < units x.mag := by
  unfold units
  split
  · omega
  · positivity

/-- Finite words have at most 2100 digits. -/
theorem exists_units_lt (h : x.mag < infMag) :
    ∃ K ≤ 2100, units x.mag < 10 ^ K ∧ unitsPerOne < 10 ^ K := by
  have hexp : x.mag / 2 ^ 52 - 1 ≤ 2045 := by
    rw [infMag] at h
    omega
  obtain ⟨K, hK⟩ : ∃ K, K = 2100 := ⟨_, rfl⟩
  have hten : 2 ^ K < 10 ^ K := Nat.pow_lt_pow_left (by norm_num) (by omega)
  refine ⟨K, hK.le, lt_trans ?_ hten, lt_trans ?_ hten⟩
  · unfold units
    split
    · exact lt_of_lt_of_le ‹_› (Nat.pow_le_pow_right (by norm_num) (by omega))
    · calc (2 ^ 52 + x.mag % 2 ^ 52) * 2 ^ (x.mag / 2 ^ 52 - 1)
          ≤ 2 ^ 53 * 2 ^ (x.mag / 2 ^ 52 - 1) := Nat.mul_le_mul_right _ (by omega)
        _ = 2 ^ (53 + (x.mag / 2 ^ 52 - 1)) := (pow_add 2 _ _).symm
        _ < 2 ^ K := Nat.pow_lt_pow_right (by norm_num) (by omega)
  · obtain ⟨n, hn, hone⟩ : ∃ n ≤ 1074, unitsPerOne = 2 ^ n := ⟨1074, le_rfl, by unfold unitsPerOne; rfl⟩
    rw [hone]
    exact Nat.pow_lt_pow_right (by norm_num) (by omega)

/-- The significant digits of a word, and their exponent. -/
def wordDigits (prec : ℕ) (x : Binary64) : ℕ × ℤ := significant prec (units x.mag) unitsPerOne

/-- The sign of a text. -/
def signText (neg : Bool) : List UInt8 := if neg then [ascii '-'] else []

theorem formatG_zero (h : x.mag = 0) : formatG prec x = signText x.neg ++ bytesOf "0" := by
  have hinf : 0 < infMag := by norm_num [infMag]
  unfold formatG
  rw [if_neg (show ¬infMag < x.mag by omega), if_neg (show x.mag ≠ infMag by omega), if_pos h]
  rfl

theorem formatG_finite (hfin : x.mag < infMag) (hne : x.mag ≠ 0) :
    formatG prec x
      = signText x.neg ++ formatDigits prec (wordDigits prec x).1 (wordDigits prec x).2 := by
  unfold formatG
  rw [if_neg (show ¬infMag < x.mag by omega), if_neg (show x.mag ≠ infMag by omega), if_neg hne]
  rfl

/-- **The text of a word in its parts.** -/
theorem exists_numeral (hprec : 0 < prec) (hfin : x.mag < infMag) (hne : x.mag ≠ 0) :
    ∃ whole frac exponent e', formatG prec x = signText x.neg ++ numeral whole frac exponent ∧
      IsTextOf prec (wordDigits prec x).1 (wordDigits prec x).2 whole frac exponent e' := by
  obtain ⟨hlow, hhigh, -⟩ := significant_spec hprec (units_pos hne) unitsPerOne_pos
  obtain ⟨whole, frac, exponent, e', htext⟩ := exists_isTextOf hprec hlow hhigh (wordDigits prec x).2
  refine ⟨whole, frac, exponent, e', ?_, htext⟩
  rw [formatG_finite hfin hne, ← htext.text]
  rfl

/-- **What is written is a number in the sense of JSON.** -/
theorem isNumber_formatG (hprec : 0 < prec) (hfin : x.mag < infMag) :
    isNumber (formatG prec x) = true := by
  by_cases hzero : x.mag = 0
  · rw [formatG_zero hzero]
    cases x.neg <;> decide +kernel
  · obtain ⟨whole, frac, exponent, e', htext, hparts⟩ := exists_numeral hprec hfin hzero
    have hunsigned := isUnsigned_numeral hparts.digits hparts.int hparts.fraction hparts.exponent
    rw [htext, isNumber]
    cases x.neg
    · obtain ⟨c, hc, hd⟩ := isUnsigned_head hunsigned
      have hhead : ¬(numeral whole frac exponent).head? = some (ascii '-') := by
        intro hminus
        rw [hc] at hminus
        rw [Option.some.inj hminus] at hd
        exact absurd hd (by decide)
      rw [signText, if_neg Bool.false_ne_true, List.nil_append, if_neg hhead]
      exact hunsigned
    · exact hunsigned

/-- **What it is read as**: the number with these significant digits. -/
theorem strtod_formatG (hprec : 0 < prec) (hfin : x.mag < infMag) (hne : x.mag ≠ 0) {a b : ℕ}
    (hb : 0 < b)
    (hab : (a : ℚ) / b = (wordDigits prec x).1 * 10 ^ ((wordDigits prec x).2 - (prec - 1))) :
    (strtod (formatG prec x)).1 = ofRatio x.neg a b := by
  obtain ⟨whole, frac, exponent, e', htext, hparts⟩ := exists_numeral hprec hfin hne
  have hunsigned := isUnsigned_numeral hparts.digits hparts.int hparts.fraction hparts.exponent
  have hread := fun neg => takeNumeral_numeral neg hparts.ne_nil hparts.digits hparts.fraction
    hparts.exponent
  have hratio : ∀ neg, ofRatio neg
      (digitsValue 10 (whole ++ frac) * 10 ^ (e' - frac.length).toNat)
      (10 ^ (-(e' - frac.length)).toNat) = ofRatio neg a b := by
    intro neg
    refine ofRatio_congr neg (by positivity) hb ?_
    rw [hab, ← hparts.value, ten_zpow (e' - frac.length), Nat.cast_mul, mul_div_assoc]
  rw [htext]
  cases x.neg
  · rw [signText, if_neg Bool.false_ne_true, List.nil_append,
      (strtod_isUnsigned hunsigned).1 (hread false), hratio]
  · rw [signText, if_pos rfl, List.singleton_append, (strtod_isUnsigned hunsigned).2 (hread true),
      hratio]

theorem length_formatG_le (hprec : 0 < prec) (hfin : x.mag < infMag) :
    (formatG prec x).length ≤ 2 * prec + 16 := by
  by_cases hzero : x.mag = 0
  · rw [formatG_zero hzero]
    cases x.neg <;> simp [bytesOf, signText]
  · obtain ⟨whole, frac, exponent, e', htext, hparts⟩ := exists_numeral hprec hfin hzero
    obtain ⟨K, hK, hunits, hone⟩ := exists_units_lt hfin
    have hexp := natAbs_decimalExponent_le (units_pos hzero) hunits hone
    have hdigits : (wordDigits prec x).2.natAbs < 10 ^ 4 := by
      unfold wordDigits significant
      simp only
      split <;> simp only <;> omega
    have hlen := hparts.length
    have hlen' := length_exponentText_le (by norm_num) hdigits
    rw [hparts.text] at hlen
    rw [htext, List.length_append, signText]
    split <;> simp only [List.length_singleton, List.length_nil] <;> omega

end Words

/-! ## Integers -/

/-- The number has no more than `prec` significant digits. -/
def HasDigits (prec n : ℕ) : Prop := ∃ m k, n = m * 10 ^ k ∧ m < 10 ^ prec

/-- An integer rounded to `prec` significant digits. -/
def roundDigits (prec n : ℕ) : ℕ :=
  if n < 10 ^ prec then n
  else
    let unit := 10 ^ (Nat.log 10 n + 1 - prec)
    roundHalfEven n unit * unit

section Integers

variable {prec n : ℕ}

/-- A number of more digits than are wanted is rounded at some later place. -/
theorem roundDigits_of_le (h : 10 ^ prec ≤ n) :
    ∃ j, 10 ^ (prec + j) ≤ n ∧ n < 10 ^ (prec + j + 1) ∧
      roundDigits prec n = roundHalfEven n (10 ^ (j + 1)) * 10 ^ (j + 1) := by
  have hn : n ≠ 0 := by
    rintro rfl
    have : 0 < 10 ^ prec := by positivity
    omega
  have hlog : prec ≤ Nat.log 10 n := Nat.le_log_of_pow_le (by norm_num) h
  obtain ⟨j, hj⟩ := Nat.exists_eq_add_of_le hlog
  refine ⟨j, ?_, ?_, ?_⟩
  · rw [← hj]
    exact Nat.pow_log_le_self 10 hn
  · rw [← hj]
    exact Nat.lt_pow_succ_log_self (by norm_num) n
  · rw [roundDigits, if_neg (by omega), hj, show prec + j + 1 - prec = j + 1 by omega]

/-- **Exactly the numbers of that many digits are not changed.** -/
theorem roundDigits_eq_iff (hprec : 0 < prec) : roundDigits prec n = n ↔ HasDigits prec n := by
  by_cases h : n < 10 ^ prec
  · rw [roundDigits, if_pos h]
    exact ⟨fun _ => ⟨n, 0, by simp, h⟩, fun _ => rfl⟩
  · obtain ⟨j, hlow, hhigh, heq⟩ := roundDigits_of_le (not_lt.mp h)
    rw [heq]
    constructor
    · intro hround
      have hle : roundHalfEven n (10 ^ (j + 1)) ≤ 10 ^ prec := by
        refine roundHalfEven_le_of_le ?_
        rwa [← pow_add]
      rcases Nat.lt_or_eq_of_le hle with hlt | hall
      · exact ⟨_, j + 1, hround.symm, hlt⟩
      · refine ⟨1, prec + (j + 1), ?_, Nat.one_lt_pow hprec.ne' (by norm_num)⟩
        rw [← hround, hall, Nat.one_mul, pow_add 10 prec (j + 1)]
    · rintro ⟨m, k, rfl, hm⟩
      -- the unit divides the number, as the number has so few digits
      have hk : j + 1 ≤ k := by
        by_contra hlt
        have : m * 10 ^ k < 10 ^ (prec + j) := by
          calc m * 10 ^ k < 10 ^ prec * 10 ^ k := Nat.mul_lt_mul_of_pos_right hm (by positivity)
            _ ≤ 10 ^ prec * 10 ^ j :=
                Nat.mul_le_mul_left _ (Nat.pow_le_pow_right (by norm_num) (by omega))
            _ = 10 ^ (prec + j) := (pow_add 10 prec j).symm
        omega
      obtain ⟨d, rfl⟩ := Nat.exists_eq_add_of_le hk
      rw [Nat.add_comm (j + 1), pow_add, ← Nat.mul_assoc, roundHalfEven_mul _ _ (by positivity)]

/-- The significant digits of an integer. -/
theorem significant_nat (hprec : 0 < prec) (hn : 0 < n) {u : ℕ} (hu : 0 < u) :
    ((significant prec (n * u) u).1 : ℚ) * 10 ^ ((significant prec (n * u) u).2 - (prec - 1))
      = roundDigits prec n := by
  rw [(significant_spec hprec (Nat.mul_pos hn hu) hu).2.2]
  have hexp : decimalExponent (n * u) u = Nat.log 10 n := by
    rw [decimalExponent, if_pos (Nat.le_mul_of_pos_left u hn), Nat.mul_div_cancel _ hu]
  unfold scaledRound
  simp only [hexp]
  by_cases h : n < 10 ^ prec
  · have hlog : Nat.log 10 n < prec := Nat.log_lt_of_lt_pow hn.ne' h
    obtain ⟨s, hs⟩ : ∃ s, prec = Nat.log 10 n + 1 + s := ⟨prec - (Nat.log 10 n + 1), by omega⟩
    have hshift : (prec : ℤ) - 1 - Nat.log 10 n = (s : ℤ) := by omega
    rw [roundDigits, if_pos h, hshift, Int.toNat_natCast, show (-(s : ℤ)).toNat = 0 by omega, pow_zero,
      Nat.mul_one, Nat.mul_right_comm, roundHalfEven_mul _ _ hu,
      show (Nat.log 10 n : ℤ) - (prec - 1) = -(s : ℤ) by omega, zpow_neg, zpow_natCast, Nat.cast_mul,
      Nat.cast_pow, Nat.cast_ofNat, mul_assoc, mul_inv_cancel₀ (by positivity), mul_one]
  · obtain ⟨j, hlow, hhigh, heq⟩ := roundDigits_of_le (not_lt.mp h)
    have hlog : Nat.log 10 n = prec + j := by
      rw [Nat.log_eq_iff (Or.inr ⟨by norm_num, hn.ne'⟩)]
      exact ⟨hlow, hhigh⟩
    rw [heq, hlog, show (prec : ℤ) - 1 - ((prec + j : ℕ) : ℤ) = -((j + 1 : ℕ) : ℤ) by push_cast; ring,
      Int.neg_neg, Int.toNat_natCast, show (-((j + 1 : ℕ) : ℤ)).toNat = 0 by omega, pow_zero,
      Nat.mul_one, Nat.mul_comm u, roundHalfEven_mul_right _ _ _ hu,
      show ((prec + j : ℕ) : ℤ) - (prec - 1) = ((j + 1 : ℕ) : ℤ) by push_cast; ring, zpow_natCast]
    push_cast
    rfl

/-- A zero is read back with its sign. -/
theorem strtod_formatG_zero {x : Binary64} (h : x.mag = 0) :
    (strtod (formatG prec x)).1 = ofRatio x.neg 0 1 := by
  have hunsigned : isUnsigned (bytesOf "0") = true := by decide +kernel
  have hread : ∀ neg, takeNumeral 10 10 1 'e' isDigit neg (bytesOf "0") = some (ofRatio neg 0 1, 1) :=
    fun neg => rfl
  rw [formatG_zero h]
  cases x.neg
  · rw [signText, if_neg Bool.false_ne_true, List.nil_append, (strtod_isUnsigned hunsigned).1 (hread false)]
  · rw [signText, if_pos rfl, List.singleton_append, (strtod_isUnsigned hunsigned).2 (hread true)]

/-- **An integer is read back rounded to the significant digits.** -/
theorem strtod_formatG_int {x : Binary64} {i : ℤ} (hprec : 0 < prec) (hx : x.value = intValue i) :
    (strtod (formatG prec x)).1 = ofRatio x.neg (roundDigits prec i.natAbs) 1 := by
  obtain ⟨hfin, hunits⟩ := units_of_value hx
  rw [Int.natAbs_mul, Int.natAbs_natCast] at hunits
  by_cases hi : i = 0
  · subst hi
    rw [Int.natAbs_zero, Nat.zero_mul] at hunits
    have hmag : x.mag = 0 := by
      by_contra hne
      exact (units_pos hne).ne' hunits
    rw [strtod_formatG_zero hmag, Int.natAbs_zero, roundDigits, if_pos (by positivity)]
  · have hpos : 0 < i.natAbs := Int.natAbs_pos.mpr hi
    have hne : x.mag ≠ 0 := by
      intro hzero
      rw [hzero] at hunits
      have : 0 < i.natAbs * unitsPerOne := Nat.mul_pos hpos unitsPerOne_pos
      rw [← hunits] at this
      exact absurd this (by decide)
    refine strtod_formatG hprec hfin hne Nat.one_pos ?_
    rw [wordDigits, hunits, significant_nat hprec hpos unitsPerOne_pos, Nat.cast_one, div_one]

end Integers

end Fp
