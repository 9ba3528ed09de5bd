/-
# Binary64 words and correct rounding

A binary64 word is a sign and a magnitude: the exponent field and the fraction
read as one number below `2 ^ 63`.  Every finite value is a whole number of
units of `2 ^ -1074`, the smallest positive one, so values are compared as
integers and no rational or real number is needed.

* `magOf num den`: the magnitude nearest to `num / den` units, ties to even;
* `magOf_units`: **rounding a value that a word has gives that word back**;
* `value_ofInt_iff`: an integer survives the conversion to binary64 exactly when
  some word has its value.
-/
import Mathlib

namespace Fp

/-! ## Words and values -/

/-- A binary64 word: sign bit, and exponent field and fraction together. -/
structure Binary64 where
  neg : Bool
  mag : ℕ
  lt : mag < 2 ^ 63
deriving DecidableEq

/-- The magnitude of an infinity; larger magnitudes are NaNs. -/
def infMag : ℕ := 2047 * 2 ^ 52

/-- The finite magnitude `mag`, in units of `2 ^ -1074`. -/
def units (mag : ℕ) : ℕ :=
  if mag < 2 ^ 52 then mag else (2 ^ 52 + mag % 2 ^ 52) * 2 ^ (mag / 2 ^ 52 - 1)

/-- The number of units in one. -/
@[irreducible] def unitsPerOne : ℕ := 2 ^ 1074

theorem unitsPerOne_pos : 0 < unitsPerOne := by
  unfold unitsPerOne
  positivity

/-- What a word stands for; finite values are counted in units of `2 ^ -1074`. -/
inductive Value where
  | nan
  | negInf
  | fin (units : ℤ)
  | posInf
deriving DecidableEq

/-- The comparison `a <= b`; nothing compares with NaN. -/
def Value.le : Value → Value → Bool
  | nan, _ => false
  | _, nan => false
  | negInf, _ => true
  | _, posInf => true
  | fin a, fin b => decide (a ≤ b)
  | _, _ => false

/-- The comparison `a < b`. -/
def Value.lt (a b : Value) : Bool := a.le b && !b.le a

namespace Binary64

def value (x : Binary64) : Value :=
  if infMag < x.mag then .nan
  else if x.mag = infMag then (if x.neg then .negInf else .posInf)
  else .fin (if x.neg then -(units x.mag) else units x.mag)

def isNan (x : Binary64) : Bool := decide (infMag < x.mag)

/-- The 64-bit pattern of a word. -/
def toBits (x : Binary64) : ℕ := (if x.neg then 2 ^ 63 else 0) + x.mag

/-- The word of a 64-bit pattern. -/
def ofBits (n : ℕ) : Binary64 where
  neg := decide (n / 2 ^ 63 % 2 = 1)
  mag := n % 2 ^ 63
  lt := Nat.mod_lt _ (by norm_num)

theorem toBits_lt (x : Binary64) : x.toBits < 2 ^ 64 := by
  have h := x.lt
  unfold toBits
  split <;> omega

@[simp] theorem ofBits_toBits (x : Binary64) : ofBits x.toBits = x := by
  obtain ⟨neg, mag, h⟩ := x
  cases neg
  · simp only [ofBits, toBits, mk.injEq]
    refine ⟨?_, ?_⟩
    · simp only [Bool.false_eq_true, if_false, decide_eq_false_iff_not]
      omega
    · simp only [Bool.false_eq_true, if_false]
      omega
  · simp only [ofBits, toBits, mk.injEq]
    refine ⟨?_, ?_⟩
    · simp only [if_true, decide_eq_true_eq]
      omega
    · simp only [if_true]
      omega

end Binary64

/-! ## Rounding -/

/-- `num / den` rounded to the nearest natural number, ties to even. -/
def roundHalfEven (num den : ℕ) : ℕ :=
  let q := num / den
  let r := num % den
  if 2 * r < den then q else if den < 2 * r then q + 1 else q + q % 2

/-- The magnitude nearest to `num / den` units.  The significand has 53 bits, so
a value of more bits is rounded at the `exponent`-th bit; overflow gives
infinity. -/
def magOf (num den : ℕ) : ℕ :=
  let exponent := Nat.log2 (num / den) - 52
  min (exponent * 2 ^ 52 + roundHalfEven num (den * 2 ^ exponent)) infMag

theorem infMag_lt : infMag < 2 ^ 63 := by norm_num [infMag]

/-- The word nearest to `num / den` units, with the given sign. -/
def ofUnits (neg : Bool) (num den : ℕ) : Binary64 where
  neg := neg
  mag := magOf num den
  lt := lt_of_le_of_lt (Nat.min_le_right _ _) infMag_lt

/-- The word nearest to the rational `num / den`. -/
def ofRatio (neg : Bool) (num den : ℕ) : Binary64 := ofUnits neg (num * unitsPerOne) den

/-- The conversion of an integer to binary64. -/
def ofInt (i : ℤ) : Binary64 := ofRatio (decide (i < 0)) i.natAbs 1

/-- The value of the integer `i`. -/
def intValue (i : ℤ) : Value := .fin (i * unitsPerOne)

theorem roundHalfEven_mul (q den : ℕ) (hden : 0 < den) : roundHalfEven (q * den) den = q := by
  unfold roundHalfEven
  rw [Nat.mul_mod_left, Nat.mul_div_left _ hden]
  simp [hden]

theorem units_of_lt (mag : ℕ) (h : mag < 2 ^ 53) : units mag = mag := by
  unfold units
  split
  · rfl
  · have hq : mag / 2 ^ 52 = 1 := by omega
    rw [hq]
    omega

theorem units_of_le (mag : ℕ) (h : 2 ^ 52 ≤ mag) :
    units mag = (2 ^ 52 + mag % 2 ^ 52) * 2 ^ (mag / 2 ^ 52 - 1) := by
  rw [units, if_neg (by omega)]

theorem log2_mul_two_pow (m e : ℕ) (hlow : 2 ^ 52 ≤ m) (hhigh : m < 2 ^ 53) :
    Nat.log2 (m * 2 ^ e) = 52 + e := by
  have hpos : m * 2 ^ e ≠ 0 := by positivity
  rw [Nat.log2_eq_iff hpos, pow_add, show 52 + e + 1 = 53 + e by omega, pow_add]
  exact ⟨Nat.mul_le_mul_right _ hlow, Nat.mul_lt_mul_of_pos_right hhigh (by positivity)⟩

/-- **Rounding is exact on the values words have.** -/
theorem magOf_units (mag den : ℕ) (hmag : mag < infMag) (hden : 0 < den) :
    magOf (units mag * den) den = mag := by
  unfold magOf
  rw [Nat.mul_div_left _ hden]
  by_cases hsmall : mag < 2 ^ 53
  · have hlog : Nat.log2 mag - 52 = 0 := by
      by_cases h0 : mag = 0
      · simp [h0]
      · have := (Nat.log2_lt h0).mpr hsmall
        omega
    simp only [units_of_lt mag hsmall, hlog, pow_zero, Nat.mul_one, Nat.zero_mul, Nat.zero_add,
      roundHalfEven_mul _ _ hden]
    exact Nat.min_eq_left hmag.le
  · -- a normal number above the subnormal binade: the significand has 53 bits
    have hlow : 2 ^ 52 ≤ 2 ^ 52 + mag % 2 ^ 52 := Nat.le_add_right _ _
    have hhigh : 2 ^ 52 + mag % 2 ^ 52 < 2 ^ 53 := by omega
    have hexp : Nat.log2 (units mag) - 52 = mag / 2 ^ 52 - 1 := by
      rw [units_of_le mag (by omega), log2_mul_two_pow _ _ hlow hhigh]
      omega
    have hround : roundHalfEven (units mag * den) (den * 2 ^ (mag / 2 ^ 52 - 1))
        = 2 ^ 52 + mag % 2 ^ 52 := by
      rw [units_of_le mag (by omega), Nat.mul_assoc, Nat.mul_comm (2 ^ _) den]
      exact roundHalfEven_mul _ _ (by positivity)
    simp only [hexp, hround]
    rw [show (mag / 2 ^ 52 - 1) * 2 ^ 52 + (2 ^ 52 + mag % 2 ^ 52) = mag by omega]
    exact Nat.min_eq_left hmag.le

/-! ## Order -/

theorem units_mono {a b : ℕ} (h : a ≤ b) : units a ≤ units b := by
  by_cases hb : b < 2 ^ 53
  · rw [units_of_lt a (by omega), units_of_lt b hb]
    exact h
  · rw [units_of_le b (by omega)]
    have hexp : 1 ≤ b / 2 ^ 52 - 1 := by omega
    by_cases ha : a < 2 ^ 53
    · rw [units_of_lt a ha]
      calc a ≤ 2 ^ 52 * 2 ^ 1 := by omega
        _ ≤ (2 ^ 52 + b % 2 ^ 52) * 2 ^ (b / 2 ^ 52 - 1) :=
            Nat.mul_le_mul (by omega) (Nat.pow_le_pow_right (by omega) hexp)
    · rw [units_of_le a (by omega)]
      rcases Nat.lt_or_ge (a / 2 ^ 52) (b / 2 ^ 52) with hlt | hge
      · calc (2 ^ 52 + a % 2 ^ 52) * 2 ^ (a / 2 ^ 52 - 1)
            ≤ 2 ^ 53 * 2 ^ (a / 2 ^ 52 - 1) := Nat.mul_le_mul_right _ (by omega)
          _ = 2 ^ 52 * 2 ^ (a / 2 ^ 52 - 1 + 1) := by ring
          _ ≤ (2 ^ 52 + b % 2 ^ 52) * 2 ^ (b / 2 ^ 52 - 1) :=
              Nat.mul_le_mul (by omega) (Nat.pow_le_pow_right (by omega) (by omega))
      · have heq : a / 2 ^ 52 = b / 2 ^ 52 := by omega
        rw [heq]
        exact Nat.mul_le_mul_right _ (by omega)

theorem le_roundHalfEven (num den : ℕ) : num / den ≤ roundHalfEven num den := by
  unfold roundHalfEven
  simp only
  split
  · exact le_rfl
  · split <;> omega

/-- Rounding does not go below a value that a word has. -/
theorem le_magOf {mag num : ℕ} (hmag : mag ≤ infMag) (h : units mag ≤ num) : mag ≤ magOf num 1 := by
  have hround := le_roundHalfEven num (1 * 2 ^ (Nat.log2 (num / 1) - 52))
  simp only [magOf, Nat.one_mul, Nat.div_one] at hround ⊢
  refine le_min ?_ hmag
  generalize hr : roundHalfEven num (2 ^ (Nat.log2 num - 52)) = r at hround ⊢
  -- with a positive exponent at least 53 bits are left
  have hbits : 0 < Nat.log2 num - 52 → 2 ^ 52 ≤ num / 2 ^ (Nat.log2 num - 52) := by
    intro hpos
    have hne : num ≠ 0 := by
      rintro rfl
      simp at hpos
    rw [Nat.le_div_iff_mul_le (by positivity), ← pow_add]
    refine le_trans (Nat.pow_le_pow_right (by omega) ?_) (Nat.log2_self_le hne)
    omega
  by_cases hsmall : mag < 2 ^ 53
  · rw [units_of_lt mag hsmall] at h
    rcases Nat.eq_zero_or_pos (Nat.log2 num - 52) with h0 | hpos
    · rw [h0, pow_zero, Nat.div_one] at hround
      omega
    · have := hbits hpos
      have hmul : 1 * 2 ^ 52 ≤ (Nat.log2 num - 52) * 2 ^ 52 := Nat.mul_le_mul_right _ hpos
      omega
  · rw [units_of_le mag (by omega)] at h
    have hne : num ≠ 0 := by
      rintro rfl
      have : 0 < (2 ^ 52 + mag % 2 ^ 52) * 2 ^ (mag / 2 ^ 52 - 1) := by positivity
      omega
    have hlog : 52 + (mag / 2 ^ 52 - 1) ≤ Nat.log2 num := by
      rw [Nat.le_log2 hne, pow_add]
      exact le_trans (Nat.mul_le_mul_right _ (by omega)) h
    rcases Nat.lt_or_ge (mag / 2 ^ 52 - 1) (Nat.log2 num - 52) with hlt | hge
    · have := hbits (by omega)
      have hmul : (mag / 2 ^ 52 - 1 + 1) * 2 ^ 52 ≤ (Nat.log2 num - 52) * 2 ^ 52 :=
        Nat.mul_le_mul_right _ hlt
      omega
    · have heq : Nat.log2 num - 52 = mag / 2 ^ 52 - 1 := by omega
      rw [heq] at hround ⊢
      have : 2 ^ 52 + mag % 2 ^ 52 ≤ num / 2 ^ (mag / 2 ^ 52 - 1) := by
        rwa [Nat.le_div_iff_mul_le (by positivity)]
      omega

/-! ## Integers -/

theorem value_ofUnits_of_units (neg : Bool) (mag : ℕ) (hmag : mag < infMag) (den : ℕ)
    (hden : 0 < den) :
    (ofUnits neg (units mag * den) den).value
      = .fin (if neg then -(units mag) else units mag) := by
  have h := magOf_units mag den hmag hden
  unfold Binary64.value
  simp only [ofUnits, h]
  rw [if_neg (by omega), if_neg (by omega)]

/-- The magnitude of a word with a finite value. -/
theorem units_of_value {x : Binary64} {z : ℤ} (h : x.value = .fin z) :
    x.mag < infMag ∧ units x.mag = z.natAbs := by
  unfold Binary64.value at h
  split at h
  · cases h
  · split at h
    · split at h <;> cases h
    · rename_i hnan hinf
      refine ⟨by omega, ?_⟩
      simp only [Value.fin.injEq] at h
      rw [← h]
      split <;> simp

/-- **An integer survives the conversion exactly when a word has its value.** -/
theorem value_ofInt_iff (i : ℤ) :
    (ofInt i).value = intValue i ↔ ∃ x : Binary64, x.value = intValue i := by
  constructor
  · intro h
    exact ⟨_, h⟩
  · rintro ⟨x, hx⟩
    obtain ⟨hmag, hunits⟩ := units_of_value hx
    have habs : (i * (unitsPerOne : ℤ)).natAbs = i.natAbs * unitsPerOne := by
      rw [Int.natAbs_mul, Int.natAbs_natCast]
    have hval := value_ofUnits_of_units (decide (i < 0)) x.mag hmag 1 Nat.one_pos
    rw [Nat.mul_one, hunits, habs] at hval
    unfold ofInt ofRatio
    rw [hval, intValue]
    congr 1
    have hsign : (i.natAbs : ℤ) = if i < 0 then -i else i := by
      split <;> omega
    push_cast
    rw [← Int.natCast_natAbs, hsign]
    by_cases hneg : i < 0
    · simp only [hneg, decide_true, if_true]
      ring
    · simp only [hneg, decide_false, if_false, Bool.false_eq_true]

/-- Integers of 53 bits are values of words. -/
theorem exists_value_eq_natCast {n : ℕ} (hn : n < 2 ^ 53) :
    ∃ mag < infMag, units mag = n * unitsPerOne := by
  by_cases h0 : n = 0
  · refine ⟨0, by norm_num [infMag], ?_⟩
    rw [h0, Nat.zero_mul]
    rfl
  · have hlog : Nat.log2 n ≤ 52 := by
      have := (Nat.log2_lt h0).mpr hn
      omega
    -- the significand of `n`, shifted up to 53 bits
    have hlow : 2 ^ 52 ≤ n * 2 ^ (52 - Nat.log2 n) := by
      calc 2 ^ 52 = 2 ^ (Nat.log2 n) * 2 ^ (52 - Nat.log2 n) := by
            rw [← pow_add]
            congr 1
            omega
        _ ≤ n * 2 ^ (52 - Nat.log2 n) := Nat.mul_le_mul_right _ (Nat.log2_self_le h0)
    have hhigh : n * 2 ^ (52 - Nat.log2 n) < 2 ^ 53 := by
      calc n * 2 ^ (52 - Nat.log2 n) < 2 ^ (Nat.log2 n + 1) * 2 ^ (52 - Nat.log2 n) :=
            Nat.mul_lt_mul_of_pos_right Nat.lt_log2_self (by positivity)
        _ = 2 ^ 53 := by
            rw [← pow_add]
            congr 1
            omega
    refine ⟨(1022 + Nat.log2 n) * 2 ^ 52 + n * 2 ^ (52 - Nat.log2 n), ?_, ?_⟩
    · rw [infMag]
      have : (1022 + Nat.log2 n) * 2 ^ 52 ≤ 1074 * 2 ^ 52 := Nat.mul_le_mul_right _ (by omega)
      omega
    · generalize hm : n * 2 ^ (52 - Nat.log2 n) = m at hlow hhigh ⊢
      have hdiv : ((1022 + Nat.log2 n) * 2 ^ 52 + m) / 2 ^ 52 = 1023 + Nat.log2 n := by omega
      have hmod : 2 ^ 52 + ((1022 + Nat.log2 n) * 2 ^ 52 + m) % 2 ^ 52 = m := by omega
      have hexp : 52 - Nat.log2 n + (1023 + Nat.log2 n - 1) = 1074 := by omega
      have hone : unitsPerOne = 2 ^ (52 - Nat.log2 n) * 2 ^ (1023 + Nat.log2 n - 1) := by
        rw [← pow_add, hexp]
        unfold unitsPerOne
        rfl
      rw [hone, units_of_le _ (by omega), hdiv, hmod, ← hm, Nat.mul_assoc]

/-- An even integer may have one bit more. -/
theorem exists_value_eq_double {m : ℕ} (hm : m < 2 ^ 53) :
    ∃ mag < infMag, units mag = 2 * m * unitsPerOne := by
  obtain ⟨mag, hmag, hunits⟩ := exists_value_eq_natCast hm
  by_cases h0 : m = 0
  · refine ⟨0, by norm_num [infMag], ?_⟩
    rw [h0]
    simp [units]
  · obtain ⟨a, ha, hone⟩ : ∃ a, a = 1074 ∧ unitsPerOne = 2 ^ a := ⟨_, rfl, by unfold unitsPerOne; rfl⟩
    have hle : 2 ^ a ≤ units mag := by
      rw [hunits, hone]
      exact Nat.le_mul_of_pos_left _ (Nat.pos_of_ne_zero h0)
    have hnormal : 2 ^ 52 ≤ mag := by
      by_contra hlt
      have hbig : 2 ^ 52 ≤ 2 ^ a := Nat.pow_le_pow_right (by norm_num) (by omega)
      rw [units_of_lt mag (by omega)] at hle
      omega
    have hnext : units (mag + 2 ^ 52) = 2 * units mag := by
      rw [units_of_le _ (by omega), units_of_le mag hnormal,
        show (mag + 2 ^ 52) / 2 ^ 52 - 1 = (mag / 2 ^ 52 - 1) + 1 by omega,
        show (mag + 2 ^ 52) % 2 ^ 52 = mag % 2 ^ 52 by omega, pow_succ]
      ring
    refine ⟨mag + 2 ^ 52, ?_, by rw [hnext, hunits]; ring⟩
    -- the largest finite words are much larger
    by_contra hge
    have hmono := units_mono (show infMag - 2 ^ 52 ≤ mag by omega)
    obtain ⟨b, hb, hlast⟩ : ∃ b, b = 2045 ∧ units (infMag - 2 ^ 52) = 2 ^ 52 * 2 ^ b := by
      refine ⟨2045, rfl, ?_⟩
      rw [units_of_le _ (by norm_num [infMag])]
      norm_num [infMag]
    have hlt : units mag < 2 ^ (53 + a) := by
      rw [hunits, hone, pow_add]
      exact Nat.mul_lt_mul_of_pos_right hm (by positivity)
    have hpow : 2 ^ (53 + a) ≤ 2 ^ 52 * 2 ^ b := by
      rw [← pow_add]
      exact Nat.pow_le_pow_right (by norm_num) (by omega)
    omega

/-- Conversion is exact on integers of 53 bits. -/
theorem value_ofInt_natCast {n : ℕ} (hn : n < 2 ^ 53) : (ofInt n).value = intValue n := by
  obtain ⟨mag, hmag, hunits⟩ := exists_value_eq_natCast hn
  rw [value_ofInt_iff]
  refine ⟨⟨false, mag, hmag.trans infMag_lt⟩, ?_⟩
  rw [Binary64.value, if_neg (by simp only; omega), if_neg (by simp only; omega), intValue]
  simp only [Bool.false_eq_true, if_false, hunits]
  push_cast
  rfl

/-- The magnitude of a converted integer is at least that of every smaller one that
a word has. -/
theorem le_mag_ofInt {n : ℕ} {i : ℤ} (hn : n < 2 ^ 53) (h : n ≤ i.natAbs) :
    ∃ mag, units mag = n * unitsPerOne ∧ mag ≤ (ofInt i).mag := by
  obtain ⟨mag, hmag, hunits⟩ := exists_value_eq_natCast hn
  refine ⟨mag, hunits, le_magOf hmag.le ?_⟩
  rw [hunits]
  exact Nat.mul_le_mul_right _ h

end Fp
