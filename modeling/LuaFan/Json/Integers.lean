/-
# Integers in JSON (`src/json.c`, `encode_number` and `parse_number`)

Numbers are written with 14 significant digits.  An integer that is not beyond 2^53 has up
to 16 of them.

* `json_integers_round_trip`: **an integer is read back, wherever it stands in a value,
  exactly if it has at most 14 significant digits.**
-/
import LuaFan.Json.Spelled

namespace LuaFan

open Fp JsonText

/-! ## Integers as words -/

/-- A word with the sign and the value. -/
theorem value_of_units {x : Binary64} {n : ℕ} (hfin : x.mag < infMag) (h : units x.mag = n * unitsPerOne) :
    x.value = intValue (if x.neg then -(n : ℤ) else n) := by
  rw [Binary64.value, if_neg (show ¬infMag < x.mag by omega), if_neg (show x.mag ≠ infMag by omega), h,
    intValue]
  cases x.neg <;> simp

/-- The conversion of a ratio that a word has. -/
theorem value_ofRatio {n : ℕ} (neg : Bool) (h : ∃ mag < infMag, units mag = n * unitsPerOne) :
    (ofRatio neg n 1).value = intValue (if neg then -(n : ℤ) else n) := by
  obtain ⟨mag, hmag, hunits⟩ := h
  have hround := magOf_units mag 1 hmag Nat.one_pos
  rw [Nat.mul_one, hunits] at hround
  exact value_of_units (x := ofRatio neg n 1) (by simpa [ofRatio, ofUnits, hround] using hmag)
    (by simpa [ofRatio, ofUnits, hround] using hunits)

theorem intValue_inj {i j : ℤ} : intValue i = intValue j ↔ i = j := by
  have hpos := unitsPerOne_pos
  rw [intValue, intValue, Value.fin.injEq, mul_left_inj' (by omega)]

/-- Integers up to 2^53 are values of words. -/
theorem exists_units_of_le {n : ℕ} (hn : n ≤ 2 ^ 53) :
    ∃ mag < infMag, units mag = n * unitsPerOne := by
  rcases Nat.lt_or_eq_of_le hn with hlt | rfl
  · exact exists_value_eq_natCast hlt
  · exact exists_value_eq_double (m := 2 ^ 52) (by norm_num)

/-- **So are they after rounding to 14 digits.** -/
theorem exists_units_roundDigits {n : ℕ} (hn : n ≤ 2 ^ 53) :
    ∃ mag < infMag, units mag = roundDigits 14 n * unitsPerOne := by
  by_cases h : n < 10 ^ 14
  · rw [roundDigits, if_pos h]
    exact exists_units_of_le hn
  · obtain ⟨j, hlow, hhigh, heq⟩ := roundDigits_of_le (not_lt.mp h)
    have hround : roundHalfEven n (10 ^ (j + 1)) ≤ 10 ^ 14 := by
      refine roundHalfEven_le_of_le ?_
      rwa [← pow_add]
    have hj : j ≤ 1 := by
      by_contra hlt
      have : 10 ^ 16 ≤ 10 ^ (14 + j) := Nat.pow_le_pow_right (by norm_num) (by omega)
      omega
    rw [heq, pow_succ, show roundHalfEven n (10 ^ j * 10) * (10 ^ j * 10)
      = 2 * (roundHalfEven n (10 ^ (j + 1)) * (10 ^ j * 5)) by rw [pow_succ]; ring]
    apply exists_value_eq_double
    calc roundHalfEven n (10 ^ (j + 1)) * (10 ^ j * 5) ≤ 10 ^ 14 * (10 ^ 1 * 5) :=
          Nat.mul_le_mul hround (Nat.mul_le_mul_right _ (Nat.pow_le_pow_right (by norm_num) hj))
      _ < 2 ^ 53 := by norm_num

/-- A zero has no value but 0, whatever its sign. -/
@[simp] theorem value_positiveZero (x : Binary64) : (positiveZero x).value = x.value := by
  unfold positiveZero
  split
  · rename_i h
    rw [value_of_units (n := 0) (x := x) (by rw [h]; norm_num [infMag]) (by rw [h]; simp [units]),
      value_ofRatio false ⟨0, by norm_num [infMag], by simp [units]⟩]
    simp
  · rfl

/-- The double of an integer. -/
theorem value_toDouble {x : LuaNumber} {i : ℤ} (hx : x.value = intValue i) (hi : i.natAbs ≤ 2 ^ 53) :
    x.toDouble.value = intValue i := by
  cases x with
  | float w => exact hx
  | integer k =>
      obtain rfl := intValue_inj.mp hx
      obtain ⟨mag, hmag, hunits⟩ := exists_units_of_le hi
      show (ofInt k.toInt).value = _
      rw [value_ofInt_iff]
      refine ⟨⟨decide (k.toInt < 0), mag, hmag.trans infMag_lt⟩, ?_⟩
      rw [value_of_units hmag hunits]
      congr 1
      by_cases hneg : k.toInt < 0
      · simp only [hneg, decide_true, if_true]
        omega
      · simp only [hneg, decide_false, Bool.false_eq_true, if_false]
        omega

/-- The text of an integer is one that is written. -/
theorem encodeNumber_int {x : LuaNumber} {i : ℤ} (hx : x.value = intValue i)
    (hi : i.natAbs ≤ 2 ^ 53) : encodeNumber x = .ok (formatG 14 (positiveZero x.toDouble)) := by
  have hvalue := value_toDouble hx hi
  rw [intValue] at hvalue
  simp only [encodeNumber, hvalue]

/-- **An integer is read back exactly if it has 14 digits.** -/
theorem value_decoded_iff {x : LuaNumber} {i : ℤ} (hx : x.value = intValue i)
    (hi : i.natAbs ≤ 2 ^ 53) {text : List UInt8} (htext : encodeNumber x = .ok text) :
    (decodes.value text).value = intValue i ↔ HasDigits 14 i.natAbs := by
  rw [encodeNumber_int hx hi] at htext
  obtain rfl := Except.ok.inj htext
  have hword := value_toDouble hx hi
  rw [← value_positiveZero] at hword
  obtain ⟨hfin, hunits⟩ := units_of_value hword
  have hzero : cString (formatG 14 (positiveZero x.toDouble)) = formatG 14 (positiveZero x.toDouble) :=
    List.takeWhile_eq_self_iff.mpr fun c hc => by
      simpa using (isNumberByte_free (isNumber_bytes (isNumber_formatG (by norm_num) hfin) c hc)).2
  have hsign : i = if (positiveZero x.toDouble).neg then -(i.natAbs : ℤ) else i.natAbs := by
    rw [← intValue_inj, ← hword]
    exact value_of_units hfin (by rw [hunits, Int.natAbs_mul, Int.natAbs_natCast])
  show (positiveZero (strtod (cString (formatG 14 (positiveZero x.toDouble)))).1).value = _ ↔ _
  rw [value_positiveZero, hzero, strtod_formatG_int (by norm_num) hword,
    value_ofRatio _ (exists_units_roundDigits hi), ← roundDigits_eq_iff (by norm_num), intValue_inj]
  constructor
  · intro h
    have habs := congrArg Int.natAbs h
    split at habs <;> simpa using habs
  · intro h
    rw [h]
    exact hsign.symm

/-! ## Places in a value -/

/-- The value at a place: its key in the table, the key in the table there, and so on. -/
def valueAt (H : LuaHeap) : LuaValue → List LuaValue → LuaValue
  | v, [] => v
  | .table ref, key :: path => valueAt H (rawGet (H.table ref).entries key) path
  | _, _ :: _ => .nil

/-- All tables on the way to a place are arrays and objects. -/
def InContainers (H : LuaHeap) : LuaValue → List LuaValue → Prop
  | .table ref, key :: path =>
      IsContainer (H.table ref) ∧ InContainers H (rawGet (H.table ref).entries key) path
  | _, _ => True

section Places

variable {st : JsonState} {H H' : LuaHeap}

theorem valueAt_cons {v key : LuaValue} {path : List LuaValue} {x : LuaNumber}
    (h : valueAt H v (key :: path) = .number x) :
    ∃ ref u, v = .table ref ∧ (key.normal, u) ∈ (H.table ref).entries ∧
      rawGet (H.table ref).entries key = u ∧ valueAt H u path = .number x := by
  cases v with
  | table ref =>
      refine ⟨ref, _, rfl, ?_, rfl, h⟩
      refine ((H.table ref).rawGet_eq_iff key _ ?_).mp rfl
      intro hnil
      rw [valueAt, hnil] at h
      cases path <;> cases h
  | _ => cases h

/-- What holds a number is not null. -/
theorem Writes.kept {u : LuaValue} {t : Node Binary64} {path : List LuaValue} {x : LuaNumber}
    (h : Writes H u t) (hx : LuaFan.valueAt H u path = .number x) : Kept st t := by
  cases h with
  | null hnull =>
      subst hnull
      cases path <;> cases hx
  | nil => cases path <;> cases hx
  | _ => exact trivial

/-- **A number that is written is read at the same place.** -/
theorem Writes.valueAt {path : List LuaValue} {x : LuaNumber} :
    ∀ {v v' : LuaValue} {t : Node Binary64}, Writes H v t → Shows st H' t v' →
      InContainers H v path → LuaFan.valueAt H v path = .number x →
      ∃ text, encodeNumber x = .ok text ∧
        LuaFan.valueAt H' v' path = .number (.float (decodes.value text)) := by
  induction path with
  | nil =>
      rintro v v' t hwrites hshows - rfl
      cases hwrites with
      | null hnull => cases hnull
      | number htext =>
          cases hshows
          exact ⟨_, htext, rfl⟩
  | cons key path ih =>
      intro v v' t hwrites hshows hin hx
      obtain ⟨ref, u, rfl, hu, hget, hx⟩ := valueAt_cons hx
      obtain ⟨hcont, hin⟩ := hin
      rw [hget] at hin
      obtain ⟨m, items, rfl⟩ : ∃ m items, t = .container m items := by
        cases hwrites with
        | null hnull => cases hnull
        | array => exact ⟨_, _, rfl⟩
        | object => exact ⟨_, _, rfl⟩
      obtain ⟨t', hlast, hwrites'⟩ := hwrites.exists_item hcont hu
      obtain ⟨ref', rfl⟩ : ∃ ref', v' = .table ref' := by
        cases hshows
        exact ⟨_, rfl⟩
      have hkept : Kept st t' := hwrites'.kept hx
      obtain ⟨u', hu', hshows'⟩ := hshows.exists_entry hlast hkept
      have hget' := ((H'.table ref').rawGet_eq_iff key u' (hshows'.ne_nil_iff.mpr hkept)).mpr hu'
      obtain ⟨text, htext, hvalue⟩ := ih hwrites' hshows' hin hx
      refine ⟨text, htext, ?_⟩
      rw [LuaFan.valueAt, hget']
      exact hvalue

end Places

/-! ## The round trip -/

/-- **Integers up to 2^53 survive the round trip exactly if they have at most 14 significant
digits**, alone (at the empty path) or anywhere inside arrays and objects. -/
theorem json_integers_round_trip (st st' : JsonState) (n : ℤ) (hn : n.natAbs ≤ 2 ^ 53)
    (x : LuaNumber) (hx : x.value = intValue n) :
    (∀ H, ∃ text, jsonEncode st H (.number x) = .ok text) ∧
    ∀ H v path, valueAt H v path = .number x → InContainers H v path →
      ∀ text, jsonEncode st H v = .ok text →
        ∃ v' H' y, jsonDecode st' (.string text) = .ok (v', H') ∧
          valueAt H' v' path = .number (.float y) ∧
          (y.value = intValue n ↔ HasDigits 14 n.natAbs) := by
  refine ⟨fun H => ⟨_, encodeNumber_int hx hn⟩, ?_⟩
  intro H v path hpath hin text htext
  obtain ⟨t, hwrites, htree⟩ := jsonEncode_textOf htext
  obtain ⟨v', H', hdecode, hshows⟩ := jsonDecode_textOf st' htree
  obtain ⟨digits, hdigits, hvalue⟩ := hwrites.valueAt hshows hin hpath
  exact ⟨v', H', _, hdecode, hvalue, value_decoded_iff hx hn hdigits⟩

/-- The array `{7}`. -/
def sevenHeap : LuaHeap :=
  [(LuaTable.new none).rawset (intKey 1) (.number (.integer 7)) isKey_one]

theorem json_integers_round_trip_seven :
    (7 : ℤ).natAbs ≤ 2 ^ 53 ∧ (LuaNumber.integer 7).value = intValue 7 ∧
      valueAt sevenHeap (.table 0) [intKey 1] = .number (.integer 7) ∧
      InContainers sevenHeap (.table 0) [intKey 1] ∧
      jsonEncode ⟨[], true⟩ sevenHeap (.table 0) = .ok (bytesOf "[7]") ∧
      ∃ v' H' y, jsonDecode ⟨[], false⟩ (.string (bytesOf "[7]")) = .ok (v', H') ∧
        valueAt H' v' [intKey 1] = .number (.float y) ∧
        (y.value = intValue 7 ↔ HasDigits 14 7) := by
  have hvalue : valueAt sevenHeap (.table 0) [intKey 1] = .number (.integer 7) := by decide +kernel
  have hin : InContainers sevenHeap (.table 0) [intKey 1] :=
    ⟨Or.inl ⟨1, by norm_num, denseKeys_of_map (by norm_num) (by decide +kernel)⟩, trivial⟩
  have htext : jsonEncode ⟨[], true⟩ sevenHeap (.table 0) = .ok (bytesOf "[7]") := by decide +kernel
  exact ⟨by norm_num, rfl, hvalue, hin, htext,
    (json_integers_round_trip ⟨[], true⟩ ⟨[], false⟩ 7 (by norm_num) (.integer 7) rfl).2
      sevenHeap (.table 0) [intKey 1] hvalue hin _ htext⟩

/-- 100000000000001 is written with 14 digits, as `1e+14`, and read as 100000000000000. -/
theorem integer_of_15_digits_changes :
    (100000000000001 : ℤ).natAbs ≤ 2 ^ 53 ∧
      jsonEncode ⟨[], true⟩ [] (.number (.integer 100000000000001)) = .ok (bytesOf "1e+14") ∧
      (jsonDecode ⟨[], true⟩ (.string (bytesOf "1e+14"))).map Prod.fst
        = .ok (.number (.float (ofInt 100000000000000))) ∧
      (ofInt 100000000000000).value ≠ intValue 100000000000001 := by
  refine ⟨by norm_num, by decide +kernel, by decide +kernel, by decide +kernel⟩

end LuaFan
