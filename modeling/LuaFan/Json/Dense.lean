/-
# What the array branch of `encode_table` lets through

A table is taken for an array by its entry at 1 or by its tag, and passes for a
dense one when it has as many keys, all of them numbers, as `lua_rawlen` answers.
`EmitsEntries` says what the text of an array should be: the entries are those at
1, …, n, and the text holds them all.

* `encodeArray_ok_iff`: when the branch writes a text, and which one;
* `array_emits_entries`: **the text holds exactly the entries, unless the table is
  mistaken for a dense one**: a key that is no index makes up for a hole below the
  border, or the `int` counters have wrapped around.
-/
import LuaFan.Json.RoundTrip

namespace LuaFan

open Fp

/-! ## The text of an array -/

/-- The text of an array whose elements have these texts. -/
def arrayText (texts : List (List UInt8)) : List UInt8 :=
  [ascii '['] ++ [ascii ','].intercalate texts ++ [ascii ']']

/-- The table is taken for an array, whatever else it holds. -/
def ArrayLike (T : LuaTable) : Prop :=
  rawGetI T.entries 1 ≠ .nil ∨ T.metatable = some .jsonArray

/-- The entries of the table are those at 1, …, n, and the text is the array of
their texts. -/
def EmitsEntries (enc : LuaValue → Except JsonError (List UInt8)) (T : LuaTable)
    (text : List UInt8) : Prop :=
  ∃ texts : List (List UInt8), DenseKeys T.entries texts.length ∧
    (∀ i, (hi : i < texts.length) →
      ∃ v, (intKey (i + 1 : ℕ), v) ∈ T.entries ∧ enc v = .ok texts[i]) ∧
    text = arrayText texts

/-- A table that passes for a dense array without being one: its keys are numbers,
as many as its border says (both counted in an `int`), and there is a text for
every value up to the border, but the keys are not 1, …, border, or the border
does not fit an `int`. -/
structure MistakenForDense (enc : LuaValue → Except JsonError (List UInt8)) (T : LuaTable) :
    Prop where
  numbers : ∀ e ∈ T.entries, ∃ x, e.1 = .number x
  count : Int32.ofNat T.entries.length = Int32.ofNat T.rawlen
  ends : Int32.ofNat T.rawlen ≠ Int32.maxValue
  elements : ∀ i < writtenCount T.rawlen, ∃ t, enc (rawGetI T.entries (i + 1 : ℕ)) = .ok t
  not_dense : ¬(DenseKeys T.entries T.rawlen ∧ T.rawlen < 2 ^ 31)

/-- A separated list is at least as long as its separators. -/
theorem le_length_intercalate (c : UInt8) (texts : List (List UInt8)) :
    texts.length ≤ ([c].intercalate texts).length + 1 := by
  induction texts with
  | nil => simp
  | cons t texts ih =>
      cases texts with
      | nil => simp
      | cons t' texts =>
          rw [List.intercalate_cons_cons]
          simp only [List.length_cons, List.length_append, List.length_nil] at ih ⊢
          omega

/-- More elements make a longer text. -/
theorem length_intercalate_append (c : UInt8) (as bs : List (List UInt8)) (ha : as ≠ [])
    (hb : bs ≠ []) :
    ([c].intercalate as).length < ([c].intercalate (as ++ bs)).length := by
  induction as with
  | nil => exact absurd rfl ha
  | cons t as ih =>
      cases as with
      | nil =>
          rw [List.singleton_append, List.intercalate_cons_of_ne_nil hb]
          simp only [List.intercalate_singleton, List.length_append, List.length_cons]
          omega
      | cons t' as =>
          have := ih (by simp)
          rw [List.cons_append, List.cons_append, List.intercalate_cons_cons,
            List.intercalate_cons_cons]
          simp only [List.cons_append, List.length_append] at this ⊢
          omega

/-- Two arrays of many elements, one of them cut short, have different texts. -/
theorem arrayText_take_ne {texts : List (List UInt8)} {k : ℕ} (hk : k < texts.length)
    (hlen : 2 ≤ texts.length) : arrayText (texts.take k) ≠ arrayText texts := by
  intro h
  have hlength := congrArg List.length h
  simp only [arrayText, List.length_append, List.length_singleton] at hlength
  cases k with
  | zero =>
      have := le_length_intercalate (ascii ',') texts
      simp only [List.take_zero, List.intercalate_nil, List.length_nil] at hlength
      omega
  | succ k =>
      have hcut := length_intercalate_append (ascii ',') (texts.take (k + 1)) (texts.drop (k + 1))
        (by
          rw [ne_eq, List.take_eq_nil_iff]
          rintro (h0 | rfl)
          · omega
          · simp at hk)
        (by simpa using hk)
      rw [List.take_append_drop] at hcut
      omega

/-! ## The array branch -/

theorem countKeys_ok_iff {es : List (LuaValue × LuaValue)} {n m : Int32} :
    countKeys es n = .ok m
      ↔ (∀ e ∈ es, ∃ x, e.1 = .number x) ∧ m = n + Int32.ofNat es.length := by
  constructor
  · intro h
    have hnum : ∀ e ∈ es, ∃ x, e.1 = .number x := by
      induction es generalizing n with
      | nil => simp
      | cons e es ih =>
          obtain ⟨key, v⟩ := e
          cases key with
          | number x =>
              rw [countKeys] at h
              intro e he
              rcases List.mem_cons.mp he with rfl | he
              · exact ⟨x, rfl⟩
              · exact ih h e he
          | _ => cases h
    rw [countKeys_eq es n hnum] at h
    cases h
    exact ⟨hnum, rfl⟩
  · rintro ⟨hnum, rfl⟩
    exact countKeys_eq es n hnum

section Branch

variable {enc : LuaValue → Except JsonError (List UInt8)}

/-- The elements after the first one, each behind a comma. -/
theorem encodeElements_flatMap {entries : List (LuaValue × LuaValue)} {k : ℕ} :
    ∀ {i : ℕ} {text : List UInt8}, 0 < i → (encodeElements enc entries i k = .ok text
      ↔ ∃ texts : List (List UInt8), texts.length = k ∧
          (∀ j, (hj : j < texts.length) → enc (rawGetI entries (i + j + 1 : ℕ)) = .ok texts[j]) ∧
          text = texts.flatMap (ascii ',' :: ·)) := by
  induction k with
  | zero =>
      intro i text _
      constructor
      · rintro ⟨⟩
        exact ⟨[], rfl, by simp, rfl⟩
      · rintro ⟨texts, hlen, -, rfl⟩
        rw [List.length_eq_zero_iff.mp hlen]
        rfl
  | succ k ih =>
      intro i text hi
      constructor
      · intro h
        obtain ⟨t, more, ht, hmore, rfl⟩ := encodeElements_succ h
        obtain ⟨texts, rfl, htexts, rfl⟩ := (ih (Nat.succ_pos i)).mp hmore
        refine ⟨t :: texts, rfl, ?_, by simp [hi]⟩
        intro j hj
        cases j with
        | zero => exact ht
        | succ j =>
            have := htexts j (by simpa using hj)
            rwa [show i + 1 + j + 1 = i + (j + 1) + 1 by omega] at this
      · rintro ⟨texts, hlen, htexts, rfl⟩
        obtain ⟨t, texts, rfl⟩ := List.exists_cons_of_length_eq_add_one hlen
        have ht := htexts 0 (by simp)
        have hmore : encodeElements enc entries (i + 1 : ℕ) k
            = .ok (texts.flatMap (ascii ',' :: ·)) := (ih (Nat.succ_pos i)).mpr
          ⟨texts, by simpa using hlen, fun j hj => by
            have := htexts (j + 1) (by simpa using hj)
            rwa [show i + (j + 1) + 1 = i + 1 + j + 1 by omega] at this, rfl⟩
        rw [Nat.add_zero, List.getElem_cons_zero] at ht
        rw [encodeElements_step, show ((i : ℤ) + 1) = ((i + 1 : ℕ) : ℤ) by push_cast; rfl, ht, ok_bind,
          hmore, ok_bind, if_pos hi]
        simp

theorem intercalate_cons_flatMap (c : UInt8) (t : List UInt8) (texts : List (List UInt8)) :
    [c].intercalate (t :: texts) = t ++ texts.flatMap (c :: ·) := by
  induction texts generalizing t with
  | nil => simp
  | cons t' texts ih =>
      rw [List.intercalate_cons_cons, ih, List.flatMap_cons]
      simp

/-- **The elements that are written, with a comma between each two.** -/
theorem encodeElements_ok_iff {entries : List (LuaValue × LuaValue)} {k : ℕ} {text : List UInt8} :
    encodeElements enc entries 0 k = .ok text
      ↔ ∃ texts : List (List UInt8), texts.length = k ∧
          (∀ j, (hj : j < texts.length) → enc (rawGetI entries (j + 1 : ℕ)) = .ok texts[j]) ∧
          text = [ascii ','].intercalate texts := by
  cases k with
  | zero =>
      constructor
      · rintro ⟨⟩
        exact ⟨[], rfl, by simp, rfl⟩
      · rintro ⟨texts, hlen, -, rfl⟩
        rw [List.length_eq_zero_iff.mp hlen]
        rfl
  | succ k =>
      constructor
      · intro h
        obtain ⟨t, more, ht, hmore, rfl⟩ := encodeElements_succ h
        obtain ⟨texts, rfl, htexts, rfl⟩ := (encodeElements_flatMap Nat.one_pos).mp hmore
        refine ⟨t :: texts, rfl, ?_, by simp [intercalate_cons_flatMap]⟩
        intro j hj
        cases j with
        | zero => exact ht
        | succ j =>
            have := htexts j (by simpa using hj)
            rwa [Nat.add_comm 1 j] at this
      · rintro ⟨texts, hlen, htexts, rfl⟩
        obtain ⟨t, texts, rfl⟩ := List.exists_cons_of_length_eq_add_one hlen
        have ht := htexts 0 (by simp)
        have hmore : encodeElements enc entries (1 : ℕ) k = .ok (texts.flatMap (ascii ',' :: ·)) :=
          (encodeElements_flatMap Nat.one_pos).mpr
          ⟨texts, by simpa using hlen, fun j hj => by
            have := htexts (j + 1) (by simpa using hj)
            rwa [Nat.add_comm 1 j], rfl⟩
        rw [Nat.zero_add, List.getElem_cons_zero] at ht
        rw [encodeElements_step, show ((0 : ℕ) : ℤ) + 1 = ((1 : ℕ) : ℤ) by norm_num, ht, ok_bind,
          Nat.zero_add, hmore, ok_bind, intercalate_cons_flatMap]
        simp

/-- **When the array branch writes a text, and which one.** -/
theorem encodeArray_ok_iff {T : LuaTable} {text : List UInt8} :
    encodeArray enc T = .ok text
      ↔ (∀ e ∈ T.entries, ∃ x, e.1 = .number x) ∧
        Int32.ofNat T.entries.length = Int32.ofNat T.rawlen ∧
        Int32.ofNat T.rawlen ≠ Int32.maxValue ∧
        ∃ texts : List (List UInt8), texts.length = writtenCount T.rawlen ∧
          (∀ j, (hj : j < texts.length) → enc (rawGetI T.entries (j + 1 : ℕ)) = .ok texts[j]) ∧
          text = arrayText texts := by
  rw [encodeArray_def]
  constructor
  · intro h
    obtain ⟨n, hn, h⟩ := bind_eq_ok h
    obtain ⟨hnum, rfl⟩ := countKeys_ok_iff.mp hn
    rw [Int32.zero_add] at h
    by_cases hcount : Int32.ofNat T.entries.length = Int32.ofNat T.rawlen
    · rw [if_neg (by simp [hcount])] at h
      obtain ⟨inner, hinner, h⟩ := bind_eq_ok h
      obtain ⟨texts, hlen, htexts, rfl⟩ := encodeElements_ok_iff.mp hinner
      by_cases hmax : Int32.ofNat T.rawlen = Int32.maxValue
      · rw [if_pos hmax] at h
        cases h
      · rw [if_neg hmax] at h
        cases h
        exact ⟨hnum, hcount, hmax, texts, hlen, htexts, rfl⟩
    · rw [if_pos hcount] at h
      cases h
  · rintro ⟨hnum, hcount, hmax, texts, hlen, htexts, rfl⟩
    have hinner := encodeElements_ok_iff.mpr ⟨texts, hlen, htexts, rfl⟩
    unfold writtenCount at hinner
    rw [countKeys_ok_iff.mpr ⟨hnum, rfl⟩, ok_bind, Int32.zero_add, if_neg (by simp [hcount]), hinner,
      ok_bind, if_neg hmax]
    rfl

theorem ArrayLike.encodeTable_eq {T : LuaTable} (h : ArrayLike T) (st : JsonState) :
    encodeTable st enc T = encodeArray enc T := by
  have hempty : ¬(¬T.metatable = some .jsonArray ∧ ¬T.metatable = some .jsonObject ∧
      T.entries = []) := by
    rintro ⟨htag, -, hnil⟩
    rcases h with hone | harr
    · apply hone
      simp [rawGetI, rawGet, hnil]
    · exact htag harr
  have hbranch : rawGetI T.entries 1 ≠ .nil ∨ T.metatable = some .jsonArray ∨
      (¬T.metatable = some .jsonObject ∧ T.entries = []) := by
    rcases h with hone | harr
    · exact Or.inl hone
    · exact Or.inr (Or.inl harr)
  rw [encodeTable_def]
  simp only [if_pos hbranch, if_neg hempty]

/-- A dense array whose length fits an `int` is written whole. -/
theorem DenseKeys.emitsEntries {T : LuaTable} (hdense : DenseKeys T.entries T.rawlen)
    (hlt : T.rawlen < 2 ^ 31) {texts : List (List UInt8)}
    (hlen : texts.length = writtenCount T.rawlen)
    (htexts : ∀ j, (hj : j < texts.length) → enc (rawGetI T.entries (j + 1 : ℕ)) = .ok texts[j]) :
    EmitsEntries enc T (arrayText texts) := by
  rw [writtenCount_of_lt hlt] at hlen
  refine ⟨texts, by rwa [hlen], ?_, rfl⟩
  intro i hi
  obtain ⟨v, hv⟩ := hdense.exists_value (show i < T.rawlen by omega)
  have henc := htexts i hi
  rw [T.rawGetI_eq (by omega) hv] at henc
  exact ⟨v, hv, henc⟩

/-- **A text that holds every entry is that of a dense array that fits an `int`.** -/
theorem EmitsEntries.dense {T : LuaTable} {text : List UInt8} (h : EmitsEntries enc T text)
    (htext : encodeArray enc T = .ok text) :
    DenseKeys T.entries T.rawlen ∧ T.rawlen < 2 ^ 31 - 1 := by
  obtain ⟨-, -, hmax, texts, hlen, htexts, rfl⟩ := encodeArray_ok_iff.mp htext
  obtain ⟨texts', hdense, hvalues, heq⟩ := h
  have hrawlen := hdense.rawlen_eq
  have hle := writtenCount_le T.rawlen
  have hshort := writtenCount_lt T.rawlen
  refine ⟨hrawlen ▸ hdense, ?_⟩
  by_contra hlarge
  have hne : T.rawlen ≠ 2 ^ 31 - 1 := by
    intro hlast
    apply hmax
    rw [hlast]
    rfl
  -- the written elements are the first ones of the array
  have htake : texts = texts'.take (writtenCount T.rawlen) := by
    apply List.ext_getElem
    · simp only [hlen, List.length_take]
      omega
    · intro i hi hi'
      obtain ⟨v, hv, henc⟩ := hvalues i (by omega)
      have hwritten := htexts i hi
      rw [T.rawGetI_eq (by have := hdense.1; omega) hv, henc] at hwritten
      rw [List.getElem_take]
      injection hwritten with hwritten
      exact hwritten.symm
  rw [htake] at heq
  exact arrayText_take_ne (by omega) (by omega) heq

/-- There is a text for the elements up to the border if there is one for each. -/
theorem exists_element_texts {T : LuaTable}
    (h : ∀ i < writtenCount T.rawlen, ∃ t, enc (rawGetI T.entries (i + 1 : ℕ)) = .ok t) :
    ∃ texts : List (List UInt8), texts.length = writtenCount T.rawlen ∧
      ∀ j, (hj : j < texts.length) → enc (rawGetI T.entries (j + 1 : ℕ)) = .ok texts[j] := by
  choose t ht using h
  refine ⟨List.ofFn fun i : Fin (writtenCount T.rawlen) => t i i.isLt, by simp, ?_⟩
  intro j hj
  have := ht j (by simpa using hj)
  simpa using this

/-- **Array encoding drops and invents entries exactly for the tables that are
mistaken for dense ones.** -/
theorem array_emits_entries (st : JsonState) (enc : LuaValue → Except JsonError (List UInt8))
    (T : LuaTable) (harr : ArrayLike T) :
    (∀ text, encodeTable st enc T = .ok text → EmitsEntries enc T text) ↔
      ¬MistakenForDense enc T := by
  rw [harr.encodeTable_eq st]
  constructor
  · rintro h ⟨hnum, hcount, hmax, helems, hnot⟩
    obtain ⟨texts, hlen, htexts⟩ := exists_element_texts helems
    have htext : encodeArray enc T = .ok (arrayText texts) :=
      encodeArray_ok_iff.mpr ⟨hnum, hcount, hmax, texts, hlen, htexts, rfl⟩
    obtain ⟨hdense, hlt⟩ := (h _ htext).dense htext
    exact hnot ⟨hdense, by omega⟩
  · intro h text htext
    obtain ⟨hnum, hcount, hmax, texts, hlen, htexts, rfl⟩ := encodeArray_ok_iff.mp htext
    have hdense : DenseKeys T.entries T.rawlen ∧ T.rawlen < 2 ^ 31 := by
      by_contra hnot
      refine h ⟨hnum, hcount, hmax, ?_, hnot⟩
      intro i hi
      exact ⟨_, htexts i (by omega)⟩
    exact hdense.1.emitsEntries hdense.2 hlen htexts

theorem array_emits_entries_sample :
    ArrayLike (sampleHeap.table 0) ∧
      ((∀ text, encodeTable ⟨[], true⟩ (encodeValue ⟨[], true⟩ sampleHeap 1 [0])
          (sampleHeap.table 0) = .ok text →
        EmitsEntries (encodeValue ⟨[], true⟩ sampleHeap 1 [0]) (sampleHeap.table 0) text) ↔
      ¬MistakenForDense (encodeValue ⟨[], true⟩ sampleHeap 1 [0]) (sampleHeap.table 0)) :=
  ⟨Or.inr rfl, array_emits_entries _ _ _ (Or.inr rfl)⟩

end Branch

/-! ## A table that is mistaken -/

/-- One and a half. -/
def oneAndAHalf : LuaValue := .number (.float (ofRatio false 3 2))

/-- The table that `{true, nil, true, [1.5] = true}` makes. -/
def holedTable : LuaTable where
  entries := [(intKey 1, .boolean true), (intKey 3, .boolean true), (oneAndAHalf, .boolean true)]
  rawlen := 3
  metatable := none
  nodup := by decide +kernel
  isKey := by decide +kernel
  normal := by decide +kernel
  ne_nil := by decide +kernel
  border := by
    constructor
    · right
      decide +kernel
    · decide +kernel

/-- The table with a hole is written as `[true,null,true]`: the entry at 1.5 is
dropped, and one at 2 is made up. -/
theorem array_invents_entry :
    ArrayLike holedTable ∧
      jsonEncode ⟨[], true⟩ [holedTable] (.table 0) = .ok (bytesOf "[true,null,true]") ∧
      ¬∃ text, jsonEncode ⟨[], true⟩ [holedTable] (.table 0) = .ok text ∧
        EmitsEntries (encodeValue ⟨[], true⟩ [holedTable] 1 [0]) holedTable text := by
  refine ⟨Or.inl (by decide +kernel), by decide +kernel, ?_⟩
  rintro ⟨text, -, texts, hdense, -⟩
  have hmem : oneAndAHalf ∈ holedTable.entries.map Prod.fst := by simp [holedTable]
  obtain ⟨i, -, hkey⟩ := (hdense.2 oneAndAHalf).mp hmem
  cases hkey

end LuaFan
