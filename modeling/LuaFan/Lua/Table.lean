/-
# Changing Lua tables

Raw equality is equality of normal forms (`rawEq_iff`), so a table is a finite map
from normal keys: `mem_rawset` says what an assignment does to the entries, and
`rawGet_eq_iff` what a lookup answers.
-/
import LuaFan.Lua.Value

namespace LuaFan

open Fp

/-! ## Raw equality and normal forms -/

/-- Words with the same value are equal, zeros and NaNs apart. -/
theorem eq_of_value_eq {x y : Binary64} (h : x.value = y.value) (hnan : x.value ≠ .nan)
    (hzero : x.value ≠ .fin 0) : x = y := by
  obtain ⟨xneg, xmag, hx⟩ := x
  obtain ⟨yneg, ymag, hy⟩ := y
  cases hv : Binary64.value ⟨xneg, xmag, hx⟩ with
  | nan => exact absurd hv hnan
  | negInf =>
      rw [hv] at h
      unfold Binary64.value at hv h
      cases xneg <;> cases yneg <;> simp only [Bool.false_eq_true, if_false, if_true] at hv h <;>
        split at hv <;> split at h <;> grind
  | posInf =>
      rw [hv] at h
      unfold Binary64.value at hv h
      cases xneg <;> cases yneg <;> simp only [Bool.false_eq_true, if_false, if_true] at hv h <;>
        split at hv <;> split at h <;> grind
  | fin z =>
      rw [hv] at h hzero
      obtain ⟨hxinf, hxunits⟩ := units_of_value hv
      obtain ⟨hyinf, hyunits⟩ := units_of_value h.symm
      -- rounding is a left inverse of `units`, so equal units give equal magnitudes
      have hmag : xmag = ymag := by
        have hxr := magOf_units xmag 1 hxinf Nat.one_pos
        have hyr := magOf_units ymag 1 hyinf Nat.one_pos
        simp only at hxunits hyunits
        rw [hxunits] at hxr
        rw [hyunits] at hyr
        rw [← hxr, ← hyr]
      subst hmag
      have hz : z ≠ 0 := by
        rintro rfl
        exact hzero rfl
      unfold Binary64.value at hv h
      cases xneg <;> cases yneg <;> simp only [Bool.false_eq_true, if_false, if_true] at hv h <;>
        grind

namespace LuaNumber

/-- What `toInteger` answers: the integer with the same value. -/
theorem value_of_toInteger {n : LuaNumber} {i : Int64} (h : n.toInteger = some i) :
    n.value = intValue i.toInt := by
  cases n with
  | integer j =>
      cases h
      rfl
  | float x =>
      simp only [toInteger] at h
      split at h
      · rename_i z hz
        split at h
        · rename_i hcond
          obtain ⟨hmod, hlow, hhigh⟩ := hcond
          cases h
          have hdiv : z / unitsPerOne * unitsPerOne = z := by
            have := Int.emod_add_mul_ediv z unitsPerOne
            rw [hmod, Int.zero_add, Int.mul_comm] at this
            exact this
          rw [value, hz, Int64.toInt_ofInt_of_le hlow hhigh, intValue, hdiv]
        · cases h
      · cases h

/-- An integer's value is recognised. -/
theorem toInteger_of_value {n : LuaNumber} {i : Int64} (h : n.value = intValue i.toInt) :
    n.toInteger = some i := by
  have hpos : (0 : ℤ) < unitsPerOne := Int.natCast_pos.mpr unitsPerOne_pos
  cases n with
  | integer j =>
      simp only [value, intValue, Value.fin.injEq] at h
      have hij := Int.eq_of_mul_eq_mul_right hpos.ne' h
      rw [toInteger, Int64.toInt_inj.mp hij]
  | float x =>
      rw [value] at h
      simp only [toInteger, h, intValue]
      rw [Int.mul_ediv_cancel _ hpos.ne', Int.mul_emod_left]
      have hlow := Int64.le_toInt i
      have hhigh := Int64.toInt_lt i
      rw [if_pos ⟨rfl, hlow, hhigh⟩, Int64.ofInt_toInt]

@[simp] theorem value_normal (n : LuaNumber) : n.normal.value = n.value := by
  unfold normal
  split
  · rename_i i h
    exact (value_of_toInteger h).symm
  · rfl

@[simp] theorem normal_normal (n : LuaNumber) : n.normal.normal = n.normal := by
  cases h : n.toInteger with
  | some i =>
      have hn : n.normal = integer i := by rw [normal, h]
      rw [hn, normal, toInteger]
  | none =>
      have hn : n.normal = n := by rw [normal, h]
      rw [hn, hn]

/-- Numbers of one value have one normal form. -/
theorem normal_eq_of_value_eq {a b : LuaNumber} (h : a.value = b.value) (hnan : a.value ≠ .nan) :
    a.normal = b.normal := by
  cases ha : a.toInteger with
  | some i =>
      have hb : b.toInteger = some i := toInteger_of_value (h ▸ value_of_toInteger ha)
      rw [normal, normal, ha, hb]
  | none =>
      have hb : b.toInteger = none := by
        by_contra hne
        obtain ⟨i, hi⟩ := Option.ne_none_iff_exists'.mp hne
        rw [toInteger_of_value (h.trans (value_of_toInteger hi))] at ha
        cases ha
      rw [normal, normal, ha, hb]
      -- neither is an integer: both are floats, and not a zero
      cases a with
      | integer i => cases ha
      | float x =>
          cases b with
          | integer i => cases hb
          | float y =>
              refine congrArg float (eq_of_value_eq h hnan ?_)
              intro hzero
              have : (float x).value = intValue (0 : Int64).toInt := by
                rw [value, hzero, intValue, Int64.toInt_zero, Int.zero_mul]
              rw [toInteger_of_value this] at ha
              cases ha

end LuaNumber

namespace LuaValue

@[simp] theorem normal_normal (v : LuaValue) : v.normal.normal = v.normal := by
  cases v <;> simp [normal]

@[simp] theorem isKey_normal (v : LuaValue) : v.normal.isKey = v.isKey := by
  cases v <;> simp [normal, isKey, LuaNumber.isNan]

/-- **Raw equality of keys is equality of their normal forms.** -/
theorem rawEq_iff (a b : LuaValue) (ha : a.isKey = true) : rawEq a b = true ↔ a.normal = b.normal := by
  cases a with
  | number n =>
      cases b with
      | number m =>
          simp only [isKey, LuaNumber.isNan, Bool.not_eq_true', decide_eq_false_iff_not] at ha
          simp only [rawEq, LuaNumber.isNan, normal, Bool.and_eq_true, Bool.not_eq_true',
            decide_eq_false_iff_not, decide_eq_true_eq, number.injEq]
          constructor
          · rintro ⟨-, h⟩
            exact LuaNumber.normal_eq_of_value_eq h ha
          · intro h
            refine ⟨ha, ?_⟩
            rw [← LuaNumber.value_normal n, h, LuaNumber.value_normal]
      | _ => simp [rawEq, normal]
  | _ => cases b <;> simp [rawEq, normal]

end LuaValue

/-! ## Assignment -/

/-- The entries after an assignment to a normal key: assigning nil removes. -/
def setEntries (entries : List (LuaValue × LuaValue)) (key value : LuaValue) :
    List (LuaValue × LuaValue) :=
  entries.filter (fun e => e.1 ≠ key) ++ (if value = .nil then [] else [(key, value)])

theorem mem_setEntries {entries : List (LuaValue × LuaValue)} {key value : LuaValue}
    {e : LuaValue × LuaValue} :
    e ∈ setEntries entries key value
      ↔ (e ∈ entries ∧ e.1 ≠ key) ∨ (e = (key, value) ∧ value ≠ .nil) := by
  unfold setEntries
  by_cases h : value = .nil <;> simp [h]

theorem nodup_setEntries {entries : List (LuaValue × LuaValue)} (key value : LuaValue)
    (h : (entries.map Prod.fst).Nodup) : ((setEntries entries key value).map Prod.fst).Nodup := by
  unfold setEntries
  have hsub : ((entries.filter fun e => e.1 ≠ key).map Prod.fst).Nodup :=
    h.sublist (List.filter_sublist.map Prod.fst)
  rw [List.map_append, List.nodup_append]
  refine ⟨hsub, ?_, ?_⟩
  · split <;> simp
  · intro a ha b hb
    simp only [List.mem_map, List.mem_filter, decide_eq_true_eq] at ha
    obtain ⟨e, ⟨-, hne⟩, rfl⟩ := ha
    split at hb
    · simp at hb
    · simp only [List.map_cons, List.map_nil, List.mem_singleton] at hb
      rw [hb]
      exact hne

theorem exists_border (entries : List (LuaValue × LuaValue)) :
    ∃ n : ℕ, rawGetI entries (n + 1) = .nil := by
  refine ⟨2 ^ 63, ?_⟩
  unfold rawGetI
  rw [if_neg]
  rintro ⟨-, hlt⟩
  norm_num at hlt

/-- The least border, the length of a table that was built in order. -/
def firstBorder (entries : List (LuaValue × LuaValue)) : ℕ := Nat.find (exists_border entries)

theorem isBorder_firstBorder (entries : List (LuaValue × LuaValue)) :
    IsBorder entries (firstBorder entries) := by
  refine ⟨?_, Nat.find_spec (exists_border entries)⟩
  rcases Nat.eq_zero_or_pos (firstBorder entries) with h | h
  · exact Or.inl h
  · right
    have hmin := Nat.find_min (exists_border entries) (Nat.sub_lt h Nat.one_pos)
    have hcast : ((firstBorder entries - 1 : ℕ) : ℤ) + 1 = firstBorder entries := by omega
    rw [show Nat.find (exists_border entries) = firstBorder entries from rfl, hcast] at hmin
    exact hmin

namespace LuaTable

/-- `lua_newtable`, with the metatable set afterwards. -/
def new (metatable : Option Metatable) : LuaTable where
  entries := []
  rawlen := 0
  metatable := metatable
  nodup := List.nodup_nil
  isKey := by simp
  normal := by simp
  ne_nil := by simp
  border := ⟨Or.inl rfl, by simp [rawGetI, rawGet]⟩

/-- `lua_rawset`. -/
def rawset (T : LuaTable) (key value : LuaValue) (hkey : key.isKey = true) : LuaTable where
  entries := setEntries T.entries key.normal value
  rawlen := firstBorder (setEntries T.entries key.normal value)
  metatable := T.metatable
  nodup := nodup_setEntries _ _ T.nodup
  isKey := by
    intro e he
    rcases mem_setEntries.mp he with ⟨h, -⟩ | ⟨rfl, -⟩
    · exact T.isKey e h
    · rwa [LuaValue.isKey_normal]
  normal := by
    intro e he
    rcases mem_setEntries.mp he with ⟨h, -⟩ | ⟨rfl, -⟩
    · exact T.normal e h
    · exact LuaValue.normal_normal key
  ne_nil := by
    intro e he
    rcases mem_setEntries.mp he with ⟨h, -⟩ | ⟨rfl, h⟩
    · exact T.ne_nil e h
    · exact h
  border := isBorder_firstBorder _

/-- **What an assignment does to the entries.** -/
theorem mem_rawset {T : LuaTable} {key value : LuaValue} {hkey : key.isKey = true}
    {e : LuaValue × LuaValue} :
    e ∈ (T.rawset key value hkey).entries
      ↔ (e ∈ T.entries ∧ e.1 ≠ key.normal) ∨ (e = (key.normal, value) ∧ value ≠ .nil) :=
  mem_setEntries

@[simp] theorem metatable_rawset (T : LuaTable) (key value : LuaValue) (hkey : key.isKey = true) :
    (T.rawset key value hkey).metatable = T.metatable := rfl

@[simp] theorem entries_new (m : Option Metatable) : (new m).entries = [] := rfl

@[simp] theorem metatable_new (m : Option Metatable) : (new m).metatable = m := rfl

/-- Entries with one key have one value. -/
theorem value_unique (T : LuaTable) {key v w : LuaValue} (hv : (key, v) ∈ T.entries)
    (hw : (key, w) ∈ T.entries) : v = w := by
  have := List.inj_on_of_nodup_map T.nodup hv hw rfl
  exact congrArg Prod.snd this

/-- **What a lookup answers.** -/
theorem rawGet_eq_iff (T : LuaTable) (key v : LuaValue) (hv : v ≠ .nil) :
    rawGet T.entries key = v ↔ (key.normal, v) ∈ T.entries := by
  unfold rawGet
  constructor
  · intro h
    split at h
    · rename_i e he
      have hmem := List.mem_of_find?_eq_some he
      have hkey := List.find?_some he
      simp only [decide_eq_true_eq] at hkey
      rwa [← hkey, ← h]
    · exact absurd h.symm hv
  · intro h
    cases hf : T.entries.find? fun e => e.1 = key.normal with
    | none =>
        have := List.find?_eq_none.mp hf _ h
        simp at this
    | some e =>
        have hmem := List.mem_of_find?_eq_some hf
        have hkey := List.find?_some hf
        simp only [decide_eq_true_eq] at hkey
        have he : (key.normal, e.2) ∈ T.entries := by rwa [← hkey]
        exact T.value_unique he h

end LuaTable

/-! ## Integer keys -/

theorem intKey_injOn {i j : ℤ} (hi : -2 ^ 63 ≤ i ∧ i < 2 ^ 63) (hj : -2 ^ 63 ≤ j ∧ j < 2 ^ 63)
    (h : intKey i = intKey j) : i = j := by
  simp only [intKey, LuaValue.number.injEq, LuaNumber.integer.injEq] at h
  have h' := congrArg Int64.toInt h
  rwa [Int64.toInt_ofInt_of_le hi.1 hi.2, Int64.toInt_ofInt_of_le hj.1 hj.2] at h'

theorem intKey_inj {i j : ℕ} (hi : i < 2 ^ 63) (hj : j < 2 ^ 63)
    (h : intKey i = intKey j) : i = j := by
  have hij := intKey_injOn (by omega) (by omega) h
  omega

@[simp] theorem normal_intKey (i : ℤ) : (intKey i).normal = intKey i := rfl

theorem LuaTable.rawGetI_eq {T : LuaTable} {i : ℕ} {v : LuaValue} (hi : i < 2 ^ 63)
    (h : (intKey i, v) ∈ T.entries) : rawGetI T.entries i = v := by
  rw [rawGetI, if_pos ⟨by omega, by exact_mod_cast hi⟩]
  exact (T.rawGet_eq_iff (intKey i) v (T.ne_nil _ h)).mpr h

theorem LuaTable.exists_of_rawGetI {T : LuaTable} {i : ℕ} (h : rawGetI T.entries i ≠ .nil) :
    i < 2 ^ 63 ∧ intKey i ∈ T.entries.map Prod.fst := by
  unfold rawGetI at h
  split at h
  · rename_i hrange
    refine ⟨by exact_mod_cast hrange.2, ?_⟩
    have hmem := (T.rawGet_eq_iff (intKey i) _ h).mp rfl
    exact List.mem_map_of_mem hmem
  · exact absurd rfl h

/-- The keys before the first border are there. -/
theorem LuaTable.exists_of_lt_firstBorder {T : LuaTable} {i : ℕ} (h : i < firstBorder T.entries) :
    i + 1 < 2 ^ 63 ∧ (intKey (i + 1 : ℕ), rawGetI T.entries (i + 1)) ∈ T.entries := by
  have hne : rawGetI T.entries (i + 1) ≠ .nil := Nat.find_min (exists_border T.entries) h
  have hlt : i + 1 < 2 ^ 63 := by
    by_contra hge
    apply hne
    rw [rawGetI, if_neg]
    rintro ⟨-, hlt⟩
    omega
  refine ⟨hlt, ?_⟩
  have hget : rawGetI T.entries (i + 1) = rawGet T.entries (intKey (i + 1 : ℕ)) := by
    rw [rawGetI, if_pos ⟨by omega, by omega⟩]
    rfl
  rw [hget] at hne ⊢
  exact (T.rawGet_eq_iff (intKey (i + 1 : ℕ)) _ hne).mp rfl

/-- The keys up to the first border are some of the keys. -/
theorem LuaTable.firstBorder_subperm (T : LuaTable) :
    ((List.range (firstBorder T.entries)).map fun i => intKey (i + 1 : ℕ)).Subperm
      (T.entries.map Prod.fst) := by
  have hnodup : ((List.range (firstBorder T.entries)).map fun i => intKey (i + 1 : ℕ)).Nodup := by
    refine List.Nodup.map_on ?_ List.nodup_range
    intro i hi j hj hij
    have hi' := (T.exists_of_lt_firstBorder (List.mem_range.mp hi)).1
    have hj' := (T.exists_of_lt_firstBorder (List.mem_range.mp hj)).1
    have := intKey_inj hi' hj' hij
    omega
  have hsub : ((List.range (firstBorder T.entries)).map fun i => intKey (i + 1 : ℕ))
      ⊆ T.entries.map Prod.fst := by
    intro key hkey
    obtain ⟨i, hi, rfl⟩ := List.mem_map.mp hkey
    exact List.mem_map.mpr ⟨_, (T.exists_of_lt_firstBorder (List.mem_range.mp hi)).2, rfl⟩
  exact hnodup.subperm hsub

theorem LuaTable.firstBorder_le_length (T : LuaTable) :
    firstBorder T.entries ≤ T.entries.length := by
  simpa using T.firstBorder_subperm.length_le

/-! ## Heaps -/

/-- The table behind a reference. -/
def LuaHeap.table (H : LuaHeap) (ref : ℕ) : LuaTable := H.getD ref (LuaTable.new none)

theorem LuaHeap.table_append_left (H E : LuaHeap) {ref : ℕ} (h : ref < H.length) :
    LuaHeap.table (H ++ E) ref = H.table ref := by
  unfold LuaHeap.table
  rw [List.getD_append _ _ _ _ h]

/-- A table with a metatable is one of the tables of the heap. -/
theorem LuaHeap.lt_length_of_metatable {H : LuaHeap} {ref : ℕ} {m : Metatable}
    (h : (H.table ref).metatable = some m) : ref < H.length := by
  by_contra hge
  rw [LuaHeap.table, List.getD_eq_default _ _ (by omega)] at h
  simp at h

end LuaFan
