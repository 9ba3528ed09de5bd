/-
# Encoding what was decoded

Decoding leaves of a container the last item under each key; without null mode it leaves no
nulls.  `Whole` says of a tree that what is left of it is what the encoder takes: finite
numbers, and arrays without a hole whose length an `int` holds.

* `json_reencode`: **what is decoded can be encoded again, and in null mode comes back, exactly
  if the tree of the text is whole.**
-/
import LuaFan.Json.Spelled

namespace LuaFan

open Fp JsonText

/-! ## Trees -/

/-- The item is the last one under its key, and is decoded to something. -/
def Survives (st : JsonState) (m : Bool) (items : List (List UInt8 × Node Binary64))
    (key : LuaValue) (t : Node Binary64) : Prop :=
  lastAt (slots m 0 items) key = some t ∧ Kept st t

/-- The elements that survive are at 1, …, n, and an `int` counter gets past n. -/
def Gapless (st : JsonState) (items : List (List UInt8 × Node Binary64)) : Prop :=
  ∃ n < 2 ^ 31 - 1, ∀ key, (∃ t, Survives st false items key t) ↔ ∃ i < n, key = intKey (i + 1 : ℕ)

/-- What survives of the tree is finite numbers and arrays without holes. -/
inductive Whole (st : JsonState) : Node Binary64 → Prop
  | null : Whole st .null
  | boolean (b : Bool) : Whole st (.boolean b)
  | number {x : Binary64} : x.mag < infMag → Whole st (.number x)
  | string (s : List UInt8) : Whole st (.string s)
  | container {m : Bool} {items : List (List UInt8 × Node Binary64)} :
      (m = false → Gapless st items) → (∀ key t, Survives st m items key t → Whole st t) →
      Whole st (.container m items)

/-- The elements of an array that is not too long survive at their places. -/
theorem survives_array_iff {st : JsonState} {items : List (List UInt8 × Node Binary64)}
    (hlen : items.length < 2 ^ 31 - 1) (key : LuaValue) :
    (∃ t, Survives st false items key t) ↔
      ∃ i item, items[i]? = some item ∧ key = intKey (i + 1 : ℕ) ∧ Kept st item.2 := by
  constructor
  · rintro ⟨t, hlast, hkept⟩
    obtain ⟨i, item, hitem, rfl, rfl⟩ := mem_slots.mp (mem_of_lastAt hlast)
    have hi := (List.getElem?_eq_some_iff.mp hitem).1
    exact ⟨i, item, hitem, by rw [Nat.zero_add, slotKey_array (by omega)], hkept⟩
  · rintro ⟨i, item, hitem, rfl, hkept⟩
    exact ⟨item.2, lastAt_array hlen hitem, hkept⟩

/-- **An array that is not too long has no gap exactly if no null is cleared before an element
that stays.** -/
theorem gapless_iff {st : JsonState} {items : List (List UInt8 × Node Binary64)}
    (hlen : items.length < 2 ^ 31 - 1) :
    Gapless st items ↔ ∀ (i j : ℕ) (a b : List UInt8 × Node Binary64), i < j →
      items[i]? = some a → items[j]? = some b → Kept st b.2 → Kept st a.2 := by
  have hlt : ∀ {i : ℕ} {a : List UInt8 × Node Binary64}, items[i]? = some a → i < items.length :=
    fun h => (List.getElem?_eq_some_iff.mp h).1
  constructor
  · rintro ⟨n, hn, hkeys⟩ i j a b hij ha hb hkept
    have hj := hlt hb
    -- the place of the later one is one of 1, …, n, so that of the earlier one is
    obtain ⟨j', hj', hkey⟩ := (hkeys _).mp ((survives_array_iff hlen _).mpr ⟨j, b, hb, rfl, hkept⟩)
    have hjj := intKey_inj (by omega) (by omega) hkey
    obtain ⟨i', a', ha', hkey', hkept'⟩ :=
      (survives_array_iff hlen _).mp ((hkeys (intKey (i + 1 : ℕ))).mpr ⟨i, by omega, rfl⟩)
    have hi' := hlt ha'
    have hii := intKey_inj (by omega) (by omega) hkey'
    rw [show i = i' by omega, ha'] at ha
    rwa [← Option.some.inj ha]
  · intro h
    classical
    have hbound : ∃ n, ∀ (i : ℕ) (a : List UInt8 × Node Binary64),
        items[i]? = some a → Kept st a.2 → i < n :=
      ⟨items.length, fun i a ha _ => hlt ha⟩
    have hspec := Nat.find_spec hbound
    have hle : Nat.find hbound ≤ items.length := Nat.find_le fun i a ha _ => hlt ha
    refine ⟨Nat.find hbound, by omega, fun key => (survives_array_iff hlen key).trans ?_⟩
    constructor
    · rintro ⟨i, a, ha, rfl, hkept⟩
      exact ⟨i, hspec i a ha hkept, rfl⟩
    · rintro ⟨i, hi, rfl⟩
      -- some element from i on stays, so the one at i does
      have hnot := Nat.find_min hbound hi
      simp only [not_forall, not_lt] at hnot
      obtain ⟨j, b, hb, hkept, hij⟩ := hnot
      have ha : items[i]? = some items[i] := List.getElem?_eq_getElem (by omega)
      refine ⟨i, items[i], ha, rfl, ?_⟩
      rcases Nat.lt_or_eq_of_le hij with hlt' | rfl
      · exact h i j _ b hlt' ha hb hkept
      · rw [ha] at hb
        rwa [Option.some.inj hb]

/-! ## Values -/

/-- The same tables, their entries in any order and their lengths at any border. -/
structure Rearranged (H H' : LuaHeap) : Prop where
  metatable : ∀ ref, (H'.table ref).metatable = (H.table ref).metatable
  mem : ∀ ref e, e ∈ (H'.table ref).entries ↔ e ∈ (H.table ref).entries

theorem Rearranged.refl (H : LuaHeap) : Rearranged H H := ⟨fun _ => rfl, fun _ _ => Iff.rfl⟩

/-- Structural equality, with numbers as they are after formatting. -/
inductive SameFormatted (H H' : LuaHeap) : LuaValue → LuaValue → Prop
  | scalar {v : LuaValue} : (∀ n, v ≠ .number n) → (∀ ref, v ≠ .table ref) → SameFormatted H H' v v
  | number {n : LuaNumber} {text : List UInt8} : encodeNumber n = .ok text →
      SameFormatted H H' (.number n) (.number (.float (decodes.value text)))
  | table {ref ref' : ℕ} : (H'.table ref').metatable = (H.table ref).metatable →
      (∀ key, key ∈ (H'.table ref').entries.map Prod.fst ↔ key ∈ (H.table ref).entries.map Prod.fst) →
      (∀ key v v', (key, v) ∈ (H.table ref).entries → (key, v') ∈ (H'.table ref').entries →
        SameFormatted H H' v v') →
      SameFormatted H H' (.table ref) (.table ref')

/-- The value can be encoded, however its tables are laid out, and in null mode the text is
decoded to the same value. -/
def Reencodes (st : JsonState) (H : LuaHeap) (v : LuaValue) : Prop :=
  ∀ H', Rearranged H H' → ∃ text, jsonEncode st H' v = .ok text ∧
    (st.nullEnabled = true → ∃ v'' H'', jsonDecode st (.string text) = .ok (v'', H'') ∧
      SameFormatted H' H'' v v'')

section Tables

variable {st : JsonState} {H H' : LuaHeap} {m : Bool} {items : List (List UInt8 × Node Binary64)}
  {ref : ℕ} {key : LuaValue}

/-- The keys of a container are those of the items that survive. -/
theorem Shows.mem_keys (h : Shows st H (.container m items) (.table ref)) (key : LuaValue) :
    key ∈ (H.table ref).entries.map Prod.fst ↔ ∃ t, Survives st m items key t := by
  constructor
  · intro hkey
    obtain ⟨e, he, rfl⟩ := List.mem_map.mp hkey
    obtain ⟨t, hlast, hkept, -⟩ := h.exists_item he
    exact ⟨t, hlast, hkept⟩
  · rintro ⟨t, hlast, hkept⟩
    obtain ⟨v, hv, -⟩ := h.exists_entry hlast hkept
    exact List.mem_map_of_mem hv

theorem Rearranged.mem_keys (h : Rearranged H H') (ref : ℕ) (key : LuaValue) :
    key ∈ (H'.table ref).entries.map Prod.fst ↔ key ∈ (H.table ref).entries.map Prod.fst := by
  simp only [List.mem_map, h.mem]

/-- The keys of an object are strings. -/
theorem Shows.keys_string (h : Shows st H (.container true items) (.table ref)) :
    ∀ e ∈ (H.table ref).entries, ∃ s, e.1 = .string s := by
  intro e he
  obtain ⟨t, hlast, -, -⟩ := h.exists_item he
  obtain ⟨j, item, -, hkey, -⟩ := mem_slots.mp (mem_of_lastAt hlast)
  exact ⟨item.1, hkey⟩

/-- Tables with strings for keys that are tagged as objects. -/
theorem objectLike_of_keys {T : LuaTable} (hobj : T.metatable = some .jsonObject)
    (hkeys : ∀ e ∈ T.entries, ∃ s, e.1 = .string s) : ObjectLike T := by
  refine ⟨?_, Or.inr hobj, hkeys⟩
  rintro (hone | harr)
  · obtain ⟨-, hmem⟩ := LuaTable.exists_of_rawGetI (i := 1) hone
    obtain ⟨e, he, hkey⟩ := List.mem_map.mp hmem
    obtain ⟨s, hs⟩ := hkeys e he
    rw [hs] at hkey
    cases hkey
  · rw [hobj] at harr
    cases harr

/-- Arrays are written as arrays, and objects as objects. -/
theorem Shows.arrayLike_iff (hshows : Shows st H (.container m items) (.table ref))
    (hlaid : Rearranged H H') : ArrayLike (H'.table ref) ↔ m = false := by
  have htag : (H'.table ref).metatable = some (tag m) := (hlaid.metatable ref).trans hshows.metatable
  cases m with
  | false => exact iff_of_true (Or.inr htag) rfl
  | true =>
      have hkeys : ∀ e ∈ (H'.table ref).entries, ∃ s, e.1 = .string s := fun e he =>
        hshows.keys_string e ((hlaid.mem ref e).mp he)
      exact iff_of_false (objectLike_of_keys htag hkeys).1 (by simp)

/-- **A container can be encoded when taken alone exactly if it has no gap.** -/
theorem Shows.encodableAlone_iff (hshows : Shows st H (.container m items) (.table ref))
    (hlaid : Rearranged H H') : EncodableAlone st (H'.table ref) ↔ (m = false → Gapless st items) := by
  have hkeys : ∀ key, key ∈ (H'.table ref).entries.map Prod.fst ↔ ∃ t, Survives st m items key t :=
    fun key => (hlaid.mem_keys ref key).trans (hshows.mem_keys key)
  rw [LuaFan.encodableAlone_iff]
  cases m with
  | false =>
      constructor
      · rintro (⟨-, n, hn, hdense⟩ | ⟨hnot, -⟩) -
        · exact ⟨n, hn, fun key => (hkeys key).symm.trans (hdense.2 key)⟩
        · exact absurd ((hshows.arrayLike_iff hlaid).mpr rfl) hnot
      · intro hgapless
        obtain ⟨n, hn, hdense⟩ := hgapless rfl
        exact Or.inl ⟨(hshows.arrayLike_iff hlaid).mpr rfl, n, hn, by omega, fun key =>
          (hkeys key).trans (hdense key)⟩
  | true =>
      refine iff_of_true (Or.inr (objectLike_of_keys ?_ fun e he => ?_)) (by simp)
      · exact (hlaid.metatable ref).trans hshows.metatable
      · exact hshows.keys_string e ((hlaid.mem ref e).mp he)

/-- Tables show containers. -/
theorem Shows.exists_container {t : Node Binary64} (h : Shows st H t (.table ref)) :
    ∃ m items, t = .container m items := by
  cases h with
  | container => exact ⟨_, _, rfl⟩
  | null hnull =>
      rw [nullValue] at hnull
      split at hnull <;> cases hnull

/-- **What is in a container of a whole tree shows a whole tree.** -/
theorem Whole.entry {t : Node Binary64} (hwhole : Whole st t) (hshows : Shows st H t (.table ref))
    {v : LuaValue} (hv : (key, v) ∈ (H.table ref).entries) : ∃ t', Shows st H t' v ∧ Whole st t' := by
  obtain ⟨m, items, rfl⟩ := hshows.exists_container
  obtain ⟨t', hlast, hkept, hshows'⟩ := hshows.exists_item hv
  cases hwhole with
  | container _ hitems => exact ⟨t', hshows', hitems key t' ⟨hlast, hkept⟩⟩

end Tables

/-! ## Whole trees are encoded -/

section Encoding

variable {st : JsonState} {H H' : LuaHeap} {t : Node Binary64} {v : LuaValue} {ref : ℕ}

/-- Below a tree all paths end. -/
theorem Whole.acc (hwhole : Whole st t) (hlaid : Rearranged H H') :
    ∀ ref, Shows st H t (.table ref) → Acc (fun c ref => H'.Holds ref c) ref := by
  induction hwhole with
  | container _ _ ih =>
      intro ref hshows
      constructor
      rintro c ⟨key, hc⟩
      obtain ⟨t', hlast, hkept, hshows'⟩ := hshows.exists_item ((hlaid.mem ref _).mp hc)
      exact ih key t' ⟨hlast, hkept⟩ c hshows'
  | _ =>
      intro ref hshows
      obtain ⟨m, items, ht⟩ := hshows.exists_container
      cases ht

/-- The tables that are reached show whole trees. -/
theorem Whole.reach (hwhole : Whole st t) (hshows : Shows st H t (.table ref))
    (hlaid : Rearranged H H') {ref' : ℕ} (hreach : Relation.ReflTransGen H'.Holds ref ref') :
    ∃ t', Shows st H t' (.table ref') ∧ Whole st t' := by
  induction hreach with
  | refl => exact ⟨t, hshows, hwhole⟩
  | tail _ hstep ih =>
      obtain ⟨t', hshows', hwhole'⟩ := ih
      obtain ⟨key, hmem⟩ := hstep
      exact hwhole'.entry hshows' ((hlaid.mem _ _).mp hmem)

/-- A finite number has a text. -/
theorem encodeNumber_finite {x : Binary64} (hfin : x.mag < infMag) :
    encodeNumber (.float x) = .ok (formatG 14 (positiveZero x)) := by
  have hvalue : x.value = .fin (if x.neg then -(units x.mag) else units x.mag) := by
    rw [Binary64.value, if_neg (by omega), if_neg (by omega)]
  simp only [encodeNumber, LuaNumber.toDouble, hvalue]

/-- Values that are no tables. -/
theorem Whole.encodes_leaf (hwhole : Whole st t) (hshows : Shows st H t v)
    (hleaf : ∀ ref, v ≠ .table ref) (depth : ℕ) (stack : List ℕ) :
    ∃ text, encodeValue st H' depth stack v = .ok text := by
  unfold encodeValue
  by_cases hnull : v = nullSentinel
  · exact ⟨_, if_pos hnull⟩
  · rw [if_neg hnull]
    cases hshows with
    | container => exact absurd rfl (hleaf _)
    | null hv =>
        obtain rfl : v = .nil := by
          rw [nullValue] at hv
          split at hv
          · exact absurd hv hnull
          · exact hv
        exact ⟨_, rfl⟩
    | number x =>
        cases hwhole with
        | number hfin => exact ⟨_, encodeNumber_finite hfin⟩
    | _ => exact ⟨_, rfl⟩

/-- **What shows a whole tree can be encoded.** -/
theorem Whole.encodes (hwhole : Whole st t) (hshows : Shows st H t v) (hlaid : Rearranged H H') :
    ∃ text, jsonEncode st H' v = .ok text := by
  by_cases htable : ∃ ref, v = .table ref
  · obtain ⟨ref, rfl⟩ := htable
    have hgraph : EncodableGraph st H' ref := by
      constructor
      · intro ref' hreach
        obtain ⟨t', hshows', hwhole'⟩ := hwhole.reach hshows hlaid hreach
        obtain ⟨m, items, rfl⟩ := hshows'.exists_container
        cases hwhole' with
        | container hgapless _ => exact (hshows'.encodableAlone_iff hlaid).mpr hgapless
      · intro ref' hreach e he
        obtain ⟨t', hshows', hwhole'⟩ := hwhole.reach hshows hlaid hreach
        obtain ⟨t'', hshows'', hwhole''⟩ := hwhole'.entry hshows' ((hlaid.mem _ _).mp he)
        by_cases hleaf : ∃ r, e.2 = .table r
        · exact Or.inl hleaf
        · exact Or.inr (hwhole''.encodes_leaf hshows'' (fun r hr => hleaf ⟨r, hr⟩) _ _)
    have hacyclic : ¬H'.Cyclic ref :=
      Descent.not_cyclic_of_acc (D := jsonDescent st H') (hwhole.acc hlaid ref hshows)
    obtain ⟨text, htext⟩ := hgraph.encodes_iff.1.mpr hacyclic
    refine ⟨text, ?_⟩
    rw [jsonEncode, encodeValue_eq_run]
    exact htext
  · exact hwhole.encodes_leaf hshows (fun ref hv => htable ⟨ref, hv⟩) _ _

/-! ## What is written comes back -/

/-- A table that can be encoded when taken alone is an array or an object. -/
theorem EncodableAlone.isContainer {T : LuaTable} (h : EncodableAlone st T) : IsContainer T := by
  rcases encodableAlone_iff.mp h with ⟨-, hdense⟩ | ⟨-, -, hkeys⟩
  · exact Or.inl hdense
  · exact Or.inr hkeys

/-- In null mode nothing is cleared. -/
theorem kept_of_nullEnabled (hnull : st.nullEnabled = true) (t : Node Binary64) : Kept st t := by
  cases t with
  | null => exact hnull
  | _ => exact trivial

/-- **In null mode the text of what shows a whole tree is decoded to the same.** -/
theorem Whole.comesBack (hwhole : Whole st t) (hnull : st.nullEnabled = true) (hlaid : Rearranged H H')
    {H'' : LuaHeap} : ∀ {v v'' : LuaValue} {t' : Node Binary64}, Shows st H t v → Writes H' v t' →
      Shows st H'' t' v'' → SameFormatted H' H'' v v'' := by
  have hsentinel : nullValue st = nullSentinel := if_pos hnull
  induction hwhole with
  | null =>
      intro v v'' t' hshows hwrites hback
      cases hshows with
      | null hv =>
          rw [hsentinel] at hv
          subst hv
          cases hwrites with
          | null =>
              cases hback with
              | null hv'' =>
                  rw [hv'', hsentinel]
                  exact .scalar (by simp [nullSentinel]) (by simp [nullSentinel])
  | boolean b =>
      intro v v'' t' hshows hwrites hback
      cases hshows
      cases hwrites with
      | null hv => cases hv
      | boolean =>
          cases hback
          exact .scalar (by simp) (by simp)
  | string s =>
      intro v v'' t' hshows hwrites hback
      cases hshows
      cases hwrites with
      | null hv => cases hv
      | string =>
          cases hback
          exact .scalar (by simp) (by simp)
  | number hfin =>
      intro v v'' t' hshows hwrites hback
      cases hshows
      cases hwrites with
      | null hv => cases hv
      | number htext =>
          cases hback
          exact .number htext
  | @container m items hgapless _ ih =>
      intro v v'' t' hshows hwrites hback
      obtain ⟨ref, rfl⟩ : ∃ ref, v = .table ref := by
        cases hshows
        exact ⟨_, rfl⟩
      have hcont := ((hshows.encodableAlone_iff hlaid).mpr hgapless).isContainer
      -- an array is written as an array, and an object as an object
      obtain ⟨items', rfl⟩ : ∃ items', t' = .container m items' := by
        have harr := hshows.arrayLike_iff hlaid
        cases hwrites with
        | null hv => cases hv
        | array hlike => exact ⟨_, by rw [harr.mp hlike]⟩
        | object hnot =>
            obtain rfl : m = true := by simpa [harr] using hnot
            exact ⟨_, rfl⟩
      obtain ⟨ref'', rfl⟩ : ∃ ref'', v'' = .table ref'' := by
        cases hback
        exact ⟨_, rfl⟩
      refine .table ?_ (fun key => ?_) fun key u u'' hu hu'' => ?_
      · rw [hback.metatable, hlaid.metatable, hshows.metatable]
      · rw [hback.mem_keys]
        constructor
        · rintro ⟨t', hlast, -⟩
          obtain ⟨u, hu, -⟩ := hwrites.exists_entry hcont hlast
          exact List.mem_map_of_mem hu
        · intro hkey
          obtain ⟨e, he, rfl⟩ := List.mem_map.mp hkey
          obtain ⟨t', hlast, -⟩ := hwrites.exists_item hcont he
          exact ⟨t', hlast, kept_of_nullEnabled hnull t'⟩
      · obtain ⟨t₁, hlast₁, hkept₁, hshows₁⟩ := hshows.exists_item ((hlaid.mem ref _).mp hu)
        obtain ⟨t₂, hlast₂, hwrites₂⟩ := hwrites.exists_item hcont hu
        obtain ⟨t₃, hlast₃, -, hback₃⟩ := hback.exists_item hu''
        rw [hlast₂] at hlast₃
        obtain rfl := Option.some.inj hlast₃
        exact ih key t₁ ⟨hlast₁, hkept₁⟩ hshows₁ hwrites₂ hback₃

/-- **What shows a whole tree can be encoded again.** -/
theorem Whole.reencodes (hwhole : Whole st t) (hshows : Shows st H t v) : Reencodes st H v := by
  intro H' hlaid
  obtain ⟨text, htext⟩ := hwhole.encodes hshows hlaid
  refine ⟨text, htext, fun hnull => ?_⟩
  obtain ⟨t', hwrites, htree⟩ := jsonEncode_textOf htext
  obtain ⟨v'', H'', hdecode, hback⟩ := jsonDecode_textOf st htree
  exact ⟨v'', H'', hdecode, hwhole.comesBack hnull hlaid hshows hwrites hback⟩

end Encoding

/-! ## What is encoded was whole -/

section Counting

variable {T : LuaTable}

/-- As many entries as the first border says are those up to it. -/
theorem denseKeys_of_firstBorder (h : T.entries.length ≤ firstBorder T.entries) :
    DenseKeys T.entries (firstBorder T.entries) := by
  have hperm := T.firstBorder_subperm.perm_of_length_le (by simpa using h)
  refine ⟨?_, fun key => ?_⟩
  · by_contra hlarge
    have := (T.exists_of_lt_firstBorder (i := firstBorder T.entries - 1) (by omega)).1
    omega
  · rw [← hperm.mem_iff]
    simp only [List.mem_map, List.mem_range, eq_comm (a := key)]

/-- There are no more entries than keys that they can have. -/
theorem length_le_card {S : Finset ℤ} (hkeys : ∀ e ∈ T.entries, ∃ i ∈ S, e.1 = intKey i) :
    T.entries.length ≤ S.card := by
  have hsub : (T.entries.map Prod.fst).toFinset ⊆ S.image intKey := by
    intro key hkey
    obtain ⟨e, he, rfl⟩ := List.mem_map.mp (List.mem_toFinset.mp hkey)
    obtain ⟨i, hi, hkey⟩ := hkeys e he
    exact Finset.mem_image.mpr ⟨i, hi, hkey.symm⟩
  calc T.entries.length = (T.entries.map Prod.fst).toFinset.card := by
        rw [List.toFinset_card_of_nodup T.nodup, List.length_map]
    _ ≤ (S.image intKey).card := Finset.card_le_card hsub
    _ ≤ S.card := Finset.card_image_le

theorem ofNat_inj_mod {a b : ℕ} (h : Int32.ofNat a = Int32.ofNat b) : a % 2 ^ 32 = b % 2 ^ 32 := by
  have hbits := congrArg (fun x : Int32 => x.toBitVec.toNat) h
  simpa using hbits

/-- **Keys of an `int` that are counted as many as the border are those up to it.** -/
theorem denseKeys_of_counted (hborder : T.rawlen = firstBorder T.entries)
    (hkeys : ∀ e ∈ T.entries, ∃ k : Int32, e.1 = intKey k.toInt)
    (hcount : Int32.ofNat T.entries.length = Int32.ofNat T.rawlen)
    (hmax : Int32.ofNat T.rawlen ≠ Int32.maxValue) : ∃ n < 2 ^ 31 - 1, DenseKeys T.entries n := by
  have hmod := ofNat_inj_mod hcount
  have hle := T.firstBorder_le_length
  rw [hborder] at hmod hmax
  have hrange : ∀ k : Int32, k.toInt ∈ Finset.Ico (-2 ^ 31 : ℤ) (2 ^ 31) := fun k =>
    Finset.mem_Ico.mpr ⟨k.le_toInt, k.toInt_lt⟩
  have hcard : (Finset.Ico (-2 ^ 31 : ℤ) (2 ^ 31)).card = 2 ^ 32 := by
    rw [Int.card_Ico]
    rfl
  -- there are 2^32 values of an `int`, and one less of them are keys when 1 is none
  have hfew : T.entries.length < firstBorder T.entries + 2 ^ 32 := by
    by_cases hzero : firstBorder T.entries = 0
    · have hone : ∀ v, (intKey 1, v) ∉ T.entries := by
        intro v hv
        have hnone := (isBorder_firstBorder T.entries).2
        rw [hzero] at hnone
        have hget := T.rawGetI_eq (i := 1) (by norm_num) (by exact_mod_cast hv)
        rw [show ((1 : ℕ) : ℤ) = (0 : ℕ) + 1 by norm_num, hnone] at hget
        exact T.ne_nil _ hv hget.symm
      have hlen := length_le_card (T := T) (S := (Finset.Ico (-2 ^ 31 : ℤ) (2 ^ 31)).erase 1) (by
        intro e he
        obtain ⟨k, hk⟩ := hkeys e he
        refine ⟨k.toInt, Finset.mem_erase.mpr ⟨fun h1 => ?_, hrange k⟩, hk⟩
        rw [h1] at hk
        exact hone e.2 (by rw [← hk]; exact he))
      rw [Finset.card_erase_of_mem (by simp), hcard] at hlen
      omega
    · have hlen := length_le_card (T := T) (S := Finset.Ico (-2 ^ 31 : ℤ) (2 ^ 31)) (by
        intro e he
        obtain ⟨k, hk⟩ := hkeys e he
        exact ⟨k.toInt, hrange k, hk⟩)
      omega
  have hdense := denseKeys_of_firstBorder (T := T) (by omega)
  refine ⟨_, ?_, hdense⟩
  -- the last key is an `int`, and not the largest one
  by_contra hlarge
  obtain ⟨v, hv⟩ := hdense.exists_value (i := firstBorder T.entries - 1) (by omega)
  obtain ⟨k, hk⟩ := hkeys _ hv
  have hkint := Finset.mem_Ico.mp (hrange k)
  have heq := intKey_injOn (by have := hdense.1; omega) (by omega) hk
  have hlast : firstBorder T.entries = 2 ^ 31 - 1 := by omega
  rw [hlast] at hmax
  exact hmax rfl

end Counting
section Encoded

variable {st : JsonState} {H : LuaHeap}

/-- Items are stored up to the first border. -/
theorem rawlen_store (m : Bool) (items : List (List UInt8 × LuaValue)) :
    ∀ (i : ℕ) (T : LuaTable), T.rawlen = firstBorder T.entries →
      (store m i T items).rawlen = firstBorder (store m i T items).entries := by
  induction items with
  | nil => exact fun _ _ h => h
  | cons item items ih => exact fun i T _ => ih (i + 1) _ rfl

theorem Shows.rawlen {m : Bool} {items : List (List UInt8 × Node Binary64)} {ref : ℕ}
    (h : Shows st H (.container m items) (.table ref)) :
    (H.table ref).rawlen = firstBorder (H.table ref).entries := by
  cases h with
  | container href htable hnames hitems =>
      rw [htable]
      refine rawlen_store m _ 0 _ ?_
      exact ((Nat.find_eq_zero _).mpr (by simp [rawGetI, rawGet])).symm

/-- The keys of an array are values of an `int`. -/
theorem Shows.keys_counter {items : List (List UInt8 × Node Binary64)} {ref : ℕ}
    (h : Shows st H (.container false items) (.table ref)) :
    ∀ e ∈ (H.table ref).entries, ∃ k : Int32, e.1 = intKey k.toInt := by
  intro e he
  obtain ⟨t, hlast, -, -⟩ := h.exists_item he
  obtain ⟨j, item, -, hkey, -⟩ := mem_slots.mp (mem_of_lastAt hlast)
  exact ⟨_, hkey⟩

/-- An array that is written has no gap. -/
theorem Shows.gapless {items : List (List UInt8 × Node Binary64)} {ref : ℕ}
    (hshows : Shows st H (.container false items) (.table ref))
    {enc : LuaValue → Except JsonError (List UInt8)} {text : List UInt8}
    (h : encodeTable st enc (H.table ref) = .ok text) : Gapless st items := by
  have harr := (hshows.arrayLike_iff (.refl H)).mpr rfl
  rw [harr.encodeTable_eq] at h
  obtain ⟨-, hcount, hmax, -⟩ := encodeArray_ok_iff.mp h
  obtain ⟨n, hn, hdense⟩ := denseKeys_of_counted hshows.rawlen hshows.keys_counter hcount hmax
  exact ⟨n, hn, fun key => (hshows.mem_keys key).symm.trans (hdense.2 key)⟩

/-- **What is encoded shows a whole tree.** -/
theorem Shows.whole (depth : ℕ) :
    ∀ (stack : List ℕ) {t : Node Binary64} {v : LuaValue} {text : List UInt8}, Shows st H t v →
      encodeValue st H depth stack v = .ok text → Whole st t := by
  induction depth using Nat.strong_induction_on with
  | h depth ih =>
      intro stack t v text hshows h
      cases t with
      | null => exact .null
      | boolean b => exact .boolean b
      | string s => exact .string s
      | number x =>
          cases hshows
          unfold encodeValue at h
          rw [if_neg (by simp [nullSentinel])] at h
          obtain ⟨⟨z, hz⟩, -⟩ := encodeNumber_ok (n := .float x) h
          exact .number (units_of_value (x := x) hz).1
      | container m items =>
          obtain ⟨ref, rfl⟩ : ∃ ref, v = .table ref := by
            cases hshows
            exact ⟨_, rfl⟩
          obtain ⟨d, rfl, -, htext⟩ := encodeValue_table st H h
          have hgapless : m = false → Gapless st items := by
            rintro rfl
            exact hshows.gapless htext
          have halone := (hshows.encodableAlone_iff (.refl H)).mpr hgapless
          refine .container hgapless fun key t hsurvives => ?_
          obtain ⟨u, hu, hshows'⟩ := hshows.exists_entry hsurvives.1 hsurvives.2
          obtain ⟨text', htext'⟩ := halone.of_ok htext _ hu
          exact ih d (Nat.lt_succ_self d) _ hshows' htext'

end Encoded

/-- **What is decoded can be encoded again exactly if the tree of the text is whole.** -/
theorem json_reencode (st : JsonState) (s : List UInt8) :
    (∀ v H, jsonDecode st (.string s) = .ok (v, H) → Reencodes st H v) ↔
      ∀ t, TextOf decodes t s → Whole st t := by
  constructor
  · intro h t htree
    obtain ⟨v, H, hdecode, hshows⟩ := jsonDecode_textOf st htree
    obtain ⟨text, htext, -⟩ := h v H hdecode H (.refl H)
    exact hshows.whole _ _ htext
  · intro h v H hdecode
    obtain ⟨t, htree⟩ := exists_textOf hdecode
    obtain ⟨v', H', hdecode', hshows⟩ := jsonDecode_textOf st htree
    rw [hdecode] at hdecode'
    cases hdecode'
    exact (h t htree).reencodes hshows

/-- 1e999 is decoded to infinity, and without null mode [null,1] to an array with a hole. -/
theorem overflow_not_reencoded :
    (jsonDecode ⟨[], true⟩ (.string (bytesOf "1e999"))).isOk = true ∧
      ¬(∀ v H, jsonDecode ⟨[], true⟩ (.string (bytesOf "1e999")) = .ok (v, H) → Reencodes ⟨[], true⟩ H v) ∧
      (jsonDecode ⟨[], false⟩ (.string (bytesOf "[null,1]"))).isOk = true ∧
      ¬(∀ v H, jsonDecode ⟨[], false⟩ (.string (bytesOf "[null,1]")) = .ok (v, H) →
        Reencodes ⟨[], false⟩ H v) := by
  have hnumber : ∃ v H, jsonDecode ⟨[], true⟩ (.string (bytesOf "1e999")) = .ok (v, H) ∧
      jsonEncode ⟨[], true⟩ H v = .error (bytesOf "unexpected number value 'inf'") :=
    ⟨_, _, rfl, by decide +kernel⟩
  have harray : ∃ v H, jsonDecode ⟨[], false⟩ (.string (bytesOf "[null,1]")) = .ok (v, H) ∧
      jsonEncode ⟨[], false⟩ H v = .error (bytesOf "invalid table: sparse array") :=
    ⟨_, _, rfl, by decide +kernel⟩
  refine ⟨by decide +kernel, fun h => ?_, by decide +kernel, fun h => ?_⟩
  · obtain ⟨v, H, hdecode, hencode⟩ := hnumber
    obtain ⟨text, htext, -⟩ := h v H hdecode H (.refl H)
    rw [hencode] at htext
    cases htext
  · obtain ⟨v, H, hdecode, hencode⟩ := harray
    obtain ⟨text, htext, -⟩ := h v H hdecode H (.refl H)
    rw [hencode] at htext
    cases htext

end LuaFan
