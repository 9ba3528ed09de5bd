/-
# What `json_encode` writes

`Writes H v t` says that the tree `t` is what the encoder makes of the value `v`: the
elements of an array from 1 to its length, the entries of an object in the order of
`lua_next`, and numbers as they are after formatting.

* `encodeValue_spells`: **the text of a value spells its tree.**
-/
import LuaFan.Json.Tree
import LuaFan.Json.Cycles
import LuaFan.Lib.Decimal

namespace LuaFan

open Fp JsonText

/-! ## Numbers -/

theorem mag_positiveZero {x : Binary64} {z : ℤ} (h : x.value = .fin z) :
    (positiveZero x).mag < infMag := by
  unfold positiveZero
  split
  · exact by norm_num [ofRatio, ofUnits, magOf, infMag, roundHalfEven]
  · exact (units_of_value h).1

/-- The numbers that are written, and their texts. -/
theorem encodeNumber_ok {n : LuaNumber} {text : List UInt8} (h : encodeNumber n = .ok text) :
    (∃ z, n.toDouble.value = .fin z) ∧ text = formatG 14 (positiveZero n.toDouble) := by
  unfold encodeNumber at h
  cases hvalue : n.toDouble.value with
  | fin z =>
      simp only [hvalue] at h
      exact ⟨⟨z, rfl⟩, (Except.ok.inj h).symm⟩
  | _ =>
      simp only [hvalue] at h
      cases h

/-- The text of a number is one that is decoded. -/
theorem decodedNumber_encodeNumber {n : LuaNumber} {text : List UInt8}
    (h : encodeNumber n = .ok text) : decodedNumber text = true := by
  obtain ⟨⟨z, hz⟩, rfl⟩ := encodeNumber_ok h
  have hfin := mag_positiveZero hz
  have hlen := length_formatG_le (by norm_num : 0 < 14) hfin
  exact decodedNumber_isNumber (isNumber_formatG (by norm_num) hfin) (by omega)

/-! ## Values -/

/-- The tree that is written for a value. -/
inductive Writes (H : LuaHeap) : LuaValue → Node Binary64 → Prop
  | null {v : LuaValue} : v = nullSentinel → Writes H v .null
  | nil : Writes H .nil .null
  | boolean (b : Bool) : Writes H (.boolean b) (.boolean b)
  | number {n : LuaNumber} {text : List UInt8} : encodeNumber n = .ok text →
      Writes H (.number n) (.number (decodes.value text))
  | string (s : List UInt8) : Writes H (.string s) (.string s)
  | array {ref : ℕ} {items : List (List UInt8 × Node Binary64)} :
      ArrayLike (H.table ref) → (∀ e ∈ (H.table ref).entries, ∃ x, e.1 = .number x) →
      items.length = writtenCount (H.table ref).rawlen →
      (∀ i item, items[i]? = some item →
        Writes H (rawGetI (H.table ref).entries (i + 1 : ℕ)) item.2) →
      Writes H (.table ref) (.container false items)
  | object {ref : ℕ} {items : List (List UInt8 × Node Binary64)} : ¬ArrayLike (H.table ref) →
      (H.table ref).entries.map Prod.fst = items.map (fun item => .string item.1) →
      (∀ q ∈ (H.table ref).entries.zip items, Writes H q.1.2 q.2.2) →
      Writes H (.table ref) (.container true items)

/-- The text stands for what is written for the value. -/
def SpelledAs (H : LuaHeap) (v : LuaValue) (text : List UInt8) : Prop :=
  ∃ t, Writes H v t ∧ ∀ r, Spells decodes (.one false) [([], t)] (text ++ r) r

theorem quotedAs_encodeString (s r : List UInt8) : QuotedAs decodes s (encodeString s ++ r) r := by
  have hparse := parseString_encodeString ⟨⟨[], true⟩, []⟩ s r
  obtain ⟨ps, hvalid, hpaired, htext, rfl⟩ := (parseString_ok_iff _).mp hparse
  exact ⟨ps, hvalid, hpaired, by simpa [literal] using htext, rfl⟩

section Tables

variable {st : JsonState} {H : LuaHeap} {enc : LuaValue → Except JsonError (List UInt8)} {ref : ℕ}
  {text : List UInt8}

/-- The text of a member. -/
def memberText (q : List UInt8 × List UInt8) : List UInt8 := encodeString q.1 ++ ascii ':' :: q.2

/-- The members of an object, with a comma between each two. -/
theorem encodeMembers_texts {es : List (LuaValue × LuaValue)} :
    ∀ {first : Bool} {text : List UInt8}, encodeMembers enc es first = .ok text →
      ∃ members : List (List UInt8 × List UInt8), es.map Prod.fst = members.map (fun q => .string q.1) ∧
        (∀ q ∈ es.zip members, enc q.1.2 = .ok q.2.2) ∧
        text = if first then
            [ascii ','].intercalate (members.map memberText)
          else (members.map memberText).flatMap (ascii ',' :: ·) := by
  induction es with
  | nil =>
      rintro first text ⟨⟩
      exact ⟨[], rfl, by simp, by cases first <;> rfl⟩
  | cons e es ih =>
      intro first text h
      obtain ⟨s, t, more, hkey, ht, hmore, rfl⟩ :=
        encodeMembers_cons (keys_of_encodeMembers h e List.mem_cons_self) h
      obtain ⟨members, hkeys, htexts, rfl⟩ := ih hmore
      refine ⟨(s, t) :: members, ?_, ?_, ?_⟩
      · rw [List.map_cons, List.map_cons, hkeys, hkey]
      · rw [List.zip_cons_cons]
        exact List.forall_mem_cons.mpr ⟨ht, htexts⟩
      · rw [List.map_cons]
        cases first
        · simp [memberText]
        · simp [memberText, intercalate_cons_flatMap]

/-- **An array is spelled element by element.** -/
theorem spelledAs_array (harr : ArrayLike (H.table ref))
    (henc : ∀ v t, enc v = .ok t → SpelledAs H v t) (h : encodeArray enc (H.table ref) = .ok text) :
    SpelledAs H (.table ref) text := by
  obtain ⟨hnum, -, -, texts, hlen, htexts, rfl⟩ := encodeArray_ok_iff.mp h
  have hspelled : ∀ i : Fin texts.length, SpelledAs H
      (rawGetI (H.table ref).entries (i.val + 1 : ℕ)) texts[i] :=
    fun i => henc _ _ (htexts i.val i.isLt)
  choose node hwrites hspells using hspelled
  refine ⟨.container false (List.ofFn fun i => ([], node i)), .array harr hnum (by simp [hlen]) ?_, ?_⟩
  · intro i item hitem
    rw [List.getElem?_ofFn] at hitem
    split at hitem
    · rename_i hi
      cases hitem
      exact hwrites ⟨i, hi⟩
    · cases hitem
  · intro r
    have hitems : ∀ q ∈ texts.zip (List.ofFn fun i => (([] : List UInt8), node i)), ∀ r,
        Spells decodes (.one false) [q.2] (q.1 ++ r) r := by
      intro q hq r
      obtain ⟨i, hi, rfl⟩ := List.mem_iff_getElem.mp hq
      simp only [List.length_zip, List.length_ofFn] at hi
      rw [List.getElem_zip, List.getElem_ofFn]
      exact hspells ⟨i, by omega⟩ r
    have hcontainer := spells_container (m := false) (by simp) hitems r
    simpa [arrayText, opening, closing] using hcontainer

theorem exists_members {es : List (LuaValue × LuaValue)} :
    ∀ {members : List (List UInt8 × List UInt8)},
      es.map Prod.fst = members.map (fun q => .string q.1) →
      (∀ q ∈ es.zip members, SpelledAs H q.1.2 q.2.2) →
      ∃ items : List (List UInt8 × Node Binary64), items.length = members.length ∧
        es.map Prod.fst = items.map (fun item => .string item.1) ∧
        (∀ q ∈ es.zip items, Writes H q.1.2 q.2.2) ∧
        ∀ q ∈ (members.map memberText).zip items, ∀ r,
          Spells decodes (.one true) [q.2] (q.1 ++ r) r := by
  induction es with
  | nil =>
      intro members hkeys _
      obtain rfl : members = [] := List.map_eq_nil_iff.mp hkeys.symm
      exact ⟨[], rfl, rfl, by simp, by simp⟩
  | cons e es ih =>
      intro members hkeys hspelled
      cases members with
      | nil => cases hkeys
      | cons q members =>
          rw [List.map_cons, List.map_cons, List.cons.injEq] at hkeys
          rw [List.zip_cons_cons, List.forall_mem_cons] at hspelled
          obtain ⟨t, hwrites, hspells⟩ := hspelled.1
          obtain ⟨items, hlen, hnames, hall, htexts⟩ := ih hkeys.2 hspelled.2
          refine ⟨(q.1, t) :: items, by simp [hlen], ?_, ?_, ?_⟩
          · rw [List.map_cons, List.map_cons, hnames, hkeys.1]
          · rw [List.zip_cons_cons]
            exact List.forall_mem_cons.mpr ⟨hwrites, hall⟩
          · rw [List.map_cons, List.zip_cons_cons]
            refine List.forall_mem_cons.mpr ⟨fun r => ?_, htexts⟩
            show Spells decodes (.one true) [(q.1, t)] (memberText q ++ r) r
            rw [memberText, List.append_assoc, List.cons_append]
            exact .member (quotedAs_encodeString q.1 _) (ws_refl _) (ws_refl _) (hspells r)

/-- **An object is spelled entry by entry.** -/
theorem spelledAs_object (hobj : ¬ArrayLike (H.table ref))
    (henc : ∀ v t, enc v = .ok t → SpelledAs H v t) {inner : List UInt8}
    (h : encodeMembers enc (H.table ref).entries true = .ok inner) :
    SpelledAs H (.table ref) ([ascii '\x7b'] ++ inner ++ [ascii '\x7d']) := by
  obtain ⟨members, hkeys, htexts, rfl⟩ := encodeMembers_texts h
  obtain ⟨items, hlen, hnames, hwrites, hspells⟩ :=
    exists_members hkeys fun q hq => henc _ _ (htexts q hq)
  refine ⟨.container true items, .object hobj hnames hwrites, fun r => ?_⟩
  have hcontainer := spells_container (m := true) (by rw [List.length_map, hlen]) hspells r
  rw [if_pos rfl, List.singleton_append, List.cons_append, List.cons_append, List.append_assoc]
  exact hcontainer

end Tables

section Encoding

variable {st : JsonState} {H : LuaHeap}

/-- Values that are no tables. -/
theorem encodeValue_spells_leaf {depth : ℕ} {stack : List ℕ} {v : LuaValue} {text : List UInt8}
    (h : encodeValue st H depth stack v = .ok text) (hv : ∀ ref, v ≠ .table ref) :
    SpelledAs H v text := by
  unfold encodeValue at h
  by_cases hnull : v = nullSentinel
  · rw [if_pos hnull] at h
    cases h
    exact ⟨.null, .null hnull, fun r => .literal (Or.inr (Or.inr ⟨rfl, rfl⟩))⟩
  · rw [if_neg hnull] at h
    cases v with
    | nil =>
        cases h
        exact ⟨.null, .nil, fun r => .literal (Or.inr (Or.inr ⟨rfl, rfl⟩))⟩
    | boolean b =>
        cases h
        refine ⟨.boolean b, .boolean b, fun r => .literal ?_⟩
        cases b
        · exact Or.inr (Or.inl ⟨rfl, rfl⟩)
        · exact Or.inl ⟨rfl, rfl⟩
    | number n => exact ⟨_, .number h, fun r => .number (decodedNumber_encodeNumber h)⟩
    | string s =>
        cases h
        exact ⟨.string s, .string s, fun r => .string (quotedAs_encodeString s r)⟩
    | table ref => exact absurd rfl (hv ref)
    | other => cases h

/-- **The text of a value spells what is written for it.** -/
theorem encodeValue_spells (depth : ℕ) :
    ∀ (stack : List ℕ) (v : LuaValue) (text : List UInt8),
      encodeValue st H depth stack v = .ok text → SpelledAs H v text := by
  induction depth with
  | zero =>
      intro stack v text h
      exact encodeValue_spells_leaf h (by
        rintro ref rfl
        obtain ⟨d, hd, -⟩ := encodeValue_table st H h
        cases hd)
  | succ depth ih =>
      intro stack v text h
      by_cases htable : ∃ ref, v = .table ref
      · obtain ⟨ref, rfl⟩ := htable
        obtain ⟨d, hd, -, htext⟩ := encodeValue_table st H h
        obtain rfl : depth = d := Nat.succ.inj hd
        by_cases harr : ArrayLike (H.table ref)
        · rw [harr.encodeTable_eq] at htext
          exact spelledAs_array harr (ih _) htext
        · obtain ⟨-, inner, hinner, rfl⟩ := encodeTable_object_ok harr htext
          exact spelledAs_object harr (ih _) hinner
      · exact encodeValue_spells_leaf h fun ref hv => htable ⟨ref, hv⟩

/-- A text of a whole value. -/
theorem jsonEncode_textOf {v : LuaValue} {text : List UInt8} (h : jsonEncode st H v = .ok text) :
    ∃ t, Writes H v t ∧ TextOf decodes t text := by
  obtain ⟨t, hwrites, hspells⟩ := encodeValue_spells _ _ _ _ h
  refine ⟨t, hwrites, text, [], ws_refl _, ?_, ws_refl _⟩
  have hnil := hspells []
  rwa [List.append_nil] at hnil

end Encoding

/-! ## Entries and items -/

/-- The table is an array that is not too long, or an object. -/
def IsContainer (T : LuaTable) : Prop :=
  (∃ n < 2 ^ 31 - 1, DenseKeys T.entries n) ∨ ∀ e ∈ T.entries, ∃ s, e.1 = .string s

section Items

variable {H : LuaHeap} {ref : ℕ} {m : Bool} {items : List (List UInt8 × Node Binary64)}
  {key : LuaValue}

/-- An array with entries is dense. -/
theorem IsContainer.dense {T : LuaTable} (h : IsContainer T)
    (hnum : ∀ e ∈ T.entries, ∃ x, e.1 = .number x) : ∃ n < 2 ^ 31 - 1, DenseKeys T.entries n := by
  rcases h with hdense | hstr
  · exact hdense
  · refine ⟨0, by norm_num, by norm_num, fun key => ⟨?_, ?_⟩⟩
    · intro hkey
      obtain ⟨e, he, rfl⟩ := List.mem_map.mp hkey
      obtain ⟨x, hx⟩ := hnum e he
      obtain ⟨s, hs⟩ := hstr e he
      rw [hx] at hs
      cases hs
    · rintro ⟨i, hi, -⟩
      omega

/-- The entry at the place of a member. -/
theorem exists_entry_at {es : List (LuaValue × LuaValue)}
    (hnames : es.map Prod.fst = items.map fun item => .string item.1)
    (hwrites : ∀ q ∈ es.zip items, Writes H q.1.2 q.2.2) {i : ℕ} {item : List UInt8 × Node Binary64}
    (hitem : items[i]? = some item) :
    ∃ u, es[i]? = some (.string item.1, u) ∧ Writes H u item.2 := by
  have hkey : (es.map Prod.fst)[i]? = some (.string item.1) := by
    rw [hnames, List.getElem?_map, hitem]
    rfl
  rw [List.getElem?_map, Option.map_eq_some_iff] at hkey
  obtain ⟨⟨key, u⟩, hentry, rfl⟩ := hkey
  exact ⟨u, hentry, hwrites ((_, u), item)
    (List.mem_iff_getElem?.mpr ⟨i, List.getElem?_zip_eq_some.mpr ⟨hentry, hitem⟩⟩)⟩

/-- **The last items of what is written are entries.** -/
theorem Writes.exists_entry (h : Writes H (.table ref) (.container m items))
    (hcont : IsContainer (H.table ref)) {t : Node Binary64}
    (hlast : lastAt (slots m 0 items) key = some t) :
    ∃ u, (key, u) ∈ (H.table ref).entries ∧ Writes H u t := by
  obtain ⟨i, item, hitem, rfl, rfl⟩ := mem_slots.mp (mem_of_lastAt hlast)
  rw [Nat.zero_add]
  cases h with
  | array harr hnum hlen helems =>
      obtain ⟨n, hn, hdense⟩ := hcont.dense hnum
      have hi := (List.getElem?_eq_some_iff.mp hitem).1
      rw [hdense.rawlen_eq, writtenCount_of_lt (by omega)] at hlen
      obtain ⟨u, hu⟩ := hdense.exists_value (show i < n by omega)
      rw [slotKey_array (by omega)]
      refine ⟨u, hu, ?_⟩
      have hwrites := helems i item hitem
      rwa [LuaTable.rawGetI_eq (by omega) hu] at hwrites
  | object hnot hnames hwrites =>
      obtain ⟨u, hentry, hu⟩ := exists_entry_at hnames hwrites hitem
      exact ⟨u, List.mem_of_getElem? hentry, hu⟩

/-- **Entries are the last items of what is written.** -/
theorem Writes.exists_item (h : Writes H (.table ref) (.container m items))
    (hcont : IsContainer (H.table ref)) {u : LuaValue} (hu : (key, u) ∈ (H.table ref).entries) :
    ∃ t, lastAt (slots m 0 items) key = some t ∧ Writes H u t := by
  cases h with
  | array harr hnum hlen helems =>
      obtain ⟨n, hn, hdense⟩ := hcont.dense hnum
      rw [hdense.rawlen_eq, writtenCount_of_lt (by omega)] at hlen
      obtain ⟨i, hi, rfl⟩ := (hdense.2 key).mp (List.mem_map_of_mem hu)
      obtain ⟨item, hitem⟩ : ∃ item, items[i]? = some item :=
        ⟨_, List.getElem?_eq_getElem (show i < items.length by omega)⟩
      refine ⟨item.2, lastAt_array (by omega) hitem, ?_⟩
      have hwrites := helems i item hitem
      rwa [LuaTable.rawGetI_eq (by omega) hu] at hwrites
  | object hnot hnames hwrites =>
      obtain ⟨i, hentry⟩ := List.mem_iff_getElem?.mp hu
      have hi := (List.getElem?_eq_some_iff.mp hentry).1
      have hlen : (H.table ref).entries.length = items.length := by
        simpa using congrArg List.length hnames
      obtain ⟨item, hitem⟩ : ∃ item, items[i]? = some item :=
        ⟨_, List.getElem?_eq_getElem (show i < items.length by omega)⟩
      obtain ⟨u', hentry', hu'⟩ := exists_entry_at hnames hwrites hitem
      rw [hentry] at hentry'
      cases hentry'
      refine ⟨item.2, lastAt_of_mem ?_ (mem_slots.mpr ⟨i, item, hitem, rfl, rfl⟩), hu'⟩
      -- the keys are distinct, so there is one item of the name
      intro b hb
      obtain ⟨j, item', hitem', hname, rfl⟩ := mem_slots.mp hb
      obtain ⟨u'', hentry'', -⟩ := exists_entry_at hnames hwrites hitem'
      have hkeys : ((H.table ref).entries.map Prod.fst)[i]?
          = ((H.table ref).entries.map Prod.fst)[j]? := by
        rw [List.getElem?_map, List.getElem?_map, hentry, hentry'']
        exact congrArg some hname
      have hij := (List.getElem?_inj (by simpa using hi) (H.table ref).nodup).mp hkeys
      rw [← hij, hitem] at hitem'
      rw [Option.some.inj hitem']

end Items

end LuaFan
