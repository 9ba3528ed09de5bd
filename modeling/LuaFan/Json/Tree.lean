/-
# Values as trees (`src/json.c`, decode)

`Shows st H t v` says that the value `v` with the tables of `H` is what `json_decode` makes
of the tree `t`: its items are stored one after the other, so that a later item takes the
place of an earlier one with the same key, and a null clears it unless null mode is on.

* `jsonDecode_textOf`: **a text is decoded to what its tree shows.**
-/
import LuaFan.Json.Literal
import LuaFan.Json.Reading
import LuaFan.Lib.JsonTree

namespace LuaFan

open Fp JsonText

/-- What `json_decode` reads, and what it takes strings and numbers for. -/
def decodes : Meaning Binary64 where
  toDialect := decoded
  text := written
  value w := positiveZero (strtod (cString w)).1

/-! ## Storing items -/

/-- The key of the item at place `i`. -/
def slotKey (m : Bool) (i : ℕ) (key : List UInt8) : LuaValue :=
  if m then .string key else counterKey (Int32.ofNat (i + 1))

theorem isKey_slotKey (m : Bool) (i : ℕ) (key : List UInt8) : (slotKey m i key).isKey = true := by
  cases m <;> rfl

@[simp] theorem normal_slotKey (m : Bool) (i : ℕ) (key : List UInt8) :
    (slotKey m i key).normal = slotKey m i key := by
  cases m <;> rfl

/-- The table after storing the items from place `i` on. -/
def store (m : Bool) : ℕ → LuaTable → List (List UInt8 × LuaValue) → LuaTable
  | _, T, [] => T
  | i, T, (key, v) :: items =>
      store m (i + 1) (T.rawset (slotKey m i key) v (isKey_slotKey m i key)) items

section Slots

variable {α β : Type}

/-- The items from place `i` on, under their keys. -/
def slots (m : Bool) : ℕ → List (List UInt8 × α) → List (LuaValue × α)
  | _, [] => []
  | i, (key, a) :: items => (slotKey m i key, a) :: slots m (i + 1) items

/-- The last item under a key. -/
def lastAt : List (LuaValue × α) → LuaValue → Option α
  | [], _ => none
  | (key, a) :: slots, x => (lastAt slots x).or (if key = x then some a else none)

/-- Items of the same names are the last ones of the same keys. -/
theorem lastAt_zip {m : Bool} {items : List (List UInt8 × α)} :
    ∀ {i : ℕ} {stored : List (List UInt8 × β)}, stored.map Prod.fst = items.map Prod.fst →
      ∀ key, (lastAt (slots m i items) key = none ∧ lastAt (slots m i stored) key = none) ∨
        ∃ q ∈ items.zip stored, lastAt (slots m i items) key = some q.1.2 ∧
          lastAt (slots m i stored) key = some q.2.2 := by
  induction items with
  | nil =>
      intro i stored hnames key
      obtain rfl := List.map_eq_nil_iff.mp hnames
      exact Or.inl ⟨rfl, rfl⟩
  | cons item items ih =>
      intro i stored hnames key
      cases stored with
      | nil => cases hnames
      | cons item' stored =>
          obtain ⟨name, a⟩ := item
          obtain ⟨name', b⟩ := item'
          simp only [List.map_cons, List.cons.injEq] at hnames
          obtain ⟨rfl, hnames⟩ := hnames
          simp only [slots, lastAt]
          rcases ih (i := i + 1) hnames key with ⟨hnone, hnone'⟩ | ⟨q, hq, hlast, hlast'⟩
          · rw [hnone, hnone', Option.none_or, Option.none_or]
            by_cases hkey : slotKey m i name' = key
            · rw [if_pos hkey, if_pos hkey]
              exact Or.inr ⟨((name', a), (name', b)), List.mem_cons_self, rfl, rfl⟩
            · rw [if_neg hkey, if_neg hkey]
              exact Or.inl ⟨rfl, rfl⟩
          · rw [hlast, hlast']
            exact Or.inr ⟨q, List.mem_cons_of_mem _ hq, rfl, rfl⟩

theorem mem_slots {m : Bool} {items : List (List UInt8 × α)} {key : LuaValue} {a : α} :
    ∀ {i : ℕ}, (key, a) ∈ slots m i items ↔
      ∃ j item, items[j]? = some item ∧ key = slotKey m (i + j) item.1 ∧ a = item.2 := by
  induction items with
  | nil =>
      intro i
      simp [slots]
  | cons item items ih =>
      intro i
      obtain ⟨name, b⟩ := item
      rw [slots, List.mem_cons, ih]
      constructor
      · rintro (heq | ⟨j, item, hitem, hkey, ha⟩)
        · cases heq
          exact ⟨0, _, rfl, rfl, rfl⟩
        · refine ⟨j + 1, item, hitem, ?_, ha⟩
          rwa [show i + (j + 1) = i + 1 + j by omega]
      · rintro ⟨j, item, hitem, rfl, rfl⟩
        cases j with
        | zero =>
            cases hitem
            exact Or.inl rfl
        | succ j =>
            refine Or.inr ⟨j, item, hitem, ?_, rfl⟩
            rw [show i + (j + 1) = i + 1 + j by omega]

theorem mem_of_lastAt {l : List (LuaValue × α)} {key : LuaValue} {a : α} (h : lastAt l key = some a) :
    (key, a) ∈ l := by
  induction l with
  | nil => cases h
  | cons e l ih =>
      obtain ⟨key', b⟩ := e
      rw [lastAt] at h
      cases hlast : lastAt l key with
      | some c =>
          rw [hlast, Option.some_or] at h
          exact List.mem_cons_of_mem _ (ih (hlast.trans h))
      | none =>
          rw [hlast, Option.none_or] at h
          by_cases hkey : key' = key
          · rw [if_pos hkey] at h
            rw [← hkey, ← Option.some.inj h]
            exact List.mem_cons_self
          · rw [if_neg hkey] at h
            cases h

/-- Where every key has one item, it is the last one. -/
theorem lastAt_of_mem {l : List (LuaValue × α)} {key : LuaValue} {a : α}
    (hunique : ∀ b, (key, b) ∈ l → b = a) (h : (key, a) ∈ l) : lastAt l key = some a := by
  cases hlast : lastAt l key with
  | some b => rw [hunique b (mem_of_lastAt hlast)]
  | none =>
      exfalso
      clear hunique
      induction l with
      | nil => simp at h
      | cons e l ih =>
          obtain ⟨key', b⟩ := e
          rw [lastAt, Option.or_eq_none_iff] at hlast
          rcases List.mem_cons.mp h with heq | hmem
          · cases heq
            rw [if_pos rfl] at hlast
            cases hlast.2
          · exact ih hmem hlast.1

/-- The items of an array are at 1, 2, … -/
theorem slotKey_array {i : ℕ} (hi : i + 1 < 2 ^ 31) (name : List UInt8) :
    slotKey false i name = intKey (i + 1 : ℕ) :=
  counterKey_ofNat hi

theorem lastAt_array {items : List (List UInt8 × α)} (hlen : items.length < 2 ^ 31 - 1) {i : ℕ}
    {item : List UInt8 × α} (hitem : items[i]? = some item) :
    lastAt (slots false 0 items) (intKey (i + 1 : ℕ)) = some item.2 := by
  have hi := (List.getElem?_eq_some_iff.mp hitem).1
  refine lastAt_of_mem ?_ (mem_slots.mpr ⟨i, item, hitem, ?_, rfl⟩)
  · intro b hb
    obtain ⟨j, item', hitem', hkey, rfl⟩ := mem_slots.mp hb
    have hj := (List.getElem?_eq_some_iff.mp hitem').1
    rw [Nat.zero_add, slotKey_array (by omega)] at hkey
    have hij := intKey_inj (by omega) (by omega) hkey
    rw [show i = j by omega, hitem'] at hitem
    rw [Option.some.inj hitem]
  · rw [Nat.zero_add, slotKey_array (by omega)]

end Slots

/-- **What is in the table**: under each key the last item, unless it is nil. -/
theorem mem_store {m : Bool} {items : List (List UInt8 × LuaValue)} {key v : LuaValue} :
    ∀ {i : ℕ} {T : LuaTable}, (key, v) ∈ (store m i T items).entries ↔
      (lastAt (slots m i items) key = some v ∧ v ≠ .nil) ∨
        (lastAt (slots m i items) key = none ∧ (key, v) ∈ T.entries) := by
  induction items with
  | nil =>
      intro i T
      simp [store, slots, lastAt]
  | cons item items ih =>
      intro i T
      obtain ⟨name, w⟩ := item
      rw [store, ih, slots, lastAt]
      cases hlast : lastAt (slots m (i + 1) items) key with
      | some u => simp
      | none =>
          simp only [reduceCtorEq, false_and, false_or, true_and, Option.none_or,
            LuaTable.mem_rawset, normal_slotKey]
          by_cases hkey : slotKey m i name = key
          · rw [if_pos hkey]
            subst hkey
            simp only [ne_eq, not_true_eq_false, and_false, false_or, Prod.mk.injEq, true_and,
              Option.some.injEq, reduceCtorEq, false_and, or_false]
            constructor <;> rintro ⟨rfl, hne⟩ <;> exact ⟨rfl, hne⟩
          · rw [if_neg hkey]
            simp only [ne_eq, Prod.mk.injEq, reduceCtorEq, false_and, false_or, true_and,
              Ne.symm hkey, not_false_eq_true, and_true, or_false]

@[simp] theorem metatable_store (m : Bool) (items : List (List UInt8 × LuaValue)) :
    ∀ (i : ℕ) (T : LuaTable), (store m i T items).metatable = T.metatable := by
  induction items with
  | nil => exact fun _ _ => rfl
  | cons item items ih => exact fun i T => ih (i + 1) _

/-! ## Values and trees -/

/-- The metatable of a container. -/
def tag : Bool → Metatable
  | false => .jsonArray
  | true => .jsonObject

/-- What null is decoded to. -/
def nullValue (st : JsonState) : LuaValue := if st.nullEnabled then nullSentinel else .nil

/-- The value is what is decoded for the tree. -/
inductive Shows (st : JsonState) (H : LuaHeap) : Node Binary64 → LuaValue → Prop
  | null {v : LuaValue} : v = nullValue st → Shows st H .null v
  | boolean (b : Bool) : Shows st H (.boolean b) (.boolean b)
  | number (x : Binary64) : Shows st H (.number x) (.number (.float x))
  | string (s : List UInt8) : Shows st H (.string s) (.string s)
  | container {m : Bool} {items : List (List UInt8 × Node Binary64)}
      {stored : List (List UInt8 × LuaValue)} {ref : ℕ} : ref < H.length →
      H.table ref = store m 0 (.new (some (tag m))) stored →
      stored.map Prod.fst = items.map Prod.fst →
      (∀ q ∈ items.zip stored, Shows st H q.1.2 q.2.2) → Shows st H (.container m items) (.table ref)

variable {st : JsonState} {H : LuaHeap}

/-- More tables change nothing. -/
theorem Shows.append {t : Node Binary64} {v : LuaValue} (h : Shows st H t v) (E : LuaHeap) :
    Shows st (H ++ E) t v := by
  induction h with
  | null hnull => exact .null hnull
  | boolean b => exact .boolean b
  | number x => exact .number x
  | string s => exact .string s
  | container href htable hnames _ ih =>
      refine .container ?_ ?_ hnames ih
      · rw [List.length_append]
        omega
      · rw [LuaHeap.table_append_left H E href]
        exact htable

/-- The tree is decoded to a value, and not to nil. -/
def Kept (st : JsonState) : Node Binary64 → Prop
  | .null => st.nullEnabled = true
  | _ => True

theorem Shows.ne_nil_iff {t : Node Binary64} {v : LuaValue} (h : Shows st H t v) :
    v ≠ .nil ↔ Kept st t := by
  cases h with
  | null hv =>
      rw [hv, nullValue]
      cases hnull : st.nullEnabled <;> simp [Kept, hnull, nullSentinel]
  | _ => simp [Kept]

theorem Shows.metatable {m : Bool} {items : List (List UInt8 × Node Binary64)} {ref : ℕ}
    (h : Shows st H (.container m items) (.table ref)) :
    (H.table ref).metatable = some (tag m) := by
  cases h with
  | container href htable hnames hitems => rw [htable, metatable_store, LuaTable.metatable_new]

/-- **The entries of a container show its last items.** -/
theorem Shows.exists_item {m : Bool} {items : List (List UInt8 × Node Binary64)} {ref : ℕ}
    (h : Shows st H (.container m items) (.table ref)) {key v : LuaValue}
    (hv : (key, v) ∈ (H.table ref).entries) :
    ∃ t, lastAt (slots m 0 items) key = some t ∧ Kept st t ∧ Shows st H t v := by
  cases h with
  | container href htable hnames hitems =>
      rw [htable, mem_store] at hv
      rcases hv with ⟨hlast, hne⟩ | ⟨-, hnew⟩
      · rcases lastAt_zip (m := m) (i := 0) hnames key with ⟨-, hnone⟩ | ⟨q, hq, hitem, hlast'⟩
        · rw [hnone] at hlast
          cases hlast
        · rw [hlast] at hlast'
          obtain rfl := Option.some.inj hlast'
          exact ⟨q.1.2, hitem, (hitems q hq).ne_nil_iff.mp hne, hitems q hq⟩
      · simp at hnew

/-- **The last items of a container are its entries.** -/
theorem Shows.exists_entry {m : Bool} {items : List (List UInt8 × Node Binary64)} {ref : ℕ}
    (h : Shows st H (.container m items) (.table ref)) {key : LuaValue} {t : Node Binary64}
    (ht : lastAt (slots m 0 items) key = some t) (hkept : Kept st t) :
    ∃ v, (key, v) ∈ (H.table ref).entries ∧ Shows st H t v := by
  cases h with
  | container href htable hnames hitems =>
      rcases lastAt_zip (m := m) (i := 0) hnames key with ⟨hnone, -⟩ | ⟨q, hq, hitem, hlast⟩
      · rw [hnone] at ht
        cases ht
      · rw [ht] at hitem
        obtain rfl := Option.some.inj hitem
        have hshows := hitems q hq
        refine ⟨q.2.2, ?_, hshows⟩
        rw [htable, mem_store]
        exact Or.inl ⟨hlast, hshows.ne_nil_iff.mpr hkept⟩

/-! ## Reading what is spelled -/

/-- `parse_array` and `parse_object` after their opening bracket, at the item at place `i`. -/
def parseItems (m : Bool) (p : JsonInput) (pv : ValueParser) (fuel i : ℕ) (T : LuaTable)
    (H : LuaHeap) (s : List UInt8) : Except JsonError ((LuaTable × LuaHeap) × List UInt8) :=
  if m then parseObjectLoop p pv fuel T H s else parseArrayLoop p pv fuel (Int32.ofNat (i + 1)) T H s

/-- The item in front of `r` is read. -/
def ReadsItem (m : Bool) (p : JsonInput) (pv : ValueParser) (name : List UInt8) (v : LuaValue)
    (H H' : LuaHeap) (s r : List UInt8) : Prop :=
  if m then
    ∃ s₁ s₂, parseString p s = .ok (name, s₁) ∧ skipSpaces s₁ = ascii ':' :: s₂ ∧
      pv H (skipSpaces s₂) = .ok ((v, H'), r)
  else pv H s = .ok ((v, H'), r)

section Loop

variable {m : Bool} {p : JsonInput} {pv : ValueParser} {fuel i : ℕ} {T : LuaTable}
  {H H' : LuaHeap} {s s₁ s₂ r : List UInt8} {name : List UInt8} {v : LuaValue}

theorem parseItems_empty (h : skipSpaces s = closing m :: r) :
    parseItems m p pv (fuel + 1) i T H s = .ok ((T, H), r) := by
  cases m
  · show parseArrayLoop p pv (fuel + 1) _ T H s = _
    rw [parseArrayLoop]
    simp [h, closing]
  · show parseObjectLoop p pv (fuel + 1) T H s = _
    rw [parseObjectLoop, h]
    simp [closing]

/-- A string that is read starts with a quote. -/
theorem head_of_parseString (h : parseString p s = .ok (name, r)) :
    ∃ s', s = ascii '"' :: s' := by
  obtain ⟨ps, -, -, rfl, -⟩ := (parseString_ok_iff p).mp h
  exact ⟨_, rfl⟩

/-- The last item. -/
theorem parseItems_close (hs : skipSpaces s = s₁) (hhead : ∃ c ∈ s₁.head?, startsItem c = true)
    (hitem : ReadsItem m p pv name v H H' s₁ s₂) (hr : skipSpaces s₂ = closing m :: r) :
    parseItems m p pv (fuel + 1) i T H s
      = .ok ((T.rawset (slotKey m i name) v (isKey_slotKey m i name), H'), r) := by
  obtain ⟨c, hc, hstart⟩ := hhead
  have hfree := (startsItem_free hstart).2 m
  cases m
  · show parseArrayLoop p pv (fuel + 1) _ T H s = _
    have hpv : pv H s₁ = .ok ((v, H'), s₂) := hitem
    have hnot : s₁.head? ≠ some (ascii ']') := by
      rw [hc]
      exact fun h => hfree (Option.some.inj h)
    rw [parseArrayLoop]
    simp only [hs, hnot, if_false, hpv, ok_bind, hr]
    rfl
  · show parseObjectLoop p pv (fuel + 1) T H s = _
    obtain ⟨t₁, t₂, hstr, hcolon, hpv⟩ :
      ∃ t₁ t₂, parseString p s₁ = .ok (name, t₁) ∧ skipSpaces t₁ = ascii ':' :: t₂ ∧
        pv H (skipSpaces t₂) = .ok ((v, H'), s₂) := hitem
    obtain ⟨s', rfl⟩ := head_of_parseString hstr
    have hbrace : ascii '"' ≠ ascii '\x7d' := by decide
    rw [parseObjectLoop]
    simp only [hs, hbrace, if_false, ne_eq, not_true_eq_false, hstr, ok_bind, hcolon, hpv, hr]
    rfl

/-- One more item. -/
theorem parseItems_comma (hs : skipSpaces s = s₁) (hhead : ∃ c ∈ s₁.head?, startsItem c = true)
    (hitem : ReadsItem m p pv name v H H' s₁ s₂) (hr : skipSpaces s₂ = ascii ',' :: r) :
    parseItems m p pv (fuel + 1) i T H s
      = parseItems m p pv fuel (i + 1) (T.rawset (slotKey m i name) v (isKey_slotKey m i name)) H' r := by
  obtain ⟨c, hc, hstart⟩ := hhead
  have hfree := (startsItem_free hstart).2 m
  cases m
  · show parseArrayLoop p pv (fuel + 1) _ T H s = _
    have hpv : pv H s₁ = .ok ((v, H'), s₂) := hitem
    have hnot : s₁.head? ≠ some (ascii ']') := by
      rw [hc]
      exact fun h => hfree (Option.some.inj h)
    have hcomma : ascii ',' ≠ ascii ']' := by decide
    rw [parseArrayLoop]
    simp only [hs, hnot, if_false, hpv, ok_bind, hr, hcomma, if_true]
    rw [show Int32.ofNat (i + 1) + 1 = Int32.ofNat (i + 1 + 1) from (Int32.ofNat_add _ _).symm]
    rfl
  · show parseObjectLoop p pv (fuel + 1) T H s = _
    obtain ⟨t₁, t₂, hstr, hcolon, hpv⟩ :
      ∃ t₁ t₂, parseString p s₁ = .ok (name, t₁) ∧ skipSpaces t₁ = ascii ':' :: t₂ ∧
        pv H (skipSpaces t₂) = .ok ((v, H'), s₂) := hitem
    obtain ⟨s', rfl⟩ := head_of_parseString hstr
    have hbrace : ascii '"' ≠ ascii '\x7d' := by decide
    have hcomma : ascii ',' ≠ ascii '\x7d' := by decide
    rw [parseObjectLoop]
    simp only [hs, hbrace, if_false, ne_eq, not_true_eq_false, hstr, ok_bind, hcolon, hpv, hr, hcomma,
      if_true]
    rfl

end Loop

/-- What is read of the items in front of `r`: their values, one after the other. -/
def ReadsItems (p : JsonInput) (s r : List UInt8) : Kind → List (List UInt8 × Node Binary64) → Prop
  | .one m, items => ∀ item, items = [item] → Ended r → ∀ n, s.length < n → ∀ H,
      ∃ v E, ReadsItem m p (parseValue p n) item.1 v H (H ++ E) s r ∧ Shows p.st (H ++ E) item.2 v
  | .many m, items => ∀ r', r = closing m :: r' → ∀ n fuel i T H, s.length < n → s.length < fuel →
      ∃ stored E, parseItems m p (parseValue p n) fuel i T H s
          = .ok ((store m i T stored, H ++ E), r') ∧
        stored.map Prod.fst = items.map Prod.fst ∧
        ∀ q ∈ items.zip stored, Shows p.st (H ++ E) q.1.2 q.2.2

theorem Ws.skip_item {s s₁ : List UInt8} (h : Ws s s₁)
    (hhead : ∃ c ∈ s₁.head?, startsItem c = true) : skipSpaces s = s₁ := by
  refine h.skipWs_eq ?_
  obtain ⟨c, hc, hstart⟩ := hhead
  intro c' hc'
  rw [hc] at hc'
  obtain rfl := Option.some.inj hc'
  exact (startsItem_free hstart).1

section Leaves

variable {p : JsonInput} {n : ℕ} {H : LuaHeap} {s r : List UInt8}

theorem parseValue_string {text : List UInt8} (h : QuotedAs decodes text s r) :
    parseValue p (n + 1) H s = .ok ((.string text, H), r) := by
  obtain ⟨ps, hvalid, hpaired, rfl, rfl⟩ := h
  have hstr : parseString p (ascii '"' :: ps.flatMap Piece.spell ++ ascii '"' :: r)
      = .ok (written ps, r) := (parseString_ok_iff p).mpr ⟨ps, hvalid, hpaired, by simp [literal], rfl⟩
  rw [List.cons_append] at hstr ⊢
  rw [parseValue, if_pos rfl, hstr]
  rfl

theorem parseValue_number {w : List UInt8} (h : decodedNumber w = true) (hr : Ended r) :
    parseValue p (n + 1) H (w ++ r)
      = .ok ((.number (.float (positiveZero (strtod (cString w)).1)), H), r) := by
  obtain ⟨⟨c, hc, hstart⟩, hfree, hlen, hused⟩ := decodedNumber_iff.mp h
  obtain ⟨w', rfl⟩ : ∃ w', w = c :: w' := by
    cases w with
    | nil => cases hc
    | cons b w' => exact ⟨w', by rw [Option.some.inj hc]⟩
  have hword : nextWord (c :: w' ++ r) = c :: w' := word_append hfree hr
  have hnum : isDigit c = true ∨ c = ascii '-' := by simpa using hstart
  have hquote : c ≠ ascii '"' := by
    rintro rfl
    revert hnum
    decide
  have hparse : parseNumber p (c :: w' ++ r)
      = .ok (.number (.float (positiveZero (strtod (cString (c :: w'))).1)), r) := by
    unfold parseNumber
    rw [hword]
    simp only [List.length_cons, Nat.succ_ne_zero, false_or]
    rw [List.length_cons] at hlen hused
    rw [if_neg (by omega), if_neg (not_not.mpr hused)]
    rw [← List.length_cons, List.drop_left]
  rw [List.cons_append] at hparse ⊢
  rw [parseValue, if_neg hquote, if_pos hnum, hparse]
  rfl

theorem parseValue_literalNode {w : List UInt8} {t : Node Binary64} (h : literalNode w t)
    (hr : Ended r) :
    ∃ v, parseValue p (n + 1) H (w ++ r) = .ok ((v, H), r) ∧ Shows p.st H t v := by
  have hword : nextWord (w ++ r) = w := word_append (word_literal (literalNode_mem h)) hr
  have hlit : ∃ v, parseLiteral p (w ++ r) = .ok (v, r) ∧ Shows p.st H t v := by
    unfold parseLiteral
    simp only [hword, List.drop_left]
    rcases h with ⟨rfl, rfl⟩ | ⟨rfl, rfl⟩ | ⟨rfl, rfl⟩
    · exact ⟨_, if_pos rfl, .boolean true⟩
    · exact ⟨_, by rw [if_neg (by decide +kernel), if_pos rfl], .boolean false⟩
    · exact ⟨nullValue p.st, by
        rw [if_neg (by decide +kernel), if_neg (by decide +kernel), if_pos rfl]
        rfl, .null rfl⟩
  obtain ⟨v, hparse, hshows⟩ := hlit
  refine ⟨v, ?_, hshows⟩
  obtain ⟨c, w', hw, hlet⟩ : ∃ c w', w = c :: w' ∧ (c = ascii 't' ∨ c = ascii 'f' ∨ c = ascii 'n') := by
    rcases h with ⟨rfl, -⟩ | ⟨rfl, -⟩ | ⟨rfl, -⟩
    · exact ⟨_, _, rfl, Or.inl rfl⟩
    · exact ⟨_, _, rfl, Or.inr (Or.inl rfl)⟩
    · exact ⟨_, _, rfl, Or.inr (Or.inr rfl)⟩
  subst hw
  have hquote : c ≠ ascii '"' := by rcases hlet with rfl | rfl | rfl <;> decide
  have hnum : ¬(isDigit c = true ∨ c = ascii '-') := by
    rcases hlet with rfl | rfl | rfl <;> decide
  rw [List.cons_append] at hparse ⊢
  rw [parseValue, if_neg hquote, if_neg hnum, if_pos hlet, hparse]
  rfl

/-- A container, from what its loop reads. -/
theorem parseValue_container {m : Bool} {T : LuaTable} {H' : LuaHeap}
    (h : parseItems m p (parseValue p n) (s.length + 1) 0 (.new (some (tag m))) H s
      = .ok ((T, H'), r)) :
    parseValue p (n + 1) H (opening m :: s) = .ok ((.table H'.length, H' ++ [T]), r) := by
  cases m
  · have hloop : parseArrayLoop p (parseValue p n) (s.length + 1) 1 (.new (some .jsonArray)) H s
        = .ok ((T, H'), r) := h
    have hnot : ascii '[' ≠ ascii '"' ∧ ¬(isDigit (ascii '[') = true ∨ ascii '[' = ascii '-') ∧
        ¬(ascii '[' = ascii 't' ∨ ascii '[' = ascii 'f' ∨ ascii '[' = ascii 'n') := by decide
    rw [opening, parseValue, if_neg hnot.1, if_neg hnot.2.1, if_neg hnot.2.2, if_pos rfl, hloop]
    rfl
  · have hloop : parseObjectLoop p (parseValue p n) (s.length + 1) (.new (some .jsonObject)) H s
        = .ok ((T, H'), r) := h
    have hnot : ascii '\x7b' ≠ ascii '"' ∧
        ¬(isDigit (ascii '\x7b') = true ∨ ascii '\x7b' = ascii '-') ∧
        ¬(ascii '\x7b' = ascii 't' ∨ ascii '\x7b' = ascii 'f' ∨ ascii '\x7b' = ascii 'n') ∧
        ascii '\x7b' ≠ ascii '[' := by decide
    rw [opening, parseValue, if_neg hnot.1, if_neg hnot.2.1, if_neg hnot.2.2.1, if_neg hnot.2.2.2,
      if_pos rfl, hloop]
    rfl

end Leaves

theorem skip_closing {m : Bool} {s r : List UInt8} (h : Ws s (closing m :: r)) :
    skipSpaces s = closing m :: r := by
  refine h.skipWs_eq ?_
  rintro c ⟨⟩
  exact isWs_closing m

/-- The last item of a list is read. -/
theorem ReadsItem.last {m : Bool} {p : JsonInput} {item : List UInt8 × Node Binary64} {d : Dialect}
    {s s₁ s₂ r' : List UInt8} (hws : Ws s s₁) (hderives : Derives d (.one m) s₁ s₂)
    (hreads : ReadsItems p s₁ s₂ (.one m) [item]) (hws' : Ws s₂ (closing m :: r')) {n fuel i : ℕ}
    {T : LuaTable} {H : LuaHeap} (hn : s.length < n) (hfuel : s.length < fuel) :
    ∃ stored E, parseItems m p (parseValue p n) fuel i T H s
        = .ok ((store m i T stored, H ++ E), r') ∧
      stored.map Prod.fst = [item].map Prod.fst ∧
      ∀ q ∈ [item].zip stored, Shows p.st (H ++ E) q.1.2 q.2.2 := by
  have hle := hws.length_le
  obtain ⟨fuel, rfl⟩ := Nat.exists_eq_succ_of_ne_zero (Nat.ne_of_gt (Nat.zero_lt_of_lt hfuel))
  have hhead := hderives.head m rfl
  obtain ⟨v, E, hread, hshows⟩ :=
    hreads item rfl (hws'.ended (ended_cons (isDelim_closing m))) n (by omega) H
  refine ⟨[(item.1, v)], E, ?_, rfl, by simpa using hshows⟩
  exact parseItems_close (Ws.skip_item hws hhead) hhead hread (skip_closing hws')

/-- An item with a comma behind it is read. -/
theorem ReadsItem.comma {m : Bool} {p : JsonInput} {item : List UInt8 × Node Binary64} {d : Dialect}
    {s s₁ s₂ s₃ : List UInt8} (hws : Ws s s₁) (hderives : Derives d (.one m) s₁ s₂)
    (hreads : ReadsItems p s₁ s₂ (.one m) [item]) (hws' : Ws s₂ (ascii ',' :: s₃)) {n : ℕ}
    (hn : s.length < n) (H : LuaHeap) :
    ∃ v E, Shows p.st (H ++ E) item.2 v ∧ ∀ fuel i T,
      parseItems m p (parseValue p n) (fuel + 1) i T H s =
        parseItems m p (parseValue p n) fuel (i + 1)
          (T.rawset (slotKey m i item.1) v (isKey_slotKey m i item.1)) (H ++ E) s₃ := by
  have hle := hws.length_le
  have hhead := hderives.head m rfl
  obtain ⟨v, E, hread, hshows⟩ := hreads item rfl (hws'.ended (ended_cons isDelim_comma)) n (by omega) H
  have hcomma : skipSpaces s₂ = ascii ',' :: s₃ := hws'.skipWs_eq (by
    rintro c ⟨⟩
    decide)
  exact ⟨v, E, hshows, fun fuel i T => parseItems_comma (Ws.skip_item hws hhead) hhead hread hcomma⟩

/-- **What is spelled is read.** -/
theorem Spells.reads {p : JsonInput} {k : Kind} {items : List (List UInt8 × Node Binary64)}
    {s r : List UInt8} (h : Spells decodes k items s r) : ReadsItems p s r k items := by
  induction h with
  | string hq =>
      rintro item ⟨rfl⟩ hr n hn H
      obtain ⟨n, rfl⟩ := Nat.exists_eq_succ_of_ne_zero (Nat.ne_of_gt (Nat.zero_lt_of_lt hn))
      exact ⟨_, [], by rw [List.append_nil]; exact parseValue_string hq, .string _⟩
  | number hnum =>
      rintro item ⟨rfl⟩ hr n hn H
      obtain ⟨n, rfl⟩ := Nat.exists_eq_succ_of_ne_zero (Nat.ne_of_gt (Nat.zero_lt_of_lt hn))
      exact ⟨_, [], by rw [List.append_nil]; exact parseValue_number hnum hr, .number _⟩
  | literal hlit =>
      rintro item ⟨rfl⟩ hr n hn H
      obtain ⟨n, rfl⟩ := Nat.exists_eq_succ_of_ne_zero (Nat.ne_of_gt (Nat.zero_lt_of_lt hn))
      obtain ⟨v, hparse, hshows⟩ := parseValue_literalNode (p := p) (n := n) (H := H) hlit hr
      exact ⟨v, [], by rw [List.append_nil]; exact hparse, hshows.append []⟩
  | @empty m s r hws =>
      rintro item ⟨rfl⟩ hr n hn H
      obtain ⟨n, rfl⟩ := Nat.exists_eq_succ_of_ne_zero (Nat.ne_of_gt (Nat.zero_lt_of_lt hn))
      refine ⟨_, [LuaTable.new (some (tag m))],
        parseValue_container (parseItems_empty (skip_closing hws)), ?_⟩
      exact .container (by simp) (show LuaHeap.table _ _ = store m 0 (.new (some (tag m))) [] by
        simp [LuaHeap.table, store]) rfl (by simp)
  | @container m items s r hspells ih =>
      rintro item ⟨rfl⟩ hr n hn H
      obtain ⟨n, rfl⟩ := Nat.exists_eq_succ_of_ne_zero (Nat.ne_of_gt (Nat.zero_lt_of_lt hn))
      rw [List.length_cons] at hn
      obtain ⟨stored, E, hparse, hnames, hshows⟩ :=
        ih r rfl n (s.length + 1) 0 (.new (some (tag m))) H (by omega) (by omega)
      refine ⟨.table (H ++ E).length, E ++ [store m 0 (.new (some (tag m))) stored], ?_, ?_⟩
      · rw [← List.append_assoc]
        exact parseValue_container hparse
      · rw [← List.append_assoc]
        refine .container (by simp) (by simp [LuaHeap.table]) hnames ?_
        intro q hq
        exact (hshows q hq).append _
  | @member key t s s₁ s₂ s₃ r hq hws hws' hspells ih =>
      rintro item ⟨rfl⟩ hr n hn H
      have hlt := hq.quoted.length_lt
      have hle := hws.length_le
      have hle' := hws'.length_le
      rw [List.length_cons] at hle
      obtain ⟨v, E, hread, hshows⟩ := ih _ rfl hr n (by omega) H
      refine ⟨v, E, ⟨s₁, s₂, ?_, ?_, ?_⟩, hshows⟩
      · obtain ⟨ps, hvalid, hpaired, rfl, rfl⟩ := hq
        exact (parseString_ok_iff p).mpr ⟨ps, hvalid, hpaired, by simp [literal], rfl⟩
      · refine hws.skipWs_eq ?_
        rintro c ⟨⟩
        decide
      · rw [Ws.skip_item hws' (hspells.derives.head _ rfl)]
        exact hread
  | single hws hspells hws' ih =>
      rintro r' rfl n fuel i T H hn hfuel
      exact ReadsItem.last hws hspells.derives ih hws' hn hfuel
  | @more m item items s s₁ s₂ s₃ r hws hspells hws' hmany ih ih' =>
      rintro r' rfl n fuel i T H hn hfuel
      have hle := hws.length_le
      have hle₂ := hspells.derives.length_le
      have hle₃ := hws'.length_le
      rw [List.length_cons] at hle₃
      obtain ⟨fuel, rfl⟩ := Nat.exists_eq_succ_of_ne_zero (Nat.ne_of_gt (Nat.zero_lt_of_lt hfuel))
      obtain ⟨v, E, hshows, hitem⟩ := ReadsItem.comma hws hspells.derives ih hws' hn H
      obtain ⟨stored, E', hloop, hnames, hrest⟩ := ih' r' rfl n fuel (i + 1)
        (T.rawset (slotKey m i item.1) v (isKey_slotKey m i item.1)) (H ++ E) (by omega) (by omega)
      refine ⟨(item.1, v) :: stored, E ++ E', ?_, by simp [hnames], ?_⟩
      · rw [hitem, hloop, List.append_assoc]
        rfl
      · rw [← List.append_assoc, List.zip_cons_cons]
        exact List.forall_mem_cons.mpr ⟨hshows.append E', hrest⟩
  | @trailing m item s s₁ s₂ s₃ r ht hws hspells hws' hws'' ih =>
      rintro r' rfl n fuel i T H hn hfuel
      have hle := hws.length_le
      have hle₂ := hspells.derives.length_le
      have hle₃ := hws'.length_le
      rw [List.length_cons] at hle₃
      obtain ⟨fuel, rfl⟩ := Nat.exists_eq_succ_of_ne_zero (Nat.ne_of_gt (Nat.zero_lt_of_lt hfuel))
      obtain ⟨fuel, rfl⟩ := Nat.exists_eq_succ_of_ne_zero (show fuel ≠ 0 by
        have := hws''.length_le
        simp only [List.length_cons] at this
        omega)
      obtain ⟨v, E, hshows, hitem⟩ := ReadsItem.comma hws hspells.derives ih hws' hn H
      refine ⟨[(item.1, v)], E, ?_, rfl, by simpa using hshows⟩
      rw [hitem, parseItems_empty (skip_closing hws'')]
      rfl

/-- **A text is decoded to what its tree shows.** -/
theorem jsonDecode_textOf (st : JsonState) {t : Node Binary64} {s : List UInt8}
    (h : TextOf decodes t s) :
    ∃ v H, jsonDecode st (.string s) = .ok (v, H) ∧ Shows st H t v := by
  obtain ⟨s₁, s₂, hws, hspells, hend⟩ := h
  have hle := hws.length_le
  obtain ⟨v, E, hread, hshows⟩ := Spells.reads (p := ⟨st, s⟩) hspells ([], t) rfl
    (hend.ended ended_nil) (s.length + 1) (by omega) []
  have hparse : parseValue ⟨st, s⟩ (s.length + 1) [] s₁ = .ok ((v, E), s₂) := hread
  have hskip : skipSpaces s = s₁ := Ws.skip_item hws (hspells.derives.head false rfl)
  have hskip' : skipSpaces s₂ = [] := hend.skipWs_eq (by simp)
  refine ⟨v, E, ?_, hshows⟩
  simp only [jsonDecode, hskip, hparse, ok_bind, hskip']
  rfl

/-- What is decoded has a tree. -/
theorem exists_textOf {st : JsonState} {s : List UInt8} {v : LuaValue} {H : LuaHeap}
    (h : jsonDecode st (.string s) = .ok (v, H)) : ∃ t, TextOf decodes t s :=
  text_iff_exists_node.mp ((jsonDecode_ok_iff st s).mp ⟨_, h⟩)

end LuaFan
