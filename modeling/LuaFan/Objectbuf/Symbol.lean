/-
# Symbol tables (`modules/fan/objectbuf/init.lua`, `symbol`)

A symbol table is made from a sample: its strings and numbers, sorted, get the
indices from 3 on.  Both sides have it, so encoding leaves its values out.

Sending with a symbol table gives what sending without one gives
(`objectbuf_symbol_transparent`) **unless the value is itself a string or number of
the sample, which arrives as nil, or a number of the sample that is no double is
sent: it then arrives as it is, and without a symbol table it is rounded.**
-/
import LuaFan.Objectbuf.RoundTrip

namespace LuaFan

open Fp

/-! ## The code -/

/-- `a < b` for two numbers or two strings, which compare byte by byte. -/
def LuaValue.less : LuaValue → LuaValue → Bool
  | .number n, .number m => Value.lt n.value m.value
  | .string s, .string t => decide (s < t)
  | _, _ => false

/-- `table.sort`, by `<`.  No two values of a list are equal, so there is only one
sorted order. -/
def tableSort (vs : List LuaValue) : List LuaValue :=
  vs.insertionSort fun a b => b.less a = false

/-- The two entries that every index map has. -/
def boolIndices : IndexMap := [(.boolean true, 2), (.boolean false, 1)]

theorem two_le_symbol_index (strings numbers u30s : List LuaValue) :
    2 ≤ 2 + strings.length + numbers.length + u30s.length := by
  omega

/-- `symbol`: the strings come first, then the doubles and the u30 numbers. -/
def symbol (H : LuaHeap) (obj : LuaValue) : Except String SymTable :=
  match packer H (H.length + 1) Ctx.init obj with
  | .error e => .error (e.getD "")
  | .ok ctx =>
      let strings := tableSort ctx.strings
      let numbers := tableSort ctx.numbers
      let u30s := tableSort ctx.u30s
      let index₁ := 2 + strings.length
      let index₂ := index₁ + numbers.length
      .ok
        { map := ((boolIndices.addAll 2 strings).addAll index₁ numbers).addAll index₂ u30s
          vk := strings ++ numbers ++ u30s
          index := index₂ + u30s.length
          two_le_index := two_le_symbol_index strings numbers u30s }

/-! ## What a symbol table has -/

/-- A value of the sample. -/
def InSample (H : LuaHeap) (obj v : LuaValue) : Prop := ∃ w, H.Reach obj w ∧ w.rawEq v = true

/-- A number or a string. -/
def LuaValue.IsScalar (v : LuaValue) : Prop := (∃ n, v = .number n) ∨ ∃ str, v = .string str

theorem mem_tableSort {vs : List LuaValue} {v : LuaValue} : v ∈ tableSort vs ↔ v ∈ vs :=
  List.mem_insertionSort _

/-- The parts of a symbol table. -/
theorem symbol_cases {H : LuaHeap} {obj : LuaValue} {sym : SymTable} (h : symbol H obj = .ok sym) :
    ∃ ctx, Packed H obj ctx ∧
      sym.vk = tableSort ctx.strings ++ tableSort ctx.numbers ++ tableSort ctx.u30s ∧
      sym.map = boolIndices.addAll 2 sym.vk ∧ sym.index = sym.vk.length + 2 := by
  unfold symbol at h
  split at h
  · cases h
  · rename_i ctx hctx
    cases h
    refine ⟨ctx, packed_of_ok hctx, rfl, ?_, ?_⟩
    · simp only [IndexMap.addAll_append, List.length_append, Nat.add_assoc]
    · simp only [List.length_append]
      omega

theorem get_boolIndices {v : LuaValue} {i : ℕ} (h : boolIndices.get v = some i) :
    ∃ b, v = .boolean b ∧ i = if b then 2 else 1 := by
  simp only [boolIndices, IndexMap.get, List.find?_cons, List.find?_nil] at h
  cases v with
  | boolean b =>
      refine ⟨b, rfl, ?_⟩
      cases b <;> simpa [LuaValue.rawEq] using h.symm
  | _ => simp [LuaValue.rawEq] at h

/-- **What `symbol` makes is lawful.** -/
theorem symbol_lawful {H : LuaHeap} {obj : LuaValue} {sym : SymTable}
    (h : symbol H obj = .ok sym) : sym.Lawful := by
  obtain ⟨ctx, hp, hvk, hmap, hindex⟩ := symbol_cases h
  refine ⟨hindex, ?_, ?_⟩
  · intro w hw
    simp only [hvk, List.mem_append, mem_tableSort] at hw
    rcases hw with (hw | hw) | hw
    · exact Or.inr (hp.good.kinds.strings w hw)
    · obtain ⟨n, rfl, hn, -⟩ := hp.good.kinds.numbers w hw
      exact Or.inl ⟨n, rfl, hn⟩
    · obtain ⟨n, rfl, hn, -⟩ := hp.good.kinds.u30s w hw
      exact Or.inl ⟨n, rfl, hn⟩
  · intro v i hi
    rw [hmap] at hi
    rcases IndexMap.get_addAll _ _ _ hi with ⟨p, w, hp', hw, rfl⟩ | hi
    · exact Or.inr ⟨p, w, hp', hw, by omega⟩
    · exact Or.inl (get_boolIndices hi)

/-- **Of the numbers and strings, a symbol table has those of the sample.** -/
theorem symbol_has {H : LuaHeap} {obj : LuaValue} {sym : SymTable} (h : symbol H obj = .ok sym)
    {v : LuaValue} (hv : v.IsScalar) : sym.Has v ↔ InSample H obj v := by
  obtain ⟨ctx, hp, hvk, hmap, -⟩ := symbol_cases h
  constructor
  · intro hhas
    obtain ⟨i, hi⟩ := Option.isSome_iff_exists.mp hhas
    rw [hmap] at hi
    rcases IndexMap.get_addAll _ _ _ hi with ⟨p, w, hw, heq, -⟩ | hi
    · refine ⟨w, hp.reach w ?_, heq⟩
      have hmem := List.mem_of_getElem? hw
      simp only [hvk, List.mem_append, mem_tableSort] at hmem
      simp only [Ctx.items, List.mem_append]
      tauto
    · obtain ⟨b, rfl, -⟩ := get_boolIndices hi
      rcases hv with ⟨n, h⟩ | ⟨str, h⟩ <;> cases h
  · rintro ⟨w, hw, heq⟩
    have hscalar : w.IsScalar := by
      obtain rfl | ⟨n, m, rfl, -⟩ := rawEq_cases heq
      · exact hv
      · exact Or.inl ⟨n, rfl⟩
    have hlisted : w.listed = true := by
      rcases hscalar with ⟨n, rfl⟩ | ⟨str, rfl⟩ <;> rfl
    obtain ⟨u, hu, huw⟩ := hp.complete w hw hlisted
    -- a number or a string is in one of the three lists
    have hmem : u ∈ sym.vk := by
      simp only [Ctx.items, List.mem_append] at hu
      simp only [hvk, List.mem_append, mem_tableSort]
      rcases hu with (((hu | hu) | hu) | hu) | hu
      · tauto
      · tauto
      · tauto
      · obtain ⟨ref, rfl⟩ := hp.good.kinds.funcs u hu
        rcases hscalar with ⟨n, rfl⟩ | ⟨str, rfl⟩ <;> simp [LuaValue.rawEq] at huw
      · obtain ⟨ref, rfl⟩ := hp.good.kinds.tables u hu
        rcases hscalar with ⟨n, rfl⟩ | ⟨str, rfl⟩ <;> simp [LuaValue.rawEq] at huw
    rw [SymTable.Has, hmap]
    apply IndexMap.isSome_addAll
    exact Or.inl ⟨u, hmem, by rw [← rawEq_congr heq]; exact huw⟩

/-! ## The values that are carried -/

/-- The last element of a list among those with its key. -/
def Last {β κ : Type} (key : β → κ) (l : List β) (a : β) : Prop :=
  ∃ pre post, l = pre ++ a :: post ∧ ∀ b ∈ post, key b ≠ key a

section Last

variable {β κ κ' α : Type} {key : β → κ} {key' : β → κ'} {l : List β} {a : β}

theorem Last.mem (h : Last key l a) : a ∈ l := by
  obtain ⟨pre, post, rfl, -⟩ := h
  simp

theorem final_iff_last {g : β → κ × α} {e : κ × α} :
    Final (l.map g) e ↔ ∃ a, Last (fun b => (g b).1) l a ∧ e = g a := by
  rw [final_map]
  constructor
  · rintro ⟨pre, a, post, hl, he, hpost⟩
    exact ⟨a, ⟨pre, post, hl, hpost⟩, he⟩
  · rintro ⟨a, ⟨pre, post, hl, hpost⟩, he⟩
    exact ⟨pre, a, post, hl, he, hpost⟩

/-- Keys that are equal wherever others are leave fewer last elements. -/
theorem Last.of_keys (hkeys : ∀ a ∈ l, ∀ b ∈ l, key' a = key' b → key a = key b)
    (h : Last key l a) : Last key' l a := by
  have ha := h.mem
  obtain ⟨pre, post, rfl, hpost⟩ := h
  refine ⟨pre, post, rfl, ?_⟩
  intro b hb heq
  exact hpost b hb (hkeys b (by simp [hb]) a ha heq)

/-- Every key has a last element. -/
theorem exists_last (key : β → κ) {k : κ} (h : ∃ a ∈ l, key a = k) : ∃ b, Last key l b ∧ key b = k := by
  induction l with
  | nil =>
      obtain ⟨a, ha, -⟩ := h
      cases ha
  | cons c l ih =>
      by_cases hlater : ∃ a ∈ l, key a = k
      · obtain ⟨b, ⟨pre, post, rfl, hpost⟩, hb⟩ := ih hlater
        exact ⟨b, ⟨c :: pre, post, rfl, hpost⟩, hb⟩
      · obtain ⟨a, ha, hk⟩ := h
        rcases List.mem_cons.mp ha with rfl | ha
        · refine ⟨a, ⟨[], l, rfl, ?_⟩, hk⟩
          intro b hb heq
          exact hlater ⟨b, hb, heq.trans hk⟩
        · exact absurd ⟨a, ha, hk⟩ hlater

end Last

/-- The form in which a key arrives without a symbol table. -/
def LuaValue.rounded : LuaValue → LuaValue
  | .number n => .number (LuaNumber.float n.toDouble).normal
  | v => v

/-- What a table carries: the keys of the entries that are sent, and the values of
those that no later entry overwrites, its key being rounded to the same number. -/
inductive LuaHeap.Passes (H : LuaHeap) : LuaValue → LuaValue → Prop where
  | key {ref : ℕ} {e : LuaValue × LuaValue} (h : e ∈ (H.table ref).sent) :
      Passes H (.table ref) e.1
  | value {ref : ℕ} {e : LuaValue × LuaValue}
      (h : Last (fun e => e.1.rounded) (H.table ref).sent e) : Passes H (.table ref) e.2

/-- A value that is carried along from the root. -/
def LuaHeap.Carries (H : LuaHeap) : LuaValue → LuaValue → Prop := Relation.ReflTransGen H.Passes

/-! ## With and without a symbol table -/

section Both

variable {H : LuaHeap} {o : LuaValue} {ctx : Ctx} {sym : SymTable}

/-- What is carried can be reached. -/
theorem reach_of_carries (hp : Packed H o ctx) (hfits : Fits H sym ctx)
    {v : LuaValue} (h : H.Carries o v) : H.Reach o v := by
  induction h with
  | refl => exact Relation.ReflTransGen.refl
  | tail _ hpass ih =>
      cases hpass with
      | key he =>
          have hborder := firstBorder_lt hp hfits ih
          exact (reach_entry ih ((LuaTable.mem_sent (by omega)).mp he).1).1
      | value he =>
          have hborder := firstBorder_lt hp hfits ih
          exact (reach_entry ih ((LuaTable.mem_sent (by omega)).mp he.mem).1).2

theorem sameValue_refl {v : LuaValue} (h : v.isKey = true) : SameValue id v v := by
  cases v with
  | table ref => rfl
  | _ => exact (LuaValue.rawEq_iff _ _ h).mpr rfl

theorem normal_eq_of_sameValue {v w : LuaValue} (h : SameValue id v w) : v.normal = w.normal := by
  rcases sameValue_cases h with ⟨ref, rfl, rfl⟩ | ⟨-, heq⟩
  · rfl
  · exact normal_eq_of_rawEq heq

/-- A value that the symbol table has and that is no number is a string. -/
theorem SymTable.Lawful.string_of_mem (hsym : sym.Lawful) {v r : LuaValue} (hr : r ∈ sym.vk)
    (heq : r.rawEq v = true) (hv : ∀ n, v ≠ .number n) : ∃ str, v = .string str ∧ r = .string str := by
  obtain rfl | ⟨n, m, -, rfl⟩ := rawEq_cases heq
  · rcases hsym.scalar _ hr with ⟨n, rfl, -⟩ | ⟨str, rfl⟩
    · exact absurd rfl (hv n)
    · exact ⟨str, rfl, rfl⟩
  · exact absurd rfl (hv m)

/-- What arrives of the values of each kind. -/
inductive ArrivesAs (sym : SymTable) (ctx : Ctx) : LuaValue → LuaValue → Prop where
  | boolean (b : Bool) : ArrivesAs sym ctx (.boolean b) (.boolean b)
  | string (str : List UInt8) : ArrivesAs sym ctx (.string str) (.string str)
  | table (ref : ℕ) : ArrivesAs sym ctx (.table ref) (.table (ctx.place ref))
  | known {n m : LuaNumber} (hhas : sym.Has (.number n)) (h : m.value = n.value) :
      ArrivesAs sym ctx (.number n) (.number m)
  | rounded {n m : LuaNumber} (hnot : ¬ sym.Has (.number n)) (h : m.value = n.toDouble.value) :
      ArrivesAs sym ctx (.number n) (.number m)

theorem arrivesAs (hp : Packed H o ctx) (hsup : SupportedGraph H o) (hsym : sym.Lawful)
    (hfits : Fits H sym ctx) {v : LuaValue} (hv : H.Reach o v) :
    ArrivesAs sym ctx v (recvValue sym ctx v) := by
  rcases (recv_spec hp hsup hsym hfits hv).2 with ⟨b, rfl, hr⟩ | ⟨hhas, hmem, heq⟩ | ⟨hnot, harr⟩
  · rw [hr]
    exact ArrivesAs.boolean b
  · by_cases hnum : ∃ n, v = .number n
    · obtain ⟨n, rfl⟩ := hnum
      cases hr : recvValue sym ctx (.number n) with
      | number m =>
          rw [hr] at heq
          simp only [LuaValue.rawEq, Bool.and_eq_true, decide_eq_true_eq] at heq
          exact ArrivesAs.known hhas heq.2
      | _ =>
          rw [hr] at heq
          simp [LuaValue.rawEq] at heq
    · obtain ⟨str, rfl, hr⟩ := hsym.string_of_mem hmem heq fun n hn => hnum ⟨n, hn⟩
      rw [hr]
      exact ArrivesAs.string str
  · generalize recvValue sym ctx v = r at harr
    cases harr with
    | number h => exact ArrivesAs.rounded hnot h
    | string str => exact ArrivesAs.string str
    | @table ref q h =>
        rw [place_eq hp h]
        exact ArrivesAs.table ref

theorem recvValue_table (hp : Packed H o ctx) (hsup : SupportedGraph H o) (hsym : sym.Lawful)
    (hfits : Fits H sym ctx) {ref : ℕ} (href : H.Reach o (.table ref)) :
    recvValue sym ctx (.table ref) = .table (ctx.place ref) := by
  have h := arrivesAs hp hsup hsym hfits href
  generalize recvValue sym ctx (.table ref) = r at h
  cases h
  rfl

/-- Only a table arrives as a table. -/
theorem ArrivesAs.table_of_eq {v r : LuaValue} (h : ArrivesAs sym ctx v r) {q : ℕ}
    (hr : .table q = r ∨ .table q = r.normal) : ∃ ref, v = .table ref ∧ q = ctx.place ref := by
  cases h with
  | table ref =>
      rcases hr with hr | hr
      · cases hr
        exact ⟨ref, rfl, rfl⟩
      · cases hr
        exact ⟨ref, rfl, rfl⟩
  | _ => rcases hr with hr | hr <;> cases hr

/-- **A value arrives the same with the symbol table and without it**, if it is no
number that the symbol table has and that is no double. -/
theorem recvValue_same (hp : Packed H o ctx) (hsup : SupportedGraph H o) (hsym : sym.Lawful)
    (hfits : Fits H sym ctx) (hplain : Fits H .missing ctx) {v : LuaValue} (hv : H.Reach o v)
    (hdouble : ∀ n, v = .number n → sym.Has v → n.IsDouble) :
    SameValue id (recvValue sym ctx v) (recvValue .missing ctx v) := by
  have hsupported := hsup v hv
  have h₁ := arrivesAs hp hsup hsym hfits hv
  have h₂ := arrivesAs hp hsup SymTable.missing_lawful hplain hv
  generalize recvValue sym ctx v = r₁ at h₁
  generalize recvValue .missing ctx v = r₂ at h₂
  have hnumber : ∀ {n m₁ m₂ : LuaNumber}, v = .number n → m₁.value = n.toDouble.value →
      m₂.value = n.toDouble.value → SameValue id (.number m₁) (.number m₂) := by
    rintro n m₁ m₂ rfl hm₁ hm₂
    have hnan : n.toDouble.value ≠ .nan := LuaNumber.value_toDouble_ne_nan hsupported
    simp [SameValue, LuaValue.rawEq, LuaNumber.isNan, hm₁, hm₂, hnan]
  cases h₁ with
  | boolean b =>
      cases h₂
      exact sameValue_refl rfl
  | string str =>
      cases h₂
      exact sameValue_refl rfl
  | table ref =>
      cases h₂
      rfl
  | @known n m hhas hval =>
      cases h₂ with
      | known hhas' _ => exact absurd hhas' (not_has_missing _)
      | rounded _ hval' =>
          have hdouble' := (LuaNumber.value_toDouble_iff n).mpr (hdouble n rfl hhas)
          exact hnumber rfl (hval.trans hdouble'.symm) hval'
  | rounded hnot hval =>
      cases h₂ with
      | known hhas' _ => exact absurd hhas' (not_has_missing _)
      | rounded _ hval' => exact hnumber rfl hval hval'

/-- Without a symbol table two keys arrive as one when they are rounded to one. -/
theorem recvKey_eq_iff (hp : Packed H o ctx) (hsup : SupportedGraph H o)
    (hfits : Fits H .missing ctx) {v w : LuaValue} (hv : H.Reach o v) (hw : H.Reach o w) :
    (recvValue .missing ctx v).normal = (recvValue .missing ctx w).normal ↔
      v.rounded = w.rounded := by
  have hkey : ∀ {v r : LuaValue}, v.Supported H → ArrivesAs .missing ctx v r →
      (∃ ref, v = .table ref ∧ r.normal = .table (ctx.place ref)) ∨
        ((∀ ref, v.rounded ≠ .table ref) ∧ r.normal = v.rounded) := by
    intro v r hsupported h
    cases h with
    | boolean b => exact Or.inr ⟨by simp [LuaValue.rounded], rfl⟩
    | string str => exact Or.inr ⟨by simp [LuaValue.rounded], rfl⟩
    | table ref => exact Or.inl ⟨ref, rfl, rfl⟩
    | known hhas _ => exact absurd hhas (not_has_missing _)
    | @rounded n m _ hval =>
        have hnan : m.value ≠ .nan := by
          rw [hval]
          exact LuaNumber.value_toDouble_ne_nan hsupported
        have hnormal : m.normal = (LuaNumber.float n.toDouble).normal :=
          LuaNumber.normal_eq_of_value_eq hval hnan
        exact Or.inr ⟨by simp [LuaValue.rounded], by simp only [LuaValue.normal, hnormal,
          LuaValue.rounded]⟩
  have hv' := hkey (hsup v hv) (arrivesAs hp hsup SymTable.missing_lawful hfits hv)
  have hw' := hkey (hsup w hw) (arrivesAs hp hsup SymTable.missing_lawful hfits hw)
  rcases hv' with ⟨ref, rfl, hv'⟩ | ⟨hne, hv'⟩
  · rcases hw' with ⟨ref', rfl, hw'⟩ | ⟨hne', hw'⟩
    · rw [hv', hw', LuaValue.table.injEq]
      simp only [LuaValue.rounded, LuaValue.table.injEq]
      exact (place_injOn hp).eq_iff hv hw
    · rw [hv', hw']
      exact ⟨fun h => absurd h.symm (hne' _), fun h => absurd h.symm (hne' _)⟩
  · rcases hw' with ⟨ref', rfl, hw'⟩ | ⟨-, hw'⟩
    · rw [hv', hw']
      exact ⟨fun h => absurd h (hne _), fun h => absurd h (hne _)⟩
    · rw [hv', hw']

/-- The numbers among the keys that are sent, and that the symbol table has, are
doubles. -/
def KeysDouble (sym : SymTable) (T : LuaTable) : Prop :=
  ∀ e ∈ T.sent, ∀ n, e.1 = .number n → sym.Has e.1 → n.IsDouble

theorem keysDouble_missing (T : LuaTable) : KeysDouble .missing T := fun e _ _ _ hhas =>
  absurd hhas (not_has_missing e.1)

/-- **The entries that arrive**, where the keys are not affected by the symbol
table: those that no later entry overwrites. -/
theorem mem_received_iff (hp : Packed H o ctx) (hsup : SupportedGraph H o) (hsym : sym.Lawful)
    (hfits : Fits H sym ctx) (hplain : Fits H .missing ctx) {ref : ℕ} (href : H.Reach o (.table ref))
    (hkeys : KeysDouble sym (H.table ref)) {e : LuaValue × LuaValue} :
    e ∈ ((receivedHeap H sym ctx).table (ctx.place ref)).entries ↔
      ∃ a, Last (fun a => a.1.rounded) (H.table ref).sent a ∧
        e = LuaTable.sentAs (recvValue sym ctx) a := by
  have hborder := firstBorder_lt hp hfits href
  have hreach : ∀ a ∈ (H.table ref).sent, H.Reach o a.1 := fun a ha =>
    (reach_entry href ((LuaTable.mem_sent (by omega)).mp ha).1).1
  have hsame : ∀ a ∈ (H.table ref).sent, ∀ b ∈ (H.table ref).sent,
      (recvValue sym ctx a.1).normal = (recvValue sym ctx b.1).normal ↔
        a.1.rounded = b.1.rounded := by
    intro a ha b hb
    rw [normal_eq_of_sameValue (recvValue_same hp hsup hsym hfits hplain (hreach a ha) (hkeys a ha)),
      normal_eq_of_sameValue (recvValue_same hp hsup hsym hfits hplain (hreach b hb) (hkeys b hb))]
    exact recvKey_eq_iff hp hsup hplain (hreach a ha) (hreach b hb)
  rw [mem_receivedHeap hp hsup hsym hfits (getElem?_place hp href), final_iff_last]
  constructor
  · rintro ⟨a, hlast, rfl⟩
    exact ⟨a, hlast.of_keys fun b hb c hc h => (hsame b hb c hc).mpr h, rfl⟩
  · rintro ⟨a, hlast, rfl⟩
    exact ⟨a, hlast.of_keys fun b hb c hc h => (hsame b hb c hc).mp h, rfl⟩

/-- Every key that is sent arrives, whatever the symbol table has. -/
theorem exists_received_key (hp : Packed H o ctx) (hsup : SupportedGraph H o) (hsym : sym.Lawful)
    (hfits : Fits H sym ctx) {ref : ℕ} (href : H.Reach o (.table ref)) {a : LuaValue × LuaValue}
    (ha : a ∈ (H.table ref).sent) :
    ∃ e ∈ ((receivedHeap H sym ctx).table (ctx.place ref)).entries,
      e.1 = (recvValue sym ctx a.1).normal := by
  obtain ⟨b, hlast, hb⟩ := exists_last (fun a => (recvValue sym ctx a.1).normal) ⟨a, ha, rfl⟩
  refine ⟨LuaTable.sentAs (recvValue sym ctx) b, ?_, hb⟩
  rw [mem_receivedHeap hp hsup hsym hfits (getElem?_place hp href), final_iff_last]
  exact ⟨b, hlast, rfl⟩

/-- From a scalar only itself can be reached. -/
theorem reach_scalar {v w : LuaValue} (hv : v.IsScalar) (h : H.Reach v w) : w = v := by
  rcases Relation.ReflTransGen.cases_head h with h | ⟨u, hu, -⟩
  · exact h.symm
  · rcases hv with ⟨n, rfl⟩ | ⟨str, rfl⟩ <;> cases hu

theorem Arrives.isScalar {v r : LuaValue} (h : Arrives ctx v r) (hv : v.IsScalar) : r.IsScalar := by
  cases h with
  | number h => exact Or.inl ⟨_, rfl⟩
  | string str => exact Or.inr ⟨str, rfl⟩
  | table h => rcases hv with ⟨n, h⟩ | ⟨str, h⟩ <;> cases h

/-- The kinds of a root. -/
theorem root_cases (hsup : SupportedGraph H o) (hbool : ∀ b, o ≠ .boolean b) :
    (∃ ref, o = .table ref) ∨ o.IsScalar := by
  have hroot := hsup o Relation.ReflTransGen.refl
  cases o with
  | table ref => exact Or.inl ⟨ref, rfl⟩
  | number n => exact Or.inr (Or.inl ⟨n, rfl⟩)
  | string str => exact Or.inr (Or.inr ⟨str, rfl⟩)
  | boolean b => exact absurd rfl (hbool b)
  | nil => cases hroot
  | other type ref => cases hroot

theorem receivedRoot_eq_recvValue {ref : ℕ} (hp : Packed H (.table ref) ctx)
    (hsup : SupportedGraph H (.table ref)) (hsym : sym.Lawful) (hfits : Fits H sym ctx) :
    receivedRoot sym ctx = recvValue sym ctx (.table ref) := by
  have hhead := hp.head ref rfl
  rw [List.head?_eq_getElem?] at hhead
  rw [receivedRoot_table hp hsym, recvValue_table hp hsup hsym hfits Relation.ReflTransGen.refl,
    ← place_eq hp hhead]

/-! ## Transparent -/

/-- What can be reached of what arrives is what arrives of the values that are
carried. -/
theorem exists_carried {ref : ℕ} (hp : Packed H (.table ref) ctx)
    (hsup : SupportedGraph H (.table ref)) (hsym : sym.Lawful) (hfits : Fits H sym ctx) (hplain : Fits H .missing ctx)
    (hkeys : ∀ ref', H.Carries (.table ref) (.table ref') → KeysDouble sym (H.table ref'))
    {w : LuaValue} (hw : LuaHeap.Reach (receivedHeap H sym ctx) (receivedRoot sym ctx) w) :
    ∃ v, H.Carries (.table ref) v ∧
      (w = recvValue sym ctx v ∨ w = (recvValue sym ctx v).normal) := by
  induction hw with
  | refl =>
      exact ⟨_, Relation.ReflTransGen.refl, Or.inl (receivedRoot_eq_recvValue hp hsup hsym hfits)⟩
  | @tail w u hw hu ih =>
      obtain ⟨v, hv, hwv⟩ := ih
      cases w with
      | table q =>
          have hreach := reach_of_carries hp hfits hv
          obtain ⟨ref', rfl, rfl⟩ := (arrivesAs hp hsup hsym hfits hreach).table_of_eq hwv
          obtain ⟨e, he, hu⟩ := LuaHeap.mem_children.mp hu
          rw [mem_received_iff hp hsup hsym hfits hplain hreach (hkeys ref' hv)] at he
          obtain ⟨a, hlast, rfl⟩ := he
          rcases hu with rfl | rfl
          · exact ⟨a.1, hv.tail (.key hlast.mem), Or.inr rfl⟩
          · exact ⟨a.2, hv.tail (.value hlast), Or.inl rfl⟩
      | _ => cases hu

theorem sameEntries_received_both (hp : Packed H o ctx) (hsup : SupportedGraph H o)
    (hsym : sym.Lawful) (hfits : Fits H sym ctx) (hplain : Fits H .missing ctx)
    (hdouble : ∀ n, H.Carries o (.number n) → sym.Has (.number n) → n.IsDouble) {ref : ℕ}
    (hcarries : H.Carries o (.table ref)) :
    SameEntries id ((receivedHeap H sym ctx).table (ctx.place ref))
      ((receivedHeap H .missing ctx).table (ctx.place ref)) := by
  have href := reach_of_carries hp hfits hcarries
  have hkeys : KeysDouble sym (H.table ref) := by
    rintro e he n hn hhas
    have hpass : H.Carries o e.1 := hcarries.tail (.key he)
    rw [hn] at hpass hhas
    exact hdouble n hpass hhas
  have hsame : ∀ a, Last (fun a => a.1.rounded) (H.table ref).sent a →
      SameValue id (LuaTable.sentAs (recvValue sym ctx) a).1
          (LuaTable.sentAs (recvValue .missing ctx) a).1 ∧
        SameValue id (LuaTable.sentAs (recvValue sym ctx) a).2
          (LuaTable.sentAs (recvValue .missing ctx) a).2 := by
    intro a hlast
    have hk : H.Carries o a.1 := hcarries.tail (.key hlast.mem)
    have hv : H.Carries o a.2 := hcarries.tail (.value hlast)
    have hkreach := reach_of_carries hp hfits hk
    have hkey := recvValue_same hp hsup hsym hfits hplain hkreach (hkeys a hlast.mem)
    have hval := recvValue_same hp hsup hsym hfits hplain (reach_of_carries hp hfits hv) (by
      rintro n hn hhas
      rw [hn] at hv hhas
      exact hdouble n hv hhas)
    refine ⟨?_, hval⟩
    simp only [LuaTable.sentAs, normal_eq_of_sameValue hkey]
    apply sameValue_refl
    rw [LuaValue.isKey_normal]
    exact (recv_spec hp hsup SymTable.missing_lawful hplain hkreach).2.isKey
      SymTable.missing_lawful (hsup _ hkreach)
  have h₁ := @mem_received_iff H o ctx sym hp hsup hsym hfits hplain ref href hkeys
  have h₂ := @mem_received_iff H o ctx .missing hp hsup SymTable.missing_lawful hplain hplain ref href
    (keysDouble_missing _)
  constructor
  · intro e he
    obtain ⟨a, hlast, rfl⟩ := h₁.mp he
    exact ⟨_, h₂.mpr ⟨a, hlast, rfl⟩, hsame a hlast⟩
  · intro e he
    obtain ⟨a, hlast, rfl⟩ := h₂.mp he
    exact ⟨_, h₁.mpr ⟨a, hlast, rfl⟩, hsame a hlast⟩

/-- A scalar that the symbol table does not have arrives the same. -/
theorem sameValue_root_scalar (hp : Packed H o ctx) (hsup : SupportedGraph H o) (hsym : sym.Lawful)
    (hscalar : o.IsScalar) (hnot : ¬ sym.Has o) :
    SameValue id (receivedRoot sym ctx) (receivedRoot .missing ctx) := by
  have hroot := hsup o Relation.ReflTransGen.refl
  have h₁ := (receivedRoot_scalar hp hsym hscalar).2.1 hnot
  have h₂ := (receivedRoot_scalar hp SymTable.missing_lawful hscalar).2.1 (not_has_missing o)
  generalize receivedRoot sym ctx = r₁ at h₁
  generalize receivedRoot .missing ctx = r₂ at h₂
  cases h₁ with
  | @number n m₁ hm₁ =>
      cases h₂ with
      | number hm₂ =>
          have hnan : n.toDouble.value ≠ .nan := LuaNumber.value_toDouble_ne_nan hroot
          simp [SameValue, LuaValue.rawEq, LuaNumber.isNan, hm₁, hm₂, hnan]
  | string str =>
      cases h₂
      exact sameValue_refl rfl
  | table h => rcases hscalar with ⟨n, h⟩ | ⟨str, h⟩ <;> cases h

theorem isomorphic_received (hp : Packed H o ctx) (hsup : SupportedGraph H o) (hsym : sym.Lawful)
    (hfits : Fits H sym ctx) (hplain : Fits H .missing ctx) (hbool : ∀ b, o ≠ .boolean b) (hroot : o.IsScalar → ¬ sym.Has o)
    (hdouble : ∀ n, H.Carries o (.number n) → sym.Has (.number n) → n.IsDouble) :
    Isomorphic (receivedHeap H sym ctx) (receivedRoot sym ctx) (receivedHeap H .missing ctx)
      (receivedRoot .missing ctx) := by
  rcases root_cases hsup hbool with ⟨ref, rfl⟩ | hscalar
  · refine isomorphic_of_sameEntries (f := id) Function.injective_id.injOn ?_ ?_
    · rw [receivedRoot_table hp hsym, receivedRoot_table hp SymTable.missing_lawful]
      rfl
    · intro q hq
      have hkeys : ∀ ref', H.Carries (.table ref) (.table ref') → KeysDouble sym (H.table ref') := by
        intro ref' href' e he n hn hhas
        have hpass : H.Carries (.table ref) e.1 := href'.tail (.key he)
        rw [hn] at hpass hhas
        exact hdouble n hpass hhas
      obtain ⟨v, hv, hqv⟩ := exists_carried hp hsup hsym hfits hplain hkeys hq
      obtain ⟨ref', rfl, rfl⟩ := (arrivesAs hp hsup hsym hfits
        (reach_of_carries hp hfits hv)).table_of_eq hqv
      exact sameEntries_received_both hp hsup hsym hfits hplain hdouble hv
  · have hnot := hroot hscalar
    refine isomorphic_of_sameEntries (f := id) Function.injective_id.injOn
      (sameValue_root_scalar hp hsup hsym hscalar hnot) ?_
    intro q hq
    -- a scalar holds no tables
    have harr := (receivedRoot_scalar hp hsym hscalar).2.1 hnot
    have heq := reach_scalar (harr.isScalar hscalar) hq
    rcases harr.isScalar hscalar with ⟨n, h⟩ | ⟨str, h⟩
    · rw [h] at heq
      cases heq
    · rw [h] at heq
      cases heq

/-! ## Not transparent -/

/-- A number that the symbol table has arrives as it is. -/
theorem isDouble_of_reach (hp : Packed H o ctx) (hsup : SupportedGraph H o) (hsym : sym.Lawful)
    (hfits : Fits H sym ctx)
    (hdoubles : DoublesOnly (receivedHeap H sym ctx) (receivedRoot sym ctx)) {n : LuaNumber}
    (hn : H.Reach o (.number n)) (hhas : sym.Has (.number n)) {w : LuaValue}
    (hw : LuaHeap.Reach (receivedHeap H sym ctx) (receivedRoot sym ctx) w)
    (heq : w = recvValue sym ctx (.number n) ∨ w = (recvValue sym ctx (.number n)).normal) :
    n.IsDouble := by
  have harr := arrivesAs hp hsup hsym hfits hn
  generalize recvValue sym ctx (.number n) = r at harr heq
  cases harr with
  | @known n m _ hval =>
      obtain ⟨k, rfl, hk⟩ : ∃ k : LuaNumber, w = .number k ∧ k.value = n.value := by
        rcases heq with rfl | rfl
        · exact ⟨m, rfl, hval⟩
        · exact ⟨m.normal, rfl, by rw [LuaNumber.value_normal, hval]⟩
      obtain ⟨x, hx⟩ := hdoubles k hw
      exact ⟨x, hx.trans hk⟩
  | rounded hnot _ => exact absurd hhas hnot

/-- If only doubles arrive, everything that is carried arrives. -/
theorem exists_received {ref : ℕ} (hp : Packed H (.table ref) ctx)
    (hsup : SupportedGraph H (.table ref)) (hsym : sym.Lawful) (hfits : Fits H sym ctx) (hplain : Fits H .missing ctx)
    (hdoubles : DoublesOnly (receivedHeap H sym ctx) (receivedRoot sym ctx)) {v : LuaValue}
    (hv : H.Carries (.table ref) v) :
    ∃ w, LuaHeap.Reach (receivedHeap H sym ctx) (receivedRoot sym ctx) w ∧
      (w = recvValue sym ctx v ∨ w = (recvValue sym ctx v).normal) := by
  induction hv with
  | refl =>
      exact ⟨_, Relation.ReflTransGen.refl, Or.inl (receivedRoot_eq_recvValue hp hsup hsym hfits)⟩
  | @tail v u hv hpass ih =>
      obtain ⟨w, hw, hwv⟩ := ih
      have hreach := reach_of_carries hp hfits hv
      -- what a table carries, seen from where it arrives
      have htable : ∀ ref', v = .table ref' →
          (∀ a ∈ (H.table ref').sent, ∃ w, LuaHeap.Reach (receivedHeap H sym ctx)
            (receivedRoot sym ctx) w ∧ w = (recvValue sym ctx a.1).normal) ∧
          ∀ e ∈ ((receivedHeap H sym ctx).table (ctx.place ref')).entries,
            LuaHeap.Reach (receivedHeap H sym ctx) (receivedRoot sym ctx) e.2 := by
        rintro ref' rfl
        have hplace : w = .table (ctx.place ref') := by
          rw [recvValue_table hp hsup hsym hfits hreach] at hwv
          rcases hwv with hwv | hwv
          · exact hwv
          · exact hwv
        rw [hplace] at hw
        constructor
        · intro a ha
          obtain ⟨e, he, hkey⟩ := exists_received_key hp hsup hsym hfits hreach ha
          exact ⟨e.1, hw.tail (LuaHeap.mem_children.mpr ⟨e, he, Or.inl rfl⟩), hkey⟩
        · intro e he
          exact hw.tail (LuaHeap.mem_children.mpr ⟨e, he, Or.inr rfl⟩)
      cases hpass with
      | @key ref' a ha =>
          obtain ⟨w', hw', heq⟩ := (htable ref' rfl).1 a ha
          exact ⟨w', hw', Or.inr heq⟩
      | @value ref' a hlast =>
          have hborder := firstBorder_lt hp hfits hreach
          have hkeys : KeysDouble sym (H.table ref') := by
            intro b hb n hn hhas
            obtain ⟨w', hw', heq⟩ := (htable ref' rfl).1 b hb
            have hbreach := (reach_entry hreach ((LuaTable.mem_sent (by omega)).mp hb).1).1
            rw [hn] at hhas heq hbreach
            exact isDouble_of_reach hp hsup hsym hfits hdoubles hbreach hhas hw' (Or.inr heq)
          have hmem := (mem_received_iff hp hsup hsym hfits hplain hreach hkeys).mpr ⟨a, hlast, rfl⟩
          exact ⟨recvValue sym ctx a.2, (htable ref' rfl).2 _ hmem, Or.inl rfl⟩

theorem doubles_of_isomorphic (hp : Packed H o ctx) (hsup : SupportedGraph H o)
    (hsym : sym.Lawful) (hfits : Fits H sym ctx) (hplain : Fits H .missing ctx) (hbool : ∀ b, o ≠ .boolean b)
    (hiso : Isomorphic (receivedHeap H sym ctx) (receivedRoot sym ctx) (receivedHeap H .missing ctx)
      (receivedRoot .missing ctx)) :
    (o.IsScalar → ¬ sym.Has o) ∧
      ∀ n, H.Carries o (.number n) → sym.Has (.number n) → n.IsDouble := by
  have hroot : o.IsScalar → ¬ sym.Has o := by
    intro hscalar hhas
    have h₁ := (receivedRoot_scalar hp hsym hscalar).1 hhas
    have h₂ := (receivedRoot_scalar hp SymTable.missing_lawful hscalar).2.1 (not_has_missing o)
    obtain ⟨f, -, hsame, -⟩ := hiso
    rw [h₁] at hsame
    rcases h₂.isScalar hscalar with ⟨n, h⟩ | ⟨str, h⟩
    · rw [h] at hsame
      simp [SameValue, LuaValue.rawEq] at hsame
    · rw [h] at hsame
      simp [SameValue, LuaValue.rawEq] at hsame
  refine ⟨hroot, ?_⟩
  intro n hn hhas
  have hdoubles := doublesOnly_of_isomorphic hiso (doublesOnly_received hp hsup hplain hbool)
  have hreach := reach_of_carries hp hfits hn
  rcases root_cases hsup hbool with ⟨ref, rfl⟩ | hscalar
  · obtain ⟨w, hw, heq⟩ := exists_received hp hsup hsym hfits hplain hdoubles hn
    exact isDouble_of_reach hp hsup hsym hfits hdoubles hreach hhas hw heq
  · have heq := reach_scalar hscalar hreach
    rw [heq] at hhas
    exact absurd hhas (hroot hscalar)

end Both

/-! ## Symbol tables are transparent -/

/-- Sending with the symbol table gives the same graph as sending without one. -/
def Transparent (H : LuaHeap) (o : LuaValue) (sym : SymTable) : Prop :=
  ∃ bytes bytes' H₁ o₁ H₂ o₂, objectbufEncode H o sym = .ok bytes ∧
    objectbufDecode bytes sym = .ok (H₁, o₁) ∧ objectbufEncode H o .missing = .ok bytes' ∧
    objectbufDecode bytes' .missing = .ok (H₂, o₂) ∧ Isomorphic H₁ o₁ H₂ o₂

theorem carries_boolean {H : LuaHeap} {b : Bool} {v : LuaValue} (h : H.Carries (.boolean b) v) :
    v = .boolean b := by
  rcases Relation.ReflTransGen.cases_head h with h | ⟨u, hu, -⟩
  · exact h.symm
  · cases hu

theorem transparent_iff {H : LuaHeap} {o : LuaValue} {sym : SymTable} {bytes bytes' : List UInt8}
    (hsup : SupportedGraph H o) (hsym : sym.Lawful) (henc : objectbufEncode H o sym = .ok bytes)
    (hlen : bytes.length < 2 ^ 32) (henc' : objectbufEncode H o .missing = .ok bytes')
    (hlen' : bytes'.length < 2 ^ 32) (hspace : IndexSpace H o sym) :
    Transparent H o sym ↔ (o.IsScalar → ¬ sym.Has o) ∧
      ∀ n, H.Carries o (.number n) → sym.Has (.number n) → n.IsDouble := by
  by_cases hbool : ∃ b, o = .boolean b
  · obtain ⟨b, rfl⟩ := hbool
    have hdecode : ∀ sym, objectbufDecode (if b then [1] else []) sym = .ok ([], .boolean b) := by
      intro sym
      cases b <;> rfl
    constructor
    · intro _
      constructor
      · rintro (⟨n, h⟩ | ⟨str, h⟩) <;> cases h
      · intro n hn
        cases carries_boolean hn
    · intro _
      exact ⟨_, _, [], .boolean b, [], .boolean b, rfl, hdecode sym, rfl, hdecode .missing,
        isomorphic_boolean [] [] b⟩
  · have hbool' : ∀ b, o ≠ .boolean b := fun b hb => hbool ⟨b, hb⟩
    -- both start from the same lists
    obtain ⟨ctx, -, hctx, hp, -⟩ := exists_encode hsup sym
    have hfits := fits_of_short hbool' hctx henc hlen (Or.inr hspace)
    have hplain := fits_of_short hbool' hctx henc' hlen' (Or.inl rfl)
    obtain rfl := encode_eq hbool' hctx henc
    obtain rfl := encode_eq hbool' hctx henc'
    have hdec := sent_received hp hsup hsym hfits hbool'
    have hdec' := sent_received hp hsup SymTable.missing_lawful hplain hbool'
    constructor
    · rintro ⟨b, b', H₁, o₁, H₂, o₂, he, hd, he', hd', hiso⟩
      rw [henc] at he
      cases he
      rw [hdec] at hd
      cases hd
      rw [henc'] at he'
      cases he'
      rw [hdec'] at hd'
      cases hd'
      exact doubles_of_isomorphic hp hsup hsym hfits hplain hbool' hiso
    · rintro ⟨hroot, hdouble⟩
      exact ⟨_, _, _, _, _, _, henc, hdec, henc', hdec',
        isomorphic_received hp hsup hsym hfits hplain hbool' hroot hdouble⟩

/-- **A symbol table is transparent** for a supported value whose encodings are shorter than `2 ^ 32` bytes if
and only if the value is no string or number of the sample and carries no number of
the sample that is no double. -/
theorem objectbuf_symbol_transparent {Hs H : LuaHeap} {sample o : LuaValue} {sym : SymTable}
    {bytes bytes' : List UInt8} (hsym : symbol Hs sample = .ok sym) (hsup : SupportedGraph H o)
    (henc : objectbufEncode H o sym = .ok bytes) (hlen : bytes.length < 2 ^ 32)
    (henc' : objectbufEncode H o .missing = .ok bytes') (hlen' : bytes'.length < 2 ^ 32)
    (hspace : IndexSpace H o sym) :
    Transparent H o sym ↔ (o.IsScalar → ¬ InSample Hs sample o) ∧
      ∀ n, H.Carries o (.number n) → InSample Hs sample (.number n) → n.IsDouble := by
  rw [transparent_iff hsup (symbol_lawful hsym) henc hlen henc' hlen' hspace]
  constructor
  · rintro ⟨hroot, hdouble⟩
    refine ⟨fun hscalar h => hroot hscalar ((symbol_has hsym hscalar).mpr h), fun n hn h => ?_⟩
    exact hdouble n hn ((symbol_has hsym (Or.inl ⟨n, rfl⟩)).mpr h)
  · rintro ⟨hroot, hdouble⟩
    refine ⟨fun hscalar h => hroot hscalar ((symbol_has hsym hscalar).mp h), fun n hn h => ?_⟩
    exact hdouble n hn ((symbol_has hsym (Or.inl ⟨n, rfl⟩)).mp h)

/-- The symbol table of the sample `"x"`. -/
def symbolX : SymTable where
  map := boolIndices.set (.string "x".toUTF8.toList) 3
  vk := [.string "x".toUTF8.toList]
  index := 3
  two_le_index := by omega

theorem symbol_x : symbol [] (.string "x".toUTF8.toList) = .ok symbolX := rfl

/-- The cyclic graph, which has `"x"`. -/
theorem objectbuf_symbol_transparent_cyclic :
    symbol [] (.string "x".toUTF8.toList) = .ok symbolX ∧
      SupportedGraph cyclicHeap (.table 0) ∧ Transparent cyclicHeap (.table 0) symbolX := by
  obtain ⟨bytes, henc, hlen, hspace⟩ := @encode_cyclic symbolX (by decide)
  obtain ⟨bytes', henc', hlen', -⟩ := @encode_cyclic .missing (by decide)
  refine ⟨symbol_x, supportedGraph_cyclic,
    (objectbuf_symbol_transparent symbol_x supportedGraph_cyclic henc hlen henc' hlen' hspace).mpr ⟨?_, ?_⟩⟩
  · rintro (⟨n, h⟩ | ⟨str, h⟩) <;> cases h
  · intro n _ hn
    -- the sample has no numbers
    obtain ⟨w, hw, heq⟩ := hn
    rw [reach_scalar (Or.inr ⟨_, rfl⟩) hw] at heq
    simp [LuaValue.rawEq] at heq

theorem graphSize_x : graphSize [] (.string "x".toUTF8.toList) ≤ 17 := by
  have hsize := graphSize_le [] (.string "x".toUTF8.toList)
  have hroot : (LuaValue.string "x".toUTF8.toList).size = 17 := by decide +kernel
  simp only [List.length_nil, Finset.range_zero, Finset.sum_empty] at hsize
  omega

/-- The string `"x"` itself is lost. -/
theorem objectbuf_symbol_loses_scalar :
    symbol [] (.string "x".toUTF8.toList) = .ok symbolX ∧
      SupportedGraph [] (.string "x".toUTF8.toList) ∧
      ¬ Transparent [] (.string "x".toUTF8.toList) symbolX := by
  have hsup : SupportedGraph [] (.string "x".toUTF8.toList) := by
    intro v hv
    rw [reach_scalar (Or.inr ⟨_, rfl⟩) hv]
    trivial
  have hsize := graphSize_x
  have hindex : symbolX.index = 3 := rfl
  have hmissing : SymTable.missing.index = 2 := rfl
  obtain ⟨-, bytes, -, -, henc⟩ := exists_encode hsup symbolX
  obtain ⟨-, bytes', -, -, henc'⟩ := exists_encode hsup .missing
  obtain ⟨hlen, hspace⟩ := encode_short hsup (by omega) henc
  obtain ⟨hlen', -⟩ := encode_short hsup (by omega) henc'
  refine ⟨symbol_x, hsup, ?_⟩
  rw [transparent_iff hsup (symbol_lawful symbol_x) henc hlen henc' hlen' hspace]
  rintro ⟨hroot, -⟩
  apply hroot (Or.inr ⟨_, rfl⟩)
  rw [symbol_has symbol_x (Or.inr ⟨_, rfl⟩)]
  exact ⟨_, Relation.ReflTransGen.refl, by simp [LuaValue.rawEq]⟩

end LuaFan
