/-
# The entries of the tables that arrive

A table is rebuilt from assignments, and of several assignments to one key the last
one counts (`mem_assignAll`).  The entries that are sent are those of the array part
and of the hash part: all entries **apart from those whose key is a string that
reads as the index of an array element** (`mem_sent`).

`mem_rebuilt` says what the entries of a rebuilt table are.
-/
import LuaFan.Objectbuf.Graph

namespace LuaFan

open Fp

/-! ## The last assignment counts -/

/-- An assignment that no later one to the same key undoes. -/
def Final {κ α : Type} (es : List (κ × α)) (e : κ × α) : Prop :=
  ∃ pre post, es = pre ++ e :: post ∧ ∀ b ∈ post, b.1 ≠ e.1

section Final

variable {κ α β : Type} {es : List (κ × α)} {e : κ × α}

theorem Final.mem (h : Final es e) : e ∈ es := by
  obtain ⟨pre, post, rfl, -⟩ := h
  simp

theorem not_final_nil : ¬ Final [] e := by
  rintro ⟨pre, post, h, -⟩
  simp at h

theorem final_cons {a : κ × α} :
    Final (a :: es) e ↔ (e = a ∧ ∀ b ∈ es, b.1 ≠ a.1) ∨ Final es e := by
  constructor
  · rintro ⟨pre, post, h, hpost⟩
    cases pre with
    | nil =>
        rw [List.nil_append, List.cons.injEq] at h
        obtain ⟨rfl, rfl⟩ := h
        exact Or.inl ⟨rfl, hpost⟩
    | cons p pre =>
        rw [List.cons_append, List.cons.injEq] at h
        exact Or.inr ⟨pre, post, h.2, hpost⟩
  · rintro (⟨rfl, hes⟩ | ⟨pre, post, rfl, hpost⟩)
    · exact ⟨[], es, rfl, hes⟩
    · exact ⟨a :: pre, post, rfl, hpost⟩

theorem final_map {g : β → κ × α} {l : List β} :
    Final (l.map g) e ↔
      ∃ pre a post, l = pre ++ a :: post ∧ e = g a ∧ ∀ b ∈ post, (g b).1 ≠ (g a).1 := by
  constructor
  · rintro ⟨pre, post, h, hpost⟩
    obtain ⟨l₁, l₂, rfl, rfl, h₂⟩ := List.map_eq_append_iff.mp h
    obtain ⟨a, l₃, rfl, rfl, rfl⟩ := List.map_eq_cons_iff.mp h₂
    exact ⟨l₁, a, l₃, rfl, rfl, fun b hb => hpost _ (List.mem_map_of_mem hb)⟩
  · rintro ⟨pre, a, post, rfl, rfl, hpost⟩
    refine ⟨pre.map g, post.map g, by simp, ?_⟩
    intro b hb
    obtain ⟨c, hc, rfl⟩ := List.mem_map.mp hb
    exact hpost c hc

end Final

/-- The entry that an assignment stores. -/
def stored (e : LuaValue × LuaValue) : LuaValue × LuaValue := (e.1.normal, e.2)

/-- **The entries after a sequence of assignments.** -/
theorem LuaTable.mem_assignAll {e : LuaValue × LuaValue} (es : List (LuaValue × LuaValue))
    (hes : ∀ a ∈ es, a.1.isKey = true ∧ a.2 ≠ .nil) :
    ∀ T, e ∈ (assignAll es T).entries ↔
      Final (es.map stored) e ∨ (e ∈ T.entries ∧ ∀ b ∈ es, b.1.normal ≠ e.1) := by
  induction es with
  | nil =>
      intro T
      simp [assignAll, not_final_nil]
  | cons a es ih =>
      intro T
      obtain ⟨hkey, hnil⟩ := hes a List.mem_cons_self
      have hrest := ih (fun b hb => hes b (List.mem_cons_of_mem a hb)) (T.rawset a.1 a.2 hkey)
      rw [assignAll, dif_pos hkey, hrest, mem_rawset, List.map_cons, final_cons]
      constructor
      · rintro (h | ⟨⟨h, hne⟩ | ⟨rfl, -⟩, hlater⟩)
        · exact Or.inl (Or.inr h)
        · refine Or.inr ⟨h, ?_⟩
          intro b hb
          rcases List.mem_cons.mp hb with rfl | hb
          · exact hne.symm
          · exact hlater b hb
        · refine Or.inl (Or.inl ⟨rfl, ?_⟩)
          intro b hb
          obtain ⟨c, hc, rfl⟩ := List.mem_map.mp hb
          exact hlater c hc
      · rintro ((⟨rfl, hlater⟩ | h) | ⟨h, hlater⟩)
        · refine Or.inr ⟨Or.inr ⟨rfl, hnil⟩, ?_⟩
          intro b hb
          exact hlater _ (List.mem_map_of_mem hb)
        · exact Or.inl h
        · exact Or.inr ⟨Or.inl ⟨h, (hlater a List.mem_cons_self).symm⟩,
            fun b hb => hlater b (List.mem_cons_of_mem a hb)⟩

/-! ## The entries that are sent -/

/-- The entries that are sent, in order. -/
def LuaTable.sent (T : LuaTable) : List (LuaValue × LuaValue) :=
  ((T.arrayPart.zipIdx 1).map fun p => (intKey p.2, p.1)) ++ T.hashPart

/-- A string key that the test for the array part takes for an array element. -/
def LuaTable.Shadowed (T : LuaTable) (key : LuaValue) : Prop :=
  (∃ s, key = .string s) ∧ inArrayPart (firstBorder T.entries) key = true

theorem inArrayPart_of_zero {count : ℕ} {key : LuaValue} (h : luaTonumber key = ofInt 0) :
    inArrayPart count key = false := by
  have hval : (ofInt 0).value = .fin 0 := by
    have := value_ofInt_natCast (n := 0) (by omega)
    simpa [intValue] using this
  simp [inArrayPart, h, hval]

theorem inArrayPart_string_or_number {count : ℕ} {key : LuaValue} (h : inArrayPart count key = true) :
    (∃ s, key = .string s) ∨ ∃ n, key = .number n := by
  cases key with
  | string s => exact Or.inl ⟨s, rfl⟩
  | number n => exact Or.inr ⟨n, rfl⟩
  | _ =>
      rw [inArrayPart_of_zero rfl] at h
      cases h

/-- What converts to one of the indices passes the test. -/
theorem inArrayPart_of_value {count k : ℕ} {key : LuaValue} (hk : 0 < k) (hle : k ≤ count)
    (hval : (luaTonumber key).value = intValue k) : inArrayPart count key = true := by
  have hpos : (0 : ℤ) < unitsPerOne := Int.natCast_pos.mpr unitsPerOne_pos
  have hle' : (k : ℤ) * unitsPerOne ≤ count * unitsPerOne :=
    mul_le_mul_of_nonneg_right (by exact_mod_cast hle) hpos.le
  have hlow : 0 < (k : ℤ) * unitsPerOne := mul_pos (by exact_mod_cast hk) hpos
  simp only [inArrayPart, hval, intValue, Int.mul_emod_left, hlow, hle', and_self, decide_true]

/-- A number passes the test when it is one of the indices. -/
theorem inArrayPart_number {count : ℕ} (hcount : count < 2 ^ 32) (n : LuaNumber) :
    inArrayPart count (.number n) = true ↔ ∃ k : ℕ, 0 < k ∧ k ≤ count ∧ n.value = intValue k := by
  have hpos : (0 : ℤ) < unitsPerOne := Int.natCast_pos.mpr unitsPerOne_pos
  constructor
  · intro h
    have hz : ∃ z, n.toDouble.value = .fin z ∧ z % unitsPerOne = 0 ∧ 0 < z ∧
        z ≤ count * unitsPerOne := by
      rw [inArrayPart, luaTonumber] at h
      split at h
      · rename_i z hz
        exact ⟨z, hz, by simpa using h⟩
      · cases h
    obtain ⟨z, hz, hmod, hlow, hhigh⟩ := hz
    have hu30 : n.isU30 = true := by
      rw [LuaNumber.isU30, hz]
      have hlt : z < 2 ^ 32 * unitsPerOne := by
        have : (count : ℤ) * unitsPerOne < 2 ^ 32 * unitsPerOne :=
          mul_lt_mul_of_pos_right (by exact_mod_cast hcount) hpos
        omega
      simp only [hmod, hlow.le, hlt, and_self, decide_true]
    obtain ⟨k, hk, hval⟩ := (LuaNumber.isU30_iff n).mp hu30
    have hdouble : n.IsDouble := ⟨ofInt k, by rw [hval, value_ofInt_natCast (by omega)]⟩
    rw [(LuaNumber.value_toDouble_iff n).mpr hdouble, hval, intValue, Value.fin.injEq] at hz
    subst hz
    refine ⟨k, ?_, ?_, hval⟩
    · exact_mod_cast (pos_iff_pos_of_mul_pos hlow).mpr hpos
    · exact_mod_cast le_of_mul_le_mul_right hhigh hpos
  · rintro ⟨k, hk, hle, hval⟩
    have hdouble : n.IsDouble := ⟨ofInt k, by rw [hval, value_ofInt_natCast (by omega)]⟩
    apply inArrayPart_of_value hk hle
    rw [luaTonumber, (LuaNumber.value_toDouble_iff n).mpr hdouble, hval]

namespace LuaTable

variable {T : LuaTable}

theorem mem_arrayEntries {e : LuaValue × LuaValue} :
    e ∈ (T.arrayPart.zipIdx 1).map (fun p => (intKey p.2, p.1)) ↔
      ∃ i : ℕ, i < firstBorder T.entries ∧ e = (intKey (i + 1 : ℕ), rawGetI T.entries (i + 1)) := by
  rw [List.mem_map]
  constructor
  · rintro ⟨p, hp, rfl⟩
    obtain ⟨h₁, h₂, h₃⟩ := List.mem_zipIdx hp
    rw [length_arrayPart] at h₂
    refine ⟨p.2 - 1, by omega, ?_⟩
    rw [h₃]
    simp only [arrayPart, List.getElem_map, List.getElem_range]
    rw [Nat.sub_add_cancel h₁]
  · rintro ⟨i, hi, rfl⟩
    refine ⟨(rawGetI T.entries ((i : ℤ) + 1), i + 1), ?_, by simp only⟩
    rw [List.mk_mem_zipIdx_iff_le_and_getElem?_sub]
    refine ⟨by omega, ?_⟩
    rw [Nat.add_sub_cancel, arrayPart, List.getElem?_map, List.getElem?_range hi]
    rfl

/-- **All entries are sent but those with a shadowed key.** -/
theorem mem_sent (hcount : firstBorder T.entries < 2 ^ 32) {e : LuaValue × LuaValue} :
    e ∈ T.sent ↔ e ∈ T.entries ∧ ¬ T.Shadowed e.1 := by
  rw [sent, List.mem_append, mem_arrayEntries]
  constructor
  · rintro (⟨i, hi, rfl⟩ | h)
    · refine ⟨(T.exists_of_lt_firstBorder hi).2, ?_⟩
      rintro ⟨⟨s, hs⟩, -⟩
      cases hs
    · obtain ⟨hmem, hnot⟩ := List.mem_filter.mp h
      refine ⟨hmem, ?_⟩
      rintro ⟨-, hin⟩
      rw [hin] at hnot
      cases hnot
  · rintro ⟨hmem, hshadow⟩
    by_cases hin : inArrayPart (firstBorder T.entries) e.1 = true
    · left
      rcases inArrayPart_string_or_number hin with hs | ⟨n, hn⟩
      · exact absurd ⟨hs, hin⟩ hshadow
      · rw [hn] at hin
        obtain ⟨k, hk, hle, hval⟩ := (inArrayPart_number hcount n).mp hin
        have hk64 : (Int64.ofInt (k : ℤ)).toInt = k := Int64.toInt_ofInt_of_le (by omega) (by omega)
        have hkey : e.1 = intKey k := by
          rw [← T.normal e hmem, hn, LuaValue.normal, LuaNumber.normal,
            LuaNumber.toInteger_of_value (i := Int64.ofInt k) (by rw [hk64, hval])]
          rfl
        have hget := T.rawGetI_eq (i := k) (v := e.2) (by omega) (by rw [← hkey]; exact hmem)
        refine ⟨k - 1, by omega, ?_⟩
        have hcast : ((k - 1 : ℕ) : ℤ) + 1 = k := by omega
        rw [hcast, hget, Nat.sub_add_cancel hk, ← hkey]
    · exact Or.inr (List.mem_filter.mpr ⟨hmem, by simpa using hin⟩)

theorem nodup_sent (hcount : firstBorder T.entries < 2 ^ 32) : (T.sent.map Prod.fst).Nodup := by
  rw [sent, List.map_append, List.nodup_append]
  refine ⟨?_, T.nodup.sublist (List.filter_sublist.map Prod.fst), ?_⟩
  · -- the indices are different
    rw [List.map_map]
    refine List.Nodup.map_on ?_ (List.Nodup.of_map Prod.snd ?_)
    · intro p hp q hq hpq
      obtain ⟨hp₁, hp₂, hp₃⟩ := List.mem_zipIdx hp
      obtain ⟨hq₁, hq₂, hq₃⟩ := List.mem_zipIdx hq
      rw [length_arrayPart] at hp₂ hq₂
      have := intKey_inj (by omega) (by omega) hpq
      apply Prod.ext
      · rw [hp₃, hq₃]
        simp only [this]
      · exact this
    · rw [List.zipIdx_map_snd]
      exact List.nodup_range'
  · intro k hk k' hk' heq
    subst heq
    obtain ⟨e, he, rfl⟩ := List.mem_map.mp hk
    obtain ⟨e', he', heq⟩ := List.mem_map.mp hk'
    obtain ⟨i, hi, rfl⟩ := mem_arrayEntries.mp he
    have hnot := (List.mem_filter.mp he').2
    have hi64 : (Int64.ofInt ((i + 1 : ℕ) : ℤ)).toInt = (i + 1 : ℕ) :=
      Int64.toInt_ofInt_of_le (by omega) (by omega)
    have hin : inArrayPart (firstBorder T.entries) (intKey (i + 1 : ℕ)) = true :=
      (inArrayPart_number hcount _).mpr ⟨i + 1, by omega, by omega, by rw [LuaNumber.value, hi64]⟩
    rw [heq, hin] at hnot
    cases hnot

/-! ## The entries that arrive -/

/-- What arrives of an entry. -/
def sentAs (recv : LuaValue → LuaValue) (e : LuaValue × LuaValue) : LuaValue × LuaValue :=
  ((recv e.1).normal, recv e.2)

/-- What is received of the entries of a table can be stored, and the indices of the
array part, which are not sent, are received as themselves. -/
structure Storable (recv : LuaValue → LuaValue) (T : LuaTable) : Prop where
  isKey : ∀ e ∈ T.sent, (recv e.1).isKey = true
  ne_nil : ∀ e ∈ T.sent, recv e.2 ≠ .nil
  index : ∀ i < firstBorder T.entries, (recv (intKey (i + 1 : ℕ))).normal = intKey (i + 1 : ℕ)

theorem received_stored {recv : LuaValue → LuaValue} (h : Storable recv T) :
    (T.received recv).map stored = T.sent.map (sentAs recv) := by
  rw [received, sent, List.map_append, List.map_append, List.map_map, List.map_map, List.map_map]
  congr 1
  apply List.map_congr_left
  intro p hp
  obtain ⟨h₁, h₂, -⟩ := List.mem_zipIdx hp
  rw [length_arrayPart] at h₂
  have := h.index (p.2 - 1) (by omega)
  rw [Nat.sub_add_cancel h₁] at this
  simp only [Function.comp_apply, stored, sentAs, normal_intKey, this]

/-- **The entries of a rebuilt table.** -/
theorem mem_rebuilt {recv : LuaValue → LuaValue} (h : Storable recv T) {e : LuaValue × LuaValue} :
    e ∈ (T.rebuilt recv).entries ↔ Final (T.sent.map (sentAs recv)) e := by
  have hes : ∀ a ∈ T.received recv, a.1.isKey = true ∧ a.2 ≠ .nil := by
    intro a ha
    have hmem := List.mem_map_of_mem (f := stored) ha
    rw [received_stored h] at hmem
    obtain ⟨e, he, heq⟩ := List.mem_map.mp hmem
    have hkey := congrArg Prod.fst heq
    have hval := congrArg Prod.snd heq
    simp only [sentAs, stored] at hkey hval
    rw [← LuaValue.isKey_normal, ← hkey, LuaValue.isKey_normal, ← hval]
    exact ⟨h.isKey e he, h.ne_nil e he⟩
  rw [rebuilt, mem_assignAll _ hes, received_stored h]
  simp

end LuaTable

/-! ## The tables of a graph -/

section Sent

variable {H : LuaHeap} {o : LuaValue} {ctx : Ctx} {sym : SymTable}

theorem ReceivedAs.ne_nil {v r : LuaValue} (h : ReceivedAs sym ctx v r) (hsym : sym.Lawful)
    (hv : v.Supported H) : r ≠ .nil := by
  rintro rfl
  have := h.isKey hsym hv
  cases this

/-- A number that is a double arrives as an equal number. -/
theorem ReceivedAs.normal_eq {n : LuaNumber} {r : LuaValue} (h : ReceivedAs sym ctx (.number n) r)
    (hnan : n.isNan = false) (hdouble : n.IsDouble) : r.normal = (LuaValue.number n).normal := by
  rcases h with ⟨b, h, -⟩ | ⟨-, -, heq⟩ | ⟨-, harr⟩
  · cases h
  · exact normal_eq_of_rawEq heq
  · cases harr with
    | @number n m h =>
        have hval : m.value = n.value := h.trans ((LuaNumber.value_toDouble_iff n).mpr hdouble)
        have hm : m.value ≠ .nan := by
          rw [hval]
          simpa [LuaNumber.isNan] using hnan
        simp only [LuaValue.normal, LuaNumber.normal_eq_of_value_eq hval hm]

theorem firstBorder_lt (hp : Packed H o ctx) (hfits : Fits H sym ctx) {ref : ℕ} (href : H.Reach o (.table ref)) :
    firstBorder (H.table ref).entries < 2 ^ 32 := by
  obtain ⟨h₁, h₂⟩ := length_tableBytes_le H sym (hp.mem_tables href)
  have h₃ := hfits.length
  rw [bodyOps_bytes] at h₃
  simp only [List.length_append] at h₃
  simp only [LuaHeap.tableOf] at h₁ h₂
  omega

/-- An index of an array element is a double. -/
theorem isDouble_intKey {k : ℕ} (hk : k ≤ 2 ^ 32) :
    (LuaNumber.integer (Int64.ofInt k)).IsDouble := by
  have hk64 : (Int64.ofInt (k : ℤ)).toInt = k := Int64.toInt_ofInt_of_le (by omega) (by omega)
  exact ⟨ofInt k, by rw [LuaNumber.value, hk64, value_ofInt_natCast (by omega)]⟩

theorem storable (hp : Packed H o ctx) (hsup : SupportedGraph H o) (hsym : sym.Lawful)
    (hfits : Fits H sym ctx) {ref : ℕ} (href : H.Reach o (.table ref)) :
    LuaTable.Storable (recvValue sym ctx) (H.table ref) := by
  have hborder := firstBorder_lt hp hfits href
  have hentry : ∀ e ∈ (H.table ref).sent, H.Reach o e.1 ∧ H.Reach o e.2 := fun e he =>
    reach_entry href ((LuaTable.mem_sent (by omega)).mp he).1
  constructor
  · intro e he
    have hreach := (hentry e he).1
    exact (recv_spec hp hsup hsym hfits hreach).2.isKey hsym (hsup _ hreach)
  · intro e he
    have hreach := (hentry e he).2
    exact (recv_spec hp hsup hsym hfits hreach).2.ne_nil hsym (hsup _ hreach)
  · intro i hi
    have hreach := (reach_entry href ((H.table ref).exists_of_lt_firstBorder hi).2).1
    have hrecv := (recv_spec hp hsup hsym hfits hreach).2
    exact hrecv.normal_eq (hsup _ hreach) (isDouble_intKey (by omega))

theorem receivedHeap_table {q ref : ℕ} (h : ctx.tables[q]? = some (.table ref)) :
    (receivedHeap H sym ctx).table q = (H.table ref).rebuilt (recvValue sym ctx) := by
  rw [LuaHeap.table, receivedHeap, List.getD_eq_getElem?_getD, List.getElem?_map, h]
  rfl

/-- Only the tables of the list arrive with entries. -/
theorem exists_of_mem_receivedHeap (hp : Packed H o ctx) {q : ℕ} {e : LuaValue × LuaValue}
    (he : e ∈ ((receivedHeap H sym ctx).table q).entries) :
    ∃ ref, ctx.tables[q]? = some (.table ref) := by
  cases hq : ctx.tables[q]? with
  | some t =>
      obtain ⟨ref, rfl⟩ := hp.good.kinds.tables t (List.mem_of_getElem? hq)
      exact ⟨ref, rfl⟩
  | none =>
      rw [LuaHeap.table, receivedHeap, List.getD_eq_getElem?_getD, List.getElem?_map, hq] at he
      cases he

/-- **The entries of the tables that arrive.** -/
theorem mem_receivedHeap (hp : Packed H o ctx) (hsup : SupportedGraph H o) (hsym : sym.Lawful)
    (hfits : Fits H sym ctx) {q ref : ℕ} (h : ctx.tables[q]? = some (.table ref))
    {e : LuaValue × LuaValue} :
    e ∈ ((receivedHeap H sym ctx).table q).entries ↔
      Final ((H.table ref).sent.map (LuaTable.sentAs (recvValue sym ctx))) e := by
  have href := hp.reach_tables (List.mem_of_getElem? h)
  rw [receivedHeap_table h, LuaTable.mem_rebuilt (storable hp hsup hsym hfits href)]

end Sent

end LuaFan
