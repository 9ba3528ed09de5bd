/-
# Values that objectbuf does not support

`packer` passes over a function, a userdata or a thread, and the value is written with
index 0, which no value has.  What is decoded holds data only (`decode_data`), so such a
value never comes back.  NaN is different: it cannot be put into the map of numbers, and
encoding raises an error (`encode_nan`).

* `objectbuf_faithful_or_fails`: encoding fails or is faithful **exactly if** there is a
  NaN in the graph, or all of it is supported, its numbers are doubles and no string key
  is taken for an array element;
* `objectbuf_function_not_faithful`: a function is written as `false`.
-/
import LuaFan.Objectbuf.Loops
import LuaFan.Objectbuf.RoundTrip

namespace LuaFan

open Fp

/-- Encoding raises an error, or what it returns decodes to the same graph. -/
def FaithfulOrFails (H : LuaHeap) (o : LuaValue) : Prop :=
  (∃ msg, objectbufEncode H o .missing = .error msg) ∨ ComesBack H o

/-- There is a NaN in the graph. -/
def HasNan (H : LuaHeap) (o : LuaValue) : Prop := ∃ n, H.Reach o (.number n) ∧ n.isNan = true

/-- Not a function, a userdata or a thread. -/
def LuaValue.IsData (v : LuaValue) : Prop := ∀ type ref, v ≠ .other type ref

/-- A table with data only. -/
def LuaTable.DataOnly (T : LuaTable) : Prop := ∀ e ∈ T.entries, e.1.IsData ∧ e.2.IsData

/-! ## What is decoded -/

section Decoded

theorem dataOnly_new : (LuaTable.new none).DataOnly := by
  intro e he
  cases he

theorem LuaTable.DataOnly.rawset {T T' : LuaTable} (h : T.DataOnly) {k v : LuaValue} (hk : k.IsData)
    (hv : v.IsData) (hset : rawsetChecked T k v = .ok T') : T'.DataOnly := by
  unfold rawsetChecked at hset
  split at hset
  · cases hset
    intro e he
    rcases mem_rawset.mp he with ⟨he, -⟩ | ⟨rfl, -⟩
    · exact h e he
    · refine ⟨?_, hv⟩
      -- the normal form of a key is of the same kind
      intro type ref heq
      cases k with
      | other type' ref' => exact hk type' ref' rfl
      | _ => cases heq
  · cases hset

variable {lookup : ℕ → Option LuaValue}

/-- A round of the hash part assigns what two indices lead to. -/
theorem hashEntry_ok {s s' : List UInt8 × LuaTable} (h : hashEntry lookup s = .ok s') :
    ∃ ki vi k v, lookup ki = some k ∧ lookup vi = some v ∧ rawsetChecked s.2 k v = .ok s'.2 := by
  unfold hashEntry at h
  split at h
  · cases h
  · split at h
    · cases h
    · split at h
      · cases h
      · split at h
        · cases h
        · rename_i k hk _ v hv
          cases hset : rawsetChecked s.2 k v with
          | error e =>
              rw [hset] at h
              cases h
          | ok T =>
              rw [hset] at h
              cases h
              exact ⟨_, _, k, v, hk, hv, hset⟩

variable (hlookup : ∀ i v, lookup i = some v → v.IsData)

include hlookup

theorem dataOnly_arrayPart (n : ℕ) : ∀ (j : ℕ) (d : List UInt8) (T : LuaTable) (s : List UInt8 × LuaTable),
    T.DataOnly → decodeArrayPart lookup n j d T = .ok s → s.2.DataOnly := by
  induction n with
  | zero =>
      intro j d T s hT h
      cases h
      exact hT
  | succ n ih =>
      intro j d T s hT h
      rw [decodeArrayPart] at h
      cases hread : getU30 d with
      | none => simp [hread] at h
      | some r =>
          obtain ⟨vi, d'⟩ := r
          cases hv : lookup vi.toNat with
          | none => simp [hread, hv] at h
          | some v =>
              cases hset : rawsetChecked T (intKey j) v with
              | error e => simp [hread, hv, hset] at h
              | ok T' =>
                  simp only [hread, hv, hset] at h
                  have hkey : (intKey j).IsData := by
                    intro type ref heq
                    cases heq
                  exact ih _ _ _ _ (hT.rawset hkey (hlookup _ _ hv) hset) h

theorem dataOnly_hashPart (rounds : ℕ) : ∀ (d : List UInt8) (T T' : LuaTable), T.DataOnly →
    decodeHashPart lookup rounds d T = .ok T' → T'.DataOnly := by
  induction rounds with
  | zero =>
      intro d T T' hT h
      cases d with
      | nil =>
          cases h
          exact hT
      | cons b bs => cases h
  | succ rounds ih =>
      intro d T T' hT h
      cases d with
      | nil =>
          cases h
          exact hT
      | cons b bs =>
          rcases hashEntry_eq lookup (List.cons_ne_nil b bs) T with
            ⟨e, -, hpart, -⟩ | ⟨d', T₁, hentry, -, hpart, -⟩
          · rw [hpart] at h
            cases h
          · rw [hpart] at h
            refine ih d' T₁ T' ?_ h
            obtain ⟨ki, vi, k, v, hk, hv, hset⟩ := hashEntry_ok hentry
            exact hT.rawset (hlookup ki k hk) (hlookup vi v hv) hset

theorem dataOnly_table {d : List UInt8} {T : LuaTable} (h : decodeTable lookup d = .ok T) :
    T.DataOnly := by
  unfold decodeTable at h
  cases hread : getU30 d with
  | none => simp [hread] at h
  | some r =>
      obtain ⟨count, d'⟩ := r
      cases harray : decodeArrayPart lookup count.toNat 1 d' (LuaTable.new none) with
      | error e => simp [hread, harray] at h
      | ok s =>
          simp only [hread, harray] at h
          have hs := dataOnly_arrayPart hlookup _ _ _ _ _ dataOnly_new harray
          exact dataOnly_hashPart hlookup _ _ _ _ hs h

theorem dataOnly_bodies (n : ℕ) : ∀ (input : List UInt8) (H : LuaHeap),
    decodeBodies lookup n input = .ok H → ∀ T ∈ H, T.DataOnly := by
  induction n with
  | zero =>
      intro input H h
      cases h
      intro T hT
      cases hT
  | succ n ih =>
      intro input H h
      rw [decodeBodies] at h
      cases hread : getBytes input with
      | none => simp [hread] at h
      | some r =>
          obtain ⟨d, rest⟩ := r
          cases htable : decodeTable lookup d with
          | error e => simp [hread, htable] at h
          | ok T =>
              cases hrest : decodeBodies lookup n rest with
              | error e => simp [hread, htable, hrest] at h
              | ok Ts =>
                  simp only [hread, htable, hrest, Except.ok.injEq] at h
                  subst h
                  intro T' hT'
                  rcases List.mem_cons.mp hT' with rfl | hT'
                  · exact dataOnly_table hlookup htable
                  · exact ih rest Ts hrest T' hT'

end Decoded

theorem isData_lookup {values : List LuaValue} (hvalues : ∀ v ∈ values, v.IsData) (i : ℕ) (v : LuaValue)
    (h : lookupIndex .missing values i = some v) : v.IsData := by
  have hvk : SymTable.missing.getVk i = none := by
    simp [SymTable.getVk, SymTable.missing]
  rw [lookupIndex, hvk, Option.none_or] at h
  unfold indexMapGet at h
  split at h
  · exact hvalues v (List.mem_of_getElem? h)
  · intro type ref heq
    subst heq
    split at h
    · cases h
    · split at h <;> cases h

/-- A getter that only gives values with a property. -/
def Gives (get : List UInt8 → Option (LuaValue × List UInt8)) (P : LuaValue → Prop) : Prop :=
  ∀ input v rest, get input = some (v, rest) → P v

section Given

variable {P : LuaValue → Prop} {get : List UInt8 → Option (LuaValue × List UInt8)}

theorem Gives.items (hget : Gives get P) {n : ℕ} {input rest : List UInt8} {vs : List LuaValue}
    (h : ItemsRead get n input vs rest) : ∀ v ∈ vs, P v := by
  induction h with
  | nil =>
      intro v hv
      cases hv
  | cons h _ ih =>
      intro v hv
      rcases List.mem_cons.mp hv with rfl | hv
      · exact hget _ _ _ h
      · exact ih v hv

theorem Gives.list (hget : Gives get P) {sym : SymTable} {present : Bool} {errCount : String}
    {err : ℕ → ℕ → String} {st st' : DecodeState} (hst : ∀ v ∈ st.values, P v)
    (h : decodeList sym present get errCount err st = .ok st') : ∀ v ∈ st'.values, P v := by
  obtain ⟨vs, rest, top, hread, rfl, -⟩ := (decodeList_ok sym present errCount err).mp h
  intro v hv
  rcases List.mem_append.mp hv with hv | hv
  · exact hst v hv
  · unfold ListRead at hread
    split at hread
    · obtain ⟨count, items, -, hitems⟩ := hread
      exact hget.items hitems v hv
    · rw [hread.1] at hv
      cases hv

theorem gives_getNumber (hP : ∀ n, P (.number n)) : Gives getNumber P := by
  intro input v rest h
  unfold getNumber at h
  split at h
  · cases h
    exact hP _
  · cases h

theorem gives_getInteger (hP : ∀ n, P (.number n)) : Gives getInteger P := by
  intro input v rest h
  obtain ⟨r, -, heq⟩ := Option.map_eq_some_iff.mp h
  cases heq
  exact hP _

/-- The length of a string has 32 bits. -/
theorem gives_getText (hP : ∀ str : List UInt8, str.length < 2 ^ 32 → P (.string str)) :
    Gives getText P := by
  intro input v rest h
  obtain ⟨r, hr, heq⟩ := Option.map_eq_some_iff.mp h
  cases heq
  apply hP
  unfold getBytes at hr
  split at hr
  · rename_i s k hs
    cases hr
    unfold takeString at hs
    split at hs
    · cases hs
    · rename_i len k' _
      split at hs
      · cases hs
      · cases hs
        exact lt_of_le_of_lt (List.length_take_le _ _) len.toNat_lt
  · cases hr

/-- **What the lists give**, up to the tables. -/
theorem decodeLists_ok {sym : SymTable} {flag : UInt8} {input : List UInt8} {r : LuaHeap × DecodeState}
    (hnumber : ∀ n, P (.number n)) (hstring : ∀ str : List UInt8, str.length < 2 ^ 32 → P (.string str))
    (h : decodeLists flag input sym = .ok r) :
    ∃ st present, (∀ v ∈ st.values, P v) ∧ decodeTables sym present st = .ok r := by
  simp only [decodeLists, bind, Except.bind] at h
  split at h
  · cases h
  · rename_i st₁ h₁
    have hst₁ := (gives_getNumber hnumber).list (List.forall_mem_nil _) h₁
    split at h
    · cases h
    · rename_i st₂ h₂
      have hst₂ := (gives_getInteger hnumber).list hst₁ h₂
      split at h
      · cases h
      · rename_i st₃ h₃
        exact ⟨st₃, _, (gives_getText hstring).list hst₂ h₃, h⟩

/-- The values after the tables were created. -/
theorem decodeTables_values {sym : SymTable} {present : Bool} {st : DecodeState}
    {r : LuaHeap × DecodeState} (htable : ∀ q, P (.table q)) (hst : ∀ v ∈ st.values, P v)
    (h : decodeTables sym present st = .ok r) : ∀ v ∈ r.2.values, P v := by
  unfold decodeTables at h
  split at h
  · split at h
    · cases h
    · split at h
      · cases h
      · rename_i count rest _ _
        simp only at h
        split at h
        · cases h
        · cases h
          intro v hv
          rcases List.mem_append.mp hv with hv | hv
          · exact hst v hv
          · obtain ⟨q, -, rfl⟩ := List.mem_map.mp hv
            exact htable q
  · cases h
    exact hst

end Given

theorem dataOnly_tables {present : Bool} {st : DecodeState} {r : LuaHeap × DecodeState}
    (hst : ∀ v ∈ st.values, v.IsData) (h : decodeTables .missing present st = .ok r) :
    ∀ T ∈ r.1, T.DataOnly := by
  have hvalues := decodeTables_values (fun q type ref heq => by cases heq) hst h
  unfold decodeTables at h
  split at h
  · split at h
    · cases h
    · split at h
      · cases h
      · simp only at h
        split at h
        · cases h
        · rename_i H hbodies
          cases h
          exact dataOnly_bodies (isData_lookup hvalues) _ _ _ hbodies
  · cases h
    exact List.forall_mem_nil _

/-- **What is decoded holds data only.** -/
theorem decode_data {buf : List UInt8} {H : LuaHeap} {o : LuaValue}
    (h : objectbufDecode buf .missing = .ok (H, o)) : (∀ T ∈ H, T.DataOnly) ∧ o.IsData := by
  have hbool : ∀ b, (LuaValue.boolean b).IsData := by
    intro b type ref heq
    cases heq
  cases hbuf : buf.take (buf.length % 2 ^ 32) with
  | nil =>
      rw [objectbufDecode, hbuf] at h
      cases h
      exact ⟨List.forall_mem_nil _, hbool false⟩
  | cons flag input =>
      by_cases h0 : flag = 0
      · rw [objectbufDecode, hbuf] at h
        simp only [h0, if_true] at h
        cases h
        exact ⟨List.forall_mem_nil _, hbool false⟩
      by_cases h1 : flag = 1
      · rw [objectbufDecode, hbuf] at h
        simp only [h1, if_true] at h
        cases h
        exact ⟨List.forall_mem_nil _, hbool true⟩
      rw [objectbufDecode_eq .missing hbuf h0 h1] at h
      cases hlists : decodeLists flag input .missing with
      | error e =>
          rw [hlists] at h
          cases h
      | ok r =>
          rw [hlists] at h
          cases h
          obtain ⟨st, present, hst, htables⟩ := decodeLists_ok (P := LuaValue.IsData)
            (fun n type ref heq => by cases heq) (fun str _ type ref heq => by cases heq) hlists
          refine ⟨dataOnly_tables hst htables, ?_⟩
          have hvalues := decodeTables_values (fun q type ref heq => by cases heq) hst htables
          cases hroot : lookupIndex .missing r.2.values r.2.lastTop with
          | none =>
              intro type ref heq
              cases heq
          | some v => exact isData_lookup hvalues _ v hroot

/-- From data only data can be reached. -/
theorem isData_reach {H : LuaHeap} {o v : LuaValue} (hheap : ∀ T ∈ H, T.DataOnly) (ho : o.IsData)
    (hv : H.Reach o v) : v.IsData := by
  induction hv with
  | refl => exact ho
  | @tail u w _ hchild _ =>
      cases u with
      | table ref =>
          obtain ⟨e, he, hw⟩ := LuaHeap.mem_children.mp hchild
          have htable : (H.table ref).DataOnly := by
            rw [LuaHeap.table, List.getD_eq_getElem?_getD]
            cases hget : H[ref]? with
            | none => exact dataOnly_new
            | some T => exact hheap T (List.mem_of_getElem? hget)
          obtain ⟨hk, hval⟩ := htable e he
          rcases hw with rfl | rfl
          · exact hk
          · exact hval
      | _ => cases hchild

/-! ## Which graphs come back -/

section Graph

variable {H : LuaHeap} {o : LuaValue}

/-- A graph that comes back holds data only. -/
theorem isData_of_comesBack (h : ComesBack H o) {v : LuaValue} (hv : H.Reach o v) : v.IsData := by
  obtain ⟨bytes, H', o', -, hdec, hiso⟩ := h
  obtain ⟨hheap, ho'⟩ := decode_data hdec
  obtain ⟨f, w, hw, hsame⟩ := hiso.exists_same hv
  rintro type ref rfl
  -- such a value corresponds only to itself
  have hother : w = .other type ref := by
    simpa [SameValue, LuaValue.rawEq, eq_comm] using hsame
  exact isData_reach hheap ho' hw type ref hother

/-- Encoding a value other than a boolean fails when `packer` does. -/
theorem encode_error_iff (hnil : o ≠ .nil) (hbool : ∀ b, o ≠ .boolean b) :
    (∃ msg, objectbufEncode H o .missing = .error msg) ↔
      ∀ ctx, packer H (H.length + 1) Ctx.init o ≠ .ok ctx := by
  cases hctx : packer H (H.length + 1) Ctx.init o with
  | error e =>
    have hencode : objectbufEncode H o .missing = .error (e.getD "") := by
      cases o with
      | nil => exact absurd rfl hnil
      | boolean b => exact absurd rfl (hbool b)
      | _ => simp only [objectbufEncode, hctx]
    simp [hencode]
  | ok ctx =>
    have hencode : objectbufEncode H o .missing
        = .ok (encodeFlag ctx :: addedBytesOf (bodyOps H .missing ctx)) := by
      cases o with
      | nil => exact absurd rfl hnil
      | boolean b => exact absurd rfl (hbool b)
      | _ => simp only [objectbufEncode, hctx]
    simp [hencode]

/-- **`packer` ends well exactly if there is no NaN.** -/
theorem packer_ok_iff : (∃ ctx, packer H (H.length + 1) Ctx.init o = .ok ctx) ↔ ¬HasNan H o := by
  constructor
  · rintro ⟨ctx, hctx⟩ ⟨n, hn, hnan⟩
    obtain ⟨u, -, heq⟩ := (packed_of_ok hctx).complete _ hn rfl
    -- nothing is equal to NaN
    cases u with
    | number m =>
        simp only [LuaValue.rawEq, Bool.and_eq_true, decide_eq_true_eq] at heq
        have hval : n.value = .nan := by simpa [LuaNumber.isNan] using hnan
        simp [LuaNumber.isNan, heq.2, hval] at heq
    | _ => simp [LuaValue.rawEq] at heq
  · intro hnan
    have hkeys : ∀ w, H.Reach o w → w.listed = true → w.isKey = true := by
      intro w hw hlisted
      cases w with
      | number n =>
          simp only [LuaValue.isKey, Bool.not_eq_true']
          by_contra h
          exact hnan ⟨n, hw, by simpa using h⟩
      | nil => cases hlisted
      | _ => rfl
    obtain ⟨ctx, hctx, -⟩ := packer_ok hkeys
    exact ⟨ctx, hctx⟩

/-- **NaN cannot be enumerated**: encoding raises an error exactly if there is one. -/
theorem encode_nan (hnil : o ≠ .nil) :
    (∃ msg, objectbufEncode H o .missing = .error msg) ↔ HasNan H o := by
  by_cases hb : ∃ b, o = .boolean b
  · obtain ⟨b, rfl⟩ := hb
    constructor
    · rintro ⟨msg, h⟩
      cases h
    · rintro ⟨n, hn, -⟩
      cases reach_boolean hn
  · rw [encode_error_iff hnil fun b h => hb ⟨b, h⟩, ← not_exists, packer_ok_iff, not_not]

/-- Nil is no key and no value of an entry. -/
theorem reach_ne_nil (hnil : o ≠ .nil) {v : LuaValue} (hv : H.Reach o v) : v ≠ .nil := by
  induction hv with
  | refl => exact hnil
  | @tail u w _ hchild _ =>
      cases u with
      | table ref =>
          obtain ⟨e, he, rfl | rfl⟩ := LuaHeap.mem_children.mp hchild
          · intro h
            have hkey := (H.table ref).isKey e he
            rw [h] at hkey
            cases hkey
          · exact (H.table ref).ne_nil e he
      | _ => cases hchild

/-- A graph without NaN that holds data only is supported. -/
theorem supportedGraph_of_isData (hnil : o ≠ .nil) (hrefs : ∀ ref, H.Reach o (.table ref) → ref < H.length)
    (hnan : ¬HasNan H o) (hdata : ∀ v, H.Reach o v → v.IsData) : SupportedGraph H o := by
  intro v hv
  cases v with
  | nil => exact reach_ne_nil hnil hv rfl
  | boolean b => trivial
  | number n =>
      rw [LuaValue.Supported, ← Bool.not_eq_true]
      exact fun h => hnan ⟨n, hv, h⟩
  | string s => trivial
  | table ref => exact hrefs ref hv
  | other type ref => exact hdata _ hv type ref rfl

end Graph

/-- **Encoding fails or is faithful** exactly if there is a NaN in the graph, or all of it
is supported and comes back. -/
theorem objectbuf_faithful_or_fails {H : LuaHeap} {o : LuaValue} (hnil : o ≠ .nil)
    (hrefs : ∀ ref, H.Reach o (.table ref) → ref < H.length)
    (hshort : SupportedGraph H o → ∀ bytes, objectbufEncode H o .missing = .ok bytes → bytes.length < 2 ^ 32) :
    FaithfulOrFails H o ↔
      HasNan H o ∨ (SupportedGraph H o ∧ DoublesOnly H o ∧ NothingShadowed H o) := by
  rw [FaithfulOrFails, encode_nan hnil]
  by_cases hnan : HasNan H o
  · simp only [hnan, true_or]
  · simp only [hnan, false_or]
    constructor
    · intro h
      have hsup := supportedGraph_of_isData hnil hrefs hnan fun v hv => isData_of_comesBack h hv
      obtain ⟨-, bytes, -, -, henc⟩ := exists_encode hsup .missing
      exact ⟨hsup, doubles_of_comesBack hsup henc (hshort hsup bytes henc) h⟩
    · rintro ⟨hsup, hdoubles, hshadow⟩
      obtain ⟨-, bytes, -, -, henc⟩ := exists_encode hsup .missing
      exact comesBack_of_doubles hsup henc (hshort hsup bytes henc) hdoubles hshadow

/-- A graph with a cycle and a table that occurs as a key and as a value. -/
theorem objectbuf_faithful_or_fails_cyclic : FaithfulOrFails cyclicHeap (.table 0) := by
  have hsup := supportedGraph_cyclic
  obtain ⟨bytes, henc, hlen, -⟩ := @encode_cyclic .missing (by decide)
  refine (objectbuf_faithful_or_fails (by simp) (fun ref href => hsup _ href) fun _ bytes' henc' => ?_).mpr ?_
  · rw [henc] at henc'
    cases henc'
    exact hlen
  exact Or.inr ⟨hsup, doublesOnly_cyclic, nothingShadowed_cyclic⟩

/-- A function is written as `false`. -/
theorem objectbuf_function_not_faithful : ¬FaithfulOrFails [] (.other .function 0) := by
  rintro (⟨msg, h⟩ | h)
  · cases h
  · exact isData_of_comesBack h Relation.ReflTransGen.refl .function 0 rfl

end LuaFan
