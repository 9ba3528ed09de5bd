/-
# The indices of both sides

`encode` counts through four lists of values that the symbol table does not have, `decode`
counts the values it reads.  The indices of the booleans, of the symbol table and of the lists
lie in ranges of their own (`indexOf_inj`), and where the whole encoding is read each index
leads to its value.

The encoding is read with a length of 32 bits.  A longer one is cut: then either a string has
come back shorter than it is, or a list is not complete.

* `objectbuf_indices_agree`: both sides agree **as long as** the encoding is shorter than
  `2 ^ 32` bytes, and not beyond, unless a single table fills such a length;
* `objectbuf_indices_disagree`: a table with a string of `2 ^ 32` bytes.
-/
import LuaFan.Objectbuf.Symbol
import LuaFan.Objectbuf.Truncated
import LuaFan.Objectbuf.Enumeration

namespace LuaFan

open Fp

/-! ## Agreement -/

/-- The index that stands in the encoding. -/
def emittedIndex (sym : SymTable) (ctx : Ctx) (v : LuaValue) : UInt32 :=
  UInt32.ofNat (indexOf sym ctx v)

/-- What an index is to lead to: the same boolean or string, a number with the same `double`
(the nearest one, or the number itself), the table with the same place in the list. -/
inductive Resolves (ctx : Ctx) : LuaValue → LuaValue → Prop where
  | boolean (b : Bool) : Resolves ctx (.boolean b) (.boolean b)
  | string (s : List UInt8) : Resolves ctx (.string s) (.string s)
  | number {n m : LuaNumber} (hdouble : m.toDouble.value = n.toDouble.value)
      (hsame : m.value = n.toDouble.value ∨ m.value = n.value) : Resolves ctx (.number n) (.number m)
  | table {ref q : ℕ} (h : ctx.tables[q]? = some (.table ref)) : Resolves ctx (.table ref) (.table q)

/-- `decode` counts as `encode` did: in its state every index leads to its value, and the
index of a table as the top value is `last_top`. -/
def Resolved (H : LuaHeap) (o : LuaValue) (sym : SymTable) (ctx : Ctx) (bytes : List UInt8) : Prop :=
  ∃ flag input tables st, bytes.take (bytes.length % 2 ^ 32) = flag :: input ∧ flag ≠ 0 ∧ flag ≠ 1 ∧
    decodeLists flag input sym = .ok (tables, st) ∧
    (∀ v, H.Reach o v →
      ∃ r, lookupIndex sym st.values (emittedIndex sym ctx v).toNat = some r ∧ Resolves ctx v r) ∧
    ∀ ref, o = .table ref → (emittedIndex sym ctx o).toNat = st.lastTop

/-- The indices are pairwise distinct and lead to their values.  For a boolean as a whole there
are none. -/
def IndicesAgree (H : LuaHeap) (o : LuaValue) (sym : SymTable) (bytes : List UInt8) : Prop :=
  ∀ ctx, packer H (H.length + 1) Ctx.init o = .ok ctx →
    (∀ v w, H.Reach o v → H.Reach o w → emittedIndex sym ctx v = emittedIndex sym ctx w →
      v.rawEq w = true) ∧
    ((∀ b, o ≠ .boolean b) → Resolved H o sym ctx bytes)

section Agreement

variable {H : LuaHeap} {o : LuaValue} {ctx : Ctx} {sym : SymTable} {v w : LuaValue}

/-! ## The ranges of the indices -/

/-- **Values with one index are equal.** -/
theorem indexOf_inj (hp : Packed H o ctx) (hsup : SupportedGraph H o) (hsym : sym.Lawful)
    (hv : H.Reach o v) (hw : H.Reach o w) (h : indexOf sym ctx v = indexOf sym ctx w) :
    v.rawEq w = true := by
  have hindex := hsym.index_eq
  have hcommon : ∀ u : LuaValue, u.rawEq v = true → u.rawEq w = true → v.rawEq w = true := by
    intro u huv huw
    rw [LuaValue.rawEq_iff v w (hsup v hv).isKey, ← normal_eq_of_rawEq huv, normal_eq_of_rawEq huw]
  rcases indexOf_cases hsym hp.good (hp.boolean_or_listed hsup hv) with
    ⟨b, rfl, hi⟩ | ⟨-, p, u, hp₁, hu, hi⟩ | ⟨-, p, u, hp₁, hu, hi⟩ <;>
  rcases indexOf_cases hsym hp.good (hp.boolean_or_listed hsup hw) with
    ⟨b', rfl, hj⟩ | ⟨-, q, u', hq, hu', hj⟩ | ⟨-, q, u', hq, hu', hj⟩ <;>
  rw [hi, hj] at h
  · -- both are booleans
    cases b <;> cases b' <;> first | rfl | cases h
  · split at h <;> omega
  · split at h <;> omega
  · split at h <;> omega
  · obtain rfl : p = q := by omega
    rw [hp₁] at hq
    cases hq
    exact hcommon u hu hu'
  · have := lt_of_getElem?_eq_some hp₁
    omega
  · split at h <;> omega
  · have := lt_of_getElem?_eq_some hq
    omega
  · obtain rfl : p = q := by omega
    rw [hp₁] at hq
    cases hq
    exact hcommon u hu hu'

theorem toNat_emittedIndex (hp : Packed H o ctx) (hsup : SupportedGraph H o) (hsym : sym.Lawful)
    (hlt : sym.index + (encodedValues sym ctx).length < 2 ^ 32) (hv : H.Reach o v) :
    (emittedIndex sym ctx v).toNat = indexOf sym ctx v :=
  toNat_index (recv_spec_of_lt hp hsup hsym hlt hv).1

/-! ## What the indices lead to -/

theorem ReceivedAs.resolves {r : LuaValue} (h : ReceivedAs sym ctx v r) (hsym : sym.Lawful) :
    Resolves ctx v r := by
  rcases h with ⟨b, rfl, rfl⟩ | ⟨-, hr, heq⟩ | ⟨-, harr⟩
  · exact .boolean b
  · rcases hsym.scalar r hr with ⟨m, rfl, -⟩ | ⟨s, rfl⟩
    · cases v with
      | number n =>
          simp only [LuaValue.rawEq, Bool.and_eq_true, decide_eq_true_eq] at heq
          exact .number (value_toDouble_congr heq.2) (Or.inr heq.2)
      | _ => simp [LuaValue.rawEq] at heq
    · obtain rfl | ⟨n, m, h, -⟩ := rawEq_cases heq
      · exact .string s
      · cases h
  · cases harr with
    | number hval =>
        refine .number ?_ (Or.inl hval)
        rw [← hval, LuaNumber.value_toDouble_iff]
        exact ⟨_, hval.symm⟩
    | string s => exact .string s
    | table h => exact .table h

theorem SymTable.Lawful.not_has_table (hsym : sym.Lawful) (ref : ℕ) : ¬sym.Has (.table ref) := by
  intro hhas
  obtain ⟨i, hi⟩ := Option.isSome_iff_exists.mp hhas
  rcases hsym.get _ i hi with ⟨b, h, -⟩ | ⟨p, w, hp, hw, -⟩
  · cases h
  · rcases hsym.scalar w (List.mem_of_getElem? hp) with ⟨n, rfl, -⟩ | ⟨s, rfl⟩ <;>
      simp [LuaValue.rawEq] at hw

theorem encodedValues_sublist (sym : SymTable) (ctx : Ctx) :
    (encodedValues sym ctx).Sublist ctx.items := by
  have hfresh : ∀ items, (sym.fresh items).Sublist items := fun items => List.filter_sublist
  have hrest : (sym.fresh ctx.strings ++ ctx.tables).Sublist (ctx.strings ++ (ctx.funcs ++ ctx.tables)) :=
    (hfresh _).append (List.sublist_append_right _ _)
  simp only [encodedValues, Ctx.items, List.append_assoc]
  exact (hfresh _).append ((hfresh _).append hrest)

theorem Packed.nodup_encodedValues (hp : Packed H o ctx) : (encodedValues sym ctx).Nodup :=
  hp.nodup_items.sublist (encodedValues_sublist sym ctx)

/-- **The top table has the index that `last_top` ends up with.** -/
theorem indexOf_top {ref : ℕ} (hp : Packed H (.table ref) ctx) (hsup : SupportedGraph H (.table ref))
    (hsym : sym.Lawful) : indexOf sym ctx (.table ref) = topIndex sym ctx := by
  have hhead := hp.head ref rfl
  have hne : ctx.tables ≠ [] := by
    intro h
    rw [h] at hhead
    cases hhead
  -- the first of the tables, behind the three lists
  have hplace : (encodedValues sym ctx)[(sym.fresh ctx.numbers ++ sym.fresh ctx.u30s ++
      sym.fresh ctx.strings).length]? = some (.table ref) := by
    rw [encodedValues, List.getElem?_append_right le_rfl, Nat.sub_self, ← List.head?_eq_getElem?, hhead]
  rcases indexOf_cases hsym hp.good (hp.boolean_or_listed hsup Relation.ReflTransGen.refl) with
    ⟨b, h, -⟩ | ⟨hhas, -⟩ | ⟨-, p, w, hpw, hw, hi⟩
  · cases h
  · exact absurd hhas (hsym.not_has_table ref)
  · obtain rfl : w = .table ref := by
      obtain h | ⟨n, m, -, h⟩ := rawEq_cases hw
      · exact h
      · cases h
    have hsame := (List.getElem?_inj (lt_of_getElem?_eq_some hpw) hp.nodup_encodedValues).mp
      (hpw.trans hplace.symm)
    rw [hi, hsame, topIndex, if_pos hne]
    simp only [List.length_append]

/-! ## Encodings that are read as a whole -/

/-- The root of a supported graph is listed, so some list is not empty. -/
theorem encodeFlag_ne_zero (hp : Packed H o ctx) (hsup : SupportedGraph H o)
    (hbool : ∀ b, o ≠ .boolean b) : encodeFlag ctx ≠ 0 := by
  obtain ⟨-, -, -, -, -, hzero⟩ := encodeFlag_bits ctx
  rw [ne_eq, hzero]
  rintro ⟨h₁, h₂, h₃, h₄⟩
  rcases hp.boolean_or_listed hsup Relation.ReflTransGen.refl with ⟨b, rfl⟩ | ⟨w, hw, -⟩
  · exact hbool b rfl
  · simp [h₁, h₂, h₃, h₄] at hw

/-- **A whole encoding is resolved.** -/
theorem resolved_of_short (hp : Packed H o ctx) (hsup : SupportedGraph H o) (hsym : sym.Lawful)
    (hlt : sym.index + (encodedValues sym ctx).length < 2 ^ 32) (hbool : ∀ b, o ≠ .boolean b)
    (hlen : (addedBytesOf (bodyOps H sym ctx)).length + 1 < 2 ^ 32) :
    Resolved H o sym ctx (encodeFlag ctx :: addedBytesOf (bodyOps H sym ctx)) := by
  have hleads : ∀ t ∈ ctx.tables, TableLeads (lookupIndex sym (decodedValues sym ctx))
      (indexOf sym ctx) (recvValue sym ctx) (H.tableOf t) := by
    intro t ht
    obtain ⟨ref, rfl⟩ := hp.good.kinds.tables t ht
    exact tableLeads_of_lt hp hsup hsym hlt (hp.reach_tables ht)
  obtain ⟨rest, hlists⟩ := decodeLists_encode hp.good hleads hlen
  refine ⟨encodeFlag ctx, _, _, _, take_wrapped hlen, encodeFlag_ne_zero hp hsup hbool,
    (encodeFlag_bits ctx).2.2.2.2.1, hlists, ?_, ?_⟩
  · intro v hv
    obtain ⟨hleads, hrecv⟩ := recv_spec_of_lt hp hsup hsym hlt hv
    refine ⟨_, ?_, hrecv.resolves hsym⟩
    rw [toNat_emittedIndex hp hsup hsym hlt hv]
    exact hleads.2
  · rintro ref rfl
    rw [toNat_emittedIndex hp hsup hsym hlt Relation.ReflTransGen.refl]
    exact indexOf_top hp hsup hsym

/-! ## Longer encodings -/

/-- Where the indices resolve, the strings with an index of their own are short. -/
theorem Resolved.string_short {bytes : List UInt8} (h : Resolved H o sym ctx bytes)
    (hp : Packed H o ctx) (hsup : SupportedGraph H o) (hsym : sym.Lawful)
    (hlt : sym.index + (encodedValues sym ctx).length < 2 ^ 32) {str : List UInt8}
    (hstr : .string str ∈ sym.fresh ctx.strings) : str.length < 2 ^ 32 := by
  obtain ⟨flag, input, tables, st, -, -, -, hlists, hresolves, -⟩ := h
  obtain ⟨hmem, hnone⟩ := List.mem_filter.mp hstr
  have hreach : H.Reach o (.string str) := hp.reach _ (by simp [Ctx.items, hmem])
  have hnot : ¬sym.Has (.string str) := by simpa [SymTable.Has] using hnone
  obtain ⟨r, hr, hres⟩ := hresolves _ hreach
  cases hres with
  | string s =>
      -- the index lies behind the symbol table, so the string was read
      rw [toNat_emittedIndex hp hsup hsym hlt hreach] at hr
      have hindex := hsym.index_eq
      rcases indexOf_cases hsym hp.good (hp.boolean_or_listed hsup hreach) with
        ⟨b, h, -⟩ | ⟨hhas, -⟩ | ⟨-, p, w, -, -, hi⟩
      · cases h
      · exact absurd hhas hnot
      · have hvk : sym.getVk (sym.index + p + 1) = none := by
          rw [SymTable.getVk, if_pos (by omega), List.getElem?_eq_none (by omega)]
        rw [hi, lookupIndex, hvk, Option.none_or, indexMapGet, if_pos (by omega)] at hr
        obtain ⟨st', present, hst', htables⟩ := decodeLists_ok
          (P := fun v => ∀ s, v = .string s → s.length < 2 ^ 32) (by simp) (by simp) hlists
        exact decodeTables_values (by simp) hst' htables _ (List.mem_of_getElem? hr) str rfl

/-- **A longer encoding is not resolved.** -/
theorem Resolved.length_lt (h : Resolved H o sym ctx (encodeFlag ctx :: addedBytesOf (bodyOps H sym ctx)))
    (hp : Packed H o ctx) (hsup : SupportedGraph H o) (hsym : sym.Lawful)
    (hlt : sym.index + (encodedValues sym ctx).length < 2 ^ 32) (hframes : FramesFit H sym ctx) :
    (addedBytesOf (bodyOps H sym ctx)).length + 1 < 2 ^ 32 := by
  by_contra hlong
  have hstrings : ∀ str, .string str ∈ sym.fresh ctx.strings → str.length < 2 ^ 32 :=
    fun _ hstr => h.string_short hp hsup hsym hlt hstr
  obtain ⟨flag, input, tables, st, hbuf, -, -, hlists, -, -⟩ := h
  have hmod : (encodeFlag ctx :: addedBytesOf (bodyOps H sym ctx)).length % 2 ^ 32 < 2 ^ 32 :=
    Nat.mod_lt _ (by norm_num)
  cases hcut : (encodeFlag ctx :: addedBytesOf (bodyOps H sym ctx)).length % 2 ^ 32 with
  | zero =>
      rw [hcut] at hbuf
      cases hbuf
  | succ k =>
      rw [hcut] at hbuf hmod
      rw [List.take_succ_cons] at hbuf
      cases hbuf
      obtain ⟨msg, hmsg⟩ := decodeLists_cut hp hsup hsym hlt hframes hstrings (k := k) (by omega)
      rw [hlists] at hmsg
      cases hmsg

end Agreement

theorem SymTable.lawful_of_symbol {Hs : LuaHeap} {sample : LuaValue} {sym : SymTable}
    (hsym : sym = .missing ∨ symbol Hs sample = .ok sym) : sym.Lawful := by
  rcases hsym with rfl | hsym
  · exact SymTable.missing_lawful
  · exact symbol_lawful hsym

/-- **Both sides count alike** as long as the encoding is shorter than `2 ^ 32` bytes, and no
longer, if the frames are shorter too. -/
theorem objectbuf_indices_agree {Hs H : LuaHeap} {sample o : LuaValue} {sym : SymTable}
    {bytes : List UInt8} (hsup : SupportedGraph H o) (hsym : sym = .missing ∨ symbol Hs sample = .ok sym)
    (henc : objectbufEncode H o sym = .ok bytes) :
    (bytes.length < 2 ^ 32 ∧ (sym = .missing ∨ IndexSpace H o sym) → IndicesAgree H o sym bytes) ∧
    (IndexSpace H o sym → (∀ b, o ≠ .boolean b) →
      (∀ ctx, packer H (H.length + 1) Ctx.init o = .ok ctx → FramesFit H sym ctx) →
      IndicesAgree H o sym bytes → bytes.length < 2 ^ 32) := by
  have hlawful := SymTable.lawful_of_symbol hsym
  constructor
  · rintro ⟨hlen, hspace⟩ ctx hctx
    have hp := packed_of_ok hctx
    have hlt := index_lt_of_short hctx henc hlen hspace
    refine ⟨fun v w hv hw heq => ?_, fun hbool => ?_⟩
    · apply indexOf_inj hp hsup hlawful hv hw
      rw [← toNat_emittedIndex hp hsup hlawful hlt hv, heq, toNat_emittedIndex hp hsup hlawful hlt hw]
    · obtain rfl := encode_eq hbool hctx henc
      exact resolved_of_short hp hsup hlawful hlt hbool hlen
  · intro hspace hbool hframes hagree
    obtain ⟨ctx, hctx, hp⟩ := packer_ok fun w hw _ => (hsup w hw).isKey
    obtain rfl := encode_eq hbool hctx henc
    have h := ((hagree ctx hctx).2 hbool).length_lt hp hsup hlawful (hspace ctx hctx) (hframes ctx hctx)
    rw [List.length_cons]
    exact h

/-- The graph with a cycle, with a symbol table that has some of its values. -/
theorem objectbuf_indices_agree_cyclic : ∃ sym bytes, symbol cyclicHeap (.table 1) = .ok sym ∧
    objectbufEncode cyclicHeap (.table 0) sym = .ok bytes ∧
    IndicesAgree cyclicHeap (.table 0) sym bytes := by
  obtain ⟨sym, hsym, hindex⟩ : ∃ sym, symbol cyclicHeap (.table 1) = .ok sym ∧ sym.index ≤ 100 :=
    ⟨_, rfl, by decide +kernel⟩
  obtain ⟨bytes, henc, hlen, hspace⟩ := encode_cyclic hindex
  exact ⟨sym, bytes, hsym, henc,
    (objectbuf_indices_agree supportedGraph_cyclic (Or.inr hsym) henc).1 ⟨hlen, Or.inr hspace⟩⟩

/-- The table whose only element is a string. -/
def stringHeap (str : List UInt8) : LuaHeap :=
  [(LuaTable.new none).rawset (intKey 1) (.string str) isKey_one]

theorem reach_string {str : List UInt8} {v : LuaValue} (hv : LuaHeap.Reach (stringHeap str) (.table 0) v) :
    v ∈ [.table 0, intKey 1, .string str] := by
  refine reach_of_closed (by simp) ?_ hv
  intro u hu w hw
  simp only [List.mem_cons, List.not_mem_nil, or_false] at hu
  rcases hu with rfl | rfl | rfl
  · have hchildren : LuaHeap.children (stringHeap str) (.table 0) = [intKey 1, .string str] := rfl
    rw [hchildren] at hw
    exact List.mem_cons_of_mem _ hw
  · cases hw
  · cases hw

theorem supportedGraph_string (str : List UInt8) : SupportedGraph (stringHeap str) (.table 0) := by
  intro v hv
  have hmem := reach_string hv
  simp only [List.mem_cons, List.not_mem_nil, or_false] at hmem
  rcases hmem with rfl | rfl | rfl
  · exact (by simp [stringHeap] : 0 < (stringHeap str).length)
  · rfl
  · trivial

/-- Where the indices of that table resolve, its string is short. -/
theorem string_short_of_agree {str bytes : List UInt8}
    (h : IndicesAgree (stringHeap str) (.table 0) .missing bytes) : str.length < 2 ^ 32 := by
  have hsup := supportedGraph_string str
  obtain ⟨ctx, hctx, hp⟩ := packer_ok fun w hw _ => (hsup w hw).isKey
  have hreach : LuaHeap.Reach (stringHeap str) (.table 0) (.string str) := by
    refine Relation.ReflTransGen.single ?_
    show LuaValue.string str ∈ [intKey 1, .string str]
    simp
  -- there are three values at most
  have hcount : (encodedValues .missing ctx).length ≤ 3 := by
    have hsub : encodedValues .missing ctx ⊆ [.table 0, intKey 1, .string str] := fun w hw =>
      reach_string (hp.reach w ((encodedValues_sublist .missing ctx).subset hw))
    exact (List.subperm_of_subset hp.nodup_encodedValues hsub).length_le
  have hlt : SymTable.missing.index + (encodedValues .missing ctx).length < 2 ^ 32 := by
    have hindex : SymTable.missing.index = 2 := rfl
    omega
  refine ((h ctx hctx).2 (by simp)).string_short hp hsup SymTable.missing_lawful hlt ?_
  obtain ⟨u, hu, heq⟩ := hp.complete _ hreach rfl
  obtain rfl : u = .string str := by
    obtain h | ⟨n, m, -, h⟩ := rawEq_cases heq
    · exact h
    · cases h
  exact List.mem_filter.mpr ⟨hp.mem_items_cases hu, rfl⟩

/-- A string of `2 ^ 32` bytes comes back shorter. -/
theorem objectbuf_indices_disagree :
    ∃ bytes, objectbufEncode (stringHeap (List.replicate (2 ^ 32) 0)) (.table 0) .missing = .ok bytes ∧
      ¬IndicesAgree (stringHeap (List.replicate (2 ^ 32) 0)) (.table 0) .missing bytes := by
  generalize hstr : List.replicate (2 ^ 32) (0 : UInt8) = str
  obtain ⟨ctx, hctx, -⟩ := packer_ok fun w hw _ => (supportedGraph_string str w hw).isKey
  refine ⟨encodeFlag ctx :: addedBytesOf (bodyOps (stringHeap str) .missing ctx),
    by simp only [objectbufEncode, hctx], ?_⟩
  intro hagree
  have hshort := string_short_of_agree hagree
  rw [← hstr, List.length_replicate] at hshort
  omega

end LuaFan
