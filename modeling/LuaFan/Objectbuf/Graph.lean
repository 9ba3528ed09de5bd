/-
# Sending a value graph

The values that objectbuf supports, the isomorphism of value graphs, and the size of
a graph, which bounds the length of its encoding.

`sent_received` says what encoding and decoding make of a supported graph that is
not too large: the tables that arrive are the listed ones, rebuilt, and every value
in them is what arrives of a value of the graph.
-/
import LuaFan.Objectbuf.Received

namespace LuaFan

open Fp

/-! ## Supported graphs -/

/-- Booleans, numbers other than NaN, strings and tables of the heap. -/
def LuaValue.Supported (H : LuaHeap) : LuaValue → Prop
  | .boolean _ => True
  | .number n => n.isNan = false
  | .string _ => True
  | .table ref => ref < H.length
  | _ => False

/-- Every value that can be reached is supported. -/
def SupportedGraph (H : LuaHeap) (o : LuaValue) : Prop := ∀ v, H.Reach o v → v.Supported H

theorem LuaValue.Supported.isKey {H : LuaHeap} {v : LuaValue} (h : v.Supported H) :
    v.isKey = true := by
  cases v with
  | number n => simpa [LuaValue.isKey, LuaValue.Supported] using h
  | nil => cases h
  | other type ref => cases h
  | _ => rfl

/-! ## Isomorphic graphs -/

/-- Corresponding values: tables by `f`, scalars by raw equality. -/
def SameValue (f : ℕ → ℕ) : LuaValue → LuaValue → Prop
  | .table ref, w => w = .table (f ref)
  | v, w => v.rawEq w = true

/-- The same key/value entries, up to `f`. -/
def SameEntries (f : ℕ → ℕ) (T T' : LuaTable) : Prop :=
  (∀ e ∈ T.entries, ∃ e' ∈ T'.entries, SameValue f e.1 e'.1 ∧ SameValue f e.2 e'.2) ∧
    ∀ e' ∈ T'.entries, ∃ e ∈ T.entries, SameValue f e.1 e'.1 ∧ SameValue f e.2 e'.2

/-- The references to the tables that can be reached. -/
def LuaHeap.reachRefs (H : LuaHeap) (o : LuaValue) : Set ℕ := { ref | H.Reach o (.table ref) }

/-- Two graphs with a bijection between their tables under which corresponding
tables have the same entries. -/
def Isomorphic (H : LuaHeap) (o : LuaValue) (H' : LuaHeap) (o' : LuaValue) : Prop :=
  ∃ f, Set.BijOn f (H.reachRefs o) (H'.reachRefs o') ∧ SameValue f o o' ∧
    ∀ ref, H.Reach o (.table ref) → SameEntries f (H.table ref) (H'.table (f ref))

theorem sameValue_table {f : ℕ → ℕ} {v : LuaValue} {q : ℕ} (h : SameValue f v (.table q)) :
    ∃ ref, v = .table ref ∧ q = f ref := by
  cases v with
  | table ref =>
      simp only [SameValue, LuaValue.table.injEq] at h
      exact ⟨ref, rfl, h⟩
  | _ => simp [SameValue, LuaValue.rawEq] at h

section SamePaths

variable {H H' : LuaHeap} {o o' : LuaValue} {f : ℕ → ℕ}

/-- A path from the root has an image. -/
theorem exists_same_of_sameEntries (hroot : SameValue f o o')
    (hentries : ∀ ref, H.Reach o (.table ref) → SameEntries f (H.table ref) (H'.table (f ref)))
    {v : LuaValue} (hv : H.Reach o v) : ∃ w, H'.Reach o' w ∧ SameValue f v w := by
  induction hv with
  | refl => exact ⟨o', Relation.ReflTransGen.refl, hroot⟩
  | @tail v u hv hu ih =>
      obtain ⟨w, hw, hsame⟩ := ih
      cases v with
      | table ref =>
          simp only [SameValue] at hsame
          subst hsame
          obtain ⟨e, he, hu⟩ := LuaHeap.mem_children.mp hu
          obtain ⟨e', he', hk, hv'⟩ := (hentries ref hv).1 e he
          rcases hu with rfl | rfl
          · exact ⟨e'.1, hw.tail (LuaHeap.mem_children.mpr ⟨e', he', Or.inl rfl⟩), hk⟩
          · exact ⟨e'.2, hw.tail (LuaHeap.mem_children.mpr ⟨e', he', Or.inr rfl⟩), hv'⟩
      | _ => cases hu

/-- A path from the image of the root is the image of a path. -/
theorem exists_preimage_of_sameEntries (hroot : SameValue f o o')
    (hentries : ∀ ref, H.Reach o (.table ref) → SameEntries f (H.table ref) (H'.table (f ref)))
    {w : LuaValue} (hw : H'.Reach o' w) : ∃ v, H.Reach o v ∧ SameValue f v w := by
  induction hw with
  | refl => exact ⟨o, Relation.ReflTransGen.refl, hroot⟩
  | @tail w u hw hu ih =>
      obtain ⟨v, hv, hsame⟩ := ih
      cases w with
      | table q =>
          obtain ⟨ref, rfl, rfl⟩ := sameValue_table hsame
          obtain ⟨e', he', hu⟩ := LuaHeap.mem_children.mp hu
          obtain ⟨e, he, hk, hv'⟩ := (hentries ref hv).2 e' he'
          rcases hu with rfl | rfl
          · exact ⟨e.1, hv.tail (LuaHeap.mem_children.mpr ⟨e, he, Or.inl rfl⟩), hk⟩
          · exact ⟨e.2, hv.tail (LuaHeap.mem_children.mpr ⟨e, he, Or.inr rfl⟩), hv'⟩
      | _ => cases hu

/-- A map that is injective and keeps the entries is an isomorphism. -/
theorem isomorphic_of_sameEntries (hinj : Set.InjOn f (H.reachRefs o)) (hroot : SameValue f o o')
    (hentries : ∀ ref, H.Reach o (.table ref) → SameEntries f (H.table ref) (H'.table (f ref))) :
    Isomorphic H o H' o' := by
  refine ⟨f, ⟨?_, hinj, ?_⟩, hroot, hentries⟩
  · intro ref hr
    obtain ⟨w, hw, hsame⟩ := exists_same_of_sameEntries hroot hentries hr
    simp only [SameValue] at hsame
    rw [hsame] at hw
    exact hw
  · intro q hq
    obtain ⟨v, hv, hsame⟩ := exists_preimage_of_sameEntries hroot hentries hq
    obtain ⟨ref, rfl, rfl⟩ := sameValue_table hsame
    exact ⟨ref, hv, rfl⟩

end SamePaths

/-! ## The size of a graph -/

/-- A bound for the bytes that one occurrence of a value adds to the encoding. -/
def LuaValue.size : LuaValue → ℕ
  | .string s => s.length + 16
  | _ => 16

def LuaTable.size (T : LuaTable) : ℕ := 16 + (T.entries.map fun e => e.1.size + e.2.size).sum

open Classical in
/-- The size of the tables that can be reached, and of the root. -/
noncomputable def graphSize (H : LuaHeap) (o : LuaValue) : ℕ :=
  o.size + ∑ ref ∈ (Finset.range H.length).filter fun ref => H.Reach o (.table ref),
    (H.table ref).size

theorem length_u30BytesLoop_le (n : ℕ) (u : UInt32) : (u30BytesLoop n u).length ≤ n := by
  induction n generalizing u with
  | zero => simp [u30BytesLoop]
  | succ n ih =>
      rw [u30BytesLoop, List.length_cons]
      split
      · have := ih (u >>> 7)
        omega
      · simp

theorem length_u30Bytes_le (u : UInt32) : (u30Bytes u).length ≤ 5 := length_u30BytesLoop_le 5 u

theorem length_addedBytesOf_le {α : Type} (f : α → StreamOp) (cost : α → ℕ) (xs : List α)
    (h : ∀ x ∈ xs, (f x).addedBytes.length ≤ cost x) :
    (addedBytesOf (xs.map f)).length ≤ (xs.map cost).sum := by
  induction xs with
  | nil => simp
  | cons x xs ih =>
      have hx := h x List.mem_cons_self
      have hrest := ih fun y hy => h y (List.mem_cons_of_mem x hy)
      rw [List.map_cons, addedBytesOf_cons, List.length_append, List.map_cons, List.sum_cons]
      omega

/-- What the lists cost for one value. -/
def LuaValue.itemCost : LuaValue → ℕ
  | .string s => s.length + 5
  | _ => 8

theorem length_listBytes_le {sym : SymTable} {add : LuaValue → StreamOp} {items : List LuaValue}
    (h : ∀ v ∈ items, (add v).addedBytes.length ≤ v.itemCost) :
    (listBytes sym add items).length ≤ 5 + (items.map LuaValue.itemCost).sum := by
  unfold listBytes
  split
  · simp
  · have hcount := length_u30Bytes_le (UInt32.ofNat (sym.fresh items).length)
    have hfresh := length_addedBytesOf_le add LuaValue.itemCost (sym.fresh items)
      fun v hv => h v (List.mem_filter.mp hv).1
    have hsub : ((sym.fresh items).map LuaValue.itemCost).sum ≤ (items.map LuaValue.itemCost).sum :=
      (List.filter_sublist.map LuaValue.itemCost).sum_le_sum (by simp)
    rw [List.length_append]
    omega

theorem length_entryOps_le (index : LuaValue → ℕ) (es : List (LuaValue × LuaValue)) :
    (addedBytesOf (entryOps index es)).length ≤ 10 * es.length := by
  induction es with
  | nil => simp [entryOps]
  | cons e es ih =>
      have h₁ := length_u30Bytes_le (UInt32.ofNat (index e.1))
      have h₂ := length_u30Bytes_le (UInt32.ofNat (index e.2))
      have hcons : addedBytesOf (entryOps index (e :: es)) = u30Bytes (UInt32.ofNat (index e.1)) ++
          (u30Bytes (UInt32.ofNat (index e.2)) ++ addedBytesOf (entryOps index es)) := by
        simp [entryOps, StreamOp.addedBytes]
      rw [hcons, List.length_append, List.length_append, List.length_cons]
      omega

theorem length_emitTable_le (index : LuaValue → ℕ) (T : LuaTable) :
    (addedBytesOf (emitTable index T)).length ≤ 10 + 15 * T.entries.length := by
  have hframe := length_u30Bytes_le (UInt32.ofNat (tableBytes index T).length)
  have hcount := length_u30Bytes_le (UInt32.ofNat (firstBorder T.entries))
  have harray := length_addedBytesOf_le
    (fun v => StreamOp.addU30 (UInt32.ofNat (index v))) (fun _ => 5) T.arrayPart
    fun v _ => length_u30Bytes_le _
  have hhash := length_entryOps_le index T.hashPart
  have hborder := T.firstBorder_le_length
  have hfilter : T.hashPart.length ≤ T.entries.length := List.length_filter_le _ _
  simp only [List.map_const', List.sum_replicate, smul_eq_mul, length_arrayPart] at harray
  rw [emitTable_bytes, frame, List.length_append]
  simp only [tableBytes, List.length_append] at hframe ⊢
  omega

section Sizes

variable {H : LuaHeap} {o : LuaValue} {ctx : Ctx}

/-- The tables that can be reached are listed. -/
theorem Packed.mem_tables (hp : Packed H o ctx) {ref : ℕ} (href : H.Reach o (.table ref)) :
    .table ref ∈ ctx.tables := by
  -- a table is equal only to itself
  obtain ⟨u, hu, heq⟩ := hp.complete _ href rfl
  obtain rfl | ⟨n, m, -, h⟩ := rawEq_cases heq
  · have hkinds := hp.good.kinds
    simp only [Ctx.items, List.mem_append] at hu
    rcases hu with (((hu | hu) | hu) | hu) | hu
    · obtain ⟨n, h, -⟩ := hkinds.numbers _ hu
      cases h
    · obtain ⟨n, h, -⟩ := hkinds.u30s _ hu
      cases h
    · obtain ⟨str, h⟩ := hkinds.strings _ hu
      cases h
    · obtain ⟨r, h⟩ := hkinds.funcs _ hu
      cases h
    · exact hu
  · cases h

theorem Packed.reach_tables (hp : Packed H o ctx) {ref : ℕ} (h : .table ref ∈ ctx.tables) :
    H.Reach o (.table ref) := hp.reach _ (by simp [Ctx.items, h])

/-- Everything listed is the root or a child of a listed table. -/
theorem Packed.items_subset (hp : Packed H o ctx) : ctx.items ⊆ o :: ctx.tables.flatMap H.children := by
  intro w hw
  rcases Relation.ReflTransGen.cases_tail (hp.reach w hw) with rfl | ⟨v, hv, hchild⟩
  · exact List.mem_cons_self
  · refine List.mem_cons_of_mem o (List.mem_flatMap.mpr ⟨v, ?_, hchild⟩)
    cases v with
    | table ref => exact hp.mem_tables hv
    | _ => cases hchild

theorem Packed.nodup_items (hp : Packed H o ctx) : ctx.items.Nodup := hp.good.nodup.of_map _

theorem Packed.nodup_tables (hp : Packed H o ctx) : ctx.tables.Nodup :=
  hp.nodup_items.sublist (List.sublist_append_right _ _)

/-- The costs of the lists are paid by the occurrences in the tables. -/
theorem Packed.itemCost_le (hp : Packed H o ctx) :
    (ctx.items.map LuaValue.itemCost).sum ≤ o.itemCost +
      (ctx.tables.map fun t => ((H.children t).map LuaValue.itemCost).sum).sum := by
  have hsub := hp.nodup_items.subperm hp.items_subset
  have hle : (ctx.items.map LuaValue.itemCost).sum
      ≤ ((o :: ctx.tables.flatMap H.children).map LuaValue.itemCost).sum := by
    obtain ⟨l, hperm, hsub⟩ := hsub
    rw [← (hperm.map LuaValue.itemCost).sum_eq]
    exact (hsub.map LuaValue.itemCost).sum_le_sum (by simp)
  have hflat : ∀ ts : List LuaValue, ((ts.flatMap H.children).map LuaValue.itemCost).sum
      = (ts.map fun t => ((H.children t).map LuaValue.itemCost).sum).sum := by
    intro ts
    induction ts with
    | nil => rfl
    | cons t ts ih =>
        rw [List.flatMap_cons, List.map_append, List.sum_append, ih, List.map_cons, List.sum_cons]
  rw [List.map_cons, List.sum_cons, hflat] at hle
  exact hle

theorem itemCost_add_le (v : LuaValue) : v.itemCost + 8 ≤ v.size := by
  cases v <;> simp [LuaValue.itemCost, LuaValue.size]

/-- The size of a table pays for its bytes and for the values in it. -/
theorem size_table (ref : ℕ) :
    10 + 15 * (H.table ref).entries.length + ((H.children (.table ref)).map LuaValue.itemCost).sum
      ≤ (H.table ref).size := by
  have hentries : ∀ es : List (LuaValue × LuaValue),
      15 * es.length + ((es.flatMap fun e => [e.1, e.2]).map LuaValue.itemCost).sum
        ≤ (es.map fun e => e.1.size + e.2.size).sum := by
    intro es
    induction es with
    | nil => simp
    | cons e es ih =>
        have h₁ := itemCost_add_le e.1
        have h₂ := itemCost_add_le e.2
        simp only [List.length_cons, List.flatMap_cons, List.map_append, List.map_cons, List.map_nil,
          List.sum_append, List.sum_cons, List.sum_nil]
        omega
  have := hentries (H.table ref).entries
  rw [LuaTable.size, LuaHeap.children]
  omega

theorem Packed.tables_size_le (hp : Packed H o ctx) (hsup : SupportedGraph H o) :
    o.size + (ctx.tables.map fun t => (H.tableOf t).size).sum ≤ graphSize H o := by
  classical
  have hsum : ∑ t ∈ ctx.tables.toFinset, (H.tableOf t).size
      = (ctx.tables.map fun t => (H.tableOf t).size).sum :=
    List.sum_toFinset _ hp.nodup_tables
  have himage : ∑ t ∈ ((Finset.range H.length).filter
        fun ref => H.Reach o (.table ref)).image LuaValue.table, (H.tableOf t).size
      = ∑ ref ∈ (Finset.range H.length).filter fun ref => H.Reach o (.table ref),
          (H.table ref).size :=
    Finset.sum_image fun a _ b _ hab => by cases hab; rfl
  rw [graphSize, ← hsum, ← himage]
  refine Nat.add_le_add_left (Finset.sum_le_sum_of_subset ?_) _
  intro t ht
  rw [List.mem_toFinset] at ht
  obtain ⟨ref, rfl⟩ := hp.good.kinds.tables t ht
  have hreach := hp.reach_tables ht
  exact Finset.mem_image_of_mem _ (Finset.mem_filter.mpr
    ⟨Finset.mem_range.mpr (hsup _ hreach), hreach⟩)

/-- **The encoding is not longer than the graph is large.** -/
theorem Packed.length_bodyOps_le (hp : Packed H o ctx) (hsup : SupportedGraph H o)
    (sym : SymTable) : (addedBytesOf (bodyOps H sym ctx)).length ≤ graphSize H o + 20 := by
  have hnum : (listBytes sym addNumber ctx.numbers).length
      ≤ 5 + (ctx.numbers.map LuaValue.itemCost).sum := by
    apply length_listBytes_le
    intro v hv
    obtain ⟨n, rfl, -⟩ := hp.good.kinds.numbers v hv
    exact (length_addNumber _).le
  have hu30 : (listBytes sym addInteger ctx.u30s).length
      ≤ 5 + (ctx.u30s.map LuaValue.itemCost).sum := by
    apply length_listBytes_le
    intro v hv
    obtain ⟨n, rfl, -⟩ := hp.good.kinds.u30s v hv
    exact (length_u30Bytes_le _).trans (by simp [LuaValue.itemCost])
  have hstr : (listBytes sym addText ctx.strings).length
      ≤ 5 + (ctx.strings.map LuaValue.itemCost).sum := by
    apply length_listBytes_le
    intro v hv
    obtain ⟨str, rfl⟩ := hp.good.kinds.strings v hv
    have := length_u30Bytes_le (UInt32.ofNat str.length)
    simp only [addText, StreamOp.addedBytes, List.length_append, LuaValue.itemCost]
    omega
  have htab : (tablesBytes H sym ctx).length
      ≤ 5 + (ctx.tables.map fun t => 10 + 15 * (H.tableOf t).entries.length).sum := by
    unfold tablesBytes
    split
    · simp
    · have hcount := length_u30Bytes_le (UInt32.ofNat ctx.tables.length)
      have hframes : ∀ ts : List LuaValue,
          (addedBytesOf ((ts.map H.tableOf).flatMap (emitTable (indexOf sym ctx)))).length
            ≤ (ts.map fun t => 10 + 15 * (H.tableOf t).entries.length).sum := by
        intro ts
        induction ts with
        | nil => simp
        | cons t ts ih =>
            have ht := length_emitTable_le (indexOf sym ctx) (H.tableOf t)
            rw [List.map_cons, List.flatMap_cons, addedBytesOf_append, List.length_append,
              List.map_cons, List.sum_cons]
            omega
      have := hframes ctx.tables
      rw [List.length_append]
      omega
  have hitems := hp.itemCost_le
  have hsize := hp.tables_size_le hsup
  have hroot := itemCost_add_le o
  -- each table pays for its own bytes
  have hpay : ∀ ts : List LuaValue, (∀ t ∈ ts, ∃ ref, t = .table ref) →
      (ts.map fun t => 10 + 15 * (H.tableOf t).entries.length).sum +
          (ts.map fun t => ((H.children t).map LuaValue.itemCost).sum).sum
        ≤ (ts.map fun t => (H.tableOf t).size).sum := by
    intro ts
    induction ts with
    | nil => simp
    | cons t ts ih =>
        intro hts
        obtain ⟨ref, rfl⟩ := hts t List.mem_cons_self
        have hrest := ih fun t' ht' => hts t' (List.mem_cons_of_mem _ ht')
        have ht := size_table (H := H) ref
        simp only [List.map_cons, List.sum_cons, LuaHeap.tableOf] at hrest ⊢
        omega
  have hpaid := hpay ctx.tables hp.good.kinds.tables
  simp only [Ctx.items, List.map_append, List.sum_append] at hitems
  rw [bodyOps_bytes]
  simp only [List.length_append]
  omega

end Sizes

/-! ## What arrives -/

/-- What arrives of a value: a boolean as it is, a value of the symbol table as the
symbol table has it, and any other value as itself or as the nearest double. -/
def ReceivedAs (sym : SymTable) (ctx : Ctx) (v r : LuaValue) : Prop :=
  (∃ b, v = .boolean b ∧ r = .boolean b) ∨ (sym.Has v ∧ r ∈ sym.vk ∧ r.rawEq v = true) ∨
    (¬ sym.Has v ∧ Arrives ctx v r)

/-- The values of the symbol table and of the graph can be counted with 32 bits. -/
def IndexSpace (H : LuaHeap) (o : LuaValue) (sym : SymTable) : Prop :=
  ∀ ctx, packer H (H.length + 1) Ctx.init o = .ok ctx →
    sym.index + (encodedValues sym ctx).length < 2 ^ 32

/-- The body of the encoding and its indices are within the counters of the code. -/
structure Fits (H : LuaHeap) (sym : SymTable) (ctx : Ctx) : Prop where
  index : sym.index + (encodedValues sym ctx).length < 2 ^ 32
  length : (addedBytesOf (bodyOps H sym ctx)).length + 1 < 2 ^ 32

section Sent

variable {H : LuaHeap} {o : LuaValue} {ctx : Ctx} {sym : SymTable}

theorem length_encodedValues_le (H : LuaHeap) (sym : SymTable) (ctx : Ctx) :
    (encodedValues sym ctx).length ≤ (addedBytesOf (bodyOps H sym ctx)).length := by
  have hn := length_fresh_le sym ctx.numbers length_addNumber_pos
  have hu := length_fresh_le sym ctx.u30s length_addInteger_pos
  have hs := length_fresh_le sym ctx.strings length_addText_pos
  have ht := length_tables_le H sym ctx
  rw [bodyOps_bytes]
  simp only [encodedValues, List.length_append]
  omega

/-- A value of a supported graph is a boolean, or equal to one in the lists. -/
theorem Packed.boolean_or_listed (hp : Packed H o ctx) (hsup : SupportedGraph H o) {v : LuaValue}
    (hv : H.Reach o v) : (∃ b, v = .boolean b) ∨
      ∃ w ∈ ctx.numbers ++ ctx.u30s ++ ctx.strings ++ ctx.tables, w.rawEq v = true := by
  have hsupported := hsup v hv
  have hlisted : v.listed = true → ∃ w ∈ ctx.numbers ++ ctx.u30s ++ ctx.strings ++ ctx.tables,
      w.rawEq v = true := by
    intro hlisted
    obtain ⟨w, hw, heq⟩ := hp.complete v hv hlisted
    refine ⟨w, ?_, heq⟩
    simp only [Ctx.items, List.mem_append] at hw ⊢
    rcases hw with (((hw | hw) | hw) | hw) | hw
    · exact Or.inl (Or.inl (Or.inl hw))
    · exact Or.inl (Or.inl (Or.inr hw))
    · exact Or.inl (Or.inr hw)
    · -- functions are not supported
      obtain ⟨ref, rfl⟩ := hp.good.kinds.funcs w hw
      obtain rfl | ⟨n, m, h, -⟩ := rawEq_cases heq
      · cases hsupported
      · cases h
    · exact Or.inr hw
  cases v with
  | boolean b => exact Or.inl ⟨b, rfl⟩
  | number n => exact Or.inr (hlisted rfl)
  | string str => exact Or.inr (hlisted rfl)
  | table ref => exact Or.inr (hlisted rfl)
  | nil => cases hsupported
  | other type ref => cases hsupported

/-- **The index of every value of the graph is written and leads to what arrives of
it**, if an index has 32 bits. -/
theorem recv_spec_of_lt (hp : Packed H o ctx) (hsup : SupportedGraph H o) (hsym : sym.Lawful)
    (hlt : sym.index + (encodedValues sym ctx).length < 2 ^ 32) {v : LuaValue} (hv : H.Reach o v) :
    Leads (lookupIndex sym (decodedValues sym ctx)) (indexOf sym ctx) (recvValue sym ctx) v ∧
      ReceivedAs sym ctx v (recvValue sym ctx v) := by
  obtain ⟨hle, r, hr, hcases⟩ := lookup_indexOf hsym hp.good (hp.boolean_or_listed hsup hv)
  have hrecv : recvValue sym ctx v = r := by
    rw [recvValue, hr]
    rfl
  rw [hrecv]
  refine ⟨⟨by omega, ?_⟩, hcases⟩
  rw [hr, hrecv]

/-- A graph of less than half of that size fits. -/
theorem Packed.fits (hp : Packed H o ctx) (hsup : SupportedGraph H o)
    (hsize : sym.index + graphSize H o + 64 ≤ 2 ^ 31) : Fits H sym ctx := by
  have hlen := hp.length_bodyOps_le hsup sym
  have hvalues := length_encodedValues_le H sym ctx
  constructor <;> omega

theorem recv_spec (hp : Packed H o ctx) (hsup : SupportedGraph H o) (hsym : sym.Lawful)
    (hfits : Fits H sym ctx) {v : LuaValue} (hv : H.Reach o v) :
    Leads (lookupIndex sym (decodedValues sym ctx)) (indexOf sym ctx) (recvValue sym ctx) v ∧
      ReceivedAs sym ctx v (recvValue sym ctx v) :=
  recv_spec_of_lt hp hsup hsym hfits.index hv

/-- What arrives can be a key. -/
theorem ReceivedAs.isKey {v r : LuaValue} (h : ReceivedAs sym ctx v r) (hsym : sym.Lawful)
    (hv : v.Supported H) : r.isKey = true := by
  rcases h with ⟨b, -, rfl⟩ | ⟨-, hr, -⟩ | ⟨-, harr⟩
  · rfl
  · rcases hsym.scalar r hr with ⟨n, rfl, hn⟩ | ⟨str, rfl⟩
    · simp [LuaValue.isKey, hn]
    · rfl
  · cases harr with
    | @number n m h =>
        have hnan : n.toDouble.value ≠ .nan := LuaNumber.value_toDouble_ne_nan hv
        simp [LuaValue.isKey, LuaNumber.isNan, h, hnan]
    | string str => rfl
    | table h => rfl

theorem mem_arrayPart {T : LuaTable} {v : LuaValue} (h : v ∈ T.arrayPart) :
    ∃ i < firstBorder T.entries, (intKey (i + 1 : ℕ), v) ∈ T.entries := by
  obtain ⟨i, hi, rfl⟩ := List.mem_map.mp h
  have hlt := List.mem_range.mp hi
  exact ⟨i, hlt, (T.exists_of_lt_firstBorder hlt).2⟩

/-- The entries of a table of the graph are part of the graph. -/
theorem reach_entry {ref : ℕ} (href : H.Reach o (.table ref)) {e : LuaValue × LuaValue}
    (he : e ∈ (H.table ref).entries) : H.Reach o e.1 ∧ H.Reach o e.2 :=
  ⟨href.tail (LuaHeap.mem_children.mpr ⟨e, he, Or.inl rfl⟩),
    href.tail (LuaHeap.mem_children.mpr ⟨e, he, Or.inr rfl⟩)⟩

theorem tableLeads_of_lt (hp : Packed H o ctx) (hsup : SupportedGraph H o) (hsym : sym.Lawful)
    (hlt : sym.index + (encodedValues sym ctx).length < 2 ^ 32) {ref : ℕ}
    (href : H.Reach o (.table ref)) :
    TableLeads (lookupIndex sym (decodedValues sym ctx)) (indexOf sym ctx) (recvValue sym ctx)
      (H.table ref) := by
  constructor
  · intro v hv
    obtain ⟨i, -, hmem⟩ := mem_arrayPart hv
    exact (recv_spec_of_lt hp hsup hsym hlt (reach_entry href hmem).2).1
  · intro e he
    obtain ⟨hk, hv⟩ := reach_entry href (List.mem_filter.mp he).1
    obtain ⟨hleads, hrecv⟩ := recv_spec_of_lt hp hsup hsym hlt hk
    exact ⟨hleads, (recv_spec_of_lt hp hsup hsym hlt hv).1, hrecv.isKey hsym (hsup _ hk)⟩

/-- The tables that arrive. -/
def receivedHeap (H : LuaHeap) (sym : SymTable) (ctx : Ctx) : LuaHeap :=
  ctx.tables.map fun t => (H.tableOf t).rebuilt (recvValue sym ctx)

/-- The value that arrives. -/
def receivedRoot (sym : SymTable) (ctx : Ctx) : LuaValue :=
  (lookupIndex sym (decodedValues sym ctx) (topIndex sym ctx)).getD .nil

/-- What `encode` returns for a value other than a boolean. -/
theorem encode_eq (hbool : ∀ b, o ≠ .boolean b) {bytes : List UInt8}
    (hctx : packer H (H.length + 1) Ctx.init o = .ok ctx) (henc : objectbufEncode H o sym = .ok bytes) :
    bytes = encodeFlag ctx :: addedBytesOf (bodyOps H sym ctx) := by
  cases o with
  | boolean b => exact absurd rfl (hbool b)
  | nil => cases henc
  | _ =>
      simp only [objectbufEncode, hctx] at henc
      cases henc
      rfl

/-- A supported graph is enumerated and encoded. -/
theorem exists_encode (hsup : SupportedGraph H o) (sym : SymTable) :
    ∃ ctx bytes, packer H (H.length + 1) Ctx.init o = .ok ctx ∧ Packed H o ctx ∧
      objectbufEncode H o sym = .ok bytes := by
  obtain ⟨ctx, hctx, hp⟩ := packer_ok fun w hw _ => (hsup w hw).isKey
  have hroot := hsup o Relation.ReflTransGen.refl
  cases o with
  | boolean b => exact ⟨ctx, _, hctx, hp, rfl⟩
  | nil => cases hroot
  | _ => exact ⟨ctx, encodeFlag ctx :: addedBytesOf (bodyOps H sym ctx), hctx, hp, by simp only [objectbufEncode, hctx]⟩

/-- **Sending a graph**: decoding what it is encoded to rebuilds the listed tables. -/
theorem sent_received (hp : Packed H o ctx) (hsup : SupportedGraph H o) (hsym : sym.Lawful) (hfits : Fits H sym ctx)
    (hbool : ∀ b, o ≠ .boolean b) :
    objectbufDecode (encodeFlag ctx :: addedBytesOf (bodyOps H sym ctx)) sym =
      .ok (receivedHeap H sym ctx, receivedRoot sym ctx) := by
  refine decode_encode hp.good ?_ hfits.length ?_
  · intro t ht
    obtain ⟨ref, rfl⟩ := hp.good.kinds.tables t ht
    exact tableLeads_of_lt hp hsup hsym hfits.index (hp.reach_tables ht)
  · -- the root is in one of the lists
    rintro ⟨h₁, h₂, h₃, h₄⟩
    rcases hp.boolean_or_listed hsup Relation.ReflTransGen.refl with ⟨b, hb⟩ | ⟨w, hw, -⟩
    · exact hbool b hb
    · simp [h₁, h₂, h₃, h₄] at hw

/-- The root of a graph of tables arrives as the first table. -/
theorem receivedRoot_table {ref : ℕ} (hp : Packed H (.table ref) ctx) (hsym : sym.Lawful) :
    receivedRoot sym ctx = .table 0 := by
  have hhead := hp.head ref rfl
  have hne : ctx.tables ≠ [] := by
    intro h
    rw [h] at hhead
    cases hhead
  have hindex := hsym.index_eq
  have hvk : sym.getVk (topIndex sym ctx) = none := by
    rw [SymTable.getVk, topIndex, if_pos hne, if_pos (by omega), List.getElem?_eq_none (by omega)]
  have hmap : indexMapGet sym (decodedValues sym ctx) (topIndex sym ctx) = some (.table 0) := by
    have hpos : 0 < ctx.tables.length := List.length_pos_of_ne_nil hne
    rw [indexMapGet, topIndex, if_pos hne, if_pos (by omega), decodedValues,
      List.getElem?_append_right (by simp; omega)]
    simp only [List.length_append, List.length_map]
    rw [List.getElem?_map, show ∀ a b c d : ℕ, d + (a + b + c) + 1 - d - 1 - (a + b + c) = 0 by omega,
      List.getElem?_range hpos]
    rfl
  rw [receivedRoot, lookupIndex, hvk, Option.none_or, hmap]
  rfl

/-- Of a scalar nothing else is listed. -/
theorem Packed.items_scalar (hp : Packed H o ctx) (hlisted : o.listed = true)
    (hchildren : H.children o = []) : ctx.items = [o] := by
  have honly : ∀ w ∈ ctx.items, w = o := by
    intro w hw
    rcases Relation.ReflTransGen.cases_head (hp.reach w hw) with rfl | ⟨u, hu, -⟩
    · rfl
    · rw [hchildren] at hu
      cases hu
  obtain ⟨w, hw, -⟩ := hp.complete o Relation.ReflTransGen.refl hlisted
  have hnodup := hp.nodup_items
  cases hitems : ctx.items with
  | nil =>
      rw [hitems] at hw
      cases hw
  | cons x xs =>
      rw [hitems] at honly hnodup
      obtain rfl := honly x List.mem_cons_self
      cases xs with
      | nil => rfl
      | cons y ys =>
          obtain rfl := honly y (by simp)
          simp at hnodup

/-- **A scalar arrives unless the symbol table has it**; then nothing arrives. -/
theorem receivedRoot_scalar (hp : Packed H o ctx) (hsym : sym.Lawful)
    (hscalar : (∃ n, o = .number n) ∨ ∃ str, o = .string str) :
    (sym.Has o → receivedRoot sym ctx = .nil) ∧
      (¬ sym.Has o → Arrives ctx o (receivedRoot sym ctx)) ∧ ctx.tables = [] := by
  have hlisted : o.listed = true := by
    rcases hscalar with ⟨n, rfl⟩ | ⟨str, rfl⟩ <;> rfl
  have hitems := hp.items_scalar hlisted (by rcases hscalar with ⟨n, rfl⟩ | ⟨str, rfl⟩ <;> rfl)
  have hkinds := hp.good.kinds
  have honly : ∀ w ∈ ctx.items, w = o := by
    intro w hw
    rw [hitems] at hw
    exact List.mem_singleton.mp hw
  have htables : ctx.tables = [] := by
    apply List.eq_nil_iff_forall_not_mem.mpr
    intro t ht
    obtain ⟨ref, rfl⟩ := hkinds.tables t ht
    have := honly (.table ref) (by simp [Ctx.items, ht])
    rcases hscalar with ⟨n, rfl⟩ | ⟨str, rfl⟩ <;> cases this
  have hfuncs : ctx.funcs = [] := by
    apply List.eq_nil_iff_forall_not_mem.mpr
    intro t ht
    obtain ⟨ref, rfl⟩ := hkinds.funcs t ht
    have := honly (.other .function ref) (by simp [Ctx.items, ht])
    rcases hscalar with ⟨n, rfl⟩ | ⟨str, rfl⟩ <;> cases this
  -- the only value is in one of the three lists, and `last_top` is the next index
  have hlists : (ctx.numbers = [o] ∧ ctx.u30s = [] ∧ ctx.strings = []) ∨
      (ctx.numbers = [] ∧ ctx.u30s = [o] ∧ ctx.strings = []) ∨
      (ctx.numbers = [] ∧ ctx.u30s = [] ∧ ctx.strings = [o]) := by
    rw [Ctx.items, htables, hfuncs, List.append_nil, List.append_nil] at hitems
    rcases List.append_eq_singleton_iff.mp hitems with ⟨h₁, h₂⟩ | ⟨h₁, h₂⟩
    · obtain ⟨h₃, h₄⟩ := List.append_eq_nil_iff.mp h₁
      exact Or.inr (Or.inr ⟨h₃, h₄, h₂⟩)
    · rcases List.append_eq_singleton_iff.mp h₁ with ⟨h₃, h₄⟩ | ⟨h₃, h₄⟩
      · exact Or.inr (Or.inl ⟨h₃, h₄, h₂⟩)
      · exact Or.inl ⟨h₃, h₄, h₂⟩
  have htop : topIndex sym ctx = sym.index + 1 := by
    rcases hlists with ⟨h₁, h₂, h₃⟩ | ⟨h₁, h₂, h₃⟩ | ⟨h₁, h₂, h₃⟩ <;>
      simp [topIndex, htables, h₁, h₂, h₃, SymTable.fresh]
  have hencoded : encodedValues sym ctx = sym.fresh [o] := by
    rcases hlists with ⟨h₁, h₂, h₃⟩ | ⟨h₁, h₂, h₃⟩ | ⟨h₁, h₂, h₃⟩ <;>
      simp [encodedValues, htables, h₁, h₂, h₃, SymTable.fresh]
  have hvk : sym.getVk (sym.index + 1) = none := by
    have hindex := hsym.index_eq
    rw [SymTable.getVk, if_pos (by omega), List.getElem?_eq_none (by omega)]
  have hroot : receivedRoot sym ctx = ((decodedValues sym ctx)[0]?).getD .nil := by
    rw [receivedRoot, htop, lookupIndex, hvk, Option.none_or, indexMapGet, if_pos (by omega),
      show sym.index + 1 - sym.index - 1 = 0 by omega]
  have hforall := arrives_decodedValues sym hp.good
  refine ⟨?_, ?_, htables⟩
  · intro hhas
    have hnil : encodedValues sym ctx = [] := by
      rw [SymTable.Has] at hhas
      rw [hencoded, SymTable.fresh]
      apply List.filter_eq_nil_iff.mpr
      intro v hv
      obtain rfl := List.mem_singleton.mp hv
      simpa [Option.isSome_iff_ne_none] using hhas
    rw [hnil] at hforall
    rw [hroot, List.forall₂_nil_left_iff.mp hforall]
    rfl
  · intro hnot
    have hone : (encodedValues sym ctx)[0]? = some o := by
      rw [SymTable.Has] at hnot
      rw [hencoded, SymTable.fresh, List.filter_cons_of_pos (by simpa using hnot)]
      rfl
    obtain ⟨r, hr, harr⟩ := getElem?_of_forall₂ hforall hone
    rw [hroot, hr]
    exact harr

end Sent

/-! ## Short encodings -/

theorem length_u30BytesLoop_ge (k : ℕ) : ∀ (n : ℕ) (u : UInt32), k < n → 2 ^ (7 * k) ≤ u.toNat →
    k < (u30BytesLoop n u).length := by
  induction k with
  | zero =>
      intro n u hn _
      obtain ⟨n, rfl⟩ := Nat.exists_eq_succ_of_ne_zero hn.ne'
      simp [u30BytesLoop]
  | succ k ih =>
      intro n u hn hu
      obtain ⟨n, rfl⟩ := Nat.exists_eq_succ_of_ne_zero (Nat.ne_of_gt (by omega : 0 < n))
      have hpow : 2 ^ (7 * (k + 1)) = 2 ^ (7 * k) * 128 := by
        rw [Nat.mul_succ, pow_add]
        rfl
      have hpos : 0 < 2 ^ (7 * k) := Nat.two_pow_pos _
      have hmore : u >>> 7 ≠ 0 := (u30_more_iff u).mpr (by omega)
      have hrest := ih n (u >>> 7) (by omega) (by rw [toNat_shiftRight_seven]; omega)
      rw [u30BytesLoop, if_pos hmore, List.length_cons]
      omega

/-- A count of `2 ^ 28` or more takes five bytes. -/
theorem length_u30Bytes_count {n : ℕ} (h : 2 ^ 28 ≤ n) (hn : n < 2 ^ 32) :
    5 ≤ (u30Bytes (UInt32.ofNat n)).length := by
  have hcount : (UInt32.ofNat n).toNat = n := by
    rw [UInt32.toNat_ofNat']
    exact Nat.mod_eq_of_lt hn
  exact length_u30BytesLoop_ge 4 5 _ (by omega) (by rw [hcount]; exact h)

/-- A list with very many values takes five bytes more. -/
theorem length_fresh_add_le (sym : SymTable) {add : LuaValue → StreamOp} (items : List LuaValue)
    (hadd : ∀ v, 0 < (add v).addedBytes.length) (hlarge : 2 ^ 28 ≤ (sym.fresh items).length)
    (hlen : (sym.fresh items).length < 2 ^ 32) :
    (sym.fresh items).length + 5 ≤ (listBytes sym add items).length := by
  have hne : items ≠ [] := by
    rintro rfl
    simp [SymTable.fresh] at hlarge
  have hcount := length_u30Bytes_count hlarge hlen
  have := length_le_addedBytesOf add (sym.fresh items) fun v _ => hadd v
  rw [listBytes, if_neg hne, List.length_append]
  omega

theorem length_tables_add_le (H : LuaHeap) (sym : SymTable) (ctx : Ctx)
    (hlarge : 2 ^ 28 ≤ ctx.tables.length) (hlen : ctx.tables.length < 2 ^ 32) :
    ctx.tables.length + 5 ≤ (tablesBytes H sym ctx).length := by
  have hne : ctx.tables ≠ [] := by
    intro h
    simp [h] at hlarge
  have hcount := length_u30Bytes_count hlarge hlen
  have hframes := length_tables_le_frames (indexOf sym ctx) (ctx.tables.map H.tableOf)
  rw [List.length_map] at hframes
  rw [tablesBytes, if_neg hne, List.length_append]
  omega

/-- The indices of an encoding of less than `2 ^ 32` bytes have 32 bits. -/
theorem index_lt_of_length (H : LuaHeap) (ctx : Ctx)
    (hlen : (addedBytesOf (bodyOps H .missing ctx)).length < 2 ^ 32) :
    SymTable.missing.index + (encodedValues .missing ctx).length < 2 ^ 32 := by
  have hindex : SymTable.missing.index = 2 := rfl
  have hn := length_fresh_le .missing ctx.numbers length_addNumber_pos
  have hu := length_fresh_le .missing ctx.u30s length_addInteger_pos
  have hs := length_fresh_le .missing ctx.strings length_addText_pos
  have ht := length_tables_le H .missing ctx
  have hn' := length_fresh_add_le .missing ctx.numbers length_addNumber_pos
  have hu' := length_fresh_add_le .missing ctx.u30s length_addInteger_pos
  have hs' := length_fresh_add_le .missing ctx.strings length_addText_pos
  have ht' := length_tables_add_le H .missing ctx
  rw [bodyOps_bytes] at hlen
  simp only [List.length_append] at hlen
  simp only [encodedValues, List.length_append]
  omega

theorem index_lt_of_short {H : LuaHeap} {o : LuaValue} {ctx : Ctx} {sym : SymTable} {bytes : List UInt8}
    (hctx : packer H (H.length + 1) Ctx.init o = .ok ctx)
    (henc : objectbufEncode H o sym = .ok bytes) (hlen : bytes.length < 2 ^ 32)
    (hspace : sym = .missing ∨ IndexSpace H o sym) :
    sym.index + (encodedValues sym ctx).length < 2 ^ 32 := by
  rcases hspace with rfl | hspace
  · by_cases hbool : ∃ b, o = .boolean b
    · -- nothing is listed
      obtain ⟨b, rfl⟩ := hbool
      cases hctx
      decide
    · obtain rfl := encode_eq (fun b h => hbool ⟨b, h⟩) hctx henc
      rw [List.length_cons] at hlen
      exact index_lt_of_length H ctx (by omega)
  · exact hspace ctx hctx

/-- **An encoding of less than `2 ^ 32` bytes is within the counters.** -/
theorem fits_of_short {H : LuaHeap} {o : LuaValue} {ctx : Ctx} {sym : SymTable} {bytes : List UInt8}
    (hbool : ∀ b, o ≠ .boolean b) (hctx : packer H (H.length + 1) Ctx.init o = .ok ctx)
    (henc : objectbufEncode H o sym = .ok bytes) (hlen : bytes.length < 2 ^ 32)
    (hspace : sym = .missing ∨ IndexSpace H o sym) : Fits H sym ctx := by
  refine ⟨index_lt_of_short hctx henc hlen hspace, ?_⟩
  obtain rfl := encode_eq hbool hctx henc
  exact hlen

/-- A graph that is not too large is encoded to less than `2 ^ 32` bytes. -/
theorem encode_short {H : LuaHeap} {o : LuaValue} {sym : SymTable} {bytes : List UInt8} (hsup : SupportedGraph H o)
    (hsize : sym.index + graphSize H o + 64 ≤ 2 ^ 31) (henc : objectbufEncode H o sym = .ok bytes) :
    bytes.length < 2 ^ 32 ∧ IndexSpace H o sym := by
  refine ⟨?_, fun ctx hctx => ((packed_of_ok hctx).fits hsup hsize).index⟩
  by_cases hbool : ∃ b, o = .boolean b
  · obtain ⟨b, rfl⟩ := hbool
    cases henc
    cases b <;> decide
  · obtain ⟨ctx, hctx, hp⟩ := packer_ok fun w hw _ => (hsup w hw).isKey
    obtain rfl := encode_eq (fun b h => hbool ⟨b, h⟩) hctx henc
    exact (hp.fits hsup hsize).length

end LuaFan
