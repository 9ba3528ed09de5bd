/-
# What arrives of a value graph

`decode_encode` says what decoding an encoding with the same symbol table gives:
**one new table for each listed table, built from the values that the written
indices lead to**, with the first of them (or the only scalar) as the result.
-/
import LuaFan.Objectbuf.Decode
import LuaFan.Stream.Frame

namespace LuaFan

open Fp

/-! ## Reading back one item -/

theorem getU30_append (u : UInt32) (rest : List UInt8) :
    getU30 (u30Bytes u ++ rest) = some (u, rest) := by
  simp [getU30, takeU30_append]

theorem getNumber_append (v : LuaValue) (rest : List UInt8) :
    getNumber ((addNumber v).addedBytes ++ rest)
      = some (.number (.float (luaTonumber v)), rest) := by
  have hlen : ((addNumber v).addedBytes).length = 8 := by
    simp [addNumber, StreamOp.addedBytes]
  have hbits : (UInt64.ofNat (luaTonumber v).toBits).toNat = (luaTonumber v).toBits := by
    rw [UInt64.toNat_ofNat']
    exact Nat.mod_eq_of_lt (luaTonumber v).toBits_lt
  have hle : ofLe (addNumber v).addedBytes = (luaTonumber v).toBits := by
    rw [addNumber, StreamOp.addedBytes, ofLe_leBytes, hbits]
    exact Nat.mod_eq_of_lt (luaTonumber v).toBits_lt
  rw [getNumber, if_pos (by rw [List.length_append]; omega), ← hlen, List.take_left, List.drop_left,
    hle, Binary64.ofBits_toBits]

/-- What arrives of a number that is written as u30. -/
def recvInteger (v : LuaValue) : LuaValue :=
  .number (.integer (Int64.ofInt (UInt32.ofInt (luaTointeger v)).toNat))

theorem getInteger_append (v : LuaValue) (rest : List UInt8) :
    getInteger ((addInteger v).addedBytes ++ rest) = some (recvInteger v, rest) := by
  rw [getInteger, addInteger, StreamOp.addedBytes, getU30_append]
  rfl

theorem getBytes_frame {s : List UInt8} (hs : s.length < 2 ^ 32) (rest : List UInt8) :
    getBytes (frame s ++ rest) = some (s, rest) := by
  simp [getBytes, takeString_frame hs]

theorem getText_append {s : List UInt8} (hs : s.length < 2 ^ 32) (rest : List UInt8) :
    getText ((addText (.string s)).addedBytes ++ rest) = some (.string s, rest) := by
  rw [addText, ← frame_eq_addedBytes, getText, getBytes_frame hs]
  rfl

/-! ## Reading back a list -/

@[simp] theorem addedBytesOf_nil : addedBytesOf [] = [] := rfl

@[simp] theorem addedBytesOf_cons (op : StreamOp) (ops : List StreamOp) :
    addedBytesOf (op :: ops) = op.addedBytes ++ addedBytesOf ops := rfl

@[simp] theorem addedBytesOf_append (ops ops' : List StreamOp) :
    addedBytesOf (ops ++ ops') = addedBytesOf ops ++ addedBytesOf ops' := by
  simp [addedBytesOf]

theorem decodeItems_append {get : List UInt8 → Option (LuaValue × List UInt8)} {err : ℕ → String}
    {add : LuaValue → StreamOp} {recv : LuaValue → LuaValue} (items : List LuaValue)
    (hget : ∀ v ∈ items, ∀ rest, get ((add v).addedBytes ++ rest) = some (recv v, rest)) :
    ∀ (i : ℕ) (rest : List UInt8) (values : List LuaValue) (top : ℕ),
      decodeItems get err items.length i ⟨addedBytesOf (items.map add) ++ rest, values, top⟩
        = .ok ⟨rest, values ++ items.map recv, top⟩ := by
  induction items with
  | nil =>
      intro i rest values top
      simp [decodeItems]
  | cons v items ih =>
      intro i rest values top
      have hv := hget v List.mem_cons_self (addedBytesOf (items.map add) ++ rest)
      have hrest := ih fun w hw => hget w (List.mem_cons_of_mem v hw)
      simp only [List.length_cons, decodeItems, List.map_cons, addedBytesOf_cons, List.append_assoc,
        hv]
      rw [hrest]
      simp

/-- The bytes of the part for one list. -/
def listBytes (sym : SymTable) (add : LuaValue → StreamOp) (items : List LuaValue) : List UInt8 :=
  if items = [] then []
  else u30Bytes (UInt32.ofNat (sym.fresh items).length) ++ addedBytesOf ((sym.fresh items).map add)

theorem encodeItems_ops (sym : SymTable) (add : LuaValue → StreamOp) (items : List LuaValue)
    (st : EncodeState) :
    addedBytesOf (encodeItems sym add items st).ops
      = addedBytesOf st.ops ++ listBytes sym add items := by
  unfold encodeItems listBytes
  split
  · simp
  · simp [StreamOp.addedBytes]

theorem encodeItems_map (sym : SymTable) (add : LuaValue → StreamOp) (items : List LuaValue)
    (st : EncodeState) :
    (encodeItems sym add items st).map = st.map.addAll st.index (sym.fresh items) ∧
      (encodeItems sym add items st).index = st.index + (sym.fresh items).length := by
  unfold encodeItems
  split
  · rename_i hnil
    rw [hnil]
    exact ⟨rfl, rfl⟩
  · exact ⟨rfl, rfl⟩

theorem decodeList_append {sym : SymTable} {get : List UInt8 → Option (LuaValue × List UInt8)}
    {errCount : String} {err : ℕ → ℕ → String} {add : LuaValue → StreamOp}
    (recv : LuaValue → LuaValue) {items : List LuaValue}
    (hget : ∀ v ∈ sym.fresh items, ∀ rest, get ((add v).addedBytes ++ rest) = some (recv v, rest))
    (hlen : (sym.fresh items).length < 2 ^ 32) (rest : List UInt8) (values : List LuaValue)
    (top : ℕ) :
    decodeList sym (decide (items ≠ [])) get errCount err
        ⟨listBytes sym add items ++ rest, values, top⟩
      = .ok ⟨rest, values ++ (sym.fresh items).map recv,
          if items = [] then top else sym.index + values.length + 1⟩ := by
  by_cases hnil : items = []
  · simp [decodeList, listBytes, hnil, SymTable.fresh]
  · have hcount : (UInt32.ofNat (sym.fresh items).length).toNat = (sym.fresh items).length := by
      rw [UInt32.toNat_ofNat']
      exact Nat.mod_eq_of_lt hlen
    simp only [decodeList, listBytes, hnil, ne_eq, not_false_eq_true, decide_true, if_true, if_false,
      List.append_assoc, getU30_append, hcount, DecodeState.index]
    exact decodeItems_append _ hget 1 rest values _

/-! ## Reading back a table -/

/-- Assignments made one after the other. -/
def LuaTable.assignAll : List (LuaValue × LuaValue) → LuaTable → LuaTable
  | [], T => T
  | e :: es, T => assignAll es (if h : e.1.isKey = true then T.rawset e.1 e.2 h else T)

theorem LuaTable.assignAll_append (es es' : List (LuaValue × LuaValue)) :
    ∀ T, assignAll (es ++ es') T = assignAll es' (assignAll es T) := by
  induction es with
  | nil =>
      intro T
      rfl
  | cons e es ih =>
      intro T
      exact ih _

theorem rawsetChecked_ok {key : LuaValue} (h : key.isKey = true) (T : LuaTable) (value : LuaValue) :
    rawsetChecked T key value = .ok (T.rawset key value h) := by
  rw [rawsetChecked, dif_pos h]

theorem isKey_intKey (i : ℤ) : (intKey i).isKey = true := by
  simp [intKey, LuaValue.isKey, LuaNumber.isNan, LuaNumber.value, intValue]

section Tables

variable {lookup : ℕ → Option LuaValue} {index : LuaValue → ℕ} {recv : LuaValue → LuaValue}

/-- The index of a value is written and leads to what arrives of it. -/
def Leads (lookup : ℕ → Option LuaValue) (index : LuaValue → ℕ) (recv : LuaValue → LuaValue)
    (v : LuaValue) : Prop := index v < 2 ^ 32 ∧ lookup (index v) = some (recv v)

theorem toNat_index {v : LuaValue} (h : Leads lookup index recv v) :
    (UInt32.ofNat (index v)).toNat = index v := by
  rw [UInt32.toNat_ofNat']
  exact Nat.mod_eq_of_lt h.1

theorem decodeArrayPart_append (vs : List LuaValue) (hleads : ∀ v ∈ vs, Leads lookup index recv v) :
    ∀ (j : ℕ) (rest : List UInt8) (T : LuaTable),
      decodeArrayPart lookup vs.length j
          (addedBytesOf (vs.map fun v => .addU30 (UInt32.ofNat (index v))) ++ rest) T
        = .ok (rest, LuaTable.assignAll
            ((vs.zipIdx j).map fun p => (intKey p.2, recv p.1)) T) := by
  induction vs with
  | nil =>
      intro j rest T
      simp [decodeArrayPart, LuaTable.assignAll]
  | cons v vs ih =>
      intro j rest T
      have hv := hleads v List.mem_cons_self
      simp only [List.length_cons, List.map_cons, addedBytesOf_cons, StreamOp.addedBytes,
        List.append_assoc, decodeArrayPart, getU30_append, toNat_index hv, hv.2,
        rawsetChecked_ok (isKey_intKey j)]
      rw [ih (fun w hw => hleads w (List.mem_cons_of_mem v hw))]
      simp only [List.zipIdx_cons, List.map_cons, LuaTable.assignAll, isKey_intKey, dif_pos]

/-- The calls for the entries of the hash part. -/
def entryOps (index : LuaValue → ℕ) (es : List (LuaValue × LuaValue)) : List StreamOp :=
  es.flatMap fun e => [.addU30 (UInt32.ofNat (index e.1)), .addU30 (UInt32.ofNat (index e.2))]

theorem decodeHashPart_entries (es : List (LuaValue × LuaValue))
    (hleads : ∀ e ∈ es, Leads lookup index recv e.1 ∧ Leads lookup index recv e.2 ∧
      (recv e.1).isKey = true) :
    ∀ (rounds : ℕ) (T : LuaTable), (addedBytesOf (entryOps index es)).length ≤ rounds →
      decodeHashPart lookup rounds (addedBytesOf (entryOps index es)) T
        = .ok (LuaTable.assignAll (es.map fun e => (recv e.1, recv e.2)) T) := by
  induction es with
  | nil =>
      intro rounds T _
      cases rounds <;> rfl
  | cons e es ih =>
      intro rounds T hrounds
      obtain ⟨hk, hv, hkey⟩ := hleads e List.mem_cons_self
      have hbytes : addedBytesOf (entryOps index (e :: es))
          = u30Bytes (UInt32.ofNat (index e.1)) ++ (u30Bytes (UInt32.ofNat (index e.2)) ++
              addedBytesOf (entryOps index es)) := by
        simp [entryOps, StreamOp.addedBytes]
      have hpos := length_u30Bytes_pos (UInt32.ofNat (index e.1))
      rw [hbytes] at hrounds ⊢
      simp only [List.length_append] at hrounds
      obtain ⟨rounds, rfl⟩ := Nat.exists_eq_succ_of_ne_zero (by omega : rounds ≠ 0)
      have hrest := ih (fun e' he' => hleads e' (List.mem_cons_of_mem e he')) rounds
        (T.rawset (recv e.1) (recv e.2) hkey) (by omega)
      -- the loop looks at the input only to see that it is not empty
      obtain ⟨b, bs, hb⟩ : ∃ b bs, u30Bytes (UInt32.ofNat (index e.1)) ++
          (u30Bytes (UInt32.ofNat (index e.2)) ++ addedBytesOf (entryOps index es)) = b :: bs := by
        apply List.exists_cons_of_length_pos
        rw [List.length_append]
        omega
      have hget := getU30_append (UInt32.ofNat (index e.1))
        (u30Bytes (UInt32.ofNat (index e.2)) ++ addedBytesOf (entryOps index es))
      rw [hb] at hget ⊢
      simp only [decodeHashPart, hget, getU30_append, toNat_index hk, toNat_index hv, hk.2, hv.2,
        rawsetChecked_ok hkey, hrest, List.map_cons, LuaTable.assignAll, hkey, dif_pos]

/-- The assignments that rebuild a table. -/
def LuaTable.received (recv : LuaValue → LuaValue) (T : LuaTable) : List (LuaValue × LuaValue) :=
  (T.arrayPart.zipIdx 1).map (fun p => (intKey p.2, recv p.1)) ++
    T.hashPart.map fun e => (recv e.1, recv e.2)

/-- The table that arrives. -/
def LuaTable.rebuilt (recv : LuaValue → LuaValue) (T : LuaTable) : LuaTable :=
  assignAll (T.received recv) (LuaTable.new none)

/-- The bytes inside the frame of a table. -/
def tableBytes (index : LuaValue → ℕ) (T : LuaTable) : List UInt8 :=
  u30Bytes (UInt32.ofNat (firstBorder T.entries)) ++
    (addedBytesOf (T.arrayPart.map fun v => .addU30 (UInt32.ofNat (index v))) ++
      addedBytesOf (entryOps index T.hashPart))

theorem emitTable_bytes (index : LuaValue → ℕ) (T : LuaTable) :
    addedBytesOf (emitTable index T) = frame (tableBytes index T) := by
  simp [emitTable, tableBytes, frame, entryOps, StreamOp.addedBytes, Nat.add_comm]

/-- Everything a table holds leads somewhere. -/
def TableLeads (lookup : ℕ → Option LuaValue) (index : LuaValue → ℕ) (recv : LuaValue → LuaValue)
    (T : LuaTable) : Prop :=
  (∀ v ∈ T.arrayPart, Leads lookup index recv v) ∧
    ∀ e ∈ T.hashPart, Leads lookup index recv e.1 ∧ Leads lookup index recv e.2 ∧
      (recv e.1).isKey = true

theorem length_arrayPart (T : LuaTable) : T.arrayPart.length = firstBorder T.entries := by
  simp [LuaTable.arrayPart]

theorem decodeTable_bytes {T : LuaTable} (h : TableLeads lookup index recv T)
    (hcount : firstBorder T.entries < 2 ^ 32) :
    decodeTable lookup (tableBytes index T) = .ok (T.rebuilt recv) := by
  have hn : (UInt32.ofNat (firstBorder T.entries)).toNat = T.arrayPart.length := by
    rw [UInt32.toNat_ofNat', length_arrayPart]
    exact Nat.mod_eq_of_lt hcount
  have harray := decodeArrayPart_append T.arrayPart h.1 1 (addedBytesOf (entryOps index T.hashPart))
    (LuaTable.new none)
  simp only [decodeTable, tableBytes, getU30_append, hn, harray]
  rw [decodeHashPart_entries T.hashPart h.2 _ _ le_rfl, LuaTable.rebuilt, LuaTable.received,
    LuaTable.assignAll_append]

theorem decodeBodies_bytes (Ts : List LuaTable)
    (h : ∀ T ∈ Ts, TableLeads lookup index recv T ∧ firstBorder T.entries < 2 ^ 32 ∧
      (tableBytes index T).length < 2 ^ 32) :
    decodeBodies lookup Ts.length (addedBytesOf (Ts.flatMap (emitTable index)))
      = .ok (Ts.map (LuaTable.rebuilt recv)) := by
  induction Ts with
  | nil => rfl
  | cons T Ts ih =>
      obtain ⟨hleads, hcount, hlen⟩ := h T List.mem_cons_self
      have hrest := ih fun T' hT' => h T' (List.mem_cons_of_mem T hT')
      simp only [List.length_cons, List.flatMap_cons, addedBytesOf_append, emitTable_bytes,
        decodeBodies, getBytes_frame hlen, decodeTable_bytes hleads hcount, hrest, List.map_cons]

end Tables

/-! ## Indices -/

namespace IndexMap

theorem addAll_append (vs vs' : List LuaValue) :
    ∀ (m : IndexMap) (index : ℕ),
      m.addAll index (vs ++ vs') = (m.addAll index vs).addAll (index + vs.length) vs' := by
  induction vs with
  | nil =>
      intro m index
      rfl
  | cons v vs ih =>
      intro m index
      rw [List.cons_append, addAll, addAll, ih, List.length_cons]
      congr 1
      omega

/-- The index a value has is that of an equal value. -/
theorem get_addAll {v : LuaValue} {i : ℕ} (vs : List LuaValue) :
    ∀ (m : IndexMap) (index : ℕ), (m.addAll index vs).get v = some i →
      (∃ p w, vs[p]? = some w ∧ w.rawEq v = true ∧ i = index + p + 1) ∨ m.get v = some i := by
  induction vs with
  | nil =>
      intro m index h
      exact Or.inr h
  | cons u vs ih =>
      intro m index h
      rcases ih _ _ h with ⟨p, w, hp, hw, rfl⟩ | h
      · exact Or.inl ⟨p + 1, w, by simpa using hp, hw, by omega⟩
      · rw [get_set] at h
        split at h
        · rename_i hu
          cases h
          exact Or.inl ⟨0, u, rfl, hu, rfl⟩
        · exact Or.inr h

theorem isSome_addAll {v : LuaValue} (vs : List LuaValue) :
    ∀ (m : IndexMap) (index : ℕ), (∃ w ∈ vs, w.rawEq v = true) ∨ (m.get v).isSome = true →
      ((m.addAll index vs).get v).isSome = true := by
  induction vs with
  | nil =>
      rintro m index (⟨w, hw, -⟩ | h)
      · cases hw
      · exact h
  | cons u vs ih =>
      rintro m index h
      apply ih
      rw [get_set]
      rcases h with ⟨w, hw, heq⟩ | h
      · rcases List.mem_cons.mp hw with rfl | hw
        · exact Or.inr (by rw [heq]; rfl)
        · exact Or.inl ⟨w, hw, heq⟩
      · right
        split
        · rfl
        · exact h

end IndexMap

/-- What the code of `symbol` makes sure of: the indices of the values, from 3 on,
are those in the map, apart from the two booleans. -/
structure SymTable.Lawful (sym : SymTable) : Prop where
  index_eq : sym.index = sym.vk.length + 2
  scalar : ∀ w ∈ sym.vk, (∃ n, w = .number n ∧ n.isNan = false) ∨ ∃ s, w = .string s
  get : ∀ v i, sym.map.get v = some i →
    (∃ b, v = .boolean b ∧ i = if b then 2 else 1) ∨
      ∃ p w, sym.vk[p]? = some w ∧ w.rawEq v = true ∧ i = p + 3

theorem SymTable.missing_lawful : SymTable.missing.Lawful where
  index_eq := rfl
  scalar := by simp [missing]
  get := by simp [missing, IndexMap.get]

/-- The values that get an index of their own. -/
def encodedValues (sym : SymTable) (ctx : Ctx) : List LuaValue :=
  sym.fresh ctx.numbers ++ sym.fresh ctx.u30s ++ sym.fresh ctx.strings ++ ctx.tables

/-- The map of indices once all values have one. -/
def finalMap (sym : SymTable) (ctx : Ctx) : IndexMap :=
  (EncodeState.start sym).map.addAll sym.index (encodedValues sym ctx)

/-- The index written for a value. -/
def indexOf (sym : SymTable) (ctx : Ctx) (v : LuaValue) : ℕ := emitIndex sym (finalMap sym ctx) v

/-- The values that decoding gives these indices. -/
def decodedValues (sym : SymTable) (ctx : Ctx) : List LuaValue :=
  (sym.fresh ctx.numbers).map (fun v => .number (.float (luaTonumber v)))
    ++ (sym.fresh ctx.u30s).map recvInteger ++ sym.fresh ctx.strings
    ++ (List.range ctx.tables.length).map .table

/-- What arrives of a value. -/
def recvValue (sym : SymTable) (ctx : Ctx) (v : LuaValue) : LuaValue :=
  (lookupIndex sym (decodedValues sym ctx) (indexOf sym ctx v)).getD .nil

theorem emitTables_map (sym : SymTable) (ctx : Ctx) :
    (encodeScalars sym ctx).map.addAll (encodeScalars sym ctx).index ctx.tables
      = finalMap sym ctx := by
  obtain ⟨hm₁, hi₁⟩ := encodeItems_map sym addNumber ctx.numbers (EncodeState.start sym)
  obtain ⟨hm₂, hi₂⟩ := encodeItems_map sym addInteger ctx.u30s
    (encodeItems sym addNumber ctx.numbers (EncodeState.start sym))
  obtain ⟨hm₃, hi₃⟩ := encodeItems_map sym addText ctx.strings
    (encodeItems sym addInteger ctx.u30s
      (encodeItems sym addNumber ctx.numbers (EncodeState.start sym)))
  have hstart : (EncodeState.start sym).index = sym.index := rfl
  rw [encodeScalars, hm₃, hi₃, hm₂, hi₂, hm₁, hi₁, hstart, finalMap, encodedValues,
    IndexMap.addAll_append, IndexMap.addAll_append, IndexMap.addAll_append]
  simp only [List.length_append, Nat.add_assoc]

/-! ## What arrives of a value -/

/-- How a value that got an index of its own arrives: a number as the nearest
double, a string as it is, a table as the one with the same place in the list. -/
inductive Arrives (ctx : Ctx) : LuaValue → LuaValue → Prop where
  | number {n m : LuaNumber} (h : m.value = n.toDouble.value) : Arrives ctx (.number n) (.number m)
  | string (s : List UInt8) : Arrives ctx (.string s) (.string s)
  | table {ref q : ℕ} (h : ctx.tables[q]? = some (.table ref)) : Arrives ctx (.table ref) (.table q)

/-- A u30 number arrives unchanged. -/
theorem recvInteger_value {n : LuaNumber} (h : n.isU30 = true) :
    ∃ m : LuaNumber, recvInteger (.number n) = .number m ∧ m.value = n.value ∧ n.IsDouble := by
  obtain ⟨k, hk, hval⟩ := (LuaNumber.isU30_iff n).mp h
  have hk64 : (Int64.ofInt (k : ℤ)).toInt = k := Int64.toInt_ofInt_of_le (by omega) (by omega)
  have hint : n.toInteger = some (Int64.ofInt k) :=
    LuaNumber.toInteger_of_value (by rw [hval, hk64])
  have hword : (UInt32.ofInt (luaTointeger (.number n))).toNat = k := by
    simp only [luaTointeger, hint, Option.map_some, Option.getD_some, hk64]
    have hmod : ((k : ℤ) % 2 ^ 32).toNat = k := by omega
    rw [UInt32.ofInt, hmod, UInt32.toNat_ofNat']
    omega
  refine ⟨.integer (Int64.ofInt k), ?_, ?_, ?_⟩
  · rw [recvInteger, hword]
  · rw [LuaNumber.value, hk64, hval]
  · exact ⟨ofInt k, by rw [hval, value_ofInt_natCast (by omega)]⟩

/-- Two lists that match, place by place. -/
theorem getElem?_of_forall₂ {α β : Type} {R : α → β → Prop} {l : List α} {l' : List β}
    (h : List.Forall₂ R l l') : ∀ {p : ℕ} {a : α}, l[p]? = some a → ∃ b, l'[p]? = some b ∧ R a b := by
  induction h with
  | nil =>
      intro p a hp
      simp at hp
  | cons hab _ ih =>
      intro p a hp
      cases p with
      | zero =>
          simp only [List.getElem?_cons_zero, Option.some.injEq] at hp
          subst hp
          exact ⟨_, rfl, hab⟩
      | succ p => exact ih (by simpa using hp)

theorem arrives_decodedValues (sym : SymTable) {ctx : Ctx} (hgood : ctx.Good) :
    List.Forall₂ (Arrives ctx) (encodedValues sym ctx) (decodedValues sym ctx) := by
  have hmem : ∀ {items : List LuaValue} {w : LuaValue}, w ∈ sym.fresh items → w ∈ items :=
    fun h => (List.mem_filter.mp h).1
  refine List.rel_append (List.rel_append (List.rel_append ?_ ?_) ?_) ?_
  · rw [List.forall₂_map_right_iff, List.forall₂_same]
    intro w hw
    obtain ⟨n, rfl, -, -⟩ := hgood.kinds.numbers w (hmem hw)
    exact Arrives.number rfl
  · rw [List.forall₂_map_right_iff, List.forall₂_same]
    intro w hw
    obtain ⟨n, rfl, -, hu⟩ := hgood.kinds.u30s w (hmem hw)
    obtain ⟨m, hm, hval, hdouble⟩ := recvInteger_value hu
    rw [hm]
    exact Arrives.number (hval.trans ((LuaNumber.value_toDouble_iff n).mpr hdouble).symm)
  · rw [List.forall₂_same]
    intro w hw
    obtain ⟨s, rfl⟩ := hgood.kinds.strings w (hmem hw)
    exact Arrives.string s
  · rw [List.forall₂_iff_get]
    refine ⟨by simp, ?_⟩
    intro q hq hq'
    simp only [List.get_eq_getElem, List.getElem_map, List.getElem_range]
    obtain ⟨ref, href⟩ := hgood.kinds.tables _ (List.getElem_mem hq)
    rw [href]
    exact Arrives.table (by rw [List.getElem?_eq_getElem hq, href])

/-- Equal numbers have the same nearest double. -/
theorem value_toDouble_congr {n m : LuaNumber} (h : n.value = m.value) :
    n.toDouble.value = m.toDouble.value := by
  by_cases hd : n.IsDouble
  · have hd' : m.IsDouble := by
      obtain ⟨x, hx⟩ := hd
      exact ⟨x, hx.trans h⟩
    rw [(LuaNumber.value_toDouble_iff n).mpr hd, (LuaNumber.value_toDouble_iff m).mpr hd', h]
  · -- both are integers
    cases n with
    | float x => exact absurd ⟨x, rfl⟩ hd
    | integer i =>
        cases m with
        | float y => exact absurd ⟨y, h.symm⟩ hd
        | integer j =>
            have hpos : (0 : ℤ) < unitsPerOne := Int.natCast_pos.mpr unitsPerOne_pos
            simp only [LuaNumber.value, intValue, Value.fin.injEq] at h
            rw [LuaNumber.toDouble, LuaNumber.toDouble, Int.eq_of_mul_eq_mul_right hpos.ne' h]

theorem Arrives.congr {ctx : Ctx} {w v r : LuaValue} (h : Arrives ctx w r)
    (heq : w.rawEq v = true) : Arrives ctx v r := by
  obtain rfl | ⟨n, m, rfl, rfl⟩ := rawEq_cases heq
  · exact h
  · cases h with
    | number hval =>
        refine Arrives.number (hval.trans (value_toDouble_congr ?_))
        simp only [LuaValue.rawEq, Bool.and_eq_true, decide_eq_true_eq] at heq
        exact heq.2

/-- Does the symbol table have the value? -/
def SymTable.Has (sym : SymTable) (v : LuaValue) : Prop := (sym.map.get v).isSome = true

/-- Where the index of a listed value or a boolean lies: with the booleans, in the symbol table
or behind it. -/
theorem indexOf_cases {sym : SymTable} {ctx : Ctx} (hsym : sym.Lawful) (hgood : ctx.Good)
    {v : LuaValue} (hv : (∃ b, v = .boolean b) ∨
      ∃ w ∈ ctx.numbers ++ ctx.u30s ++ ctx.strings ++ ctx.tables, w.rawEq v = true) :
    (∃ b, v = .boolean b ∧ indexOf sym ctx v = if b then 2 else 1) ∨
      (sym.Has v ∧ ∃ p w, sym.vk[p]? = some w ∧ w.rawEq v = true ∧ indexOf sym ctx v = p + 3) ∨
      (¬ sym.Has v ∧ ∃ p w, (encodedValues sym ctx)[p]? = some w ∧ w.rawEq v = true ∧
        indexOf sym ctx v = sym.index + p + 1) := by
  rw [indexOf, emitIndex]
  cases hget : sym.map.get v with
  | some i =>
      simp only [Option.some_or, Option.getD_some]
      rcases hsym.get v i hget with ⟨b, rfl, rfl⟩ | ⟨p, w, hp, hw, rfl⟩
      · exact Or.inl ⟨b, rfl, rfl⟩
      · exact Or.inr (Or.inl ⟨by rw [SymTable.Has, hget]; rfl, p, w, hp, hw, rfl⟩)
  | none =>
      simp only [Option.none_or]
      have hnot : ¬ sym.Has v := by
        rw [SymTable.Has, hget]
        simp
      -- the value is in the map of indices
      have hsome : ((finalMap sym ctx).get v).isSome = true := by
        apply IndexMap.isSome_addAll
        rcases hv with ⟨b, rfl⟩ | ⟨w, hw, heq⟩
        · right
          cases b <;> rfl
        · left
          refine ⟨w, ?_, heq⟩
          have hnone : (sym.map.get w).isNone = true := by
            have hsame : sym.map.get w = sym.map.get v := by
              simp only [IndexMap.get, rawEq_congr heq]
            rw [hsame, hget]
            rfl
          simp only [encodedValues, SymTable.fresh, List.mem_append, List.mem_filter, hnone,
            and_true] at hw ⊢
          exact hw
      obtain ⟨i, hi⟩ := Option.isSome_iff_exists.mp hsome
      rw [hi]
      simp only [Option.getD_some]
      rcases IndexMap.get_addAll _ _ _ hi with ⟨p, w, hp, hw, rfl⟩ | hi
      · exact Or.inr (Or.inr ⟨hnot, p, w, hp, hw, rfl⟩)
      · -- one of the booleans
        left
        rcases hv with ⟨b, rfl⟩ | ⟨w, hw, heq⟩
        · refine ⟨b, rfl, ?_⟩
          cases b <;> simpa [EncodeState.start, IndexMap.get, LuaValue.rawEq] using hi.symm
        · exfalso
          have hlisted : w.listed = true := by
            simp only [List.mem_append] at hw
            rcases hw with ((hw | hw) | hw) | hw
            · obtain ⟨n, rfl, -⟩ := hgood.kinds.numbers w hw
              rfl
            · obtain ⟨n, rfl, -⟩ := hgood.kinds.u30s w hw
              rfl
            · obtain ⟨s, rfl⟩ := hgood.kinds.strings w hw
              rfl
            · obtain ⟨ref, rfl⟩ := hgood.kinds.tables w hw
              rfl
          have hnb : ∀ b, v ≠ .boolean b := by
            rintro b rfl
            obtain rfl | ⟨n, m, -, h⟩ := rawEq_cases heq
            · cases hlisted
            · cases h
          simp only [EncodeState.start, IndexMap.get, List.find?_cons, List.find?_nil] at hi
          cases v <;> simp [LuaValue.rawEq] at hi hnb

theorem lt_of_getElem?_eq_some {α : Type} {l : List α} {p : ℕ} {a : α} (h : l[p]? = some a) :
    p < l.length :=
  (List.getElem?_eq_some_iff.mp h).1

/-- What the index of a listed value or a boolean leads to. -/
theorem lookup_indexOf {sym : SymTable} {ctx : Ctx} (hsym : sym.Lawful) (hgood : ctx.Good)
    {v : LuaValue} (hv : (∃ b, v = .boolean b) ∨
      ∃ w ∈ ctx.numbers ++ ctx.u30s ++ ctx.strings ++ ctx.tables, w.rawEq v = true) :
    indexOf sym ctx v ≤ sym.index + (encodedValues sym ctx).length ∧
      ∃ r, lookupIndex sym (decodedValues sym ctx) (indexOf sym ctx v) = some r ∧
        ((∃ b, v = .boolean b ∧ r = .boolean b) ∨
          (sym.Has v ∧ r ∈ sym.vk ∧ r.rawEq v = true) ∨ (¬ sym.Has v ∧ Arrives ctx v r)) := by
  have hindex := hsym.index_eq
  have h2 := sym.two_le_index
  rcases indexOf_cases hsym hgood hv with ⟨b, rfl, hi⟩ | ⟨hhas, p, w, hp, hw, hi⟩ |
    ⟨hnot, p, w, hp, hw, hi⟩
  · rw [hi]
    refine ⟨by split <;> omega, .boolean b, ?_, Or.inl ⟨b, rfl, rfl⟩⟩
    cases b <;> simp [lookupIndex, SymTable.getVk, indexMapGet] <;> omega
  · rw [hi]
    have hlt := lt_of_getElem?_eq_some hp
    refine ⟨by omega, w, ?_, Or.inr (Or.inl ⟨hhas, List.mem_of_getElem? hp, hw⟩)⟩
    simp [lookupIndex, SymTable.getVk, hp]
  · rw [hi]
    have hlt := lt_of_getElem?_eq_some hp
    obtain ⟨r, hr, harr⟩ := getElem?_of_forall₂ (arrives_decodedValues sym hgood) hp
    refine ⟨by omega, r, ?_, Or.inr (Or.inr ⟨hnot, harr.congr hw⟩)⟩
    have hvk : sym.getVk (sym.index + p + 1) = none := by
      rw [SymTable.getVk, if_pos (by omega), List.getElem?_eq_none (by omega)]
    rw [lookupIndex, hvk, Option.none_or, indexMapGet, if_pos (by omega),
      show sym.index + p + 1 - sym.index - 1 = p by omega, hr]

/-! ## The bytes as a whole -/

/-- The bytes of the part for the tables. -/
def tablesBytes (H : LuaHeap) (sym : SymTable) (ctx : Ctx) : List UInt8 :=
  if ctx.tables = [] then []
  else u30Bytes (UInt32.ofNat ctx.tables.length) ++
    addedBytesOf ((ctx.tables.map H.tableOf).flatMap (emitTable (indexOf sym ctx)))

theorem bodyOps_bytes (H : LuaHeap) (sym : SymTable) (ctx : Ctx) :
    addedBytesOf (bodyOps H sym ctx)
      = listBytes sym addNumber ctx.numbers ++ (listBytes sym addInteger ctx.u30s ++
          (listBytes sym addText ctx.strings ++ tablesBytes H sym ctx)) := by
  have htables : addedBytesOf (emitTables H sym ctx.tables (encodeScalars sym ctx))
      = tablesBytes H sym ctx := by
    unfold emitTables tablesBytes
    split
    · rfl
    · simp only [emitTables_map, addedBytesOf_cons, StreamOp.addedBytes, List.flatMap_map]
      rfl
  rw [bodyOps, addedBytesOf_append, htables, encodeScalars, encodeItems_ops, encodeItems_ops,
    encodeItems_ops]
  simp [EncodeState.start]

theorem length_addedBytes_le {ops : List StreamOp} {op : StreamOp} (h : op ∈ ops) :
    op.addedBytes.length ≤ (addedBytesOf ops).length := by
  induction ops with
  | nil => cases h
  | cons op' ops ih =>
      rw [addedBytesOf_cons, List.length_append]
      rcases List.mem_cons.mp h with rfl | h
      · omega
      · have := ih h
        omega

/-- Every call writes a byte. -/
theorem length_le_addedBytesOf {α : Type} (f : α → StreamOp) (xs : List α)
    (h : ∀ x ∈ xs, 0 < (f x).addedBytes.length) :
    xs.length ≤ (addedBytesOf (xs.map f)).length := by
  induction xs with
  | nil => simp
  | cons x xs ih =>
      have hx := h x List.mem_cons_self
      have hrest := ih fun y hy => h y (List.mem_cons_of_mem x hy)
      rw [List.map_cons, addedBytesOf_cons, List.length_append, List.length_cons]
      omega

theorem length_addNumber (v : LuaValue) : (addNumber v).addedBytes.length = 8 := by
  simp [addNumber, StreamOp.addedBytes]

theorem length_addNumber_pos (v : LuaValue) : 0 < (addNumber v).addedBytes.length := by
  rw [length_addNumber]
  omega

theorem length_addInteger_pos (v : LuaValue) : 0 < (addInteger v).addedBytes.length :=
  length_u30Bytes_pos _

theorem length_addText_pos (v : LuaValue) : 0 < (addText v).addedBytes.length := by
  cases v <;> exact length_frame_pos _

theorem length_fresh_le (sym : SymTable) {add : LuaValue → StreamOp} (items : List LuaValue)
    (hadd : ∀ v, 0 < (add v).addedBytes.length) :
    (sym.fresh items).length ≤ (listBytes sym add items).length := by
  unfold listBytes
  split
  · rename_i hnil
    simp [SymTable.fresh, hnil]
  · have := length_le_addedBytesOf add (sym.fresh items) fun v _ => hadd v
    rw [List.length_append]
    omega

/-- A string is not longer than the bytes of its list. -/
theorem length_string_le {sym : SymTable} {items : List LuaValue} {str : List UInt8}
    (h : .string str ∈ sym.fresh items) : str.length ≤ (listBytes sym addText items).length := by
  have hne : items ≠ [] := by
    rintro rfl
    cases h
  have hmem := length_addedBytes_le (List.mem_map_of_mem (f := addText) h)
  simp only [addText, StreamOp.addedBytes, List.length_append] at hmem
  rw [listBytes, if_neg hne, List.length_append]
  omega

/-- Every table is written as a frame. -/
theorem length_tables_le_frames (index : LuaValue → ℕ) (Ts : List LuaTable) :
    Ts.length ≤ (addedBytesOf (Ts.flatMap (emitTable index))).length := by
  induction Ts with
  | nil => simp
  | cons T Ts ih =>
      have hpos := length_frame_pos (tableBytes index T)
      rw [List.flatMap_cons, addedBytesOf_append, emitTable_bytes, List.length_append, List.length_cons]
      omega

theorem length_tables_le (H : LuaHeap) (sym : SymTable) (ctx : Ctx) :
    ctx.tables.length ≤ (tablesBytes H sym ctx).length := by
  unfold tablesBytes
  split
  · rename_i hnil
    simp [hnil]
  · have := length_tables_le_frames (indexOf sym ctx) (ctx.tables.map H.tableOf)
    rw [List.length_map] at this
    rw [List.length_append]
    omega

theorem length_tableBytes_le (H : LuaHeap) (sym : SymTable) {ctx : Ctx} {t : LuaValue}
    (ht : t ∈ ctx.tables) :
    firstBorder (H.tableOf t).entries ≤ (tableBytes (indexOf sym ctx) (H.tableOf t)).length ∧
      (tableBytes (indexOf sym ctx) (H.tableOf t)).length ≤ (tablesBytes H sym ctx).length := by
  constructor
  · have := length_le_addedBytesOf
      (fun v => StreamOp.addU30 (UInt32.ofNat (indexOf sym ctx v))) (H.tableOf t).arrayPart
      fun v _ => length_u30Bytes_pos _
    rw [length_arrayPart] at this
    simp only [tableBytes, List.length_append]
    omega
  · have hne : ctx.tables ≠ [] := by
      rintro h
      rw [h] at ht
      cases ht
    rw [tablesBytes, if_neg hne, List.length_append]
    -- the whole frame is there
    have hframe : ∀ Ts : List LuaTable, H.tableOf t ∈ Ts →
        (frame (tableBytes (indexOf sym ctx) (H.tableOf t))).length
          ≤ (addedBytesOf (Ts.flatMap (emitTable (indexOf sym ctx)))).length := by
      intro Ts
      induction Ts with
      | nil =>
          intro h
          cases h
      | cons T Ts ih =>
          intro h
          rw [List.flatMap_cons, addedBytesOf_append, emitTable_bytes, List.length_append]
          rcases List.mem_cons.mp h with rfl | h
          · omega
          · have := ih h
            omega
    have := hframe _ (List.mem_map_of_mem ht)
    rw [frame, List.length_append] at this
    omega

/-! ## Decoding an encoding -/

theorem encodeFlag_bits (ctx : Ctx) :
    decide (encodeFlag ctx &&& 0x80 ≠ 0) = decide (ctx.numbers ≠ []) ∧
      decide (encodeFlag ctx &&& 0x40 ≠ 0) = decide (ctx.u30s ≠ []) ∧
      decide (encodeFlag ctx &&& 0x20 ≠ 0) = decide (ctx.strings ≠ []) ∧
      decide (encodeFlag ctx &&& 0x08 ≠ 0) = decide (ctx.tables ≠ []) ∧ encodeFlag ctx ≠ 1 ∧
      (encodeFlag ctx = 0 ↔ ctx.numbers = [] ∧ ctx.u30s = [] ∧ ctx.strings = [] ∧ ctx.tables = []) := by
  unfold encodeFlag
  by_cases h₁ : ctx.numbers = [] <;> by_cases h₂ : ctx.u30s = [] <;>
    by_cases h₃ : ctx.strings = [] <;> by_cases h₄ : ctx.tables = [] <;>
    simp only [h₁, h₂, h₃, h₄, if_true, if_false, ne_eq] <;> decide

/-- The index that `last_top` ends up with. -/
def topIndex (sym : SymTable) (ctx : Ctx) : ℕ :=
  if ctx.tables ≠ [] then
    sym.index + ((sym.fresh ctx.numbers).length + (sym.fresh ctx.u30s).length
      + (sym.fresh ctx.strings).length) + 1
  else if ctx.strings ≠ [] then
    sym.index + ((sym.fresh ctx.numbers).length + (sym.fresh ctx.u30s).length) + 1
  else if ctx.u30s ≠ [] then sym.index + (sym.fresh ctx.numbers).length + 1
  else sym.index + 1

/-- **The part behind the flag is read with the same indices**: every listed table is rebuilt
from what arrives of its entries. -/
theorem decodeLists_encode {H : LuaHeap} {sym : SymTable} {ctx : Ctx} (hgood : ctx.Good)
    (hleads : ∀ t ∈ ctx.tables, TableLeads (lookupIndex sym (decodedValues sym ctx))
      (indexOf sym ctx) (recvValue sym ctx) (H.tableOf t))
    (hlen : (addedBytesOf (bodyOps H sym ctx)).length + 1 < 2 ^ 32) :
    ∃ rest, decodeLists (encodeFlag ctx) (addedBytesOf (bodyOps H sym ctx)) sym
      = .ok (ctx.tables.map fun t => (H.tableOf t).rebuilt (recvValue sym ctx),
          ⟨rest, decodedValues sym ctx, topIndex sym ctx⟩) := by
  obtain ⟨hb₁, hb₂, hb₃, hb₄, -, -⟩ := encodeFlag_bits ctx
  have hbytes := bodyOps_bytes H sym ctx
  rw [hbytes] at hlen
  simp only [List.length_append] at hlen
  have hn := length_fresh_le sym ctx.numbers length_addNumber_pos
  have hu := length_fresh_le sym ctx.u30s length_addInteger_pos
  have hs := length_fresh_le sym ctx.strings length_addText_pos
  have ht := length_tables_le H sym ctx
  have hstring : ∀ v ∈ sym.fresh ctx.strings, ∀ rest,
      getText ((addText v).addedBytes ++ rest) = some (v, rest) := by
    intro v hv rest
    obtain ⟨str, rfl⟩ := hgood.kinds.strings v (List.mem_filter.mp hv).1
    have := length_string_le hv
    exact getText_append (by omega) rest
  rw [decodeLists, hbytes]
  simp only [hb₁, hb₂, hb₃, hb₄]
  rw [decodeList_append (fun v => .number (.float (luaTonumber v)))
    (fun v _ rest => getNumber_append v rest) (by omega)]
  simp only [bind, Except.bind]
  rw [decodeList_append recvInteger (fun v _ rest => getInteger_append v rest) (by omega)]
  simp only
  rw [decodeList_append id hstring (by omega)]
  simp only [List.nil_append, List.map_id]
  by_cases htables : ctx.tables = []
  · have hvalues : decodedValues sym ctx
        = (sym.fresh ctx.numbers).map (fun v => .number (.float (luaTonumber v))) ++
          (sym.fresh ctx.u30s).map recvInteger ++ sym.fresh ctx.strings := by
      simp [decodedValues, htables]
    have htop : topIndex sym ctx = if ctx.strings = [] then
        if ctx.u30s = [] then if ctx.numbers = [] then sym.index + 1 else sym.index + 0 + 1
        else sym.index + (sym.fresh ctx.numbers).length + 1
        else sym.index + ((sym.fresh ctx.numbers).length + (sym.fresh ctx.u30s).length) + 1 := by
      rw [topIndex, if_neg (by simpa using htables)]
      split_ifs <;> simp_all
    refine ⟨tablesBytes H sym ctx, ?_⟩
    simp only [decodeTables, htables, ne_eq, not_true_eq_false, decide_false, Bool.false_eq_true,
      if_false, List.map_nil, hvalues, htop, List.length_append, List.length_map, List.length_nil]
  · have hcount : (UInt32.ofNat ctx.tables.length).toNat = ctx.tables.length := by
      rw [UInt32.toNat_ofNat']
      exact Nat.mod_eq_of_lt (by omega)
    have hvalues : decodedValues sym ctx
        = (sym.fresh ctx.numbers).map (fun v => .number (.float (luaTonumber v))) ++
          (sym.fresh ctx.u30s).map recvInteger ++ sym.fresh ctx.strings ++
          (List.range ctx.tables.length).map .table := rfl
    have hbodies : decodeBodies (lookupIndex sym (decodedValues sym ctx)) ctx.tables.length
        (addedBytesOf ((ctx.tables.map H.tableOf).flatMap (emitTable (indexOf sym ctx))))
          = .ok (ctx.tables.map fun t => (H.tableOf t).rebuilt (recvValue sym ctx)) := by
      have := decodeBodies_bytes (ctx.tables.map H.tableOf) fun T hT => by
        obtain ⟨t, ht', rfl⟩ := List.mem_map.mp hT
        obtain ⟨hle, hle'⟩ := length_tableBytes_le H sym ht'
        exact ⟨hleads t ht', by omega, by omega⟩
      rw [List.length_map, List.map_map] at this
      exact this
    have htop : topIndex sym ctx = sym.index + ((sym.fresh ctx.numbers).length +
        (sym.fresh ctx.u30s).length + (sym.fresh ctx.strings).length) + 1 := by
      rw [topIndex, if_pos htables]
    have hmax : ¬ ctx.tables.length = 2 ^ 32 - 1 := by omega
    refine ⟨addedBytesOf ((ctx.tables.map H.tableOf).flatMap (emitTable (indexOf sym ctx))), ?_⟩
    simp only [decodeTables, htables, ne_eq, not_false_eq_true, decide_true, if_true, tablesBytes,
      if_false, getU30_append, hcount, hmax, ← hvalues, hbodies, DecodeState.index, htop,
      List.length_append, List.length_map]

/-- An encoding of less than `2 ^ 32` bytes is read as a whole. -/
theorem take_wrapped {bytes : List UInt8} (h : bytes.length < 2 ^ 32) :
    bytes.take (bytes.length % 2 ^ 32) = bytes := by
  rw [Nat.mod_eq_of_lt h, List.take_length]

/-- **Decoding an encoding with the same symbol table rebuilds every listed table
from what arrives of its entries.** -/
theorem decode_encode {H : LuaHeap} {sym : SymTable} {ctx : Ctx} (hgood : ctx.Good)
    (hleads : ∀ t ∈ ctx.tables, TableLeads (lookupIndex sym (decodedValues sym ctx))
      (indexOf sym ctx) (recvValue sym ctx) (H.tableOf t))
    (hlen : (addedBytesOf (bodyOps H sym ctx)).length + 1 < 2 ^ 32)
    (hne : ¬(ctx.numbers = [] ∧ ctx.u30s = [] ∧ ctx.strings = [] ∧ ctx.tables = [])) :
    objectbufDecode (encodeFlag ctx :: addedBytesOf (bodyOps H sym ctx)) sym
      = .ok (ctx.tables.map fun t => (H.tableOf t).rebuilt (recvValue sym ctx),
          (lookupIndex sym (decodedValues sym ctx) (topIndex sym ctx)).getD .nil) := by
  obtain ⟨-, -, -, -, hone, hzero⟩ := encodeFlag_bits ctx
  obtain ⟨rest, hlists⟩ := decodeLists_encode hgood hleads hlen
  rw [objectbufDecode_eq sym (take_wrapped (by rw [List.length_cons]; exact hlen))
    (mt hzero.mp hne) hone, hlists]
  rfl

end LuaFan
