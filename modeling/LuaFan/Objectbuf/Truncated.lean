/-
# Truncated encodings

A strict prefix of an encoding ends within the count or an item of one of its lists, or
within the frame of a table; what comes before is complete and is decoded, so decoding
returns nil and a message (`decode_cut`).

The input is wrapped with a length of 32 bits.  A prefix of `2 ^ 32` bytes is empty to the
decoder, and decodes to false.

* `objectbuf_truncation_detected`: every strict prefix is refused **exactly if** the
  encoding has at most `2 ^ 32` bytes;
* `objectbuf_truncation_undetected`: a string of `2 ^ 32` bytes has a longer one.
-/
import LuaFan.Objectbuf.RoundTrip

namespace LuaFan

open Fp

/-- Decoding returns nil and a message. -/
def Fails {α : Type} (r : Except DecodeStop α) : Prop := ∃ msg, r = .error (.failed msg)

/-- Every non-empty strict prefix of the encoding is refused with a message. -/
def TruncationDetected (bytes : List UInt8) : Prop :=
  ∀ p, p <+: bytes → p ≠ [] → p ≠ bytes → Fails (objectbufDecode p .missing)

theorem Fails.bind {α β : Type} {r : Except DecodeStop α} (h : Fails r) (f : α → Except DecodeStop β) :
    Fails (r >>= f) := by
  obtain ⟨msg, rfl⟩ := h
  exact ⟨msg, rfl⟩

theorem Fails.after {α β : Type} {a : α} {f : α → Except DecodeStop β} (h : Fails (f a)) :
    Fails (Except.ok a >>= f) := h

/-- A cut falls within the first part or behind it. -/
theorem take_append_cases (a b : List UInt8) (k : ℕ) :
    (k < a.length ∧ (a ++ b).take k = a.take k) ∨
      (a.length ≤ k ∧ (a ++ b).take k = a ++ b.take (k - a.length)) := by
  rcases lt_or_ge k a.length with h | h
  · exact Or.inl ⟨h, List.take_append_of_le_length h.le⟩
  · exact Or.inr ⟨h, by rw [List.take_append, List.take_of_length_le h]⟩

/-! ## One item -/

theorem getU30_cut (u : UInt32) {k : ℕ} (hk : k < (u30Bytes u).length) :
    getU30 ((u30Bytes u).take k) = none := by
  rw [getU30, takeU30_cut u hk]
  rfl

theorem getNumber_cut (v : LuaValue) {k : ℕ} (hk : k < (addNumber v).addedBytes.length) :
    getNumber ((addNumber v).addedBytes.take k) = none := by
  rw [length_addNumber] at hk
  rw [getNumber, if_neg (by rw [List.length_take]; omega)]

theorem getInteger_cut (v : LuaValue) {k : ℕ} (hk : k < (addInteger v).addedBytes.length) :
    getInteger ((addInteger v).addedBytes.take k) = none := by
  rw [getInteger, addInteger, StreamOp.addedBytes, getU30_cut _ hk]
  rfl

theorem getBytes_cut {s : List UInt8} (hs : s.length < 2 ^ 32) {k : ℕ} (hk : k < (frame s).length) :
    getBytes ((frame s).take k) = none := by
  obtain ⟨e, he, -⟩ := takeString_cut hs hk
  rw [getBytes, he]

theorem getText_cut {s : List UInt8} (hs : s.length < 2 ^ 32) {k : ℕ}
    (hk : k < (addText (.string s)).addedBytes.length) :
    getText ((addText (.string s)).addedBytes.take k) = none := by
  rw [getText, addText, ← frame_eq_addedBytes, getBytes_cut hs hk]
  rfl

/-! ## One list -/

section Lists

variable {sym : SymTable} {get : List UInt8 → Option (LuaValue × List UInt8)}
  {add : LuaValue → StreamOp} {recv : LuaValue → LuaValue}

/-- The items before the cut are read, and then one is missing. -/
theorem decodeItems_cut (err : ℕ → String) (items : List LuaValue)
    (hget : ∀ v ∈ items, ∀ rest, get ((add v).addedBytes ++ rest) = some (recv v, rest))
    (hcut : ∀ v ∈ items, ∀ k < (add v).addedBytes.length, get ((add v).addedBytes.take k) = none) :
    ∀ (i k : ℕ) (values : List LuaValue) (top : ℕ), k < (addedBytesOf (items.map add)).length →
      Fails (decodeItems get err items.length i ⟨(addedBytesOf (items.map add)).take k, values, top⟩) := by
  induction items with
  | nil =>
      intro i k values top hk
      simp at hk
  | cons v items ih =>
      intro i k values top hk
      have hrest := ih (fun w hw => hget w (List.mem_cons_of_mem v hw))
        fun w hw => hcut w (List.mem_cons_of_mem v hw)
      rw [List.map_cons, addedBytesOf_cons, List.length_append] at hk
      rw [List.map_cons, addedBytesOf_cons, List.length_cons, decodeItems]
      rcases take_append_cases (add v).addedBytes (addedBytesOf (items.map add)) k with
        ⟨hlt, htake⟩ | ⟨hle, htake⟩
      · simp only [htake, hcut v List.mem_cons_self k hlt]
        exact ⟨_, rfl⟩
      · simp only [htake, hget v List.mem_cons_self]
        exact hrest (i + 1) _ _ _ (by omega)

theorem decodeList_cut (errCount : String) (err : ℕ → ℕ → String) {items : List LuaValue}
    (hget : ∀ v ∈ sym.fresh items, ∀ rest, get ((add v).addedBytes ++ rest) = some (recv v, rest))
    (hcut : ∀ v ∈ sym.fresh items, ∀ k < (add v).addedBytes.length,
      get ((add v).addedBytes.take k) = none)
    (hlen : (sym.fresh items).length < 2 ^ 32) {k : ℕ} (hk : k < (listBytes sym add items).length)
    (values : List LuaValue) (top : ℕ) :
    Fails (decodeList sym (decide (items ≠ [])) get errCount err
      ⟨(listBytes sym add items).take k, values, top⟩) := by
  by_cases hnil : items = []
  · simp [listBytes, hnil] at hk
  · have hcount : (UInt32.ofNat (sym.fresh items).length).toNat = (sym.fresh items).length := by
      rw [UInt32.toNat_ofNat']
      exact Nat.mod_eq_of_lt hlen
    rw [listBytes, if_neg hnil, List.length_append] at hk
    simp only [decodeList, listBytes, hnil, ne_eq, not_false_eq_true, decide_true, if_true, if_false]
    rcases take_append_cases (u30Bytes (UInt32.ofNat (sym.fresh items).length))
      (addedBytesOf ((sym.fresh items).map add)) k with ⟨hlt, htake⟩ | ⟨hle, htake⟩
    · simp only [htake, getU30_cut _ hlt]
      exact ⟨_, rfl⟩
    · simp only [htake, getU30_append, hcount]
      exact decodeItems_cut _ _ hget hcut 1 _ _ _ (by omega)

end Lists

/-! ## The tables -/

section Tables

variable {lookup : ℕ → Option LuaValue} {index : LuaValue → ℕ} {recv : LuaValue → LuaValue}

/-- The tables before the cut are filled, and then a frame is missing. -/
theorem decodeBodies_cut (Ts : List LuaTable)
    (h : ∀ T ∈ Ts, TableLeads lookup index recv T ∧ firstBorder T.entries < 2 ^ 32 ∧
      (tableBytes index T).length < 2 ^ 32) :
    ∀ k < (addedBytesOf (Ts.flatMap (emitTable index))).length,
      Fails (decodeBodies lookup Ts.length ((addedBytesOf (Ts.flatMap (emitTable index))).take k)) := by
  induction Ts with
  | nil =>
      intro k hk
      simp at hk
  | cons T Ts ih =>
      intro k hk
      obtain ⟨hleads, hcount, hlen⟩ := h T List.mem_cons_self
      have hrest := ih fun T' hT' => h T' (List.mem_cons_of_mem T hT')
      rw [List.flatMap_cons, addedBytesOf_append, emitTable_bytes, List.length_append] at hk
      rw [List.flatMap_cons, addedBytesOf_append, emitTable_bytes, List.length_cons, decodeBodies]
      rcases take_append_cases (frame (tableBytes index T)) (addedBytesOf (Ts.flatMap (emitTable index)))
        k with ⟨hlt, htake⟩ | ⟨hle, htake⟩
      · simp only [htake, getBytes_cut hlen hlt]
        exact ⟨_, rfl⟩
      · obtain ⟨msg, hmsg⟩ := hrest (k - (frame (tableBytes index T)).length) (by omega)
        simp only [htake, getBytes_frame hlen, decodeTable_bytes hleads hcount, hmsg]
        exact ⟨msg, rfl⟩

end Tables

/-! ## The whole encoding -/

section Cut

variable {H : LuaHeap} {o : LuaValue} {ctx : Ctx} {sym : SymTable}

/-- What is inside the frames has a length of 32 bits. -/
def FramesFit (H : LuaHeap) (sym : SymTable) (ctx : Ctx) : Prop :=
  ∀ t ∈ ctx.tables, (tableBytes (indexOf sym ctx) (H.tableOf t)).length < 2 ^ 32

/-- The tables of an encoding, cut within the count or a frame. -/
theorem decodeTables_cut (hp : Packed H o ctx) (hsup : SupportedGraph H o) (hsym : sym.Lawful)
    (hindex : sym.index + (encodedValues sym ctx).length < 2 ^ 32) (hframes : FramesFit H sym ctx)
    {values : List LuaValue}
    (hvalues : values ++ (List.range ctx.tables.length).map .table = decodedValues sym ctx) {k : ℕ}
    (hk : k < (tablesBytes H sym ctx).length) (top : ℕ) :
    Fails (decodeTables sym (decide (ctx.tables ≠ [])) ⟨(tablesBytes H sym ctx).take k, values, top⟩) := by
  by_cases hnil : ctx.tables = []
  · simp [tablesBytes, hnil] at hk
  · have hcount_lt : ctx.tables.length + 2 < 2 ^ 32 := by
      have hstart := sym.two_le_index
      simp only [encodedValues, List.length_append] at hindex
      omega
    have hcount : (UInt32.ofNat ctx.tables.length).toNat = ctx.tables.length := by
      rw [UInt32.toNat_ofNat']
      exact Nat.mod_eq_of_lt (by omega)
    have hmax : ¬ctx.tables.length = 2 ^ 32 - 1 := by omega
    have hleads : ∀ T ∈ ctx.tables.map H.tableOf, TableLeads (lookupIndex sym (decodedValues sym ctx))
        (indexOf sym ctx) (recvValue sym ctx) T ∧ firstBorder T.entries < 2 ^ 32 ∧
          (tableBytes (indexOf sym ctx) T).length < 2 ^ 32 := by
      intro T hT
      obtain ⟨t, ht, rfl⟩ := List.mem_map.mp hT
      obtain ⟨hle, -⟩ := length_tableBytes_le H sym ht
      have hframe := hframes t ht
      obtain ⟨ref, rfl⟩ := hp.good.kinds.tables t ht
      exact ⟨tableLeads_of_lt hp hsup hsym hindex (hp.reach_tables ht), by omega, hframe⟩
    have hbodies := decodeBodies_cut (ctx.tables.map H.tableOf) hleads
    rw [List.length_map] at hbodies
    rw [tablesBytes, if_neg hnil, List.length_append] at hk
    simp only [decodeTables, tablesBytes, hnil, ne_eq, not_false_eq_true, decide_true, if_true, if_false]
    rcases take_append_cases (u30Bytes (UInt32.ofNat ctx.tables.length))
      (addedBytesOf ((ctx.tables.map H.tableOf).flatMap (emitTable (indexOf sym ctx)))) k with
      ⟨hlt, htake⟩ | ⟨hle, htake⟩
    · simp only [htake, getU30_cut _ hlt]
      exact ⟨_, rfl⟩
    · obtain ⟨msg, hmsg⟩ := hbodies (k - (u30Bytes (UInt32.ofNat ctx.tables.length)).length) (by omega)
      simp only [htake, getU30_append, hcount, hmax, if_false, hvalues, hmsg]
      exact ⟨msg, rfl⟩

/-- **Cut parts behind the flag are refused.**  The lists and tables before the cut are
complete. -/
theorem decodeLists_cut (hp : Packed H o ctx) (hsup : SupportedGraph H o) (hsym : sym.Lawful)
    (hindex : sym.index + (encodedValues sym ctx).length < 2 ^ 32) (hframes : FramesFit H sym ctx)
    (hstrings : ∀ str, .string str ∈ sym.fresh ctx.strings → str.length < 2 ^ 32) {k : ℕ}
    (hk : k < (addedBytesOf (bodyOps H sym ctx)).length) :
    Fails (decodeLists (encodeFlag ctx) ((addedBytesOf (bodyOps H sym ctx)).take k) sym) := by
  obtain ⟨hb₁, hb₂, hb₃, hb₄, -, -⟩ := encodeFlag_bits ctx
  have hcounts := hindex
  simp only [encodedValues, List.length_append] at hcounts
  rw [bodyOps_bytes] at hk ⊢
  simp only [List.length_append] at hk
  have hstring : ∀ v ∈ sym.fresh ctx.strings, ∃ str, v = .string str ∧ str.length < 2 ^ 32 := by
    intro v hv
    obtain ⟨str, rfl⟩ := hp.good.kinds.strings v (List.mem_filter.mp hv).1
    exact ⟨str, rfl, hstrings str hv⟩
  have htext : ∀ v ∈ sym.fresh ctx.strings, ∀ rest,
      getText ((addText v).addedBytes ++ rest) = some (id v, rest) := by
    intro v hv rest
    obtain ⟨str, rfl, hstr⟩ := hstring v hv
    exact getText_append hstr rest
  rw [decodeLists]
  simp only [hb₁, hb₂, hb₃, hb₄]
  rcases take_append_cases (listBytes sym addNumber ctx.numbers) (listBytes sym addInteger
    ctx.u30s ++ (listBytes sym addText ctx.strings ++ tablesBytes H sym ctx)) k with
    ⟨hlt, htake⟩ | ⟨hle, htake⟩
  · rw [htake]
    exact (decodeList_cut _ _ (fun v _ rest => getNumber_append v rest)
      (fun v _ k hk => getNumber_cut v hk) (by omega) hlt _ _).bind _
  rw [htake, decodeList_append (fun v => .number (.float (luaTonumber v)))
    (fun v _ rest => getNumber_append v rest) (by omega)]
  apply Fails.after
  rcases take_append_cases (listBytes sym addInteger ctx.u30s)
    (listBytes sym addText ctx.strings ++ tablesBytes H sym ctx)
    (k - (listBytes sym addNumber ctx.numbers).length) with ⟨hlt, htake⟩ | ⟨hle', htake⟩
  · rw [htake]
    exact (decodeList_cut _ _ (fun v _ rest => getInteger_append v rest)
      (fun v _ k hk => getInteger_cut v hk) (by omega) hlt _ _).bind _
  rw [htake, decodeList_append recvInteger (fun v _ rest => getInteger_append v rest) (by omega)]
  apply Fails.after
  rcases take_append_cases (listBytes sym addText ctx.strings) (tablesBytes H sym ctx)
    (k - (listBytes sym addNumber ctx.numbers).length
      - (listBytes sym addInteger ctx.u30s).length) with ⟨hlt, htake⟩ | ⟨hle'', htake⟩
  · rw [htake]
    refine (decodeList_cut _ _ htext ?_ (by omega) hlt _ _).bind _
    · intro v hv k hk
      obtain ⟨str, rfl, hstr⟩ := hstring v hv
      exact getText_cut hstr hk
  rw [htake, decodeList_append id htext (by omega)]
  apply Fails.after
  refine decodeTables_cut hp hsup hsym hindex hframes ?_ (by omega) _
  simp [decodedValues]

/-- **A cut encoding is refused.** -/
theorem decode_cut (hp : Packed H o ctx) (hsup : SupportedGraph H o)
    (hlen : (addedBytesOf (bodyOps H .missing ctx)).length < 2 ^ 32) {k : ℕ}
    (hk : k < (addedBytesOf (bodyOps H .missing ctx)).length) :
    Fails (objectbufDecode (encodeFlag ctx :: (addedBytesOf (bodyOps H .missing ctx)).take k) .missing) := by
  obtain ⟨-, -, -, -, hone, hzero⟩ := encodeFlag_bits ctx
  have hbytes := bodyOps_bytes H .missing ctx
  have hne : ¬(ctx.numbers = [] ∧ ctx.u30s = [] ∧ ctx.strings = [] ∧ ctx.tables = []) := by
    rintro ⟨h₁, h₂, h₃, h₄⟩
    simp [hbytes, h₁, h₂, h₃, h₄, listBytes, tablesBytes] at hk
  have hlists : (listBytes .missing addText ctx.strings).length + (tablesBytes H .missing ctx).length < 2 ^ 32 := by
    rw [hbytes] at hlen
    simp only [List.length_append] at hlen
    omega
  rw [objectbufDecode_eq .missing (take_wrapped ?_) (mt hzero.mp hne) hone]
  · refine (decodeLists_cut hp hsup SymTable.missing_lawful (index_lt_of_length H ctx hlen) ?_ ?_ hk).bind _
    · intro t ht
      obtain ⟨-, hle⟩ := length_tableBytes_le H .missing ht
      omega
    · intro str hstr
      have := length_string_le hstr
      omega
  · rw [List.length_cons, List.length_take]
    omega

end Cut

/-- A prefix of `2 ^ 32` bytes is decoded as no bytes at all. -/
theorem decode_wrapped {p : List UInt8} (h : p.length = 2 ^ 32) :
    objectbufDecode p .missing = .ok ([], .boolean false) := by
  rw [objectbufDecode, h, Nat.mod_self, List.take_zero]

/-- A longer encoding has a prefix that is decoded to false. -/
theorem exists_wrapped {bytes : List UInt8} (hlong : 2 ^ 32 < bytes.length) :
    ∃ p, p <+: bytes ∧ p ≠ [] ∧ p ≠ bytes ∧ objectbufDecode p .missing = .ok ([], .boolean false) := by
  have hlen : (bytes.take (2 ^ 32)).length = 2 ^ 32 := by
    rw [List.length_take]
    exact Nat.min_eq_left hlong.le
  refine ⟨bytes.take (2 ^ 32), List.take_prefix _ _, ?_, ?_, decode_wrapped hlen⟩
  · intro h
    rw [h] at hlen
    cases hlen
  · intro h
    rw [h] at hlen
    exact hlong.ne' hlen

/-- **Truncation is detected** exactly if the encoding has at most `2 ^ 32` bytes. -/
theorem objectbuf_truncation_detected {H : LuaHeap} {o : LuaValue} {bytes : List UInt8}
    (hsup : SupportedGraph H o) (henc : objectbufEncode H o .missing = .ok bytes) :
    TruncationDetected bytes ↔ bytes.length ≤ 2 ^ 32 := by
  constructor
  · intro h
    by_contra hlong
    obtain ⟨p, hp, hne, hstrict, hdec⟩ := exists_wrapped (not_le.mp hlong)
    obtain ⟨msg, hmsg⟩ := h p hp hne hstrict
    rw [hdec] at hmsg
    cases hmsg
  · intro hlen p hp hne hstrict
    by_cases hbool : ∃ b, o = .boolean b
    · -- one byte at most
      obtain ⟨b, rfl⟩ := hbool
      have hone : bytes.length ≤ 1 := by
        cases henc
        cases b <;> decide
      have hpos := List.length_pos_of_ne_nil hne
      exact absurd (hp.eq_of_length_le (by omega)) hstrict
    · obtain ⟨ctx, -, hctx, hpacked, -⟩ := exists_encode hsup .missing
      obtain rfl := encode_eq (fun b h => hbool ⟨b, h⟩) hctx henc
      rw [List.length_cons] at hlen
      have hlt : p.length < (addedBytesOf (bodyOps H .missing ctx)).length + 1 := by
        by_contra hle
        exact hstrict (hp.eq_of_length_le (by rw [List.length_cons]; omega))
      obtain ⟨k, hk⟩ := Nat.exists_eq_succ_of_ne_zero (List.length_pos_of_ne_nil hne).ne'
      have hcut : p = encodeFlag ctx :: (addedBytesOf (bodyOps H .missing ctx)).take k := by
        rw [List.prefix_iff_eq_take.mp hp, hk, List.take_succ_cons]
      rw [hcut]
      exact decode_cut hpacked hsup (by omega) (by omega)

/-- A graph with a cycle. -/
theorem objectbuf_truncation_detected_cyclic :
    ∃ bytes, objectbufEncode cyclicHeap (.table 0) .missing = .ok bytes ∧ TruncationDetected bytes := by
  obtain ⟨bytes, henc, hlen, -⟩ := @encode_cyclic .missing (by decide)
  exact ⟨bytes, henc, (objectbuf_truncation_detected supportedGraph_cyclic henc).mpr hlen.le⟩

/-- The encoding of a string is longer than the string. -/
theorem encode_string (str : List UInt8) :
    ∃ bytes, objectbufEncode [] (.string str) .missing = .ok bytes ∧ str.length < bytes.length := by
  obtain ⟨ctx, hctx, hstrings⟩ : ∃ ctx, packer [] 1 Ctx.init (.string str) = .ok ctx ∧
      ctx.strings = [.string str] := ⟨_, rfl, rfl⟩
  have hmem : LuaValue.string str ∈ SymTable.missing.fresh ctx.strings := by
    rw [hstrings]
    exact List.mem_cons_self
  refine ⟨encodeFlag ctx :: addedBytesOf (bodyOps [] .missing ctx), by simp [objectbufEncode, hctx], ?_⟩
  have hlen := length_string_le hmem
  rw [List.length_cons, bodyOps_bytes]
  simp only [List.length_append]
  omega

/-- A string of `2 ^ 32` bytes: the prefix of `2 ^ 32` bytes of its encoding is decoded to
false. -/
theorem objectbuf_truncation_undetected :
    ∃ bytes, objectbufEncode [] (.string (List.replicate (2 ^ 32) 0)) .missing = .ok bytes ∧
      ∃ p, p <+: bytes ∧ p ≠ [] ∧ p ≠ bytes ∧
        objectbufDecode p .missing = .ok ([], .boolean false) := by
  obtain ⟨bytes, henc, hlen⟩ := encode_string (List.replicate (2 ^ 32) 0)
  rw [List.length_replicate] at hlen
  exact ⟨bytes, henc, exists_wrapped hlen⟩

end LuaFan
