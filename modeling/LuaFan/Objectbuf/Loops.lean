/-
# The loops of decoding (`src/objectbuf.c`, `luafan_objectbuf_decode`)

Decoding once more, with the counters of its loops as the code has them: `uint32_t` for
the lists and the tables, `int` for the array part of a table.

* `timedDecode_ends`: if decoding ends without a wrapped counter, it comes to what
  `objectbufDecode` says;
* `objectbuf_decode_ends`: it does so **exactly if** the input is not a `Runaway`: it has
  no table count of `2 ^ 32 - 1`, which the loop that creates the tables, reading nothing,
  never passes, and no array part with as many entries as an `int` can count;
* `objectbuf_decode_runs_away`: six bytes are enough for the first.
-/
import LuaFan.Lib.Timed
import LuaFan.Objectbuf.Received

namespace LuaFan

open Timed

/-! ## The code -/

/-- `UINT32_MAX` and `INT_MAX`. -/
def uint32Top : UInt32 := 0xffffffff

def intTop : UInt32 := 0x7fffffff

/-- The loop over the items of one list. -/
def timedItems (get : List UInt8 → Option (LuaValue × List UInt8)) (err : ℕ → String)
    (count i : UInt32) (st : DecodeState) : Timed DecodeStop DecodeState :=
  countTo uint32Top count (fun i st =>
    match get st.input with
    | none => fail (.failed (err i.toNat))
    | some (v, rest) => pure { st with input := rest, values := st.values ++ [v] }) i st

/-- The part for one list, if the flag has its bit. -/
def timedList (sym : SymTable) (present : Bool)
    (get : List UInt8 → Option (LuaValue × List UInt8)) (errCount : String)
    (err : ℕ → ℕ → String) (st : DecodeState) : Timed DecodeStop DecodeState :=
  if present then
    match getU30 st.input with
    | none => fail (.failed errCount)
    | some (count, rest) =>
        timedItems get (err count.toNat) count 1
          { st with input := rest, lastTop := st.index sym + 1 }
  else pure st

/-- One entry of the array part of a table. -/
def arrayEntry (lookup : ℕ → Option LuaValue) (j : UInt32) (s : List UInt8 × LuaTable) :
    Except DecodeStop (List UInt8 × LuaTable) :=
  match getU30 s.1 with
  | none => .error (.failed "'i value' decode failed.")
  | some (vi, d) =>
      match lookup vi.toNat with
      | none => .error (.raised s!"vi={vi} not found.")
      | some v => (rawsetChecked s.2 (intKey j.toNat) v).map fun T => (d, T)

/-- One of the other entries. -/
def hashEntry (lookup : ℕ → Option LuaValue) (s : List UInt8 × LuaTable) :
    Except DecodeStop (List UInt8 × LuaTable) :=
  match getU30 s.1 with
  | none => .error (.failed "decode failed.")
  | some (ki, d) =>
      match getU30 d with
      | none => .error (.failed "decode failed.")
      | some (vi, d) =>
          match lookup ki.toNat with
          | none => .error (.raised s!"ki={ki} not found.")
          | some k =>
              match lookup vi.toNat with
              | none => .error (.raised s!"vi={vi} not found.")
              | some v => (rawsetChecked s.2 k v).map fun T => (d, T)

/-- The part for one table, which is new. -/
def timedTable (lookup : ℕ → Option LuaValue) (d : List UInt8) : Timed DecodeStop LuaTable :=
  match getU30 d with
  | none => fail (.failed "'count' decode failed.")
  | some (count, d) => do
      let s ← countTo intTop count (fun j s => ofExcept (arrayEntry lookup j s)) 1 (d, LuaTable.new none)
      let s ← whileTo (fun s => !s.1.isEmpty) (fun s => ofExcept (hashEntry lookup s)) s
      pure s.2

/-- The loop that fills the tables. -/
def timedBodies (lookup : ℕ → Option LuaValue) (count i : UInt32) (s : LuaHeap × List UInt8) :
    Timed DecodeStop (LuaHeap × List UInt8) :=
  countTo uint32Top count (fun _ s =>
    match getBytes s.2 with
    | none => fail (.failed "decode failed.")
    | some (d, rest) => do
        let T ← timedTable lookup d
        pure (s.1 ++ [T], rest)) i s

/-- The loop that creates the tables. -/
def timedCreate (count i : UInt32) (values : List LuaValue) : Timed DecodeStop (List LuaValue) :=
  countTo uint32Top count (fun i values => pure (values ++ [.table (i.toNat - 1)])) i values

/-- The part for all tables. -/
def timedTables (sym : SymTable) (present : Bool) (st : DecodeState) :
    Timed DecodeStop (LuaHeap × DecodeState) :=
  if present then
    match getU30 st.input with
    | none => fail (.failed "decode failed.")
    | some (count, rest) => do
        let values ← timedCreate count 1 st.values
        let s ← timedBodies (lookupIndex sym values) count 1 ([], rest)
        pure (s.1, ⟨rest, values, st.index sym + 1⟩)
  else pure ([], st)

/-- `luafan_objectbuf_decode`. -/
def timedDecode (buf : List UInt8) (sym : SymTable) : Timed DecodeStop (LuaHeap × LuaValue) :=
  match buf.take (buf.length % 2 ^ 32) with
  | [] => pure ([], .boolean false)
  | flag :: input =>
      if flag = 0 then pure ([], .boolean false)
      else if flag = 1 then pure ([], .boolean true)
      else do
        let st : DecodeState := ⟨input, [], sym.index + 1⟩
        let st ← timedList sym (flag &&& 0x80 ≠ 0) getNumber
          "decode failed, can't get `number` count."
          (fun count i => s!"decode failed, can't decode `number`, {i}/{count}") st
        let st ← timedList sym (flag &&& 0x40 ≠ 0) getInteger "decode failed."
          (fun _ _ => "decode failed.") st
        let st ← timedList sym (flag &&& 0x20 ≠ 0) getText "decode failed."
          (fun _ _ => "decode failed.") st
        let (H, st) ← timedTables sym (flag &&& 0x08 ≠ 0) st
        pure (H, (lookupIndex sym st.values st.lastTop).getD .nil)

/-! ## What is read takes bytes -/

theorem takeU30Loop_pos (n : ℕ) (u : List UInt8) (shift : ℕ) (value : UInt32) {v : UInt32} {k : ℕ}
    (h : takeU30Loop (n + 1) u shift value = (some v, k)) : 0 < k ∧ k ≤ u.length := by
  induction n generalizing u shift value k with
  | zero =>
      cases u with
      | nil => cases h
      | cons b bs =>
          rw [takeU30Loop] at h
          dsimp only [takeU30Loop] at h
          split at h <;>
          · cases h
            simp
  | succ n ih =>
      cases u with
      | nil => cases h
      | cons b bs =>
          rw [takeU30Loop] at h
          dsimp only at h
          split at h
          · cases h
            simp
          · cases hloop : takeU30Loop (n + 1) bs (shift + 7)
              (value ||| ((b.toUInt32 &&& 127) <<< UInt32.ofNat shift)) with
            | mk r m =>
                rw [hloop] at h
                cases h
                have := ih bs _ _ hloop
                rw [List.length_cons]
                omega

theorem takeU30_pos {u : List UInt8} {v : UInt32} {k : ℕ} (h : takeU30 u = (some v, k)) :
    0 < k ∧ k ≤ u.length := takeU30Loop_pos 4 u 0 0 h

/-- A reader that takes at least a byte. -/
def Takes {α : Type} (get : List UInt8 → Option (α × List UInt8)) : Prop :=
  ∀ input v rest, get input = some (v, rest) → rest.length < input.length

theorem getU30_takes : Takes getU30 := by
  intro input v rest h
  cases htake : takeU30 input with
  | mk r k =>
      rw [getU30, htake] at h
      obtain ⟨u, rfl, heq⟩ := Option.map_eq_some_iff.mp h
      have := takeU30_pos htake
      cases heq
      rw [List.length_drop]
      omega

theorem getNumber_takes : Takes getNumber := by
  intro input v rest h
  unfold getNumber at h
  split at h
  · cases h
    rw [List.length_drop]
    omega
  · cases h

theorem getInteger_takes : Takes getInteger := by
  intro input v rest h
  obtain ⟨⟨u, rest'⟩, hget, heq⟩ := Option.map_eq_some_iff.mp h
  cases heq
  exact getU30_takes _ _ _ hget

theorem getBytes_takes : Takes getBytes := by
  intro input v rest h
  unfold getBytes takeString at h
  cases htake : takeU30 input with
  | mk r k =>
      rw [htake] at h
      cases r with
      | none => cases h
      | some len =>
          have := takeU30_pos htake
          dsimp only at h
          split at h
          · rename_i hs
            split at hs
            · cases hs
            · cases hs
              cases h
              rw [List.length_drop]
              omega
          · cases h

theorem getText_takes : Takes getText := by
  intro input v rest h
  obtain ⟨⟨u, rest'⟩, hget, heq⟩ := Option.map_eq_some_iff.mp h
  cases heq
  exact getBytes_takes _ _ _ hget

/-! ## Counters -/

theorem toNat_uint32Top : uint32Top.toNat = 2 ^ 32 - 1 := rfl

theorem toNat_intTop : intTop.toNat = 2 ^ 31 - 1 := rfl

theorem toNat_next {i : UInt32} (h : i.toNat + 1 < 2 ^ 32) : (i + 1).toNat = i.toNat + 1 := by
  rw [UInt32.toNat_add]
  exact Nat.mod_eq_of_lt h

theorem le_count {i count : UInt32} {n : ℕ} (h : i.toNat + (n + 1) = count.toNat + 1) : i ≤ count := by
  rw [UInt32.le_iff_toNat_le]
  omega

theorem not_le_count {i count : UInt32} (h : i.toNat + 0 = count.toNat + 1) : ¬i ≤ count := by
  rw [UInt32.le_iff_toNat_le]
  omega

theorem ne_top_iff {i top : UInt32} : i ≠ top ↔ i.toNat ≠ top.toNat := UInt32.toNat_inj.not.symm

/-! ## The lists of scalars -/

section Lists

variable {get : List UInt8 → Option (LuaValue × List UInt8)} {r : Except DecodeStop DecodeState}

/-- Every round takes a byte, so the input ends before the counter wraps. -/
theorem ends_timedItems (hget : Takes get) (err : ℕ → String) {count : UInt32} (n : ℕ) :
    ∀ (i : UInt32) (st : DecodeState), i.toNat + n = count.toNat + 1 →
      st.input.length + i.toNat < 2 ^ 32 →
        ((timedItems get err count i st).Ends r ↔ r = decodeItems get err n i.toNat st) := by
  induction n with
  | zero =>
      intro i st hn hlen
      exact ends_countTo_done (not_le_count hn)
  | succ n ih =>
      intro i st hn hlen
      rw [timedItems, ends_countTo (le_count hn), decodeItems]
      cases hread : get st.input with
      | none => simp [ends_fail]
      | some v =>
          obtain ⟨v, rest⟩ := v
          have hrest := hget _ _ _ hread
          have hnext : (i + 1).toNat = i.toNat + 1 := toNat_next (by omega)
          have htop : i ≠ uint32Top := by
            rw [ne_top_iff, toNat_uint32Top]
            omega
          have hih := ih (i + 1) { st with input := rest, values := st.values ++ [v] } (by omega)
            (by simp only; omega)
          rw [hnext, timedItems] at hih
          simpa [ends_pure, htop] using hih

theorem ends_timedList (hget : Takes get) (sym : SymTable) (present : Bool) (errCount : String)
    (err : ℕ → ℕ → String) {st : DecodeState} (hlen : st.input.length < 2 ^ 32) :
    (timedList sym present get errCount err st).Ends r ↔
      r = decodeList sym present get errCount err st := by
  unfold timedList decodeList
  split
  · cases hcount : getU30 st.input with
    | none => exact ends_fail
    | some c =>
        obtain ⟨count, rest⟩ := c
        have hrest := getU30_takes _ _ _ hcount
        have hone : (1 : UInt32).toNat + count.toNat = count.toNat + 1 := Nat.add_comm _ _
        have hone' : (1 : UInt32).toNat = 1 := rfl
        exact ends_timedItems hget (err count.toNat) count.toNat 1
          { st with input := rest, lastTop := st.index sym + 1 } hone (by simp only; omega)
  · exact ends_pure

/-- A list, and what follows it. -/
theorem ends_timedList_bind {β : Type} (hget : Takes get) (sym : SymTable) (present : Bool)
    (errCount : String) (err : ℕ → ℕ → String) {st : DecodeState} (hlen : st.input.length < 2 ^ 32)
    (f : DecodeState → Timed DecodeStop β) (r : Except DecodeStop β) :
    (timedList sym present get errCount err st >>= f).Ends r ↔
      (∃ e, decodeList sym present get errCount err st = .error e ∧ r = .error e) ∨
        ∃ st', decodeList sym present get errCount err st = .ok st' ∧ (f st').Ends r := by
  simp only [ends_bind, ends_timedList hget sym present errCount err hlen, eq_comm]

end Lists

/-! ## One table -/

/-- `n` indices that lead to values. -/
inductive Entries (lookup : ℕ → Option LuaValue) : ℕ → List UInt8 → List UInt8 → Prop where
  | nil (d : List UInt8) : Entries lookup 0 d d
  | cons {n : ℕ} {v : UInt32} {d d' rest : List UInt8} (h : getU30 d = some (v, d'))
      (hv : (lookup v.toNat).isSome = true) (hrest : Entries lookup n d' rest) :
      Entries lookup (n + 1) d rest

/-- Indices in pairs, up to the end, of keys and values. -/
inductive Pairs (lookup : ℕ → Option LuaValue) : List UInt8 → Prop where
  | nil : Pairs lookup []
  | cons {k : LuaValue} {ki vi : UInt32} {d d' rest : List UInt8} (hk : getU30 d = some (ki, d'))
      (hv : getU30 d' = some (vi, rest)) (hkey : lookup ki.toNat = some k) (hnan : k.isKey = true)
      (hval : (lookup vi.toNat).isSome = true) (hrest : Pairs lookup rest) : Pairs lookup d

/-- The array part has as many entries as an `int` can count, or more. -/
def LongArray (lookup : ℕ → Option LuaValue) (d : List UInt8) : Prop :=
  ∃ count d' rest, getU30 d = some (count, d') ∧ 2 ^ 31 - 1 ≤ count.toNat ∧
    Entries lookup (2 ^ 31 - 1) d' rest

/-- The bytes of a table whose entries all lead to values. -/
def WholeTable (lookup : ℕ → Option LuaValue) (d : List UInt8) : Prop :=
  ∃ count d' rest, getU30 d = some (count, d') ∧ Entries lookup count.toNat d' rest ∧ Pairs lookup rest

section Bodies

variable (lookup : ℕ → Option LuaValue)

variable {lookup} in
theorem entries_succ {n : ℕ} {d rest : List UInt8} : Entries lookup (n + 1) d rest ↔
    ∃ v d', getU30 d = some (v, d') ∧ (lookup v.toNat).isSome = true ∧ Entries lookup n d' rest := by
  constructor
  · intro h
    cases h with
    | cons h hv hrest => exact ⟨_, _, h, hv, hrest⟩
  · rintro ⟨v, d', h, hv, hrest⟩
    exact Entries.cons h hv hrest

/-- What one round of the array part does. -/
theorem arrayEntry_eq (j : UInt32) (d : List UInt8) (T : LuaTable) :
    (∃ e, arrayEntry lookup j (d, T) = .error e ∧
        (∀ n, decodeArrayPart lookup (n + 1) j.toNat d T = .error e) ∧
        ∀ n rest, ¬Entries lookup (n + 1) d rest) ∨
      ∃ d' T', arrayEntry lookup j (d, T) = .ok (d', T') ∧
        (∀ n, decodeArrayPart lookup (n + 1) j.toNat d T = decodeArrayPart lookup n (j.toNat + 1) d' T') ∧
        ∀ n rest, Entries lookup (n + 1) d rest ↔ Entries lookup n d' rest := by
  simp only [arrayEntry, decodeArrayPart, entries_succ]
  cases hread : getU30 d with
  | none => exact Or.inl ⟨_, rfl, fun _ => rfl, by simp⟩
  | some v =>
      obtain ⟨vi, d'⟩ := v
      dsimp only
      cases hv : lookup vi.toNat with
      | none => exact Or.inl ⟨_, rfl, fun _ => rfl, by simp [hv]⟩
      | some v =>
          simp only [rawsetChecked_ok (isKey_intKey _), Except.map]
          refine Or.inr ⟨d', _, rfl, fun _ => rfl, fun n rest => ?_⟩
          simp [hv]

/-- The counter of the array part wraps when all the entries that it can count are there. -/
theorem ends_arrayPart {count : UInt32} {r : Except DecodeStop (List UInt8 × LuaTable)} (n : ℕ) :
    ∀ (j : UInt32) (d : List UInt8) (T : LuaTable), j.toNat + n = count.toNat + 1 →
      j.toNat < 2 ^ 31 →
        ((countTo intTop count (fun j s => ofExcept (arrayEntry lookup j s)) j (d, T)).Ends r ↔
          ¬(2 ^ 31 - j.toNat ≤ n ∧ ∃ rest, Entries lookup (2 ^ 31 - j.toNat) d rest) ∧
            r = decodeArrayPart lookup n j.toNat d T) := by
  induction n with
  | zero =>
      intro j d T hn hj
      rw [ends_countTo_done (not_le_count hn), decodeArrayPart]
      refine ⟨fun h => ⟨?_, h⟩, fun h => h.2⟩
      rintro ⟨hle, -⟩
      omega
  | succ n ih =>
      intro j d T hn hj
      obtain ⟨m, hm⟩ : ∃ m, 2 ^ 31 - j.toNat = m + 1 := ⟨2 ^ 31 - j.toNat - 1, by omega⟩
      rw [ends_countTo (le_count hn), hm]
      rcases arrayEntry_eq lookup j d T with
        ⟨e, he, hpart, hnone⟩ | ⟨d', T', he, hpart, hone⟩
      · simp [he, ends_ofExcept, hpart, hnone]
      · simp only [he, ends_ofExcept, hpart, hone, reduceCtorEq, false_and, exists_false, false_or,
          Except.ok.injEq, exists_eq_left]
        by_cases htop : j = intTop
        · have hj' : j.toNat = 2 ^ 31 - 1 := by rw [htop, toNat_intTop]
          obtain rfl : m = 0 := by omega
          have hall : ∃ rest, Entries lookup 0 d' rest := ⟨d', Entries.nil d'⟩
          simp [htop, hall]
        · have hj' : j.toNat ≠ 2 ^ 31 - 1 := by
            rw [← toNat_intTop]
            exact ne_top_iff.mp htop
          have hnext : (j + 1).toNat = j.toNat + 1 := toNat_next (by omega)
          have hih := ih (j + 1) d' T' (by omega) (by omega)
          rw [hnext, show 2 ^ 31 - (j.toNat + 1) = m by omega] at hih
          rw [hih]
          simp [htop]

/-- The array part can be read when its entries lead to values. -/
theorem decodeArrayPart_ok (n : ℕ) : ∀ (j : ℕ) (d : List UInt8) (T : LuaTable) (rest : List UInt8),
    (∃ T', decodeArrayPart lookup n j d T = .ok (rest, T')) ↔ Entries lookup n d rest := by
  induction n with
  | zero =>
      intro j d T rest
      constructor
      · rintro ⟨T', h⟩
        cases h
        exact Entries.nil _
      · rintro ⟨⟩
        exact ⟨T, rfl⟩
  | succ n ih =>
      intro j d T rest
      rw [entries_succ]
      cases hread : getU30 d with
      | none => simp [decodeArrayPart, hread]
      | some v =>
          obtain ⟨vi, d'⟩ := v
          cases hv : lookup vi.toNat with
          | none => simp [decodeArrayPart, hread, hv]
          | some v => simp [decodeArrayPart, hread, hv, rawsetChecked_ok (isKey_intKey _), ih]

/-- What one round of the other entries does. -/
theorem hashEntry_eq {d : List UInt8} (hd : d ≠ []) (T : LuaTable) :
    (∃ e, hashEntry lookup (d, T) = .error e ∧
        (∀ rounds, decodeHashPart lookup (rounds + 1) d T = .error e) ∧ ¬Pairs lookup d) ∨
      ∃ d' T', hashEntry lookup (d, T) = .ok (d', T') ∧ d'.length < d.length ∧
        (∀ rounds, decodeHashPart lookup (rounds + 1) d T = decodeHashPart lookup rounds d' T') ∧
          (Pairs lookup d ↔ Pairs lookup d') := by
  obtain ⟨b, bs, rfl⟩ := List.exists_cons_of_ne_nil hd
  have hpairs : Pairs lookup (b :: bs) ↔ ∃ k ki vi d' rest, getU30 (b :: bs) = some (ki, d') ∧
      getU30 d' = some (vi, rest) ∧ lookup ki.toNat = some k ∧ k.isKey = true ∧
        (lookup vi.toNat).isSome = true ∧ Pairs lookup rest := by
    constructor
    · intro h
      cases h with
      | cons hk hv hkey hnan hval hrest => exact ⟨_, _, _, _, _, hk, hv, hkey, hnan, hval, hrest⟩
    · rintro ⟨k, ki, vi, d', rest, hk, hv, hkey, hnan, hval, hrest⟩
      exact Pairs.cons hk hv hkey hnan hval hrest
  rw [hpairs]
  simp only [hashEntry, decodeHashPart]
  cases hread : getU30 (b :: bs) with
  | none => exact Or.inl ⟨_, rfl, fun _ => rfl, by simp⟩
  | some k =>
      obtain ⟨ki, d'⟩ := k
      dsimp only
      cases hread' : getU30 d' with
      | none => exact Or.inl ⟨_, rfl, fun _ => rfl, by simp [hread']⟩
      | some v =>
          obtain ⟨vi, rest⟩ := v
          have hlt := getU30_takes _ _ _ hread
          have hlt' := getU30_takes _ _ _ hread'
          dsimp only
          cases hk : lookup ki.toNat with
          | none => exact Or.inl ⟨_, rfl, fun _ => rfl, by simp [hk, hread']⟩
          | some k =>
              dsimp only
              cases hv : lookup vi.toNat with
              | none => exact Or.inl ⟨_, rfl, fun _ => rfl, by simp [hread', hv]⟩
              | some v =>
                  dsimp only
                  by_cases hkey : k.isKey = true
                  · rw [rawsetChecked_ok hkey]
                    exact Or.inr ⟨rest, _, rfl, by omega, fun _ => rfl, by simp [hread', hk, hv, hkey]⟩
                  · rw [rawsetChecked, dif_neg hkey]
                    exact Or.inl ⟨_, rfl, fun _ => rfl, by simp [hread', hk, hkey]⟩

/-- Every round takes a byte, so the loop ends. -/
theorem ends_hashPart {r : Except DecodeStop (List UInt8 × LuaTable)} (rounds : ℕ) :
    ∀ (d : List UInt8) (T : LuaTable), d.length ≤ rounds →
      ((whileTo (fun s => !s.1.isEmpty) (fun s => ofExcept (hashEntry lookup s)) (d, T)).Ends r ↔
        r = (decodeHashPart lookup rounds d T).map fun T => ([], T)) ∧
      ((∃ T', decodeHashPart lookup rounds d T = .ok T') ↔ Pairs lookup d) := by
  induction rounds with
  | zero =>
      intro d T hd
      obtain rfl := List.eq_nil_of_length_eq_zero (Nat.le_zero.mp hd)
      rw [ends_whileTo_done rfl]
      exact ⟨Iff.rfl, fun _ => Pairs.nil, fun _ => ⟨T, rfl⟩⟩
  | succ rounds ih =>
      intro d T hd
      by_cases hnil : d = []
      · subst hnil
        rw [ends_whileTo_done rfl]
        exact ⟨Iff.rfl, fun _ => Pairs.nil, fun _ => ⟨T, rfl⟩⟩
      · rw [ends_whileTo (by simpa using hnil), ends_bind]
        rcases hashEntry_eq lookup hnil T with
          ⟨e, he, hpart, hnot⟩ | ⟨d', T', he, hlt, hpart, hone⟩
        · simp [he, ends_ofExcept, hpart, hnot, Except.map]
        · obtain ⟨hends, hok⟩ := ih d' T' (by omega)
          simp [he, ends_ofExcept, hpart, hone, hends, hok]

variable {lookup}

/-- **One table**: its loops end, and no counter wraps, if the array part is not too long. -/
theorem ends_timedTable {d : List UInt8} {r : Except DecodeStop LuaTable} :
    (timedTable lookup d).Ends r ↔ ¬LongArray lookup d ∧ r = decodeTable lookup d := by
  unfold timedTable decodeTable LongArray
  cases hread : getU30 d with
  | none => simp [ends_fail]
  | some c =>
      obtain ⟨count, d'⟩ := c
      have harray := fun r => ends_arrayPart lookup (r := r) count.toNat 1 d'
        (LuaTable.new none) (Nat.add_comm _ _) (by decide)
      rw [show (1 : UInt32).toNat = 1 from rfl] at harray
      simp only [Option.some.injEq, Prod.mk.injEq, ends_bind, harray, ends_pure]
      cases hpart : decodeArrayPart lookup count.toNat 1 d' (LuaTable.new none) with
      | error e => simp
      | ok s =>
          obtain ⟨rest, T⟩ := s
          have hhash := fun r => (ends_hashPart lookup (r := r) rest.length rest T le_rfl).1
          cases hdec : decodeHashPart lookup rest.length rest T with
          | error e =>
              simp only [hdec, Except.map] at hhash
              simp [hhash, hdec]
          | ok T' =>
              simp only [hdec, Except.map] at hhash
              simp [hhash, hdec]

theorem decodeTable_ok {d : List UInt8} : (∃ T, decodeTable lookup d = .ok T) ↔ WholeTable lookup d := by
  unfold decodeTable WholeTable
  cases hread : getU30 d with
  | none => simp
  | some c =>
      obtain ⟨count, d'⟩ := c
      have harray := decodeArrayPart_ok lookup count.toNat 1 d' (LuaTable.new none)
      simp only [Option.some.injEq, Prod.mk.injEq]
      cases hpart : decodeArrayPart lookup count.toNat 1 d' (LuaTable.new none) with
      | error e =>
          have hnone : ∀ rest, ¬Entries lookup count.toNat d' rest := by
            intro rest h
            obtain ⟨T, hT⟩ := (harray rest).mpr h
            rw [hpart] at hT
            cases hT
          simp [hnone]
      | ok s =>
          obtain ⟨rest, T⟩ := s
          have hhash := (ends_hashPart lookup (r := .ok ([], T)) rest.length rest T le_rfl).2
          have hrest : ∀ rest', Entries lookup count.toNat d' rest' ↔ rest' = rest := by
            intro rest'
            rw [← harray, hpart]
            simp [eq_comm]
          simp only [hhash]
          constructor
          · intro h
            exact ⟨count, d', rest, ⟨rfl, rfl⟩, (hrest rest).mpr rfl, h⟩
          · rintro ⟨_, _, rest', ⟨rfl, rfl⟩, h, hpairs⟩
            rwa [(hrest rest').mp h] at hpairs

/-! ## All tables -/

/-- One of `n` tables has too long an array part, and those before it can be read. -/
inductive Overlong (lookup : ℕ → Option LuaValue) : ℕ → List UInt8 → Prop where
  | here {n : ℕ} {input d rest : List UInt8} (h : getBytes input = some (d, rest))
      (hlong : LongArray lookup d) : Overlong lookup (n + 1) input
  | later {n : ℕ} {input d rest : List UInt8} (h : getBytes input = some (d, rest))
      (hwhole : WholeTable lookup d) (hrest : Overlong lookup n rest) : Overlong lookup (n + 1) input

theorem overlong_succ {n : ℕ} {input : List UInt8} : Overlong lookup (n + 1) input ↔
    ∃ d rest, getBytes input = some (d, rest) ∧
      (LongArray lookup d ∨ (WholeTable lookup d ∧ Overlong lookup n rest)) := by
  constructor
  · intro h
    cases h with
    | here h hlong => exact ⟨_, _, h, Or.inl hlong⟩
    | later h hwhole hrest => exact ⟨_, _, h, Or.inr ⟨hwhole, hrest⟩⟩
  · rintro ⟨d, rest, h, hlong | ⟨hwhole, hrest⟩⟩
    · exact Overlong.here h hlong
    · exact Overlong.later h hwhole hrest

variable (lookup) in
/-- **The tables**: their loop ends when every table that is come to is not too long. -/
theorem ends_timedBodies {β : Type} (g : LuaHeap → β) {count : UInt32} {r : Except DecodeStop β} (n : ℕ) :
    ∀ (i : UInt32) (H : LuaHeap) (input : List UInt8), i.toNat + n = count.toNat + 1 →
      input.length + i.toNat < 2 ^ 32 →
        ((timedBodies lookup count i (H, input) >>= fun s => pure (g s.1)).Ends r ↔
          ¬Overlong lookup n input ∧ r = (decodeBodies lookup n input).map fun Ts => g (H ++ Ts)) := by
  induction n with
  | zero =>
      intro i H input hn hlen
      have hnot : ¬Overlong lookup 0 input := by
        rintro ⟨⟩
      simp [timedBodies, ends_bind, ends_countTo_done (not_le_count hn), ends_pure, hnot, decodeBodies,
        Except.map]
  | succ n ih =>
      intro i H input hn hlen
      rw [overlong_succ, decodeBodies]
      cases hread : getBytes input with
      | none =>
          simp [timedBodies, ends_bind, ends_countTo (le_count hn), hread, ends_fail, Except.map]
      | some s =>
          obtain ⟨d, rest⟩ := s
          have hrest := getBytes_takes _ _ _ hread
          have hnext : (i + 1).toNat = i.toNat + 1 := toNat_next (by omega)
          have htop : i ≠ uint32Top := by
            rw [ne_top_iff, toNat_uint32Top]
            omega
          have hround : ∀ r', (timedTable lookup d >>= fun T => pure (H ++ [T], rest)).Ends r' ↔
              ¬LongArray lookup d ∧ r' = (decodeTable lookup d).map fun T => (H ++ [T], rest) := by
            intro r'
            rw [ends_map]
            simp only [ends_timedTable, and_assoc, exists_and_left, exists_eq_left]
          rw [timedBodies, ends_countTo_bind (le_count hn) htop, ends_bind]
          simp only [hread, hround]
          cases hdec : decodeTable lookup d with
          | error e =>
              have hnot : ¬WholeTable lookup d := by
                rw [← decodeTable_ok, hdec]
                simp
              simp [Except.map, hnot, and_comm]
          | ok T =>
              have hwhole : WholeTable lookup d := decodeTable_ok.mp ⟨T, hdec⟩
              have hih := ih (i + 1) (H ++ [T]) rest (by omega) (by omega)
              rw [timedBodies] at hih
              simp only [Except.map, Except.ok.injEq, reduceCtorEq, and_false, false_and, exists_false,
                false_or, and_assoc, exists_and_left, exists_eq_left, hih, Option.some.injEq, Prod.mk.injEq]
              cases decodeBodies lookup n rest <;> simp [hwhole, and_assoc]

end Bodies

/-- The loop that creates the tables reads nothing. -/
theorem ends_create {count : UInt32} (hcount : count.toNat ≠ 2 ^ 32 - 1)
    {r : Except DecodeStop (List LuaValue)} (n : ℕ) :
    ∀ (i : UInt32) (values : List LuaValue), i.toNat + n = count.toNat + 1 → 1 ≤ i.toNat →
      ((timedCreate count i values).Ends r ↔
        r = .ok (values ++ (List.range' (i.toNat - 1) n).map .table)) := by
  induction n with
  | zero =>
      intro i values hn hi
      rw [timedCreate, ends_countTo_done (not_le_count hn)]
      simp
  | succ n ih =>
      intro i values hn hi
      have hlt := count.toNat_lt
      have hnext : (i + 1).toNat = i.toNat + 1 := toNat_next (by omega)
      have htop : i ≠ uint32Top := by
        rw [ne_top_iff, toNat_uint32Top]
        omega
      have hih := ih (i + 1) (values ++ [.table (i.toNat - 1)]) (by omega) (by omega)
      rw [timedCreate, hnext, show i.toNat + 1 - 1 = i.toNat - 1 + 1 by omega] at hih
      rw [timedCreate, ends_countTo (le_count hn)]
      simp [ends_pure, htop, hih, List.range'_succ]

/-- The table count is as large as it can be. -/
theorem not_ends_create {count : UInt32} (hcount : count.toNat = 2 ^ 32 - 1)
    {r : Except DecodeStop (List LuaValue)} (values : List LuaValue) :
    ¬(timedCreate count 1 values).Ends r := by
  rintro ⟨n, hn⟩
  rw [timedCreate, countTo] at hn
  dsimp only at hn
  have hbody : ∀ (i : UInt32) (values : List LuaValue), ∃ values',
      (pure (values ++ [LuaValue.table (i.toNat - 1)]) : Timed DecodeStop (List LuaValue))
        = Timed.ofExcept (.ok values') := fun i values => ⟨_, rfl⟩
  rw [countRun_max hcount hbody] at hn
  cases hn

/-- The tables of an input make its decoding run away: there are `2 ^ 32 - 1` of them, or
one that is come to has too long an array part. -/
def RunawayTables (values : List LuaValue) (input : List UInt8) : Prop :=
  ∃ count bodies, getU30 input = some (count, bodies) ∧
    (count.toNat = 2 ^ 32 - 1 ∨
      Overlong (lookupIndex .missing (values ++ (List.range count.toNat).map .table)) count.toNat bodies)

theorem ends_timedTables (present : Bool) {st : DecodeState} (hlen : st.input.length < 2 ^ 32)
    {r : Except DecodeStop (LuaHeap × DecodeState)} :
    (timedTables .missing present st).Ends r ↔
      ¬(present = true ∧ RunawayTables st.values st.input) ∧ r = decodeTables .missing present st := by
  unfold timedTables decodeTables RunawayTables
  cases present with
  | false => simp [ends_pure]
  | true =>
      cases hread : getU30 st.input with
      | none => simp [ends_fail]
      | some c =>
          obtain ⟨count, rest⟩ := c
          have hrest := getU30_takes _ _ _ hread
          have hone : (1 : UInt32).toNat + count.toNat = count.toNat + 1 := Nat.add_comm _ _
          have hone' : (1 : UInt32).toNat = 1 := rfl
          by_cases hmax : count.toNat = 2 ^ 32 - 1
          · simp only [if_true, ends_bind, not_ends_create hmax]
            simp [hmax]
          · simp only [if_true]
            have hcreate := fun r => ends_create (r := r) hmax count.toNat 1 st.values hone le_rfl
            simp only [hone', Nat.sub_self, ← List.range_eq_range'] at hcreate
            have hbodies := ends_timedBodies (r := r)
              (lookupIndex .missing (st.values ++ (List.range count.toNat).map .table))
              (fun H => (H, (⟨rest, st.values ++ (List.range count.toNat).map .table,
                st.index .missing + 1⟩ : DecodeState))) count.toNat 1 [] rest hone (by omega)
            rw [ends_bind]
            simp only [hcreate, reduceCtorEq, false_and, exists_false, false_or, Except.ok.injEq,
              exists_eq_left, hbodies, List.nil_append]
            simp only [Option.some.injEq, Prod.mk.injEq, and_assoc, exists_and_left, exists_eq_left', true_and,
              hmax, false_or, if_false]
            cases decodeBodies _ count.toNat rest <;> rfl

/-! ## The whole input -/

/-- Items are read one after the other. -/
inductive ItemsRead (get : List UInt8 → Option (LuaValue × List UInt8)) :
    ℕ → List UInt8 → List LuaValue → List UInt8 → Prop where
  | nil (input : List UInt8) : ItemsRead get 0 input [] input
  | cons {n : ℕ} {v : LuaValue} {vs : List LuaValue} {input rest rest' : List UInt8}
      (h : get input = some (v, rest)) (hrest : ItemsRead get n rest vs rest') :
      ItemsRead get (n + 1) input (v :: vs) rest'

/-- One list: a count and as many items, if the flag has its bit. -/
def ListRead (present : Bool) (get : List UInt8 → Option (LuaValue × List UInt8)) (input : List UInt8)
    (values : List LuaValue) (rest : List UInt8) : Prop :=
  if present then ∃ count items, getU30 input = some (count, items) ∧
    ItemsRead get count.toNat items values rest
  else values = [] ∧ rest = input

/-- An input that decoding does not come to an end with, or not without a wrapped counter. -/
def Runaway (buf : List UInt8) : Prop :=
  ∃ flag input numbers u30s strings rest₁ rest₂ rest₃,
    buf.take (buf.length % 2 ^ 32) = flag :: input ∧ flag ≠ 0 ∧ flag ≠ 1 ∧
      ListRead (flag &&& 0x80 ≠ 0) getNumber input numbers rest₁ ∧
      ListRead (flag &&& 0x40 ≠ 0) getInteger rest₁ u30s rest₂ ∧
      ListRead (flag &&& 0x20 ≠ 0) getText rest₂ strings rest₃ ∧
      flag &&& 0x08 ≠ 0 ∧ RunawayTables (numbers ++ u30s ++ strings) rest₃

theorem decodeItems_ok {get : List UInt8 → Option (LuaValue × List UInt8)} (err : ℕ → String) (n : ℕ) :
    ∀ (i : ℕ) (st st' : DecodeState), decodeItems get err n i st = .ok st' ↔
      ∃ vs rest, ItemsRead get n st.input vs rest ∧ st' = ⟨rest, st.values ++ vs, st.lastTop⟩ := by
  induction n with
  | zero =>
      intro i st st'
      rw [decodeItems]
      constructor
      · intro h
        cases h
        exact ⟨[], st.input, ItemsRead.nil _, by simp⟩
      · rintro ⟨vs, rest, hread, rfl⟩
        cases hread
        simp
  | succ n ih =>
      intro i st st'
      rw [decodeItems]
      cases hget : get st.input with
      | none =>
          constructor
          · intro h
            cases h
          · rintro ⟨vs, rest, hread, rfl⟩
            cases hread with
            | cons h hrest => simp [hget] at h
      | some s =>
          obtain ⟨v, rest⟩ := s
          dsimp only
          rw [ih]
          constructor
          · rintro ⟨vs, rest', hread, rfl⟩
            exact ⟨v :: vs, rest', ItemsRead.cons hget hread, by simp⟩
          · rintro ⟨vs, rest', hread, rfl⟩
            cases hread with
            | cons h hrest =>
                rw [hget] at h
                cases h
                exact ⟨_, _, hrest, by simp⟩

theorem decodeList_ok (sym : SymTable) (present : Bool)
    {get : List UInt8 → Option (LuaValue × List UInt8)} (errCount : String) (err : ℕ → ℕ → String)
    {st st' : DecodeState} : decodeList sym present get errCount err st = .ok st' ↔
      ∃ vs rest top, ListRead present get st.input vs rest ∧ st' = ⟨rest, st.values ++ vs, top⟩ ∧
        top = if present then st.index sym + 1 else st.lastTop := by
  unfold decodeList ListRead
  cases present with
  | false =>
      constructor
      · intro h
        cases h
        exact ⟨[], st.input, st.lastTop, ⟨rfl, rfl⟩, by simp, rfl⟩
      · rintro ⟨vs, rest, top, ⟨rfl, rfl⟩, rfl, rfl⟩
        simp
  | true =>
      simp only [if_true]
      cases hcount : getU30 st.input with
      | none => simp
      | some s =>
          obtain ⟨count, items⟩ := s
          dsimp only
          rw [decodeItems_ok]
          constructor
          · rintro ⟨vs, rest, hread, rfl⟩
            exact ⟨vs, rest, _, ⟨count, items, rfl, hread⟩, rfl, rfl⟩
          · rintro ⟨vs, rest, top, ⟨count', items', heq, hread⟩, rfl, rfl⟩
            cases heq
            exact ⟨vs, rest, hread, rfl⟩

/-- What is left after a list is not longer. -/
theorem length_decodeList_le {get : List UInt8 → Option (LuaValue × List UInt8)} (hget : Takes get)
    {sym : SymTable} {present : Bool} {errCount : String} {err : ℕ → ℕ → String} {st st' : DecodeState}
    (h : decodeList sym present get errCount err st = .ok st') : st'.input.length ≤ st.input.length := by
  obtain ⟨vs, rest, top, hread, rfl, -⟩ := (decodeList_ok sym present errCount err).mp h
  unfold ListRead at hread
  split at hread
  · obtain ⟨count, items, hcount, hitems⟩ := hread
    have hlt := getU30_takes _ _ _ hcount
    have hle : ∀ {n input vs rest}, ItemsRead get n input vs rest → rest.length ≤ input.length := by
      intro n input vs rest hitems
      induction hitems with
      | nil => rfl
      | cons h _ ih => exact ih.trans (hget _ _ _ h).le
    exact (hle hitems).trans hlt.le
  · rw [hread.2]

/-- The parts of an input, one after the other. -/
theorem ends_parts (hasNumbers hasU30s hasStrings hasTables : Bool) (err₁ err₂ err₃ : String)
    (err₁' err₂' err₃' : ℕ → ℕ → String) {st : DecodeState} (hlen : st.input.length < 2 ^ 32)
    {r : Except DecodeStop (LuaHeap × LuaValue)} :
    (do
      let st ← timedList .missing hasNumbers getNumber err₁ err₁' st
      let st ← timedList .missing hasU30s getInteger err₂ err₂' st
      let st ← timedList .missing hasStrings getText err₃ err₃' st
      let (H, st) ← timedTables .missing hasTables st
      pure (H, (lookupIndex .missing st.values st.lastTop).getD .nil) : Timed _ _).Ends r ↔
    ¬(∃ numbers u30s strings rest₁ rest₂ rest₃, ListRead hasNumbers getNumber st.input numbers rest₁ ∧
      ListRead hasU30s getInteger rest₁ u30s rest₂ ∧ ListRead hasStrings getText rest₂ strings rest₃ ∧
      hasTables = true ∧ RunawayTables (st.values ++ numbers ++ u30s ++ strings) rest₃) ∧
    r = (do
      let st ← decodeList .missing hasNumbers getNumber err₁ err₁' st
      let st ← decodeList .missing hasU30s getInteger err₂ err₂' st
      let st ← decodeList .missing hasStrings getText err₃ err₃' st
      let (H, st) ← decodeTables .missing hasTables st
      .ok (H, (lookupIndex .missing st.values st.lastTop).getD .nil)) := by
  -- the lists of a runaway can be decoded
  have hlists : (∃ numbers u30s strings rest₁ rest₂ rest₃,
      ListRead hasNumbers getNumber st.input numbers rest₁ ∧
      ListRead hasU30s getInteger rest₁ u30s rest₂ ∧ ListRead hasStrings getText rest₂ strings rest₃ ∧
      hasTables = true ∧ RunawayTables (st.values ++ numbers ++ u30s ++ strings) rest₃) ↔
    ∃ st₁, decodeList .missing hasNumbers getNumber err₁ err₁' st = .ok st₁ ∧
      ∃ st₂, decodeList .missing hasU30s getInteger err₂ err₂' st₁ = .ok st₂ ∧
        ∃ st₃, decodeList .missing hasStrings getText err₃ err₃' st₂ = .ok st₃ ∧
          hasTables = true ∧ RunawayTables st₃.values st₃.input := by
    simp only [decodeList_ok]
    constructor
    · rintro ⟨numbers, u30s, strings, rest₁, rest₂, rest₃, h₁, h₂, h₃, htables⟩
      exact ⟨_, ⟨_, _, _, h₁, rfl, rfl⟩, _, ⟨_, _, _, h₂, rfl, rfl⟩, _, ⟨_, _, _, h₃, rfl, rfl⟩, htables⟩
    · rintro ⟨_, ⟨_, _, _, h₁, rfl, -⟩, _, ⟨_, _, _, h₂, rfl, -⟩, _, ⟨_, _, _, h₃, rfl, -⟩, htables⟩
      exact ⟨_, _, _, _, _, _, h₁, h₂, h₃, htables⟩
  rw [hlists, ends_timedList_bind getNumber_takes _ _ _ _ hlen]
  cases h₁ : decodeList .missing hasNumbers getNumber err₁ err₁' st with
  | error e => simp [bind, Except.bind]
  | ok st₁ =>
      have hlen₁ := length_decodeList_le getNumber_takes h₁
      simp only [Except.ok.injEq, reduceCtorEq, false_and, exists_false, false_or, exists_eq_left']
      rw [ends_timedList_bind getInteger_takes _ _ _ _ (by omega)]
      cases h₂ : decodeList .missing hasU30s getInteger err₂ err₂' st₁ with
      | error e => simp [bind, Except.bind, h₂]
      | ok st₂ =>
          have hlen₂ := length_decodeList_le getInteger_takes h₂
          simp only [Except.ok.injEq, reduceCtorEq, false_and, exists_false, false_or, exists_eq_left']
          rw [ends_timedList_bind getText_takes _ _ _ _ (by omega)]
          cases h₃ : decodeList .missing hasStrings getText err₃ err₃' st₂ with
          | error e => simp [bind, Except.bind, h₂, h₃]
          | ok st₃ =>
              have hlen₃ := length_decodeList_le getText_takes h₃
              simp only [Except.ok.injEq, reduceCtorEq, false_and, exists_false, false_or,
                exists_eq_left']
              rw [ends_map]
              simp only [ends_timedTables hasTables (show st₃.input.length < 2 ^ 32 by omega), bind,
                Except.bind, h₂, h₃, and_assoc, exists_and_left, exists_eq_left]
              cases decodeTables .missing hasTables st₃ <;> rfl

/-- **Decoding ends without a wrapped counter exactly if the input is not a runaway**, and
then it comes to what `objectbufDecode` says. -/
theorem ends_timedDecode (buf : List UInt8) {r : Except DecodeStop (LuaHeap × LuaValue)} :
    (timedDecode buf .missing).Ends r ↔ ¬Runaway buf ∧ r = objectbufDecode buf .missing := by
  have hlen : (buf.take (buf.length % 2 ^ 32)).length < 2 ^ 32 := by
    rw [List.length_take]
    omega
  unfold timedDecode objectbufDecode Runaway
  cases hbuf : buf.take (buf.length % 2 ^ 32) with
  | nil => simp [ends_pure]
  | cons flag input =>
      rw [hbuf, List.length_cons] at hlen
      dsimp only
      by_cases hzero : flag = 0
      · simp [hzero, ends_pure]
      · by_cases hone : flag = 1
        · simp [hone, ends_pure]
        · simp only [hzero, hone, if_false, decodeLists, bind_assoc]
          rw [ends_parts _ _ _ _ _ _ _ _ _ _ (by simp only; omega)]
          simp only [List.cons.injEq, and_assoc, exists_and_left, exists_eq_left', ne_eq, hzero, hone,
            not_false_eq_true, true_and, decide_eq_true_eq, List.nil_append]

/-- **Decoding ends**, and no counter of its loops wraps, exactly if the input is not a
runaway. -/
theorem objectbuf_decode_ends (buf : List UInt8) :
    (∃ r, (timedDecode buf .missing).Ends r) ↔ ¬Runaway buf := by
  simp only [ends_timedDecode, exists_and_left, exists_eq, and_true]

/-- Six bytes, a table count of `2 ^ 32 - 1`, with which decoding does not end. -/
theorem objectbuf_decode_runs_away :
    (¬∃ r, (timedDecode [0x08, 0xff, 0xff, 0xff, 0xff, 0x0f] .missing).Ends r) ∧
      ∀ n, (timedDecode [0x08, 0xff, 0xff, 0xff, 0xff, 0x0f] .missing).run n = none := by
  have hrun : ∀ n, (timedDecode [0x08, 0xff, 0xff, 0xff, 0xff, 0x0f] .missing).run n = none := by
    intro n
    have hcreate : (timedCreate 0xffffffff 1 []).run n = none :=
      countRun_max rfl (fun _ _ => ⟨_, rfl⟩) n 1 []
    -- there are no lists
    show Option.map _ (Option.map _ (Option.map _
      (runThen (runThen ((timedCreate 0xffffffff 1 []).run n) _) _))) = none
    rw [hcreate]
    rfl
  refine ⟨?_, hrun⟩
  rintro ⟨r, n, hn⟩
  rw [hrun] at hn
  cases hn

end LuaFan
