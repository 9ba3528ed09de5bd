/-
# Reading back what was written

`IsJson` singles out the values built from `json.null`, booleans, strings and
tagged tables, and `SameJson` relates such a value to the one that is read back of
its text, table by table.  The loops of the parser are followed through the texts
the loops of the encoder write:

* `parseString_encodeString`: a string is read back, whatever its bytes are;
* `parseArrayLoop_encodeElements`, `parseObjectLoop_encodeMembers`: so are the
  elements of an array and the members of an object, if their values are.
-/
import LuaFan.Json.Decode

namespace LuaFan

open Fp

/-! ## Values and their structure -/

/-- The keys of the entries are the integers from 1 to `n`. -/
def DenseKeys (entries : List (LuaValue × LuaValue)) (n : ℕ) : Prop :=
  n < 2 ^ 63 ∧ ∀ key, key ∈ entries.map Prod.fst ↔ ∃ i < n, key = intKey (i + 1 : ℕ)

/-- A table made by `json.array`, without holes. -/
def IsArray (T : LuaTable) : Prop :=
  T.metatable = some .jsonArray ∧ ∃ n, DenseKeys T.entries n

/-- A table made by `json.object`, with strings for keys. -/
def IsObject (T : LuaTable) : Prop :=
  T.metatable = some .jsonObject ∧ ∀ e ∈ T.entries, ∃ s, e.1 = .string s

/-- A value built from `json.null`, booleans, strings, arrays and objects, nested
at most `n` deep. -/
def IsJson (H : LuaHeap) : ℕ → LuaValue → Prop
  | _, .boolean _ => True
  | _, .string _ => True
  | n + 1, .table ref =>
      (IsArray (H.table ref) ∨ IsObject (H.table ref)) ∧
        ∀ e ∈ (H.table ref).entries, IsJson H n e.2
  | _, v => v = nullSentinel

/-- Correspondence of values, nested at most `n` deep: equal scalars; tables with
the same tag, where the second has exactly the keys of the first that are `kept`,
and corresponding values at common keys. -/
def SameJson (kept : LuaTable → LuaValue → Prop) (H H' : LuaHeap) :
    ℕ → LuaValue → LuaValue → Prop
  | n + 1, .table ref, .table ref' =>
      (H'.table ref').metatable = (H.table ref).metatable ∧
      (∀ key, key ∈ (H'.table ref').entries.map Prod.fst ↔
        key ∈ (H.table ref).entries.map Prod.fst ∧ kept (H.table ref) key) ∧
      ∀ key v v', (key, v) ∈ (H.table ref).entries → (key, v') ∈ (H'.table ref').entries →
        SameJson kept H H' n v v'
  | 0, .table _, .table _ => False
  | _, v, v' => v = v'

/-! ## Dense arrays -/

theorem denseKeys_of_map {entries : List (LuaValue × LuaValue)} {n : ℕ} (hn : n < 2 ^ 63)
    (h : entries.map Prod.fst = (List.range n).map fun i => intKey (i + 1 : ℕ)) :
    DenseKeys entries n := by
  refine ⟨hn, fun key => ?_⟩
  rw [h]
  simp only [List.mem_map, List.mem_range]
  constructor <;> rintro ⟨i, hi, rfl⟩ <;> exact ⟨i, hi, rfl⟩

theorem DenseKeys.length_eq {entries : List (LuaValue × LuaValue)} {n : ℕ}
    (hnodup : (entries.map Prod.fst).Nodup) (h : DenseKeys entries n) : entries.length = n := by
  have hrange : ((List.range n).map fun i => intKey (i + 1 : ℕ)).Nodup := by
    refine List.Nodup.map_on ?_ List.nodup_range
    intro i hi j hj hij
    have hi' := List.mem_range.mp hi
    have hj' := List.mem_range.mp hj
    have := intKey_inj (by have := h.1; omega) (by have := h.1; omega) hij
    omega
  have hperm : (entries.map Prod.fst).Perm ((List.range n).map fun i => intKey (i + 1 : ℕ)) := by
    rw [List.perm_ext_iff_of_nodup hnodup hrange]
    intro key
    rw [h.2]
    simp only [List.mem_map, List.mem_range]
    constructor <;> rintro ⟨i, hi, rfl⟩ <;> exact ⟨i, hi, rfl⟩
  simpa using hperm.length_eq

/-- The element at a position of a dense array. -/
theorem DenseKeys.exists_value {T : LuaTable} {n i : ℕ} (h : DenseKeys T.entries n) (hi : i < n) :
    ∃ v, (intKey (i + 1 : ℕ), v) ∈ T.entries := by
  have hmem := (h.2 (intKey (i + 1 : ℕ))).mpr ⟨i, hi, rfl⟩
  obtain ⟨e, he, hkey⟩ := List.mem_map.mp hmem
  exact ⟨e.2, by rwa [← hkey]⟩

/-- A dense array has one border. -/
theorem DenseKeys.rawlen_eq {T : LuaTable} {n : ℕ} (h : DenseKeys T.entries n) : T.rawlen = n := by
  obtain ⟨hlow, hhigh⟩ := T.border
  apply Nat.le_antisymm
  · rcases hlow with h0 | hne
    · omega
    · obtain ⟨hlt, hmem⟩ := T.exists_of_rawGetI hne
      obtain ⟨i, hi, hkey⟩ := (h.2 _).mp hmem
      have := intKey_inj hlt (by have := h.1; omega) hkey
      omega
  · by_contra hlt
    obtain ⟨v, hv⟩ := h.exists_value (i := T.rawlen) (by omega)
    have hget := T.rawGetI_eq (by have := h.1; omega) hv
    push_cast at hget
    rw [hget] at hhigh
    exact T.ne_nil _ hv hhigh

/-! ## Strings -/

theorem hex4_control (n : Fin 32) :
    isXDigit (hexDigit (n.val / 16)) = true ∧ isXDigit (hexDigit (n.val % 16)) = true ∧
      codepointToUtf8 (hex4 [ascii '0', ascii '0', hexDigit (n.val / 16), hexDigit (n.val % 16)])
        = some [UInt8.ofNat n.val] := by
  revert n
  decide

/-- The escape of a control character is read back. -/
theorem parseEscape_control (p : JsonInput) (quote s : List UInt8) (c : UInt8) (hc : c < 0x20) :
    parseEscape p quote ([ascii '\\', ascii 'u', ascii '0', ascii '0', hexDigit (c.toNat / 16),
      hexDigit (c.toNat % 16)] ++ s) = .ok ([c], s) := by
  have hlt : c.toNat < 32 := by
    rw [UInt8.lt_iff_toNat_lt] at hc
    exact hc
  obtain ⟨hhigh, hlow, hutf⟩ := hex4_control ⟨c.toNat, hlt⟩
  simp only at hhigh hlow hutf
  rw [UInt8.ofNat_toNat] at hutf
  generalize hx : hexDigit (c.toNat / 16) = x at *
  generalize hy : hexDigit (c.toNat % 16) = y at *
  have hzero : isXDigit (ascii '0') = true := by decide
  have hhex : isHex4 (ascii '0' :: ascii '0' :: x :: y :: s) = true := by
    simp [isHex4, hzero, hhigh, hlow]
  have hsur : isHighSurrogateHex (ascii '0' :: ascii '0' :: x :: y :: s) = false := by
    have hd : (toLower (ascii '0') == ascii 'd') = false := by decide
    simp [isHighSurrogateHex, hd]
  have hval : hex4 (ascii '0' :: ascii '0' :: x :: y :: s) = hex4 [ascii '0', ascii '0', x, y] := by
    simp [hex4]
  simp only [parseEscape, List.cons_append, List.nil_append, List.drop_succ_cons, List.drop_zero,
    if_true, unicodeEscape, hsur, hhex, hval, hutf]
  simp

/-- **One written byte is one round of the reader.** -/
theorem parseStringLoop_escapeByte (p : JsonInput) (quote : List UInt8) (n : ℕ) (c : UInt8)
    (s acc : List UInt8) :
    parseStringLoop p quote (n + 1) (escapeByte c ++ s) acc
      = parseStringLoop p quote n s (acc ++ [c]) := by
  have hb : ¬ascii '\\' < 32 := by decide
  have simple : ∀ x : UInt8, x ≠ ascii 'u' → simpleEscape x = some c →
      parseStringLoop p quote (n + 1) (ascii '\\' :: x :: s) acc
        = parseStringLoop p quote n s (acc ++ [c]) := by
    intro x hx hsimple
    rw [parseStringLoop]
    simp only [hb, if_false, if_true, parseEscape, List.drop_succ_cons, List.drop_zero, hx, hsimple]
    rfl
  unfold escapeByte
  split_ifs with h1 h2 h3 h4 h5 h6 h7 h8
  · exact simple _ (by decide) (by rw [h1]; decide)
  · exact simple _ (by decide) (by rw [h2]; decide)
  · exact simple _ (by decide) (by rw [h3]; decide)
  · exact simple _ (by decide) (by rw [h4]; decide)
  · exact simple _ (by decide) (by rw [h5]; decide)
  · exact simple _ (by decide) (by rw [h6]; decide)
  · exact simple _ (by decide) (by rw [h7]; decide)
  · have hesc := parseEscape_control p quote s c h8
    simp only [List.cons_append, List.nil_append] at hesc ⊢
    rw [parseStringLoop]
    simp only [hb, if_false, if_true, hesc]
    rfl
  · rw [List.cons_append, List.nil_append, parseStringLoop]
    have h8' : ¬c < 32 := h8
    simp only [h8', h1, h2, if_false]

/-- A written string is read back, and what follows is left. -/
theorem parseString_encodeString (p : JsonInput) (s rest : List UInt8) :
    parseString p (encodeString s ++ rest) = .ok (s, rest) := by
  have hloop : ∀ (s acc quote : List UInt8) (n : ℕ), s.length < n →
      parseStringLoop p quote n (s.flatMap escapeByte ++ ascii '"' :: rest) acc
        = .ok (acc ++ s, rest) := by
    intro s
    induction s with
    | nil =>
        intro acc quote n hn
        obtain ⟨n, rfl⟩ := Nat.exists_eq_succ_of_ne_zero (by omega : n ≠ 0)
        have h32 : ¬ascii '"' < 32 := by decide
        have hne : ascii '"' ≠ ascii '\\' := by decide
        rw [List.flatMap_nil, List.nil_append, parseStringLoop]
        simp [h32, hne]
    | cons c s ih =>
        intro acc quote n hn
        obtain ⟨n, rfl⟩ := Nat.exists_eq_succ_of_ne_zero (by omega : n ≠ 0)
        rw [List.flatMap_cons, List.append_assoc, parseStringLoop_escapeByte,
          ih _ _ _ (by simpa using hn)]
        simp
  -- the bound on the rounds is the length of the text, and each byte takes at least one
  have hlen : ∀ c : UInt8, 1 ≤ (escapeByte c).length := by
    intro c
    unfold escapeByte
    split_ifs <;> simp
  have hle : ∀ s : List UInt8, s.length ≤ (s.flatMap escapeByte).length := by
    intro s
    induction s with
    | nil => simp
    | cons c s ih =>
        have := hlen c
        simp only [List.flatMap_cons, List.length_append, List.length_cons]
        omega
  unfold parseString encodeString
  simp only [List.cons_append, if_true, List.append_assoc, List.nil_append]
  rw [hloop s [] _ _ ?_]
  · simp
  · have := hle s
    simp only [List.length_append, List.length_cons]
    omega

/-! ## Counting the elements of an array -/

/-- The number of elements written for an array of `n` elements. -/
def writtenCount (n : ℕ) : ℕ := (Int32.ofNat n).toInt.toNat

theorem writtenCount_le (n : ℕ) : writtenCount n ≤ n := by
  unfold writtenCount
  rw [Int32.toInt_ofNat', Int.bmod_def, show Int32.size = 4294967296 from rfl]
  split <;> omega

theorem writtenCount_lt (n : ℕ) : writtenCount n < 2 ^ 31 := by
  unfold writtenCount
  have := (Int32.ofNat n).toInt_lt
  omega

theorem writtenCount_of_lt {n : ℕ} (h : n < 2 ^ 31) : writtenCount n = n := by
  unfold writtenCount
  rw [Int32.toInt_ofNat_of_lt (by omega)]
  simp

theorem ofNat_ne_maxValue {n : ℕ} (h : n < 2 ^ 31 - 1) : Int32.ofNat n ≠ Int32.maxValue := by
  intro hmax
  have hint := congrArg Int32.toInt hmax
  rw [Int32.toInt_ofNat_of_lt (by omega), Int32.toInt_maxValue] at hint
  omega

/-- The keys of an array that are written; every key of an object is. -/
def keptKey (T : LuaTable) (key : LuaValue) : Prop :=
  T.metatable = some .jsonArray → ∃ i < writtenCount T.entries.length, key = intKey (i + 1 : ℕ)

theorem countKeys_eq (es : List (LuaValue × LuaValue)) (n : Int32)
    (h : ∀ e ∈ es, ∃ m, e.1 = .number m) : countKeys es n = .ok (n + Int32.ofNat es.length) := by
  induction es generalizing n with
  | nil => simp [countKeys]
  | cons e es ih =>
      obtain ⟨key, v⟩ := e
      obtain ⟨m, hm⟩ := h (key, v) (by simp)
      simp only at hm
      subst hm
      rw [countKeys, ih _ (fun e he => h e (by simp [he])), List.length_cons, Int32.ofNat_add,
        Int32.add_assoc, Int32.add_comm 1]
      rfl

theorem DenseKeys.numbers {entries : List (LuaValue × LuaValue)} {n : ℕ}
    (h : DenseKeys entries n) : ∀ e ∈ entries, ∃ m, e.1 = .number m := by
  intro e he
  obtain ⟨i, -, hkey⟩ := (h.2 e.1).mp (List.mem_map_of_mem he)
  exact ⟨_, hkey⟩

theorem IsArray.encodeArray_eq {T : LuaTable} (h : IsArray T)
    (enc : LuaValue → Except JsonError (List UInt8)) :
    encodeArray enc T = (do
      let text ← encodeElements enc T.entries 0 (writtenCount T.entries.length)
      if Int32.ofNat T.entries.length = Int32.maxValue then .error (bytesOf "out of memory")
      else .ok ([ascii '['] ++ text ++ [ascii ']'])) := by
  obtain ⟨-, n, hdense⟩ := h
  have hlen := hdense.length_eq T.nodup
  rw [encodeArray_def]
  rw [countKeys_eq _ _ hdense.numbers, hdense.rawlen_eq, hlen, Int32.zero_add]
  change (if Int32.ofNat n ≠ Int32.ofNat n then _ else _) = _
  rw [if_neg (by simp)]
  rfl

/-! ## Correspondence -/

theorem IsJson.cases {H : LuaHeap} {n : ℕ} {v : LuaValue} (h : IsJson H n v) :
    v = nullSentinel ∨ (∃ b, v = .boolean b) ∨ (∃ s, v = .string s) ∨
      ∃ m ref, n = m + 1 ∧ v = .table ref ∧ (IsArray (H.table ref) ∨ IsObject (H.table ref)) ∧
        ∀ e ∈ (H.table ref).entries, IsJson H m e.2 := by
  cases v with
  | boolean b => exact Or.inr (Or.inl ⟨b, rfl⟩)
  | string s => exact Or.inr (Or.inr (Or.inl ⟨s, rfl⟩))
  | table ref =>
      cases n with
      | zero => cases h
      | succ n =>
          rw [IsJson] at h
          exact Or.inr (Or.inr (Or.inr ⟨n, ref, rfl, rfl, h.1, h.2⟩))
  | nil => cases n <;> exact Or.inl h
  | number m => cases n <;> exact Or.inl h
  | other t r => cases n <;> exact Or.inl h

theorem IsJson.tagged {T : LuaTable} (h : IsArray T ∨ IsObject T) : ∃ m, T.metatable = some m := by
  rcases h with h | h
  · exact ⟨_, h.1⟩
  · exact ⟨_, h.1⟩

/-- Allocating more tables changes no correspondence. -/
theorem SameJson.append {kept : LuaTable → LuaValue → Prop} {H H' : LuaHeap} (E : LuaHeap) {n : ℕ}
    {v v' : LuaValue} (hv : IsJson H n v) (h : SameJson kept H H' n v v') :
    SameJson kept H (H' ++ E) n v v' := by
  induction n generalizing v v' with
  | zero => cases v <;> cases v' <;> exact h
  | succ n ih =>
      cases v with
      | table ref =>
          cases v' with
          | table ref' =>
              rw [SameJson] at h ⊢
              rw [IsJson] at hv
              obtain ⟨m, hm⟩ := IsJson.tagged hv.1
              have hlt := LuaHeap.lt_length_of_metatable (h.1.trans hm)
              rw [LuaHeap.table_append_left H' E hlt]
              refine ⟨h.1, h.2.1, ?_⟩
              intro key w w' hw hw'
              exact ih (hv.2 _ hw) (h.2.2 key w w' hw hw')
          | _ => exact h
      | _ => cases v' <;> exact h

theorem SameJson.ne_nil {kept : LuaTable → LuaValue → Prop} {H H' : LuaHeap} {n : ℕ}
    {v v' : LuaValue} (hv : IsJson H n v) (h : SameJson kept H H' n v v') : v' ≠ .nil := by
  rintro rfl
  rcases hv.cases with rfl | ⟨b, rfl⟩ | ⟨s, rfl⟩ | ⟨m, ref, rfl, rfl, -⟩ <;>
    · simp only [SameJson, nullSentinel] at h
      cases h

/-- A table being read: its keys so far, and the values it has correspond to those
of the entries that were written. -/
def SoFar (H H' : LuaHeap) (n : ℕ) (entries : List (LuaValue × LuaValue)) (keys : LuaValue → Prop)
    (T : LuaTable) : Prop :=
  (∀ key, key ∈ T.entries.map Prod.fst ↔ keys key) ∧
    ∀ key v v', (key, v) ∈ entries → (key, v') ∈ T.entries → SameJson keptKey H H' n v v'

/-- **One more entry is read.** -/
theorem SoFar.rawset {H H' E : LuaHeap} {n : ℕ} {S : LuaTable} {keys : LuaValue → Prop}
    {T : LuaTable} (h : SoFar H H' n S.entries keys T) {key v v' : LuaValue}
    (hkey : key.isKey = true) (hnormal : key.normal = key) (hjson : ∀ e ∈ S.entries, IsJson H n e.2)
    (hv : (key, v) ∈ S.entries) (hsame : SameJson keptKey H (H' ++ E) n v v') :
    SoFar H (H' ++ E) n S.entries (fun x => keys x ∨ x = key) (T.rawset key v' hkey) := by
  have hne : v' ≠ .nil := hsame.ne_nil (hjson _ hv)
  constructor
  · intro x
    have hx := h.1 x
    simp only [List.mem_map, LuaTable.mem_rawset, hnormal] at hx ⊢
    rw [← hx]
    constructor
    · rintro ⟨e, ⟨he, -⟩ | ⟨rfl, -⟩, rfl⟩
      · exact Or.inl ⟨e, he, rfl⟩
      · exact Or.inr rfl
    · rintro (⟨e, he, rfl⟩ | rfl)
      · by_cases hek : e.1 = key
        · exact ⟨(key, v'), Or.inr ⟨rfl, hne⟩, hek.symm⟩
        · exact ⟨e, Or.inl ⟨he, hek⟩, rfl⟩
      · exact ⟨(x, v'), Or.inr ⟨rfl, hne⟩, rfl⟩
  · intro x w w' hw hw'
    rcases LuaTable.mem_rawset.mp hw' with ⟨hold, -⟩ | ⟨heq, -⟩
    · exact (h.2 x w w' hw hold).append E (hjson _ hw)
    · rw [hnormal, Prod.mk.injEq] at heq
      obtain ⟨rfl, rfl⟩ := heq
      rwa [S.value_unique hw hv]

/-! ## Reading what was written -/

/-- Nothing is left, or a delimiter comes next. -/
def Delimited (rest : List UInt8) : Prop := ∀ c s, rest = c :: s → isDelim c = true

/-- The first byte of a value: no space and no closing bracket. -/
def StartsValue (text : List UInt8) : Prop :=
  ∃ c s, text = c :: s ∧ isJsonSpace c = false ∧ c ≠ ascii ']'

theorem skipSpaces_cons {c : UInt8} (s : List UInt8) (h : isJsonSpace c = false) :
    skipSpaces (c :: s) = c :: s := by
  simp [skipSpaces, h]

theorem StartsValue.skipSpaces_append {text : List UInt8} (h : StartsValue text)
    (rest : List UInt8) : skipSpaces (text ++ rest) = text ++ rest := by
  obtain ⟨c, s, rfl, hc, -⟩ := h
  exact skipSpaces_cons _ hc

theorem StartsValue.append {text : List UInt8} (h : StartsValue text) (rest : List UInt8) :
    StartsValue (text ++ rest) := by
  obtain ⟨c, s, rfl, hc⟩ := h
  exact ⟨c, s ++ rest, rfl, hc⟩

/-- A text is read as a value that corresponds to `v`, whatever follows it. -/
def ReadsAs (H : LuaHeap) (n : ℕ) (pv : ValueParser) (text : List UInt8) (v : LuaValue) : Prop :=
  StartsValue text ∧ ∀ H' rest, Delimited rest →
    ∃ v' E, pv H' (text ++ rest) = .ok ((v', H' ++ E), rest) ∧
      SameJson keptKey H (H' ++ E) n v v'

/-- What the encoder writes in fewer than `len` bytes is read back. -/
def ReadsBack (H : LuaHeap) (n len : ℕ) (enc : LuaValue → Except JsonError (List UInt8))
    (pv : ValueParser) : Prop :=
  ∀ v text, IsJson H n v → enc v = .ok text → text.length < len → ReadsAs H n pv text v

theorem bind_eq_ok {α β : Type} {x : Except JsonError α} {f : α → Except JsonError β} {b : β}
    (h : (x >>= f) = .ok b) : ∃ a, x = .ok a ∧ f a = .ok b := by
  cases x with
  | error e => cases h
  | ok a => exact ⟨a, rfl, h⟩

@[simp] theorem ok_bind {α β : Type} (a : α) (f : α → Except JsonError β) :
    (Except.ok a >>= f) = f a := rfl

/-- The text of the elements after the first ones starts with a comma. -/
theorem encodeElements_succ {enc : LuaValue → Except JsonError (List UInt8)}
    {entries : List (LuaValue × LuaValue)} {i k : ℕ} {text : List UInt8}
    (h : encodeElements enc entries i (k + 1) = .ok text) :
    ∃ t more, enc (rawGetI entries (i + 1 : ℕ)) = .ok t ∧
      encodeElements enc entries (i + 1) k = .ok more ∧
      text = (if 0 < i then [ascii ','] else []) ++ t ++ more := by
  rw [encodeElements_step] at h
  obtain ⟨t, ht, h⟩ := bind_eq_ok h
  obtain ⟨more, hmore, h⟩ := bind_eq_ok h
  cases h
  exact ⟨t, more, by exact_mod_cast ht, hmore, rfl⟩

theorem counterKey_ofNat {i : ℕ} (h : i < 2 ^ 31) : counterKey (Int32.ofNat i) = intKey i := by
  rw [counterKey, Int32.toInt_ofNat_of_lt h]

/-- One more element is read. -/
theorem SoFar.rawset_element {H H' E : LuaHeap} {n i : ℕ} {S T : LuaTable} {v v' : LuaValue}
    (h : SoFar H H' n S.entries (fun key => ∃ j < i, key = intKey (j + 1 : ℕ)) T)
    (hjson : ∀ e ∈ S.entries, IsJson H n e.2) (hi : i + 1 < 2 ^ 31)
    (hv : (intKey (i + 1 : ℕ), v) ∈ S.entries) (hsame : SameJson keptKey H (H' ++ E) n v v') :
    SoFar H (H' ++ E) n S.entries (fun key => ∃ j < i + 1, key = intKey (j + 1 : ℕ))
      (T.rawset (counterKey (Int32.ofNat (i + 1))) v' rfl) := by
  have hstep := h.rawset rfl rfl hjson hv hsame
  simp only [counterKey_ofNat hi]
  refine ⟨fun key => (hstep.1 key).trans ?_, hstep.2⟩
  constructor
  · rintro (⟨j, hj, rfl⟩ | rfl)
    · exact ⟨j, by omega, rfl⟩
    · exact ⟨i, by omega, rfl⟩
  · rintro ⟨j, hj, rfl⟩
    rcases Nat.lt_or_ge j i with hlt | hge
    · exact Or.inl ⟨j, hlt, rfl⟩
    · right
      rw [show j = i by omega]

/-! One round of the loops, on a value that is read. -/

section Rounds

variable {p : JsonInput} {pv : ValueParser} {T : LuaTable} {H H' : LuaHeap}
  {text left : List UInt8} {v : LuaValue}

theorem parseArrayLoop_close {k : ℕ} {n : Int32} (hstart : StartsValue text)
    (hpv : pv H text = .ok ((v, H'), ascii ']' :: left)) :
    parseArrayLoop p pv (k + 1) n T H text = .ok ((T.rawset (counterKey n) v rfl, H'), left) := by
  obtain ⟨c, s, rfl, hspace, hclose⟩ := hstart
  rw [parseArrayLoop]
  simp only [skipSpaces_cons s hspace, List.head?_cons, Option.some.injEq, hclose, if_false, hpv]
  rfl

theorem parseArrayLoop_comma {k : ℕ} {n : Int32} (hstart : StartsValue text)
    (hpv : pv H text = .ok ((v, H'), ascii ',' :: left)) :
    parseArrayLoop p pv (k + 1) n T H text
      = parseArrayLoop p pv k (n + 1) (T.rawset (counterKey n) v rfl) H' left := by
  obtain ⟨c, s, rfl, hspace, hclose⟩ := hstart
  rw [parseArrayLoop]
  simp only [skipSpaces_cons s hspace, List.head?_cons, Option.some.injEq, hclose, if_false, hpv]
  rfl

/-- A member of an object is read, with what follows its value. -/
theorem parseObjectLoop_close {k : ℕ} (key : List UInt8) (hstart : StartsValue text)
    (hpv : pv H text = .ok ((v, H'), ascii '\x7d' :: left)) :
    parseObjectLoop p pv (k + 1) T H (encodeString key ++ ascii ':' :: text)
      = .ok ((T.rawset (.string key) v rfl, H'), left) := by
  have hquote : isJsonSpace (ascii '"') = false := by decide
  have hcolon : isJsonSpace (ascii ':') = false := by decide
  have hlast : isJsonSpace (ascii '\x7d') = false := by decide
  have hbrace : ascii '"' ≠ ascii '\x7d' := by decide
  have hparse := parseString_encodeString p key (ascii ':' :: text)
  have hspaces := hstart.skipSpaces_append []
  rw [List.append_nil] at hspaces
  rw [parseObjectLoop]
  simp only [encodeString, List.cons_append] at hparse ⊢
  simp only [skipSpaces_cons _ hquote, hbrace, if_false, ne_eq, not_true_eq_false, hparse, ok_bind,
    skipSpaces_cons _ hcolon, hspaces, hpv, skipSpaces_cons _ hlast, if_true]

theorem parseObjectLoop_comma {k : ℕ} (key : List UInt8) (hstart : StartsValue text)
    (hpv : pv H text = .ok ((v, H'), ascii ',' :: left)) :
    parseObjectLoop p pv (k + 1) T H (encodeString key ++ ascii ':' :: text)
      = parseObjectLoop p pv k (T.rawset (.string key) v rfl) H' left := by
  have hquote : isJsonSpace (ascii '"') = false := by decide
  have hcolon : isJsonSpace (ascii ':') = false := by decide
  have hlast : isJsonSpace (ascii ',') = false := by decide
  have hbrace : ascii '"' ≠ ascii '\x7d' := by decide
  have hcomma : ascii ',' ≠ ascii '\x7d' := by decide
  have hparse := parseString_encodeString p key (ascii ':' :: text)
  have hspaces := hstart.skipSpaces_append []
  rw [List.append_nil] at hspaces
  rw [parseObjectLoop]
  simp only [encodeString, List.cons_append] at hparse ⊢
  simp only [skipSpaces_cons _ hquote, hbrace, if_false, ne_eq, not_true_eq_false, hparse, ok_bind,
    skipSpaces_cons _ hcolon, hspaces, hpv, skipSpaces_cons _ hlast, hcomma, if_true]

end Rounds

section Loops

variable {H : LuaHeap} {n len : ℕ} {enc : LuaValue → Except JsonError (List UInt8)} {pv : ValueParser}
  {S : LuaTable}

/-- **The loop of `parse_array` reads the elements of a dense array.** -/
theorem parseArrayLoop_encodeElements (p : JsonInput) (hback : ReadsBack H n len enc pv)
    (hjson : ∀ e ∈ S.entries, IsJson H n e.2) {N : ℕ} (hdense : DenseKeys S.entries N) (k : ℕ) :
    ∀ (i fuel : ℕ) (T : LuaTable) (H' : LuaHeap) (t more rest : List UInt8),
      i + k + 1 ≤ N → i + k + 1 < 2 ^ 31 → k < fuel →
      SoFar H H' n S.entries (fun key => ∃ j < i, key = intKey (j + 1 : ℕ)) T →
      enc (rawGetI S.entries (i + 1 : ℕ)) = .ok t →
      encodeElements enc S.entries (i + 1) k = .ok more → t.length + more.length < len →
      ∃ T' E, parseArrayLoop p pv fuel (Int32.ofNat (i + 1)) T H' (t ++ (more ++ ascii ']' :: rest))
          = .ok ((T', H' ++ E), rest) ∧ T'.metatable = T.metatable ∧
        SoFar H (H' ++ E) n S.entries (fun key => ∃ j < i + k + 1, key = intKey (j + 1 : ℕ)) T' := by
  induction k with
  | zero =>
      intro i fuel T H' t more rest hN h31 hfuel hsofar ht hmore hlen
      obtain ⟨fuel, rfl⟩ := Nat.exists_eq_succ_of_ne_zero (by omega : fuel ≠ 0)
      cases hmore
      obtain ⟨v, hv⟩ := hdense.exists_value (show i < N by omega)
      rw [S.rawGetI_eq (by omega) hv] at ht
      obtain ⟨hstart, hread⟩ := hback v t (hjson _ hv) ht (by omega)
      obtain ⟨v', E, hpv, hsame⟩ := hread H' (ascii ']' :: rest) (by
        rintro c s ⟨⟩
        decide)
      exact ⟨_, E, parseArrayLoop_close (hstart.append _) hpv, rfl,
        hsofar.rawset_element hjson (by omega) hv hsame⟩
  | succ k ih =>
      intro i fuel T H' t more rest hN h31 hfuel hsofar ht hmore hlen
      obtain ⟨fuel, rfl⟩ := Nat.exists_eq_succ_of_ne_zero (by omega : fuel ≠ 0)
      obtain ⟨t1, more1, ht1, hmore1, rfl⟩ := encodeElements_succ hmore
      obtain ⟨v, hv⟩ := hdense.exists_value (show i < N by omega)
      rw [S.rawGetI_eq (by omega) hv] at ht
      obtain ⟨hstart, hread⟩ := hback v t (hjson _ hv) ht (by omega)
      rw [if_pos (Nat.succ_pos i)]
      obtain ⟨v', E, hpv, hsame⟩ :=
        hread H' (ascii ',' :: (t1 ++ (more1 ++ ascii ']' :: rest))) (by
          rintro c s ⟨⟩
          decide)
      obtain ⟨T', E', hloop, hmeta, hfinal⟩ := ih (i + 1) fuel _ (H' ++ E) t1 more1 rest
        (by omega) (by omega) (by omega)
        (hsofar.rawset_element hjson (by omega) hv hsame) ht1 hmore1
        (by simp only [List.length_append] at hlen; omega)
      refine ⟨T', E ++ E', ?_, hmeta, ?_⟩
      · simp only [List.cons_append, List.nil_append, List.append_assoc] at hpv hloop ⊢
        rw [parseArrayLoop_comma (hstart.append _) hpv,
          show Int32.ofNat (i + 1) + 1 = Int32.ofNat (i + 1 + 1) from (Int32.ofNat_add _ _).symm]
        exact hloop
      · rw [← List.append_assoc]
        rwa [show i + (k + 1) + 1 = i + 1 + k + 1 by omega]

/-- The text of the members after the first one starts with a comma. -/
theorem encodeMembers_cons {es : List (LuaValue × LuaValue)} {key v : LuaValue} {first : Bool}
    {text : List UInt8} (hkey : ∃ s, key = .string s)
    (h : encodeMembers enc ((key, v) :: es) first = .ok text) :
    ∃ s t more, key = .string s ∧ enc v = .ok t ∧ encodeMembers enc es false = .ok more ∧
      text = (if first then [] else [ascii ',']) ++ encodeString s ++ [ascii ':'] ++ t ++ more := by
  obtain ⟨s, rfl⟩ := hkey
  rw [encodeMembers_step] at h
  obtain ⟨t, ht, h⟩ := bind_eq_ok h
  obtain ⟨more, hmore, h⟩ := bind_eq_ok h
  cases h
  exact ⟨s, t, more, rfl, ht, hmore, rfl⟩

/-- **The loop of `parse_object` reads the members of an object.** -/
theorem parseObjectLoop_encodeMembers (p : JsonInput) (hback : ReadsBack H n len enc pv)
    (hjson : ∀ e ∈ S.entries, IsJson H n e.2) (hkeys : ∀ e ∈ S.entries, ∃ s, e.1 = .string s)
    (es : List (LuaValue × LuaValue)) :
    ∀ (done : List (LuaValue × LuaValue)) (e : LuaValue × LuaValue) (fuel : ℕ) (T : LuaTable)
      (H' : LuaHeap) (text rest : List UInt8),
      S.entries = done ++ e :: es → es.length < fuel →
      SoFar H H' n S.entries (fun key => key ∈ done.map Prod.fst) T →
      encodeMembers enc (e :: es) true = .ok text → text.length < len →
      ∃ T' E, parseObjectLoop p pv fuel T H' (text ++ ascii '\x7d' :: rest)
          = .ok ((T', H' ++ E), rest) ∧ T'.metatable = T.metatable ∧
        SoFar H (H' ++ E) n S.entries (fun key => key ∈ S.entries.map Prod.fst) T' := by
  induction es with
  | nil =>
      rintro done ⟨key, v⟩ fuel T H' text rest hS hfuel hsofar htext hlen
      obtain ⟨fuel, rfl⟩ := Nat.exists_eq_succ_of_ne_zero (by omega : fuel ≠ 0)
      have hmem : (key, v) ∈ S.entries := by simp [hS]
      obtain ⟨s, t, more, rfl, ht, hmore, rfl⟩ := encodeMembers_cons (hkeys _ hmem) htext
      cases hmore
      simp only [List.length_append] at hlen
      obtain ⟨hstart, hread⟩ := hback v t (hjson _ hmem) ht (by omega)
      obtain ⟨v', E, hpv, hsame⟩ := hread H' (ascii '\x7d' :: rest) (by
        rintro c s ⟨⟩
        decide)
      refine ⟨T.rawset (.string s) v' rfl, E, ?_, rfl, ?_⟩
      · simp only [if_true, List.nil_append, List.append_assoc, List.cons_append]
        exact parseObjectLoop_close s (hstart.append _) hpv
      · have hstep := hsofar.rawset rfl rfl hjson hmem hsame
        refine ⟨fun x => (hstep.1 x).trans ?_, hstep.2⟩
        simp [hS]
  | cons e' es ih =>
      rintro done ⟨key, v⟩ fuel T H' text rest hS hfuel hsofar htext hlen
      obtain ⟨fuel, rfl⟩ := Nat.exists_eq_succ_of_ne_zero (by omega : fuel ≠ 0)
      have hmem : (key, v) ∈ S.entries := by simp [hS]
      have hmem' : e' ∈ S.entries := by simp [hS]
      obtain ⟨s, t, more, rfl, ht, hmore, rfl⟩ := encodeMembers_cons (hkeys _ hmem) htext
      simp only [List.length_append] at hlen
      obtain ⟨hstart, hread⟩ := hback v t (hjson _ hmem) ht (by omega)
      -- what follows is the text of the other members, after its comma
      obtain ⟨text', hmore', rfl⟩ : ∃ text', encodeMembers enc (e' :: es) true = .ok text' ∧
          more = ascii ',' :: text' := by
        obtain ⟨s', t', more', hkey', ht', hmore', rfl⟩ := encodeMembers_cons (hkeys _ hmem') hmore
        obtain ⟨key', w⟩ := e'
        simp only at hkey' ht'
        subst hkey'
        refine ⟨encodeString s' ++ [ascii ':'] ++ t' ++ more', ?_, by simp⟩
        rw [encodeMembers_step, ht', hmore']
        simp
      obtain ⟨v', E, hpv, hsame⟩ := hread H' (ascii ',' :: (text' ++ ascii '\x7d' :: rest)) (by
        rintro c s ⟨⟩
        decide)
      have hstep := hsofar.rawset rfl rfl hjson hmem hsame
      obtain ⟨T', E', hloop, hmeta, hfinal⟩ := ih (done ++ [(.string s, v)]) e' fuel
        (T.rawset (.string s) v' rfl) (H' ++ E) text' rest (by simp [hS])
        (by simp only [List.length_cons] at hfuel; omega)
        ⟨fun x => (hstep.1 x).trans (by simp), hstep.2⟩ hmore'
        (by simp only [List.length_cons] at hlen; omega)
      refine ⟨T', E ++ E', ?_, hmeta, ?_⟩
      · simp only [if_true, List.nil_append, List.append_assoc, List.cons_append] at hloop ⊢
        rw [parseObjectLoop_comma s (hstart.append _) hpv]
        exact hloop
      · rwa [← List.append_assoc]

end Loops

end LuaFan
