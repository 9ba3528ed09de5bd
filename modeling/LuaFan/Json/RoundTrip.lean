/-
# Encoding and decoding again

* `parse_encode`: decoding the text of a value gives a value that corresponds to it;
* `encode_ok`: encoding succeeds, as finitely nested tables have no cycle;
* `json_round_trip`: **the decoded value is structurally equal exactly when no
  array has `2 ^ 31 - 1` elements or more**, where the `int` counters of
  `encode_table` wrap around.
-/
import LuaFan.Json.Reading

namespace LuaFan

open Fp

/-! ## The round trip -/

/-- Structural equality: nothing is lost and every tag is kept. -/
def StructEq (H H' : LuaHeap) (n : ℕ) (v v' : LuaValue) : Prop :=
  SameJson (fun _ _ => True) H H' n v v'

/-- No array within depth `n` has `2 ^ 31 - 1` elements or more. -/
def SmallArrays (H : LuaHeap) : ℕ → LuaValue → Prop
  | n + 1, .table ref =>
      ((H.table ref).metatable = some .jsonArray → (H.table ref).entries.length < 2 ^ 31 - 1) ∧
        ∀ e ∈ (H.table ref).entries, SmallArrays H n e.2
  | _, _ => True

/-- Encoding succeeds, and decoding gives a structurally equal value. -/
def RoundTrips (st : JsonState) (H : LuaHeap) (n : ℕ) (v : LuaValue) : Prop :=
  ∃ text v' H', jsonEncode st H v = .ok text ∧ jsonDecode st (.string text) = .ok (v', H') ∧
    StructEq H H' n v v'

/-! ## Values -/

theorem nextWord_append {word rest : List UInt8} (hword : ∀ c ∈ word, isDelim c = false)
    (hrest : Delimited rest) : nextWord (word ++ rest) = word := by
  unfold nextWord
  rw [List.takeWhile_append_of_pos (fun c hc => by simp [hword c hc])]
  cases rest with
  | nil => simp
  | cons c s => simp [hrest c s rfl]

theorem parseLiteral_append (p : JsonInput) (word : String) {rest : List UInt8}
    (hword : ∀ c ∈ bytesOf word, isDelim c = false) (hrest : Delimited rest) :
    parseLiteral p (bytesOf word ++ rest)
      = if bytesOf word = bytesOf "true" then .ok (.boolean true, rest)
        else if bytesOf word = bytesOf "false" then .ok (.boolean false, rest)
        else if bytesOf word = bytesOf "null" then
          .ok (if p.st.nullEnabled then nullSentinel else .nil, rest)
        else decodeErrorAt p (bytesOf word ++ rest)
          (bytesOf "invalid literal '" ++ cString ((bytesOf word).take 31) ++ bytesOf "'") := by
  unfold parseLiteral
  simp only [nextWord_append hword hrest, List.drop_left]

/-- The text of a tagged table. -/
theorem encodeTable_eq {T : LuaTable} (h : IsArray T ∨ IsObject T) (st : JsonState)
    (enc : LuaValue → Except JsonError (List UInt8)) :
    encodeTable st enc T = if T.metatable = some .jsonArray then encodeArray enc T
      else (do
        let text ← encodeMembers enc T.entries true
        .ok ([ascii '\x7b'] ++ text ++ [ascii '\x7d'])) := by
  rw [encodeTable_def]
  rcases h with harr | hobj
  · rw [if_pos harr.1]
    simp [harr.1]
  · have hnone : rawGetI T.entries 1 = .nil := by
      by_contra hne
      obtain ⟨-, hmem⟩ := T.exists_of_rawGetI (i := 1) (by exact_mod_cast hne)
      obtain ⟨e, he, hkey⟩ := List.mem_map.mp hmem
      obtain ⟨s, hs⟩ := hobj.2 e he
      rw [hs] at hkey
      cases hkey
    simp [hobj.1, hnone]

section Values

variable (st : JsonState) (H : LuaHeap) (n : ℕ) (p : JsonInput) {depth pdepth : ℕ}
  {stack : List ℕ} {text : List UInt8}

theorem parseValue_literal (word : String) (c : Char) (cs : List Char) {v : LuaValue}
    (hword : bytesOf word = ascii c :: cs.map ascii) (hc : c = 't' ∨ c = 'f' ∨ c = 'n')
    (hparse : ∀ rest, Delimited rest → parseLiteral p (bytesOf word ++ rest) = .ok (v, rest))
    (hsame : ∀ H', SameJson keptKey H H' n v v) :
    ReadsAs H n (parseValue p (pdepth + 1)) (bytesOf word) v := by
  constructor
  · refine ⟨_, _, hword, ?_⟩
    rcases hc with rfl | rfl | rfl <;> decide
  · intro H' rest hrest
    refine ⟨v, [], ?_, hsame _⟩
    have hlit := hparse rest hrest
    rw [hword, List.cons_append] at hlit ⊢
    rw [parseValue]
    have hquote : ascii c ≠ ascii '"' := by rcases hc with rfl | rfl | rfl <;> decide
    have hnum : ¬(isDigit (ascii c) = true ∨ ascii c = ascii '-') := by
      rcases hc with rfl | rfl | rfl <;> decide
    have hlet : ascii c = ascii 't' ∨ ascii c = ascii 'f' ∨ ascii c = ascii 'n' := by
      rcases hc with rfl | rfl | rfl <;> simp
    simp only [hquote, hnum, hlet, if_false, if_true, hlit, ok_bind, List.append_nil]

theorem parse_encode_null (hnull : st.nullEnabled = true) (hp : p.st = st)
    (hlen : text.length < pdepth)
    (henc : encodeValue st H depth stack nullSentinel = .ok text) :
    ReadsAs H n (parseValue p pdepth) text nullSentinel := by
  obtain ⟨pdepth, rfl⟩ := Nat.exists_eq_succ_of_ne_zero (by omega : pdepth ≠ 0)
  have htext : text = bytesOf "null" := by
    unfold encodeValue at henc
    simpa using henc.symm
  subst htext
  refine parseValue_literal H n p "null" 'n' ['u', 'l', 'l'] rfl (by simp) ?_ ?_
  · intro rest hrest
    rw [parseLiteral_append p "null" (by decide +kernel) hrest, hp, hnull]
    rfl
  · intro H'
    cases n <;> rfl

theorem parse_encode_boolean {b : Bool} (hlen : text.length < pdepth)
    (henc : encodeValue st H depth stack (.boolean b) = .ok text) :
    ReadsAs H n (parseValue p pdepth) text (.boolean b) := by
  obtain ⟨pdepth, rfl⟩ := Nat.exists_eq_succ_of_ne_zero (by omega : pdepth ≠ 0)
  have htext : text = bytesOf (if b then "true" else "false") := by
    unfold encodeValue at henc
    simpa [nullSentinel] using henc.symm
  subst htext
  have hsame : ∀ H', SameJson keptKey H H' n (.boolean b) (.boolean b) := by
    intro H'
    cases n <;> rfl
  cases b
  · refine parseValue_literal H n p "false" 'f' ['a', 'l', 's', 'e'] rfl (by simp)
      ?_ hsame
    intro rest hrest
    rw [parseLiteral_append p "false" (by decide +kernel) hrest]
    rfl
  · refine parseValue_literal H n p "true" 't' ['r', 'u', 'e'] rfl (by simp) ?_ hsame
    intro rest hrest
    rw [parseLiteral_append p "true" (by decide +kernel) hrest]
    rfl

theorem parse_encode_string {s : List UInt8} (hlen : text.length < pdepth)
    (henc : encodeValue st H depth stack (.string s) = .ok text) :
    ReadsAs H n (parseValue p pdepth) text (.string s) := by
  obtain ⟨pdepth, rfl⟩ := Nat.exists_eq_succ_of_ne_zero (by omega : pdepth ≠ 0)
  have htext : text = encodeString s := by
    unfold encodeValue at henc
    simpa [nullSentinel] using henc.symm
  subst htext
  constructor
  · exact ⟨_, _, rfl, by decide, by decide⟩
  · intro H' rest hrest
    refine ⟨.string s, [], ?_, by cases n <;> rfl⟩
    have hstr := parseString_encodeString p s rest
    simp only [encodeString, List.cons_append] at hstr ⊢
    rw [parseValue]
    simp only [if_true, hstr, ok_bind, List.append_nil]

/-- A table that is encoded is not one of those around it. -/
theorem encodeValue_table {ref : ℕ} (henc : encodeValue st H depth stack (.table ref) = .ok text) :
    ∃ d, depth = d + 1 ∧ ref ∉ stack ∧
      encodeTable st (encodeValue st H d (ref :: stack)) (H.table ref) = .ok text := by
  unfold encodeValue at henc
  rw [if_neg (by simp [nullSentinel])] at henc
  cases depth with
  | zero => cases henc
  | succ d =>
      simp only at henc
      split at henc
      · cases henc
      · exact ⟨d, rfl, by assumption, henc⟩

/-- The table that was read is put on the heap. -/
theorem SoFar.finish {H' : LuaHeap} {ref : ℕ} {T : LuaTable} {keys : LuaValue → Prop}
    (h : SoFar H H' n (H.table ref).entries keys T)
    (hjson : ∀ e ∈ (H.table ref).entries, IsJson H n e.2)
    (hmeta : T.metatable = (H.table ref).metatable)
    (hkeys : ∀ key, keys key ↔
      key ∈ (H.table ref).entries.map Prod.fst ∧ keptKey (H.table ref) key) :
    SameJson keptKey H (H' ++ [T]) (n + 1) (.table ref) (.table H'.length) := by
  have hT : LuaHeap.table (H' ++ [T]) H'.length = T := by simp [LuaHeap.table]
  rw [SameJson, hT]
  refine ⟨hmeta, fun key => (h.1 key).trans (hkeys key), ?_⟩
  intro key v v' hv hv'
  exact (h.2 key v v' hv hv').append [T] (hjson _ hv)

theorem SoFar.new {H' : LuaHeap} (entries : List (LuaValue × LuaValue)) {keys : LuaValue → Prop}
    (m : Option Metatable) (hkeys : ∀ key, ¬keys key) :
    SoFar H H' n entries keys (LuaTable.new m) := by
  constructor
  · intro key
    simp [hkeys key]
  · intro key v v' _ hv'
    simp at hv'

theorem length_encodeElements {enc : LuaValue → Except JsonError (List UInt8)}
    {entries : List (LuaValue × LuaValue)} {i k : ℕ} {more : List UInt8}
    (h : encodeElements enc entries (i + 1) k = .ok more) : k ≤ more.length := by
  induction k generalizing i more with
  | zero => omega
  | succ k ih =>
      obtain ⟨t, more', -, hmore', rfl⟩ := encodeElements_succ h
      have := ih hmore'
      simp only [Nat.succ_pos, if_true, List.length_append, List.length_singleton]
      omega

theorem length_encodeMembers {enc : LuaValue → Except JsonError (List UInt8)}
    {es : List (LuaValue × LuaValue)} {first : Bool} {more : List UInt8}
    (hkeys : ∀ e ∈ es, ∃ s, e.1 = .string s) (h : encodeMembers enc es first = .ok more) :
    es.length ≤ more.length := by
  induction es generalizing first more with
  | nil => simp
  | cons e es ih =>
      obtain ⟨s, t, more', -, -, hmore', rfl⟩ := encodeMembers_cons (hkeys e (by simp)) h
      have := ih (fun e he => hkeys e (by simp [he])) hmore'
      simp only [List.length_append, List.length_cons]
      omega

/-- The keys of an array that are written are the first ones. -/
theorem kept_array_iff {T : LuaTable} (h : IsArray T) (key : LuaValue) :
    (∃ j < writtenCount T.entries.length, key = intKey (j + 1 : ℕ)) ↔
      key ∈ T.entries.map Prod.fst ∧ keptKey T key := by
  obtain ⟨htag, N, hdense⟩ := h
  have hN := hdense.length_eq T.nodup
  constructor
  · rintro ⟨j, hj, rfl⟩
    have hle := writtenCount_le T.entries.length
    exact ⟨(hdense.2 _).mpr ⟨j, by omega, rfl⟩, fun _ => ⟨j, hj, rfl⟩⟩
  · rintro ⟨-, hkept⟩
    exact hkept htag

theorem parse_encode_array {ref : ℕ} (harr : IsArray (H.table ref))
    (hjson : ∀ e ∈ (H.table ref).entries, IsJson H n e.2)
    {enc : LuaValue → Except JsonError (List UInt8)}
    (hback : ReadsBack H n pdepth enc (parseValue p pdepth)) (hlen : text.length < pdepth + 1)
    (henc : encodeArray enc (H.table ref) = .ok text) :
    ReadsAs H (n + 1) (parseValue p (pdepth + 1)) text (.table ref) := by
  rw [harr.encodeArray_eq] at henc
  obtain ⟨inner, hinner, henc⟩ := bind_eq_ok henc
  split at henc
  · cases henc
  cases henc
  refine ⟨⟨_, _, rfl, by decide, by decide⟩, ?_⟩
  intro H' rest hrest
  -- reading the elements leaves what follows the closing bracket
  have hread : ∃ T E, parseArrayLoop p (parseValue p pdepth) ((inner ++ ascii ']' :: rest).length + 1)
      1 (.new (some .jsonArray)) H' (inner ++ ascii ']' :: rest) = .ok ((T, H' ++ E), rest) ∧
      T.metatable = some .jsonArray ∧ SoFar H (H' ++ E) n (H.table ref).entries
        (fun key => ∃ j < writtenCount (H.table ref).entries.length, key = intKey (j + 1 : ℕ)) T := by
    cases hcount : writtenCount (H.table ref).entries.length with
    | zero =>
        rw [hcount] at hinner
        cases hinner
        refine ⟨.new (some .jsonArray), [], ?_, rfl, SoFar.new H n _ _ (by simp)⟩
        rw [List.nil_append, parseArrayLoop, skipSpaces_cons _ (by decide)]
        simp
    | succ k =>
        rw [hcount] at hinner
        obtain ⟨t, more, ht, hmore, rfl⟩ := encodeElements_succ hinner
        obtain ⟨htag, N, hdense⟩ := harr
        have hN := hdense.length_eq (H.table ref).nodup
        have hle := writtenCount_le (H.table ref).entries.length
        have hlt := writtenCount_lt (H.table ref).entries.length
        have hk := length_encodeElements hmore
        simp only [lt_irrefl, if_false, List.nil_append, List.append_assoc, List.length_append,
          List.length_cons, List.length_nil] at hlen ⊢
        obtain ⟨T, E, hloop, hmeta, hsofar⟩ := parseArrayLoop_encodeElements p hback hjson hdense k 0
          (t.length + (more.length + (rest.length + 1)) + 1) (.new (some .jsonArray)) H' t more rest (by omega) (by omega) (by omega)
          (SoFar.new H n _ _ (by simp)) ht hmore (by omega)
        refine ⟨T, E, hloop, hmeta, ?_⟩
        rwa [Nat.zero_add] at hsofar
  obtain ⟨T, E, hloop, hmeta, hsofar⟩ := hread
  refine ⟨.table (H' ++ E).length, E ++ [T], ?_, ?_⟩
  · have hnot : ascii '[' ≠ ascii '"' ∧ ¬(isDigit (ascii '[') = true ∨ ascii '[' = ascii '-') ∧
        ¬(ascii '[' = ascii 't' ∨ ascii '[' = ascii 'f' ∨ ascii '[' = ascii 'n') := by decide
    simp only [List.cons_append, List.nil_append, List.append_assoc]
    rw [parseValue]
    simp only [hnot.1, hnot.2.1, hnot.2.2, if_false, if_true, hloop, ok_bind]
    rw [List.append_assoc]
  · rw [← List.append_assoc]
    exact SoFar.finish H n hsofar hjson (hmeta.trans harr.1.symm) (kept_array_iff harr)

theorem parse_encode_object {ref : ℕ} (hobj : IsObject (H.table ref))
    (hjson : ∀ e ∈ (H.table ref).entries, IsJson H n e.2)
    {enc : LuaValue → Except JsonError (List UInt8)}
    (hback : ReadsBack H n pdepth enc (parseValue p pdepth)) {inner : List UInt8}
    (hlen : inner.length < pdepth)
    (hinner : encodeMembers enc (H.table ref).entries true = .ok inner) :
    ReadsAs H (n + 1) (parseValue p (pdepth + 1)) ([ascii '\x7b'] ++ inner ++ [ascii '\x7d'])
      (.table ref) := by
  refine ⟨⟨_, _, rfl, by decide, by decide⟩, ?_⟩
  intro H' rest hrest
  have hread : ∃ T E, parseObjectLoop p (parseValue p pdepth)
      ((inner ++ ascii '\x7d' :: rest).length + 1) (.new (some .jsonObject)) H'
      (inner ++ ascii '\x7d' :: rest) = .ok ((T, H' ++ E), rest) ∧
      T.metatable = some .jsonObject ∧ SoFar H (H' ++ E) n (H.table ref).entries
        (fun key => key ∈ (H.table ref).entries.map Prod.fst) T := by
    cases hes : (H.table ref).entries with
    | nil =>
        rw [hes] at hinner
        cases hinner
        refine ⟨.new (some .jsonObject), [], ?_, rfl, SoFar.new H n _ _ (by simp)⟩
        rw [List.nil_append, parseObjectLoop, skipSpaces_cons _ (by decide)]
        simp
    | cons e es =>
        have hcount := length_encodeMembers hobj.2 hinner
        rw [hes] at hinner
        rw [← hes]
        refine parseObjectLoop_encodeMembers p hback hjson hobj.2 es [] e _ _ H' inner rest hes ?_
          (SoFar.new H n _ _ (by simp)) hinner hlen
        rw [hes, List.length_cons] at hcount
        simp only [List.length_append, List.length_cons]
        omega
  obtain ⟨T, E, hloop, hmeta, hsofar⟩ := hread
  refine ⟨.table (H' ++ E).length, E ++ [T], ?_, ?_⟩
  · have hnot : ascii '\x7b' ≠ ascii '"' ∧
        ¬(isDigit (ascii '\x7b') = true ∨ ascii '\x7b' = ascii '-') ∧
        ¬(ascii '\x7b' = ascii 't' ∨ ascii '\x7b' = ascii 'f' ∨ ascii '\x7b' = ascii 'n') ∧
        ascii '\x7b' ≠ ascii '[' := by decide
    simp only [List.cons_append, List.nil_append, List.append_assoc]
    rw [parseValue]
    simp only [hnot.1, hnot.2.1, hnot.2.2.1, hnot.2.2.2, if_false, if_true, hloop, ok_bind]
    rw [List.append_assoc]
  · rw [← List.append_assoc]
    refine SoFar.finish H n hsofar hjson (hmeta.trans hobj.1.symm) ?_
    intro key
    refine ⟨fun h => ⟨h, ?_⟩, fun h => h.1⟩
    intro harr
    rw [hobj.1] at harr
    cases harr

theorem parse_encode_table {ref : ℕ} (htag : IsArray (H.table ref) ∨ IsObject (H.table ref))
    (hjson : ∀ e ∈ (H.table ref).entries, IsJson H n e.2)
    {enc : LuaValue → Except JsonError (List UInt8)}
    (hback : ReadsBack H n pdepth enc (parseValue p pdepth)) (hlen : text.length < pdepth + 1)
    (henc : encodeTable st enc (H.table ref) = .ok text) :
    ReadsAs H (n + 1) (parseValue p (pdepth + 1)) text (.table ref) := by
  rw [encodeTable_eq htag] at henc
  rcases htag with harr | hobj
  · rw [if_pos harr.1] at henc
    exact parse_encode_array H n p harr hjson hback hlen henc
  · rw [if_neg (by simp [hobj.1])] at henc
    obtain ⟨inner, hinner, henc⟩ := bind_eq_ok henc
    cases henc
    simp only [List.length_append, List.length_singleton] at hlen
    exact parse_encode_object H n p hobj hjson hback (by omega) hinner

end Values

/-- **What is written for a value is read back.** -/
theorem parse_encode (st : JsonState) (hnull : st.nullEnabled = true) (H : LuaHeap) (n : ℕ) :
    ∀ (depth pdepth : ℕ) (stack : List ℕ) (p : JsonInput), p.st = st →
      ReadsBack H n pdepth (encodeValue st H depth stack) (parseValue p pdepth) := by
  induction n with
  | zero =>
      intro depth pdepth stack p hp v text hv henc hlen
      rcases hv.cases with rfl | ⟨b, rfl⟩ | ⟨s, rfl⟩ | ⟨m, ref, hm, -⟩
      · exact parse_encode_null st H 0 p hnull hp hlen henc
      · exact parse_encode_boolean st H 0 p hlen henc
      · exact parse_encode_string st H 0 p hlen henc
      · cases hm
  | succ n ih =>
      intro depth pdepth stack p hp v text hv henc hlen
      rcases hv.cases with rfl | ⟨b, rfl⟩ | ⟨s, rfl⟩ | ⟨m, ref, hm, rfl, htag, hjson⟩
      · exact parse_encode_null st H (n + 1) p hnull hp hlen henc
      · exact parse_encode_boolean st H (n + 1) p hlen henc
      · exact parse_encode_string st H (n + 1) p hlen henc
      · obtain rfl : n = m := by omega
        obtain ⟨pdepth, rfl⟩ := Nat.exists_eq_succ_of_ne_zero (by omega : pdepth ≠ 0)
        obtain ⟨depth, rfl, hstack, henc⟩ := encodeValue_table st H henc
        exact parse_encode_table st H n p htag hjson
          (ih depth pdepth (ref :: stack) p hp) hlen henc

/-- Decoding the text of a value. -/
theorem jsonDecode_encode {st : JsonState} (hnull : st.nullEnabled = true) {H : LuaHeap} {n : ℕ}
    {v : LuaValue} (hv : IsJson H n v) {text : List UInt8} (henc : jsonEncode st H v = .ok text) :
    ∃ v' H', jsonDecode st (.string text) = .ok (v', H') ∧ SameJson keptKey H H' n v v' := by
  obtain ⟨hstart, hread⟩ :=
    parse_encode st hnull H n _ (text.length + 1) [] ⟨st, text⟩ rfl v text hv henc (by omega)
  obtain ⟨v', E, hpv, hsame⟩ := hread [] [] (by
    intro c s h
    cases h)
  have hskip := hstart.skipSpaces_append []
  simp only [List.append_nil, List.nil_append] at hpv hskip hsame
  refine ⟨v', E, ?_, hsame⟩
  simp only [jsonDecode, hskip, hpv, ok_bind]
  rfl

/-! ## Encoding succeeds -/

theorem IsJson.mono {H : LuaHeap} {n m : ℕ} {v : LuaValue} (h : IsJson H n v) (hnm : n ≤ m) :
    IsJson H m v := by
  induction n generalizing m v with
  | zero =>
      rcases h.cases with rfl | ⟨b, rfl⟩ | ⟨s, rfl⟩ | ⟨k, ref, hk, -⟩
      · cases m <;> rfl
      · cases m <;> trivial
      · cases m <;> trivial
      · cases hk
  | succ n ih =>
      rcases h.cases with rfl | ⟨b, rfl⟩ | ⟨s, rfl⟩ | ⟨k, ref, hk, rfl, htag, hjson⟩
      · cases m <;> rfl
      · cases m <;> trivial
      · cases m <;> trivial
      · obtain ⟨m, rfl⟩ := Nat.exists_eq_succ_of_ne_zero (by omega : m ≠ 0)
        obtain rfl : n = k := by omega
        rw [IsJson]
        exact ⟨htag, fun e he => ih (hjson e he) (by omega)⟩

theorem SmallArrays.anti {H : LuaHeap} {n m : ℕ} {v : LuaValue} (h : SmallArrays H m v)
    (hnm : n ≤ m) : SmallArrays H n v := by
  induction n generalizing m v with
  | zero => cases v <;> trivial
  | succ n ih =>
      cases v with
      | table ref =>
          obtain ⟨m, rfl⟩ := Nat.exists_eq_succ_of_ne_zero (by omega : m ≠ 0)
          rw [SmallArrays] at h ⊢
          exact ⟨h.1, fun e he => ih (h.2 e he) (by omega)⟩
      | _ => trivial

theorem encodeElements_ok (enc : LuaValue → Except JsonError (List UInt8))
    (entries : List (LuaValue × LuaValue)) (k : ℕ) :
    ∀ i, (∀ j, i ≤ j → j < i + k → ∃ t, enc (rawGetI entries (j + 1 : ℕ)) = .ok t) →
      ∃ text, encodeElements enc entries i k = .ok text := by
  induction k with
  | zero =>
      intro i _
      exact ⟨[], rfl⟩
  | succ k ih =>
      intro i h
      obtain ⟨t, ht⟩ := h i le_rfl (by omega)
      obtain ⟨more, hmore⟩ := ih (i + 1) (fun j hj hj' => h j (by omega) (by omega))
      rw [encodeElements_step, show ((i : ℤ) + 1) = ((i + 1 : ℕ) : ℤ) by push_cast; rfl, ht, ok_bind,
        hmore, ok_bind]
      exact ⟨_, rfl⟩

theorem encodeMembers_ok {enc : LuaValue → Except JsonError (List UInt8)}
    {es : List (LuaValue × LuaValue)} (first : Bool) (hkeys : ∀ e ∈ es, ∃ s, e.1 = .string s)
    (h : ∀ e ∈ es, ∃ t, enc e.2 = .ok t) : ∃ text, encodeMembers enc es first = .ok text := by
  induction es generalizing first with
  | nil => exact ⟨[], rfl⟩
  | cons e es ih =>
      obtain ⟨key, v⟩ := e
      obtain ⟨s, hs⟩ := hkeys (key, v) (by simp)
      simp only at hs
      subst hs
      obtain ⟨t, ht⟩ := h _ (List.mem_cons_self)
      obtain ⟨more, hmore⟩ := ih false (fun e he => hkeys e (by simp [he]))
        (fun e he => h e (by simp [he]))
      rw [encodeMembers_step, ht, ok_bind, hmore, ok_bind]
      exact ⟨_, rfl⟩

theorem encodeTable_ok {T : LuaTable} (st : JsonState) (htag : IsArray T ∨ IsObject T)
    (hsmall : T.metatable = some .jsonArray → T.entries.length < 2 ^ 31 - 1)
    {enc : LuaValue → Except JsonError (List UInt8)}
    (h : ∀ e ∈ T.entries, ∃ t, enc e.2 = .ok t) : ∃ text, encodeTable st enc T = .ok text := by
  rw [encodeTable_eq htag]
  rcases htag with harr | hobj
  · have hlt := hsmall harr.1
    rw [if_pos harr.1, harr.encodeArray_eq, writtenCount_of_lt (by omega)]
    obtain ⟨htag, N, hdense⟩ := harr
    have hN := hdense.length_eq T.nodup
    obtain ⟨text, htext⟩ := encodeElements_ok enc T.entries T.entries.length 0
      (by
        intro j _ hj
        obtain ⟨v, hv⟩ := hdense.exists_value (show j < N by omega)
        rw [T.rawGetI_eq (by omega) hv]
        exact h _ hv)
    rw [htext, ok_bind, if_neg (ofNat_ne_maxValue hlt)]
    exact ⟨_, rfl⟩
  · rw [if_neg (by simp [hobj.1])]
    obtain ⟨text, htext⟩ := encodeMembers_ok true hobj.2 h
    exact ⟨_, by rw [htext, ok_bind]⟩

/-- **Finitely nested values have no cycle, and are encoded.**  The tables around a
value of depth `n` have a greater depth, so the value is none of them. -/
theorem encode_ok (st : JsonState) (H : LuaHeap) (n : ℕ) :
    ∀ (v : LuaValue) (stack : List ℕ) (depth : ℕ), IsJson H n v → SmallArrays H n v →
      (∀ s ∈ stack, ¬IsJson H n (.table s)) → stack.Nodup → (∀ s ∈ stack, s < H.length) →
      H.length + 1 ≤ depth + stack.length →
      ∃ text, encodeValue st H depth stack v = .ok text := by
  induction n using Nat.strong_induction_on with
  | _ n ih =>
      intro v stack depth hv hsmall hstack hnodup hlt hdepth
      unfold encodeValue
      rcases hv.cases with rfl | ⟨b, rfl⟩ | ⟨s, rfl⟩ | ⟨m, ref, rfl, rfl, -, -⟩
      · exact ⟨bytesOf "null", rfl⟩
      · exact ⟨_, by rw [if_neg (by simp [nullSentinel])]⟩
      · exact ⟨_, by rw [if_neg (by simp [nullSentinel])]⟩
      · rw [if_neg (by simp [nullSentinel])]
        have hnot : ref ∉ stack := fun hmem => hstack ref hmem hv
        have hcard : stack.length ≤ H.length := by
          have hsub : stack ⊆ List.range H.length := fun s hs => List.mem_range.mpr (hlt s hs)
          simpa using (hnodup.subperm hsub).length_le
        obtain ⟨depth, rfl⟩ := Nat.exists_eq_succ_of_ne_zero (by omega : depth ≠ 0)
        simp only [if_neg hnot]
        -- the least depth of the table: its values are less deep, and it is not
        have hex : ∃ k, IsJson H k (.table ref) := ⟨_, hv⟩
        classical
        have hmin := Nat.find_spec hex
        have hle : Nat.find hex ≤ m + 1 := Nat.find_le hv
        rcases hmin.cases with h | ⟨b, h⟩ | ⟨s, h⟩ | ⟨k, ref', hk, h, htag, hjson⟩
        · cases h
        · cases h
        · cases h
        · cases h
          have hsmall' := hsmall.anti (n := k + 1) (by omega)
          rw [SmallArrays] at hsmall'
          have hself : ¬IsJson H k (.table ref) := Nat.find_min hex (by omega)
          apply encodeTable_ok st htag hsmall'.1
          intro e he
          refine ih k (by omega) e.2 (ref :: stack) depth (hjson e he) (hsmall'.2 e he) ?_
            (List.nodup_cons.mpr ⟨hnot, hnodup⟩) ?_ ?_
          · intro s hs
            rcases List.mem_cons.mp hs with rfl | hs
            · exact hself
            · exact fun h => hstack s hs (h.mono (by omega))
          · intro s hs
            rcases List.mem_cons.mp hs with rfl | hs
            · obtain ⟨tag, htag'⟩ := IsJson.tagged htag
              exact LuaHeap.lt_length_of_metatable htag'
            · exact hlt s hs
          · simp only [List.length_cons]
            omega

/-! ## What a round trip needs -/

theorem of_encodeElements_ok {enc : LuaValue → Except JsonError (List UInt8)}
    {entries : List (LuaValue × LuaValue)} {k : ℕ} :
    ∀ {i : ℕ} {text : List UInt8}, encodeElements enc entries i k = .ok text →
      ∀ j, i ≤ j → j < i + k → ∃ t, enc (rawGetI entries (j + 1 : ℕ)) = .ok t := by
  induction k with
  | zero =>
      intro i text _ j hj hj'
      omega
  | succ k ih =>
      intro i text h j hj hj'
      obtain ⟨t, more, ht, hmore, -⟩ := encodeElements_succ h
      rcases Nat.eq_or_lt_of_le hj with rfl | hlt
      · exact ⟨t, ht⟩
      · exact ih hmore j hlt (by omega)

theorem of_encodeMembers_ok {enc : LuaValue → Except JsonError (List UInt8)}
    {es : List (LuaValue × LuaValue)} {first : Bool} {text : List UInt8}
    (hkeys : ∀ e ∈ es, ∃ s, e.1 = .string s) (h : encodeMembers enc es first = .ok text) :
    ∀ e ∈ es, ∃ t, enc e.2 = .ok t := by
  induction es generalizing first text with
  | nil => simp
  | cons e es ih =>
      obtain ⟨s, t, more, -, ht, hmore, -⟩ := encodeMembers_cons (hkeys e (by simp)) h
      intro e' he'
      rcases List.mem_cons.mp he' with rfl | he'
      · exact ⟨t, ht⟩
      · exact ih (fun e he => hkeys e (by simp [he])) hmore e' he'

/-- An array all of whose keys are written is small, and its values are encoded. -/
theorem IsArray.small_of_ok {T : LuaTable} (h : IsArray T)
    {enc : LuaValue → Except JsonError (List UInt8)} {text : List UInt8}
    (henc : encodeArray enc T = .ok text)
    (hkept : ∀ key ∈ T.entries.map Prod.fst, keptKey T key) :
    T.entries.length < 2 ^ 31 - 1 ∧ ∀ e ∈ T.entries, ∃ t, enc e.2 = .ok t := by
  rw [h.encodeArray_eq] at henc
  obtain ⟨inner, hinner, henc⟩ := bind_eq_ok henc
  split at henc
  · cases henc
  rename_i hmax
  obtain ⟨htag, N, hdense⟩ := h
  have hN := hdense.length_eq T.nodup
  have hlt := writtenCount_lt T.entries.length
  -- the last key is written, so as many elements are written as there are
  have hall : T.entries.length ≤ writtenCount T.entries.length := by
    by_contra hshort
    obtain ⟨i, hi, hkey⟩ := hkept (intKey (N - 1 + 1 : ℕ))
      ((hdense.2 _).mpr ⟨N - 1, by omega, rfl⟩) htag
    have := intKey_inj (by have := hdense.1; omega) (by omega) hkey
    omega
  constructor
  · have hne : T.entries.length ≠ 2 ^ 31 - 1 := by
      intro heq
      apply hmax
      rw [heq]
      rfl
    omega
  · intro e he
    obtain ⟨i, hi, hkey⟩ := (hdense.2 e.1).mp (List.mem_map_of_mem he)
    obtain ⟨t, ht⟩ := of_encodeElements_ok hinner i (Nat.zero_le i) (by omega)
    rw [T.rawGetI_eq (by have := hdense.1; omega) (by rw [← hkey]; exact he)] at ht
    exact ⟨t, ht⟩

/-- What comes back whole had no large array. -/
theorem small_of_same (st : JsonState) (H H' : LuaHeap) (n : ℕ) :
    ∀ (v v' : LuaValue) (stack : List ℕ) (depth : ℕ) (text : List UInt8), IsJson H n v →
      encodeValue st H depth stack v = .ok text → SameJson keptKey H H' n v v' →
      StructEq H H' n v v' → SmallArrays H n v := by
  induction n with
  | zero =>
      intro v v' stack depth text hv henc hsame heq
      cases v <;> trivial
  | succ n ih =>
      intro v v' stack depth text hv henc hsame heq
      rcases hv.cases with rfl | ⟨b, rfl⟩ | ⟨s, rfl⟩ | ⟨m, ref, hm, rfl, htag, hjson⟩
      · trivial
      · trivial
      · trivial
      · obtain rfl : n = m := by omega
        obtain ⟨depth, rfl, -, henc⟩ := encodeValue_table st H henc
        obtain ⟨ref', rfl⟩ : ∃ ref', v' = .table ref' := by
          cases v' with
          | table ref' => exact ⟨ref', rfl⟩
          | _ => cases heq
        rw [StructEq, SameJson] at heq
        rw [SameJson] at hsame
        rw [encodeTable_eq htag] at henc
        have hkept : ∀ key ∈ (H.table ref).entries.map Prod.fst, keptKey (H.table ref) key :=
          fun key hkey => ((hsame.2.1 key).mp ((heq.2.1 key).mpr ⟨hkey, trivial⟩)).2
        have hok : ((H.table ref).metatable = some .jsonArray →
              (H.table ref).entries.length < 2 ^ 31 - 1) ∧
            ∀ e ∈ (H.table ref).entries, ∃ t, encodeValue st H depth (ref :: stack) e.2 = .ok t := by
          rcases htag with harr | hobj
          · rw [if_pos harr.1] at henc
            obtain ⟨hlt, hall⟩ := harr.small_of_ok henc hkept
            exact ⟨fun _ => hlt, hall⟩
          · rw [if_neg (by simp [hobj.1])] at henc
            obtain ⟨inner, hinner, -⟩ := bind_eq_ok henc
            exact ⟨fun h => by simp [hobj.1] at h, of_encodeMembers_ok hobj.2 hinner⟩
        rw [SmallArrays]
        refine ⟨hok.1, ?_⟩
        intro e he
        obtain ⟨t, ht⟩ := hok.2 e he
        obtain ⟨e', he', hkey⟩ := List.mem_map.mp
          ((heq.2.1 e.1).mpr ⟨List.mem_map_of_mem he, trivial⟩)
        have hmem' : (e.1, e'.2) ∈ (H'.table ref').entries := by rwa [← hkey]
        exact ih e.2 e'.2 (ref :: stack) depth t (hjson e he) ht
          (hsame.2.2 e.1 e.2 e'.2 he hmem') (heq.2.2 e.1 e.2 e'.2 he hmem')

/-- Small arrays are written whole. -/
theorem structEq_of_same {H H' : LuaHeap} (n : ℕ) :
    ∀ {v v' : LuaValue}, IsJson H n v → SmallArrays H n v → SameJson keptKey H H' n v v' →
      StructEq H H' n v v' := by
  induction n with
  | zero =>
      intro v v' hv _ h
      cases v <;> cases v' <;> exact h
  | succ n ih =>
      intro v v' hv hsmall h
      cases v with
      | table ref =>
          cases v' with
          | table ref' =>
              rw [IsJson] at hv
              rw [SmallArrays] at hsmall
              rw [SameJson] at h
              rw [StructEq, SameJson]
              refine ⟨h.1, ?_, ?_⟩
              · intro key
                rw [h.2.1 key]
                refine ⟨fun hk => ⟨hk.1, trivial⟩, fun hk => ⟨hk.1, ?_⟩⟩
                rcases hv.1 with harr | hobj
                · have hlt := hsmall.1 harr.1
                  obtain ⟨-, N, hdense⟩ := harr
                  intro _
                  rw [writtenCount_of_lt (by omega), hdense.length_eq (H.table ref).nodup]
                  exact (hdense.2 key).mp hk.1
                · intro htag
                  simp [hobj.1] at htag
              · intro key w w' hw hw'
                exact ih (hv.2 _ hw) (hsmall.2 _ hw) (h.2.2 key w w' hw hw')
          | _ => exact h
      | _ => cases v' <;> exact h

theorem small_of_roundTrips {st : JsonState} (hnull : st.nullEnabled = true) {H : LuaHeap} {n : ℕ}
    {v : LuaValue} (hv : IsJson H n v) (h : RoundTrips st H n v) : SmallArrays H n v := by
  obtain ⟨text, v', H', henc, hdec, heq⟩ := h
  obtain ⟨w', K', hdec', hsame⟩ := jsonDecode_encode hnull hv henc
  rw [hdec] at hdec'
  cases hdec'
  exact small_of_same st H H' n v v' [] _ text hv henc hsame heq

/-- **JSON round trip.**  In null mode, a value built from `json.null`, booleans,
strings, arrays and objects comes back structurally equal, with every tag, exactly
when none of its arrays has `2 ^ 31 - 1` elements or more. -/
theorem json_round_trip (st : JsonState) (hnull : st.nullEnabled = true) (H : LuaHeap) (n : ℕ)
    (v : LuaValue) (hv : IsJson H n v) : RoundTrips st H n v ↔ SmallArrays H n v := by
  constructor
  · exact small_of_roundTrips hnull hv
  · intro hsmall
    obtain ⟨text, henc⟩ := encode_ok st H n v [] (H.length + 1) hv hsmall (by simp) List.nodup_nil
      (by simp) (by simp)
    obtain ⟨v', H', hdec, hsame⟩ := jsonDecode_encode hnull hv henc
    exact ⟨text, v', H', henc, hdec, structEq_of_same n hv hsmall hsame⟩

/-- An object with an array that holds an escaped string and a null. -/
def sampleHeap : LuaHeap :=
  [((LuaTable.new (some .jsonArray)).rawset (intKey 1) (.string [0, 34]) rfl).rawset
      (intKey 2) nullSentinel rfl,
    (LuaTable.new (some .jsonObject)).rawset (.string [107]) (.table 0) rfl]

theorem isJson_sampleHeap : IsJson sampleHeap 2 (.table 1) := by
  have harr : (sampleHeap.table 0).entries
      = [(intKey 1, .string [0, 34]), (intKey 2, nullSentinel)] := by decide +kernel
  have hobj : (sampleHeap.table 1).entries = [(.string [107], .table 0)] := by decide +kernel
  have hdense : DenseKeys (sampleHeap.table 0).entries 2 :=
    denseKeys_of_map (by norm_num) (by decide +kernel)
  rw [IsJson, hobj]
  refine ⟨Or.inr ⟨rfl, by simp [hobj]⟩, ?_⟩
  intro e he
  rw [List.mem_singleton] at he
  subst he
  rw [IsJson, harr]
  refine ⟨Or.inl ⟨rfl, 2, hdense⟩, ?_⟩
  intro e he
  simp only [List.mem_cons, List.not_mem_nil, or_false] at he
  rcases he with rfl | rfl <;> trivial

theorem json_round_trip_nested : IsJson sampleHeap 2 (.table 1) ∧
    (RoundTrips ⟨[], true⟩ sampleHeap 2 (.table 1) ↔ SmallArrays sampleHeap 2 (.table 1)) :=
  ⟨isJson_sampleHeap, json_round_trip ⟨[], true⟩ rfl sampleHeap 2 (.table 1) isJson_sampleHeap⟩

/-- The entries of an array of `n` nulls. -/
def nullEntries (n : ℕ) : List (LuaValue × LuaValue) :=
  (List.range n).map fun i => (intKey (i + 1 : ℕ), nullSentinel)

theorem mem_nullEntries {n : ℕ} {e : LuaValue × LuaValue} :
    e ∈ nullEntries n ↔ ∃ i < n, e = (intKey (i + 1 : ℕ), nullSentinel) := by
  simp only [nullEntries, List.mem_map, List.mem_range]
  constructor <;> rintro ⟨i, hi, rfl⟩ <;> exact ⟨i, hi, rfl⟩

/-- An array of `n` nulls. -/
def nullArray (n : ℕ) (hn : n < 2 ^ 63) : LuaTable where
  entries := nullEntries n
  rawlen := firstBorder (nullEntries n)
  metatable := some .jsonArray
  nodup := by
    rw [nullEntries, List.map_map]
    refine List.Nodup.map_on ?_ List.nodup_range
    intro i hi j hj hij
    have hi' := List.mem_range.mp hi
    have hj' := List.mem_range.mp hj
    have := intKey_inj (by omega) (by omega) hij
    omega
  isKey := by
    intro e he
    obtain ⟨i, -, rfl⟩ := mem_nullEntries.mp he
    rfl
  normal := by
    intro e he
    obtain ⟨i, -, rfl⟩ := mem_nullEntries.mp he
    rfl
  ne_nil := by
    intro e he
    obtain ⟨i, -, rfl⟩ := mem_nullEntries.mp he
    simp [nullSentinel]
  border := isBorder_firstBorder _

theorem isJson_nullArray (n : ℕ) (hn : n < 2 ^ 63) : IsJson [nullArray n hn] 1 (.table 0) := by
  rw [IsJson]
  refine ⟨Or.inl ⟨rfl, n, denseKeys_of_map hn ?_⟩, ?_⟩
  · show (nullEntries n).map Prod.fst = _
    rw [nullEntries, List.map_map]
    rfl
  · intro e he
    obtain ⟨i, -, rfl⟩ := mem_nullEntries.mp he
    rfl

theorem length_nullArray (n : ℕ) (hn : n < 2 ^ 63) :
    (LuaHeap.table [nullArray n hn] 0).entries.length = n := by
  change (nullEntries n).length = n
  rw [nullEntries, List.length_map, List.length_range]

/-- An array of `2 ^ 31` nulls does not come back: it is written as an empty one. -/
theorem json_round_trip_loses_large_array :
    IsJson [nullArray (2 ^ 31) (by norm_num)] 1 (.table 0) ∧
      ¬RoundTrips ⟨[], true⟩ [nullArray (2 ^ 31) (by norm_num)] 1 (.table 0) := by
  refine ⟨isJson_nullArray _ _, ?_⟩
  intro h
  have hsmall := small_of_roundTrips rfl (isJson_nullArray _ _) h
  rw [SmallArrays] at hsmall
  have hlt := hsmall.1 rfl
  rw [length_nullArray] at hlt
  omega

end LuaFan
