/-
# Cycles (`src/json.c`, `encode_table`)

`json_encode` keeps one Lua table for the whole call that maps the tables it is
inside of to `true`: `encode_table` sets its entry on the way in and clears it on
the way out.  `visitValue` is the encoder with that map as its state;
`visitValue_refines` says that **the map holds exactly the path** from the root at
every call, so that `encodeValue`, which is handed the path, gives the same text.

`json_encode_detects_cycles`: from a table from which only tables are reached that
can be encoded when taken alone, encoding ends, fails exactly when a cycle can be
reached, and otherwise writes shared tables at each occurrence.
-/
import LuaFan.Json.Dense
import LuaFan.Lib.Descent

namespace LuaFan

open Fp

/-! ## The map of the visited tables -/

/-- The tables that `stack` maps to `true`. -/
abbrev VisitMap := List ℕ

/-- `lua_rawset(L, stack_idx)` with `true`. -/
def VisitMap.set (m : VisitMap) (ref : ℕ) : VisitMap := ref :: m

/-- `lua_rawset(L, stack_idx)` with nil. -/
def VisitMap.clear (m : VisitMap) (ref : ℕ) : VisitMap := m.filter (· ≠ ref)

/-- A part of the encoder: it may raise, and changes the map. -/
abbrev Encoder (α : Type) := StateT VisitMap (Except JsonError) α

/-- `encode_table`. -/
def visitTable (st : JsonState) (H : LuaHeap) (enc : LuaValue → Encoder (List UInt8)) (ref : ℕ) :
    Encoder (List UInt8) := do
  if ref ∈ (← get) then throw (bytesOf "circular reference")
  else do
    modify (·.set ref)
    let text ← encodeTable st enc (H.table ref)
    modify (·.clear ref)
    pure text

/-- `encode_value`: only a table has to do with the map.  The first argument bounds the depth
of the recursion. -/
def visitValue (st : JsonState) (H : LuaHeap) : ℕ → LuaValue → Encoder (List UInt8)
  | 0, .table _ => throw []
  | depth + 1, .table ref => visitTable st H (visitValue st H depth) ref
  | _, v => liftM (encodeValue st H 0 [] v)

/-- `json_encode`, with a bound on the depth of the recursion: the map is empty at
first, and dropped in the end. -/
def visitText (st : JsonState) (H : LuaHeap) (depth : ℕ) (v : LuaValue) :
    Except JsonError (List UInt8) :=
  (visitValue st H depth v []).map Prod.fst

/-! ## The map is the path -/

/-- The encoder gives the result, and leaves the same tables in the map. -/
def Refines {α : Type} (x : Encoder α) (m : VisitMap) (y : Except JsonError α) : Prop :=
  match y with
  | .error e => x m = .error e
  | .ok a => ∃ m' : VisitMap, x m = .ok (a, m') ∧ ∀ r, r ∈ m' ↔ r ∈ m

namespace Refines

variable {α β : Type} {m : VisitMap}

theorem pure (a : α) : Refines (Pure.pure a) m (.ok a) := ⟨m, rfl, fun _ => Iff.rfl⟩

theorem throw (e : JsonError) : Refines (α := α) (MonadExcept.throw e) m (.error e) := rfl

theorem lift (y : Except JsonError α) : Refines (liftM y) m y := by
  cases y with
  | error e => exact rfl
  | ok a => exact ⟨m, rfl, fun _ => Iff.rfl⟩

/-- **One part after the other.** -/
theorem bind {x : Encoder α} {y : Except JsonError α} {f : α → Encoder β}
    {g : α → Except JsonError β} (hx : Refines x m y)
    (hf : ∀ a (m' : VisitMap), (∀ r, r ∈ m' ↔ r ∈ m) → Refines (f a) m' (g a)) :
    Refines (x >>= f) m (y >>= g) := by
  cases y with
  | error e =>
      show (x m >>= fun p => f p.1 p.2) = .error e
      rw [show x m = .error e from hx]
      rfl
  | ok a =>
      obtain ⟨m', hm', hkeys⟩ := hx
      have hrun : (x >>= f) m = f a m' := by
        show (x m >>= fun p => f p.1 p.2) = f a m'
        rw [hm']
        rfl
      have hfa := hf a m' hkeys
      rw [ok_bind]
      unfold Refines at hfa ⊢
      rw [hrun]
      cases hg : g a with
      | error e =>
          rw [hg] at hfa
          exact hfa
      | ok b =>
          rw [hg] at hfa
          obtain ⟨m'', hm'', hkeys'⟩ := hfa
          exact ⟨m'', hm'', fun r => (hkeys' r).trans (hkeys r)⟩

theorem ite {x x' : Encoder α} {y y' : Except JsonError α} (c : Prop) [Decidable c]
    (h : c → Refines x m y) (h' : ¬c → Refines x' m y') :
    Refines (if c then x else x') m (if c then y else y') := by
  by_cases hc : c
  · rw [if_pos hc, if_pos hc]
    exact h hc
  · rw [if_neg hc, if_neg hc]
    exact h' hc

end Refines

section Branches

variable {enc : LuaValue → Encoder (List UInt8)} {enc' : LuaValue → Except JsonError (List UInt8)}
  {m : VisitMap}

/-- The encoder of the values gives the results, as long as the map has these keys. -/
def RefinesAt (enc : LuaValue → Encoder (List UInt8))
    (enc' : LuaValue → Except JsonError (List UInt8)) (m : VisitMap) : Prop :=
  ∀ v (m' : VisitMap), (∀ r, r ∈ m' ↔ r ∈ m) → Refines (enc v) m' (enc' v)

theorem RefinesAt.congr (h : RefinesAt enc enc' m) {m' : VisitMap} (hkeys : ∀ r, r ∈ m' ↔ r ∈ m) :
    RefinesAt enc enc' m' :=
  fun v m'' hkeys' => h v m'' fun r => (hkeys' r).trans (hkeys r)

theorem encodeElements_refines (entries : List (LuaValue × LuaValue)) (k : ℕ) :
    ∀ (i : ℕ) (m : VisitMap), RefinesAt enc enc' m →
      Refines (encodeElements enc entries i k) m (encodeElements enc' entries i k) := by
  induction k with
  | zero =>
      intro i m _
      exact Refines.pure []
  | succ k ih =>
      intro i m h
      refine Refines.bind (h _ m fun _ => Iff.rfl) fun text m' hkeys => ?_
      exact Refines.bind (ih (i + 1) m' (h.congr hkeys)) fun rest m'' _ => Refines.pure _

theorem encodeArray_refines (T : LuaTable) (h : RefinesAt enc enc' m) :
    Refines (encodeArray enc T) m (encodeArray enc' T) := by
  refine Refines.bind (Refines.lift _) fun n m' hkeys => ?_
  refine Refines.ite _ (fun _ => Refines.throw _) fun _ => ?_
  refine Refines.bind (encodeElements_refines _ _ _ _ (h.congr hkeys)) fun text m'' _ => ?_
  exact Refines.ite _ (fun _ => Refines.throw _) fun _ => Refines.pure _

theorem encodeMembers_refines (es : List (LuaValue × LuaValue)) :
    ∀ (first : Bool) (m : VisitMap), RefinesAt enc enc' m →
      Refines (encodeMembers enc es first) m (encodeMembers enc' es first) := by
  induction es with
  | nil =>
      intro first m _
      exact Refines.pure []
  | cons e es ih =>
      intro first m h
      obtain ⟨key, v⟩ := e
      cases key with
      | string s =>
          refine Refines.bind (h _ m fun _ => Iff.rfl) fun text m' hkeys => ?_
          exact Refines.bind (ih false m' (h.congr hkeys)) fun rest m'' _ => Refines.pure _
      | _ => exact Refines.throw _

theorem encodeTable_refines (st : JsonState) (T : LuaTable) (h : RefinesAt enc enc' m) :
    Refines (encodeTable st enc T) m (encodeTable st enc' T) := by
  refine Refines.ite _ (fun _ => ?_) fun _ => ?_
  · exact Refines.ite _ (fun _ => Refines.throw _) fun _ => encodeArray_refines T h
  · exact Refines.bind (encodeMembers_refines _ _ _ h) fun text m' _ => Refines.pure _

end Branches

theorem visitTable_eq (st : JsonState) (H : LuaHeap) (enc : LuaValue → Encoder (List UInt8))
    (ref : ℕ) (m : VisitMap) :
    visitTable st H enc ref m = if ref ∈ m then .error (bytesOf "circular reference")
      else (encodeTable st enc (H.table ref) (m.set ref)).map fun r => (r.1, r.2.clear ref) := by
  unfold visitTable
  by_cases hmem : ref ∈ m
  · rw [if_pos hmem]
    show (if ref ∈ m then _ else _ : Encoder (List UInt8)) m = _
    rw [if_pos hmem]
    rfl
  · rw [if_neg hmem]
    show (if ref ∈ m then _ else _ : Encoder (List UInt8)) m = _
    rw [if_neg hmem]
    show (encodeTable st enc (H.table ref) (m.set ref) >>= _) = _
    cases encodeTable st enc (H.table ref) (m.set ref) with
    | error e => rfl
    | ok r => rfl

/-- **A table leaves the map as it found it.** -/
theorem visitTable_refines (st : JsonState) (H : LuaHeap) {enc : LuaValue → Encoder (List UInt8)}
    {enc' : LuaValue → Except JsonError (List UInt8)} {ref : ℕ} {m : VisitMap} (hnot : ref ∉ m)
    (h : RefinesAt enc enc' (m.set ref)) :
    Refines (visitTable st H enc ref) m (encodeTable st enc' (H.table ref)) := by
  have hbranches := encodeTable_refines st (H.table ref) h
  have heq := visitTable_eq st H enc ref m
  rw [if_neg hnot] at heq
  unfold Refines at hbranches ⊢
  rw [heq]
  cases htable : encodeTable st enc' (H.table ref) with
  | error e =>
      rw [htable] at hbranches
      rw [hbranches]
      rfl
  | ok text =>
      rw [htable] at hbranches
      obtain ⟨m', hm', hkeys⟩ := hbranches
      rw [hm']
      refine ⟨m'.clear ref, rfl, ?_⟩
      intro r
      simp only [VisitMap.clear, List.mem_filter, hkeys, VisitMap.set, List.mem_cons,
        decide_eq_true_eq]
      constructor
      · rintro ⟨rfl | hr, hne⟩
        · exact absurd rfl hne
        · exact hr
      · intro hr
        refine ⟨Or.inr hr, ?_⟩
        rintro rfl
        exact hnot hr

/-- **At every call the map holds exactly the tables around the value.** -/
theorem visitValue_refines (st : JsonState) (H : LuaHeap) (depth : ℕ) :
    ∀ (stack : List ℕ) (v : LuaValue) (m : VisitMap), (∀ r, r ∈ m ↔ r ∈ stack) →
      Refines (visitValue st H depth v) m (encodeValue st H depth stack v) := by
  induction depth with
  | zero =>
      intro stack v m hkeys
      cases v with
      | table ref => exact Refines.throw _
      | _ => exact Refines.lift _
  | succ depth ih =>
      intro stack v m hkeys
      cases v with
      | table ref =>
          have hne : LuaValue.table ref ≠ nullSentinel := by simp [nullSentinel]
          unfold visitValue encodeValue
          rw [if_neg hne]
          by_cases hmem : ref ∈ stack
          · simp only [if_pos hmem]
            have heq := visitTable_eq st H (visitValue st H depth) ref m
            rwa [if_pos ((hkeys ref).mpr hmem)] at heq
          · simp only [if_neg hmem]
            refine visitTable_refines st H (fun hm => hmem ((hkeys ref).mp hm)) ?_
            intro v m' hm'
            refine ih (ref :: stack) v m' fun r => (hm' r).trans ?_
            simp only [VisitMap.set, List.mem_cons, hkeys]
      | _ => exact Refines.lift _

theorem visitText_eq (st : JsonState) (H : LuaHeap) (depth : ℕ) (v : LuaValue) :
    visitText st H depth v = encodeValue st H depth [] v := by
  have h := visitValue_refines st H depth [] v [] (by simp)
  unfold visitText
  unfold Refines at h
  cases hv : encodeValue st H depth [] v with
  | error e =>
      rw [hv] at h
      rw [h]
      rfl
  | ok text =>
      rw [hv] at h
      obtain ⟨m', hm', -⟩ := h
      rw [hm']
      rfl

/-! ## Tables that can be encoded -/

/-- The table can be encoded, given texts for its values: a text is written, and
that of an array holds every entry. -/
def EncodableAlone (st : JsonState) (T : LuaTable) : Prop :=
  ∀ enc : LuaValue → Except JsonError (List UInt8), (∀ v, ∃ t, enc v = .ok t) →
    ∃ text, encodeTable st enc T = .ok text ∧ (ArrayLike T → EmitsEntries enc T text)

/-- A table with strings for keys that is encoded as an object. -/
def ObjectLike (T : LuaTable) : Prop :=
  ¬ArrayLike T ∧ (T.entries ≠ [] ∨ T.metatable = some .jsonObject) ∧
    ∀ e ∈ T.entries, ∃ s, e.1 = .string s

section Alone

variable {st : JsonState} {T : LuaTable} {enc : LuaValue → Except JsonError (List UInt8)}

theorem rawGetI_mem (entries : List (LuaValue × LuaValue)) (i : ℤ) :
    rawGetI entries i = .nil ∨ rawGetI entries i ∈ entries.map Prod.snd := by
  unfold rawGetI rawGet
  split
  · split
    · rename_i e he
      exact Or.inr (List.mem_map_of_mem (List.mem_of_find?_eq_some he))
    · exact Or.inl rfl
  · exact Or.inl rfl

/-- Only the texts of the values matter. -/
theorem encodeTable_congr {enc' : LuaValue → Except JsonError (List UInt8)}
    (h : ∀ v, v = .nil ∨ v ∈ T.entries.map Prod.snd → enc v = enc' v) :
    encodeTable st enc T = encodeTable st enc' T := by
  have helems : ∀ k i, encodeElements enc T.entries i k = encodeElements enc' T.entries i k := by
    intro k
    induction k with
    | zero =>
        intro i
        rfl
    | succ k ih =>
        intro i
        rw [encodeElements_step, encodeElements_step, h _ (rawGetI_mem _ _), ih]
  have hmembers : ∀ es : List (LuaValue × LuaValue), (∀ e ∈ es, e ∈ T.entries) →
      ∀ first, encodeMembers enc es first = encodeMembers enc' es first := by
    intro es
    induction es with
    | nil =>
        intro _ first
        rfl
    | cons e es ih =>
        intro hes first
        obtain ⟨key, v⟩ := e
        cases key with
        | string s =>
            rw [encodeMembers_step, encodeMembers_step, ih (fun e he => hes e (by simp [he])),
              h v (Or.inr (List.mem_map_of_mem (hes _ List.mem_cons_self)))]
        | _ => rfl
  rw [encodeTable_def, encodeTable_def, encodeArray_def, encodeArray_def]
  simp only [helems, hmembers T.entries (fun e he => he)]

theorem encodeTable_object (h : ¬ArrayLike T) (hne : T.entries ≠ [] ∨ T.metatable = some .jsonObject) :
    encodeTable st enc T = (do
      let text ← encodeMembers enc T.entries true
      .ok ([ascii '\x7b'] ++ text ++ [ascii '\x7d'])) := by
  rw [encodeTable_def]
  refine if_neg ?_
  rintro (hone | harr | ⟨hobj, hempty⟩)
  · exact h (Or.inl hone)
  · exact h (Or.inr harr)
  · exact hne.elim (fun hnot => hnot hempty) hobj

theorem keys_of_encodeMembers {es : List (LuaValue × LuaValue)} :
    ∀ {first : Bool} {text : List UInt8}, encodeMembers enc es first = .ok text →
      ∀ e ∈ es, ∃ s, e.1 = .string s := by
  induction es with
  | nil => simp
  | cons e es ih =>
      intro first text h
      obtain ⟨key, v⟩ := e
      cases key with
      | string s =>
          obtain ⟨-, t, more, -, -, hmore, -⟩ := encodeMembers_cons ⟨s, rfl⟩ h
          intro e he
          rcases List.mem_cons.mp he with rfl | he
          · exact ⟨s, rfl⟩
          · exact ih hmore e he
      | _ => cases h

/-- A table that is written and is no array is an object. -/
theorem encodeTable_object_ok (h : ¬ArrayLike T) {text : List UInt8}
    (htext : encodeTable st enc T = .ok text) :
    (T.entries ≠ [] ∨ T.metatable = some .jsonObject) ∧
      ∃ inner, encodeMembers enc T.entries true = .ok inner ∧
        text = [ascii '\x7b'] ++ inner ++ [ascii '\x7d'] := by
  have hne : T.entries ≠ [] ∨ T.metatable = some .jsonObject := by
    by_contra hnot
    push Not at hnot
    rw [encodeTable_def] at htext
    rw [if_pos (Or.inr (Or.inr ⟨hnot.2, hnot.1⟩)),
      if_pos ⟨fun htag => h (Or.inr htag), hnot.2, hnot.1⟩] at htext
    cases htext
  rw [encodeTable_object h hne] at htext
  obtain ⟨inner, hinner, htext⟩ := bind_eq_ok htext
  cases htext
  exact ⟨hne, inner, hinner, rfl⟩

/-- **Taken alone, dense arrays and objects with strings for keys can be encoded**,
and no other tables. -/
theorem encodableAlone_iff :
    EncodableAlone st T ↔
      (ArrayLike T ∧ ∃ n < 2 ^ 31 - 1, DenseKeys T.entries n) ∨ ObjectLike T := by
  constructor
  · intro h
    obtain ⟨text, htext, hemits⟩ := h (fun _ => .ok []) (fun v => ⟨[], rfl⟩)
    by_cases harr : ArrayLike T
    · left
      have hwhole := hemits harr
      rw [harr.encodeTable_eq] at htext
      exact ⟨harr, _, (hwhole.dense htext).2, (hwhole.dense htext).1⟩
    · right
      obtain ⟨hne, inner, hinner, -⟩ := encodeTable_object_ok harr htext
      exact ⟨harr, hne, keys_of_encodeMembers hinner⟩
  · rintro (⟨harr, n, hn, hdense⟩ | ⟨hnot, hne, hkeys⟩)
    · intro enc henc
      have hrawlen := hdense.rawlen_eq
      obtain ⟨texts, hlen, htexts⟩ := exists_element_texts (T := T) fun i _ => henc _
      refine ⟨arrayText texts, ?_, fun _ =>
        DenseKeys.emitsEntries (hrawlen ▸ hdense) (by omega) hlen htexts⟩
      rw [harr.encodeTable_eq]
      exact encodeArray_ok_iff.mpr ⟨hdense.numbers, by rw [hdense.length_eq T.nodup, hrawlen],
        ofNat_ne_maxValue (by omega), texts, hlen, htexts, rfl⟩
    · intro enc henc
      obtain ⟨inner, hinner⟩ := encodeMembers_ok true hkeys fun e _ => henc e.2
      refine ⟨[ascii '\x7b'] ++ inner ++ [ascii '\x7d'], ?_, fun harr => absurd harr hnot⟩
      rw [encodeTable_object hnot hne, hinner, ok_bind]

theorem encodeElements_error {entries : List (LuaValue × LuaValue)} {e : JsonError} {k : ℕ} :
    ∀ {i : ℕ}, encodeElements enc entries i k = .error e →
      ∃ j < i + k, enc (rawGetI entries (j + 1 : ℕ)) = .error e := by
  induction k with
  | zero =>
      intro i h
      cases h
  | succ k ih =>
      intro i h
      rw [encodeElements_step] at h
      cases htext : enc (rawGetI entries (i + 1)) with
      | error e' =>
          rw [htext] at h
          cases h
          exact ⟨i, by omega, by exact_mod_cast htext⟩
      | ok text =>
          rw [htext, ok_bind] at h
          cases hrest : encodeElements enc entries (i + 1) k with
          | error e' =>
              rw [hrest] at h
              cases h
              obtain ⟨j, hj, hvalue⟩ := ih hrest
              exact ⟨j, by omega, hvalue⟩
          | ok rest =>
              rw [hrest] at h
              cases h

theorem encodeMembers_error {es : List (LuaValue × LuaValue)} {e : JsonError} :
    ∀ {first : Bool}, (∀ p ∈ es, ∃ s, p.1 = .string s) → encodeMembers enc es first = .error e →
      ∃ p ∈ es, enc p.2 = .error e := by
  induction es with
  | nil =>
      intro first _ h
      cases h
  | cons p es ih =>
      intro first hkeys h
      obtain ⟨key, v⟩ := p
      obtain ⟨s, hs⟩ := hkeys (key, v) (by simp)
      simp only at hs
      subst hs
      rw [encodeMembers_step] at h
      cases htext : enc v with
      | error e' =>
          rw [htext] at h
          cases h
          exact ⟨_, List.mem_cons_self, htext⟩
      | ok text =>
          rw [htext, ok_bind] at h
          cases hrest : encodeMembers enc es false with
          | error e' =>
              rw [hrest] at h
              cases h
              obtain ⟨p, hp, hvalue⟩ := ih (fun p hp => hkeys p (by simp [hp])) hrest
              exact ⟨p, List.mem_cons_of_mem _ hp, hvalue⟩
          | ok rest =>
              rw [hrest] at h
              cases h

/-- **The text of such a table needs the texts of its values.** -/
theorem EncodableAlone.of_ok (h : EncodableAlone st T) {text : List UInt8}
    (htext : encodeTable st enc T = .ok text) : ∀ e ∈ T.entries, ∃ t, enc e.2 = .ok t := by
  rcases encodableAlone_iff.mp h with ⟨harr, n, hn, hdense⟩ | ⟨hnot, hne, hkeys⟩
  · rw [harr.encodeTable_eq] at htext
    obtain ⟨-, -, -, texts, hlen, htexts, -⟩ := encodeArray_ok_iff.mp htext
    have hrawlen := hdense.rawlen_eq
    rw [writtenCount_of_lt (by omega)] at hlen
    intro e he
    obtain ⟨i, hi, hkey⟩ := (hdense.2 e.1).mp (List.mem_map_of_mem he)
    have hvalue := htexts i (by omega)
    rw [T.rawGetI_eq (by omega) (by rw [← hkey]; exact he)] at hvalue
    exact ⟨_, hvalue⟩
  · rw [encodeTable_object hnot hne] at htext
    obtain ⟨inner, hinner, -⟩ := bind_eq_ok htext
    exact of_encodeMembers_ok hkeys hinner

/-- **And it fails with the error of one of them.** -/
theorem EncodableAlone.of_error (h : EncodableAlone st T) {e : JsonError}
    (herror : encodeTable st enc T = .error e) : ∃ p ∈ T.entries, enc p.2 = .error e := by
  rcases encodableAlone_iff.mp h with ⟨harr, n, hn, hdense⟩ | ⟨hnot, hne, hkeys⟩
  · have hrawlen := hdense.rawlen_eq
    rw [harr.encodeTable_eq] at herror
    rw [encodeArray_def] at herror
    rw [countKeys_eq _ _ hdense.numbers, ok_bind, Int32.zero_add, hdense.length_eq T.nodup, hrawlen,
      if_neg (by simp)] at herror
    cases hinner : encodeElements enc T.entries 0 (Int32.ofNat n).toInt.toNat with
    | error e' =>
        rw [hinner] at herror
        cases herror
        obtain ⟨j, hj, hvalue⟩ := encodeElements_error hinner
        have hcount : (Int32.ofNat n).toInt.toNat = n := writtenCount_of_lt (by omega)
        obtain ⟨v, hv⟩ := hdense.exists_value (show j < n by omega)
        rw [T.rawGetI_eq (by omega) hv] at hvalue
        exact ⟨_, hv, hvalue⟩
    | ok inner =>
        rw [hinner, ok_bind, if_neg (ofNat_ne_maxValue hn)] at herror
        cases herror
  · rw [encodeTable_object hnot hne] at herror
    cases hinner : encodeMembers enc T.entries true with
    | error e' =>
        rw [hinner] at herror
        cases herror
        exact encodeMembers_error hkeys hinner
    | ok inner =>
        rw [hinner] at herror
        cases herror

end Alone

/-! ## Cycles -/

/-- A table is a value of another one. -/
def LuaHeap.Holds (H : LuaHeap) (ref ref' : ℕ) : Prop :=
  ∃ key, (key, .table ref') ∈ (H.table ref).entries

/-- From the table a cycle can be reached. -/
def LuaHeap.Cyclic (H : LuaHeap) (root : ℕ) : Prop :=
  ∃ ref, Relation.ReflTransGen H.Holds root ref ∧ Relation.TransGen H.Holds ref ref

/-- Encoding without the test for cycles: every occurrence of a table is encoded. -/
def encodeTree (st : JsonState) (H : LuaHeap) : ℕ → LuaValue → Except JsonError (List UInt8)
  | 0, .table _ => .error []
  | depth + 1, .table ref => encodeTable st (encodeTree st H depth) (H.table ref)
  | _, v => encodeValue st H 0 [] v

/-- Every table that can be reached can be encoded when taken alone, and so can the
other values in it. -/
structure EncodableGraph (st : JsonState) (H : LuaHeap) (root : ℕ) : Prop where
  tables : ∀ ref, Relation.ReflTransGen H.Holds root ref → EncodableAlone st (H.table ref)
  leaves : ∀ ref, Relation.ReflTransGen H.Holds root ref → ∀ e ∈ (H.table ref).entries,
    (∃ r, e.2 = .table r) ∨ ∃ t, jsonEncode st H e.2 = .ok t

/-- The texts of tables are given, the other values are encoded. -/
def encodeWith (st : JsonState) (H : LuaHeap) (f : ℕ → Except JsonError (List UInt8)) :
    LuaValue → Except JsonError (List UInt8)
  | .table ref => f ref
  | v => encodeValue st H 0 [] v

/-- Encoding as the evaluation of a graph. -/
def jsonDescent (st : JsonState) (H : LuaHeap) : Descent ℕ JsonError (List UInt8) where
  Child := H.Holds
  step f ref := encodeTable st (encodeWith st H f) (H.table ref)
  step_congr := by
    intro f g ref h
    apply encodeTable_congr
    intro v hv
    cases v with
    | table r =>
        rcases hv with hv | hv
        · cases hv
        · obtain ⟨e, he, hvalue⟩ := List.mem_map.mp hv
          exact h r ⟨e.1, by rw [← hvalue]; exact he⟩
    | _ => rfl
  cyclic := bytesOf "circular reference"
  tooDeep := []

section Descending

variable (st : JsonState) (H : LuaHeap)

/-- `encodeValue` is the evaluation that carries the path. -/
theorem encodeValue_eq_run (depth : ℕ) :
    ∀ stack, encodeValue st H depth stack = encodeWith st H ((jsonDescent st H).run depth stack) := by
  induction depth with
  | zero =>
      intro stack
      funext v
      unfold encodeWith encodeValue
      cases v <;> rfl
  | succ depth ih =>
      intro stack
      funext v
      cases v with
      | table ref =>
          have hne : LuaValue.table ref ≠ nullSentinel := by simp [nullSentinel]
          rw [encodeWith, Descent.run]
          unfold encodeValue
          rw [if_neg hne]
          simp only [ih]
          rfl
      | _ =>
          unfold encodeWith encodeValue
          rfl

theorem encodeTree_eq (depth : ℕ) :
    encodeTree st H depth = encodeWith st H ((jsonDescent st H).asTree depth) := by
  induction depth with
  | zero =>
      funext v
      cases v <;> rfl
  | succ depth ih =>
      funext v
      cases v with
      | table ref =>
          rw [encodeTree, ih]
          rfl
      | _ => rfl

variable {st H} {root : ℕ}

/-- Tables of such a graph are in the heap. -/
theorem EncodableGraph.mem_range (h : EncodableGraph st H root) {ref : ℕ}
    (href : Relation.ReflTransGen H.Holds root ref) : ref ∈ List.range H.length := by
  rw [List.mem_range]
  by_contra hge
  have hnew : H.table ref = .new none := List.getD_eq_default _ _ (by omega)
  obtain ⟨text, htext, -⟩ := h.tables ref href (fun _ => .ok []) (fun v => ⟨[], rfl⟩)
  rw [hnew] at htext
  cases htext

/-- **A table of the graph fails exactly if a table in it does.** -/
theorem EncodableGraph.sound (h : EncodableGraph st H root) {ref : ℕ}
    (href : Relation.ReflTransGen H.Holds root ref) : (jsonDescent st H).Sound ref where
  ok := by
    rintro f text htext r ⟨key, hmem⟩
    exact (h.tables ref href).of_ok htext _ hmem
  error := by
    intro f e herror
    obtain ⟨p, hp, hvalue⟩ := (h.tables ref href).of_error herror
    rcases h.leaves ref href p hp with ⟨r, hr⟩ | ⟨t, ht⟩
    · refine ⟨r, ⟨p.1, by rw [← hr]; exact hp⟩, ?_⟩
      rw [hr] at hvalue
      exact hvalue
    · cases hv : p.2 with
      | table r =>
          refine ⟨r, ⟨p.1, by rw [← hv]; exact hp⟩, ?_⟩
          rw [hv] at hvalue
          exact hvalue
      | _ =>
          -- a value that is no table has a text
          rw [jsonEncode, encodeValue_eq_run] at ht
          rw [hv] at ht hvalue
          rw [encodeWith] at ht hvalue
          · rw [ht] at hvalue
            cases hvalue
          · simp
          · simp

/-- **Such a graph has a text exactly if no cycle is reached.** -/
theorem EncodableGraph.encodes_iff (h : EncodableGraph st H root) :
    ((∃ text, (jsonDescent st H).run (H.length + 1) [] root = .ok text) ↔ ¬H.Cyclic root) ∧
      (H.Cyclic root →
        (jsonDescent st H).run (H.length + 1) [] root = .error (bytesOf "circular reference")) := by
  have hroom : Descent.Room (List.range H.length) [] (H.length + 1) := ⟨List.nodup_nil, by simp, by simp⟩
  have hne : (jsonDescent st H).cyclic ≠ (jsonDescent st H).tooDeep := by
    intro heq
    cases heq
  exact Descent.run_ok_iff (D := jsonDescent st H) hroom hne fun w hw => ⟨h.sound hw, h.mem_range hw⟩

end Descending

/-- **JSON encoding detects exactly the cycles.** -/
theorem json_encode_detects_cycles (st : JsonState) (H : LuaHeap) (root : ℕ)
    (h : EncodableGraph st H root) :
    (∀ depth, H.length + 1 ≤ depth →
      visitText st H depth (.table root) = visitText st H (H.length + 1) (.table root)) ∧
    ((∃ text, visitText st H (H.length + 1) (.table root) = .ok text) ↔ ¬H.Cyclic root) ∧
    (H.Cyclic root →
      visitText st H (H.length + 1) (.table root) = .error (bytesOf "circular reference")) ∧
    ∀ text, visitText st H (H.length + 1) (.table root) = .ok text →
      encodeTree st H (H.length + 1) (.table root) = .ok text := by
  have htext : ∀ depth, visitText st H depth (.table root) = (jsonDescent st H).run depth [] root := by
    intro depth
    rw [visitText_eq, encodeValue_eq_run]
    rfl
  have hroom : Descent.Room (List.range H.length) [] (H.length + 1) := ⟨List.nodup_nil, by simp, by simp⟩
  obtain ⟨hok, hcyclic⟩ := h.encodes_iff
  simp only [htext]
  refine ⟨?_, hok, hcyclic, ?_⟩
  · intro depth hdepth
    obtain ⟨more, rfl⟩ := Nat.exists_eq_add_of_le hdepth
    exact Descent.run_stable _ [] root hroom (fun w hw => h.mem_range hw) more
  · intro text hrun
    rw [encodeTree_eq]
    exact Descent.asTree_of_run _ [] root text (fun w hw => h.sound hw) hrun

/-- An array that holds one array twice. -/
def sharedHeap : LuaHeap :=
  [(LuaTable.new (some .jsonArray)).rawset (intKey 1) (.boolean true) isKey_one,
    ((LuaTable.new (some .jsonArray)).rawset (intKey 1) (.table 0) isKey_one).rawset (intKey 2) (.table 0)
      isKey_two]

theorem encodableGraph_sharedHeap : EncodableGraph ⟨[], true⟩ sharedHeap 1 := by
  have hinner : (sharedHeap.table 0).entries = [(intKey 1, .boolean true)] := by decide +kernel
  have houter : (sharedHeap.table 1).entries = [(intKey 1, .table 0), (intKey 2, .table 0)] := by
    decide +kernel
  have hreach : ∀ ref, Relation.ReflTransGen sharedHeap.Holds 1 ref → ref = 1 ∨ ref = 0 := by
    intro ref href
    induction href with
    | refl => exact Or.inl rfl
    | tail _ hstep ih =>
        obtain ⟨key, hkey⟩ := hstep
        rcases ih with rfl | rfl
        · rw [houter] at hkey
          simp only [List.mem_cons, Prod.mk.injEq, LuaValue.table.injEq, List.not_mem_nil,
            or_false] at hkey
          rcases hkey with ⟨-, rfl⟩ | ⟨-, rfl⟩ <;> exact Or.inr rfl
        · rw [hinner] at hkey
          simp at hkey
  constructor
  · intro ref href
    rcases hreach ref href with rfl | rfl
    · exact encodableAlone_iff.mpr (Or.inl ⟨Or.inr rfl, 2, by norm_num,
        denseKeys_of_map (by norm_num) (by decide +kernel)⟩)
    · exact encodableAlone_iff.mpr (Or.inl ⟨Or.inr rfl, 1, by norm_num,
        denseKeys_of_map (by norm_num) (by decide +kernel)⟩)
  · intro ref href e he
    rcases hreach ref href with rfl | rfl
    · rw [houter] at he
      simp only [List.mem_cons, List.not_mem_nil, or_false] at he
      rcases he with rfl | rfl <;> exact Or.inl ⟨0, rfl⟩
    · rw [hinner, List.mem_singleton] at he
      subst he
      exact Or.inr ⟨bytesOf "true", rfl⟩

theorem json_encode_detects_cycles_shared :
    EncodableGraph ⟨[], true⟩ sharedHeap 1 ∧
      visitText ⟨[], true⟩ sharedHeap 3 (.table 1) = .ok (bytesOf "[[true],[true]]") ∧
      ((∃ text, visitText ⟨[], true⟩ sharedHeap 3 (.table 1) = .ok text) ↔ ¬sharedHeap.Cyclic 1) :=
  ⟨encodableGraph_sharedHeap, by decide +kernel,
    (json_encode_detects_cycles ⟨[], true⟩ sharedHeap 1 encodableGraph_sharedHeap).2.1⟩

end LuaFan
