/-
# Inserting a row (`modules/fan/orm_base.lua`, `new` and `insert` of a table)

The loop over the model collects the columns that have a value in three lists: the keys, the
places and the values to bind.  The built-in `NOW()` has a place and no value, and the column of
a long-data handle has a sentinel for a value.  The row is then made of keys and values side by
side.

* `aligned_of_bound`: the placeholders are always bound to the values of their columns;
* `calls_perm_iff`: the handles are called with the places of their parameters **exactly if** no
  built-in comes before a handle and no two columns share one;
* `rowAligned_iff`: the row has the values inserted **exactly if** no built-in comes before a
  placeholder, and the id is not bound to anything but the id the database returns.
-/
import LuaFan.Lua.Value
import Mathlib.Data.List.Nodup
import Mathlib.Data.List.Pairwise
import Mathlib.Data.List.Perm.Basic
import Mathlib.Logic.Function.Basic

namespace LuaFan

open Fp Function

/-- Everything but nil and false is true. -/
def LuaValue.truthy : LuaValue → Bool
  | nil => false
  | boolean b => b
  | _ => true

/-- `type(v) == "function"`. -/
def LuaValue.isFunction : LuaValue → Bool
  | other .function _ => true
  | _ => false

/-! ## Tables and adapters -/

/-- The name of a column. -/
abbrev ColumnName := List UInt8

/-- A field of a model: a column, or a function that computes a value from a row. -/
inductive ModelField where
  | column
  | handler
  deriving DecidableEq, Repr

/-- A table of a context: its name, the fields of the model in the order of `pairs`, and the entry
of the model under `FIELD_ID_KEY`.  Entries of the model without a name are no columns: neither a
map of column values nor a row has one. -/
structure OrmTable where
  name : List UInt8
  model : List (ColumnName × ModelField)
  fieldIdKey : Option ColumnName
  nodup : (model.map Prod.fst).Nodup

/-- `model[FIELD_ID_KEY] or FIELD_ID_DEFAULT`. -/
def OrmTable.fieldId (t : OrmTable) : ColumnName := t.fieldIdKey.getD (bytesOf "id")

/-- What inserting needs of an adapter: `BUILTIN_VALUE_NOW`, and `LONG_DATA_SENTINEL` if
`insert_handle_long_data` is true. -/
structure OrmAdapter where
  builtinNow : Option (List UInt8)
  longDataSentinel : Option LuaValue
  sentinel_ne_nil : longDataSentinel ≠ some .nil

namespace OrmAdapter

/-- The adapter of `modules/mariadb/orm.lua`; the sentinel is the address of `LONG_DATA`. -/
def mariadb : OrmAdapter :=
  ⟨some (bytesOf "NOW()"), some (.other .lightuserdata 0), by decide⟩

/-- The adapter of `modules/sqlite3/orm.lua`. -/
def sqlite3 : OrmAdapter := ⟨none, none, by decide⟩

variable (a : OrmAdapter)

/-- `BUILTIN_VALUE_NOW and vv == BUILTIN_VALUE_NOW`. -/
def isNow (vv : LuaValue) : Bool :=
  match a.builtinNow, vv with
  | some now, .string s => s = now
  | _, _ => false

/-- `adapter.insert_handle_long_data and type(vv) == "function"`. -/
def isHandle (vv : LuaValue) : Bool := a.longDataSentinel.isSome && vv.isFunction

end OrmAdapter

/-! ## The code -/

/-- A place of the statement: a placeholder, or the text of a built-in. -/
inductive Place where
  | param
  | builtin (text : List UInt8)
  deriving DecidableEq, Repr

/-- The text of a place. -/
def Place.text : Place → List UInt8
  | param => bytesOf "?"
  | builtin text => text

/-- The lists that the loop over the model fills. -/
structure InsertLists where
  keys : List ColumnName
  places : List Place
  values : List LuaValue
  handles : List (LuaValue × ℕ)

/-- `handles[vv] = idx`. -/
def setHandle (handles : List (LuaValue × ℕ)) (vv : LuaValue) (idx : ℕ) : List (LuaValue × ℕ) :=
  if vv ∈ handles.map Prod.fst then
    handles.map fun handle => if handle.1 = vv then (vv, idx) else handle
  else handles ++ [(vv, idx)]

/-- The column `k` in the loop over the model. -/
def insertColumn (a : OrmAdapter) (map : ColumnName → LuaValue) (s : InsertLists) (k : ColumnName) :
    InsertLists :=
  let vv := map k
  if vv.truthy then
    let keys := s.keys ++ [k]
    if a.isNow vv then
      { s with keys := keys, places := s.places ++ [.builtin (a.builtinNow.getD [])] }
    else
      let places := s.places ++ [.param]
      if a.isHandle vv then
        ⟨keys, places, s.values ++ [a.longDataSentinel.getD .nil],
          setHandle s.handles vv (places.length - 1)⟩
      else ⟨keys, places, s.values ++ [vv], s.handles⟩
  else s

/-- The statement: the table, the keys and the places. -/
structure InsertStatement where
  table : List UInt8
  keys : List ColumnName
  places : List Place

/-- The text given to `adapter.prepare`. -/
def InsertStatement.text (stmt : InsertStatement) : List UInt8 :=
  bytesOf "insert into " ++ stmt.table ++ bytesOf " (" ++ (bytesOf ",").intercalate stmt.keys
    ++ bytesOf ") values(" ++ (bytesOf ",").intercalate (stmt.places.map Place.text) ++ bytesOf ")"

/-- `for i, v in ipairs(keys) do r[v] = values[i]`. -/
def fillRow : List ColumnName → List LuaValue → (ColumnName → LuaValue) → ColumnName → LuaValue
  | [], _, r => r
  | k :: keys, values, r => fillRow keys values.tail (update r k (values.headD .nil))

/-- What a field of the new row holds. -/
inductive RowCell where
  | value (v : LuaValue)
  | attr (attr : ColumnName → LuaValue)

/-- `KEY_ATTR`. -/
def keyAttr : ColumnName := bytesOf "^attr"

/-- The new row: the fields of `attr`, and `attr` itself under `KEY_ATTR`. -/
def newRow (attr : ColumnName → LuaValue) : ColumnName → RowCell :=
  update (fun k => .value (attr k)) keyAttr (.attr attr)

/-- How the database answers: whether preparing, binding and executing succeed, and the last id. -/
structure OrmReplies where
  prepares : Bool
  binds : Bool
  executes : Bool
  lastId : LuaValue

/-- What an insert does: the statement prepared, the values bound, the handles called with their
indices in some order, the recorded attributes of the row returned, and whether an error is
raised. -/
structure InsertRun where
  statement : Option InsertStatement
  bound : Option (List LuaValue)
  calls : List (LuaValue × ℕ)
  attr : Option (ColumnName → LuaValue)
  raised : Bool

/-- The lists at the end of the loop. -/
def OrmTable.insertLists (t : OrmTable) (a : OrmAdapter) (map : ColumnName → LuaValue) : InsertLists :=
  (t.model.map Prod.fst).foldl (insertColumn a map) ⟨[], [], [], []⟩

/-- `t("insert", obj)`; nothing is done for an object that is no table. -/
def OrmTable.insert (t : OrmTable) (a : OrmAdapter) (obj : Option (ColumnName → LuaValue))
    (replies : OrmReplies) : InsertRun :=
  match obj with
  | none => ⟨none, none, [], none, false⟩
  | some map =>
      let s := t.insertLists a map
      if s.keys = [] then ⟨none, none, [], none, false⟩
      else
        let stmt : InsertStatement := ⟨t.name, s.keys, s.places⟩
        if !replies.prepares then ⟨some stmt, none, [], none, true⟩
        else if !replies.binds then ⟨some stmt, none, [], none, true⟩
        else if !replies.executes then ⟨some stmt, some s.values, s.handles, none, true⟩
        else if replies.lastId.truthy then
          let attr := update (fillRow s.keys s.values fun _ => .nil) t.fieldId replies.lastId
          ⟨some stmt, some s.values, s.handles, some attr, false⟩
        else ⟨some stmt, some s.values, s.handles, none, false⟩

/-! ## What an insert should do -/

/-- The columns that the placeholders of a statement stand for. -/
def InsertStatement.params (stmt : InsertStatement) : List ColumnName :=
  (stmt.keys.zip stmt.places).filterMap fun (k, place) => if place = .param then some k else none

/-- The value to bind for a column; that of a handle is the sentinel. -/
def boundValue (a : OrmAdapter) (map : ColumnName → LuaValue) (k : ColumnName) : LuaValue :=
  if a.isHandle (map k) then a.longDataSentinel.getD .nil else map k

/-- The handles of columns with the positions of the columns, counted from `n`. -/
def handlePlaces (a : OrmAdapter) (map : ColumnName → LuaValue) (n : ℕ) (ks : List ColumnName) :
    List (LuaValue × ℕ) :=
  (ks.zipIdx n).filterMap fun (k, i) => if a.isHandle (map k) then some (map k, i) else none

/-- The row has the value inserted for each bound column, and no other column has a value but the
id. -/
def RowAligned (t : OrmTable) (a : OrmAdapter) (map : ColumnName → LuaValue)
    (params : List ColumnName) (attr : ColumnName → LuaValue) : Prop :=
  (∀ k ∈ params, attr k = boundValue a map k ∧ newRow attr k = .value (boundValue a map k)) ∧
    ∀ k ∉ params, k ≠ t.fieldId → attr k = .nil ∧ ∀ v, newRow attr k = .value v → v = .nil

/-- An insert is aligned: each placeholder is bound to the value of its column, each handle is
called with the position of its own parameter, and the row has the values inserted. -/
structure InsertRun.Aligned (run : InsertRun) (t : OrmTable) (a : OrmAdapter)
    (map : ColumnName → LuaValue) : Prop where
  bound : ∀ stmt ∈ run.statement, ∀ vs ∈ run.bound, vs = stmt.params.map (boundValue a map)
  called : ∀ stmt ∈ run.statement, run.bound.isSome → run.calls.Perm (handlePlaces a map 0 stmt.params)
  row : ∀ stmt ∈ run.statement, ∀ attr ∈ run.attr, RowAligned t a map stmt.params attr

/-- The columns that have a value, in the order of the model. -/
def OrmTable.inserted (t : OrmTable) (map : ColumnName → LuaValue) : List ColumnName :=
  (t.model.map Prod.fst).filter fun k => (map k).truthy

/-- No built-in comes before a column of the given kind. -/
def NowLast (a : OrmAdapter) (map : ColumnName → LuaValue) (kind : LuaValue → Bool)
    (ks : List ColumnName) : Prop :=
  ks.Pairwise fun k k' => a.isNow (map k) → kind (map k') = false

/-- No two columns share a handle. -/
def HandlesDiffer (a : OrmAdapter) (map : ColumnName → LuaValue) (ks : List ColumnName) : Prop :=
  ks.Pairwise fun k k' => a.isHandle (map k) → a.isHandle (map k') → map k ≠ map k'

/-- What an insert needs to be aligned: of the columns, as far as the database lets it come. -/
structure OrmTable.Insertable (t : OrmTable) (a : OrmAdapter) (map : ColumnName → LuaValue)
    (replies : OrmReplies) : Prop where
  called : replies.prepares → replies.binds →
    NowLast a map a.isHandle (t.inserted map) ∧ HandlesDiffer a map (t.inserted map)
  row : replies.prepares → replies.binds → replies.executes → replies.lastId.truthy →
    NowLast a map (fun vv => !a.isNow vv) (t.inserted map) ∧
      ∀ k ∈ t.inserted map, a.isNow (map k) = false →
        k ≠ keyAttr ∧ (k = t.fieldId → boundValue a map k = replies.lastId)

/-! ## The lists -/

section Lists

variable {a : OrmAdapter} {map : ColumnName → LuaValue}

theorem OrmAdapter.isHandle_eq_false_of_isNow {vv : LuaValue} (h : a.isNow vv = true) :
    a.isHandle vv = false := by
  cases vv <;> simp_all [isNow, isHandle, LuaValue.isFunction]

/-- A value that is bound is not nil. -/
theorem boundValue_ne_nil {k : ColumnName} (h : (map k).truthy = true) :
    boundValue a map k ≠ .nil := by
  rw [boundValue]
  split
  · next hhandle =>
    intro hnil
    cases hs : a.longDataSentinel with
    | none => simp [OrmAdapter.isHandle, hs] at hhandle
    | some v =>
      rw [hs, Option.getD_some] at hnil
      exact a.sentinel_ne_nil (by rw [hs, hnil])
  · rintro hnil
    simp [hnil, LuaValue.truthy] at h

/-- The place of a column. -/
def columnPlace (a : OrmAdapter) (map : ColumnName → LuaValue) (k : ColumnName) : Place :=
  if a.isNow (map k) then .builtin (a.builtinNow.getD []) else .param

/-- The columns that get a placeholder. -/
def paramColumns (a : OrmAdapter) (map : ColumnName → LuaValue) (ks : List ColumnName) :
    List ColumnName := ks.filter fun k => !a.isNow (map k)

@[simp] theorem handlePlaces_cons (n : ℕ) (k : ColumnName) (ks : List ColumnName) :
    handlePlaces a map n (k :: ks)
      = (if a.isHandle (map k) then [(map k, n)] else []) ++ handlePlaces a map (n + 1) ks := by
  rw [handlePlaces, List.zipIdx_cons, List.filterMap_cons]
  by_cases h : a.isHandle (map k) <;> simp [h, handlePlaces]

/-- What the loop over some columns adds to the lists. -/
theorem foldl_insertColumn (ks : List ColumnName) (s : InsertLists)
    (hlen : s.keys.length = s.places.length) :
    let ks' := ks.filter fun k => (map k).truthy
    ks.foldl (insertColumn a map) s =
      ⟨s.keys ++ ks', s.places ++ ks'.map (columnPlace a map),
        s.values ++ (paramColumns a map ks').map (boundValue a map),
        (handlePlaces a map s.places.length ks').foldl (fun hs h => setHandle hs h.1 h.2) s.handles⟩ := by
  induction ks generalizing s with
  | nil => simp [paramColumns, handlePlaces]
  | cons k ks ih =>
    intro ks'
    rw [List.foldl_cons]
    by_cases htrue : (map k).truthy
    · by_cases hnow : a.isNow (map k)
      · have hplain := OrmAdapter.isHandle_eq_false_of_isNow hnow
        rw [ih _ (by simp [insertColumn, htrue, hnow, hlen])]
        simp [ks', insertColumn, htrue, hnow, hplain, paramColumns, columnPlace]
      · by_cases hhandle : a.isHandle (map k)
        · rw [ih _ (by simp [insertColumn, htrue, hnow, hhandle, hlen])]
          simp [ks', insertColumn, htrue, hnow, hhandle, paramColumns, columnPlace, boundValue]
        · rw [ih _ (by simp [insertColumn, htrue, hnow, hhandle, hlen])]
          simp [ks', insertColumn, htrue, hnow, hhandle, paramColumns, columnPlace, boundValue]
    · rw [ih _ (by simp [insertColumn, htrue, hlen])]
      simp [ks', insertColumn, htrue]

variable (a map) in
/-- The placeholders stand for the columns without a built-in. -/
theorem params_columns (table : List UInt8) (ks : List ColumnName) :
    (InsertStatement.mk table ks (ks.map (columnPlace a map))).params = paramColumns a map ks := by
  induction ks with
  | nil => rfl
  | cons k ks ih =>
    simp only [InsertStatement.params, paramColumns] at ih ⊢
    by_cases hnow : a.isNow (map k) <;> simp [columnPlace, hnow, ih]

theorem nowLast_cons {kind : LuaValue → Bool} {k : ColumnName} {ks : List ColumnName} :
    NowLast a map kind (k :: ks)
      ↔ (a.isNow (map k) → ∀ k' ∈ ks, kind (map k') = false) ∧ NowLast a map kind ks := by
  rw [NowLast, List.pairwise_cons]
  constructor
  · exact fun h => ⟨fun hnow k' hk' => h.1 k' hk' hnow, h.2⟩
  · exact fun h => ⟨fun k' hk' hnow => h.1 hnow k' hk', h.2⟩

/-- Without a column of the kind there is nothing to come before. -/
theorem nowLast_of_forall {kind : LuaValue → Bool} {ks : List ColumnName}
    (h : ∀ k ∈ ks, kind (map k) = false) : NowLast a map kind ks := by
  induction ks with
  | nil => exact List.Pairwise.nil
  | cons k ks ih =>
    rw [List.forall_mem_cons] at h
    exact nowLast_cons.mpr ⟨fun _ => h.2, ih h.2⟩

end Lists

/-! ## The handles -/

section Handles

/-- The handles of the table have one index each. -/
theorem nodup_setHandle {hs : List (LuaValue × ℕ)} (h : (hs.map Prod.fst).Nodup) (vv : LuaValue)
    (idx : ℕ) : ((setHandle hs vv idx).map Prod.fst).Nodup := by
  rw [setHandle]
  split
  · have hkeys : (hs.map fun h => if h.1 = vv then (vv, idx) else h).map Prod.fst = hs.map Prod.fst := by
      rw [List.map_map]
      apply List.map_congr_left
      intro h _
      by_cases hv : h.1 = vv <;> simp [hv]
    rwa [hkeys]
  · next hmem =>
    rw [List.map_append, List.nodup_append]
    refine ⟨h, by simp, ?_⟩
    rintro b hb c hc rfl
    rw [List.map_singleton, List.mem_singleton] at hc
    subst hc
    exact hmem hb

theorem nodup_foldl_setHandle (ps : List (LuaValue × ℕ)) {hs : List (LuaValue × ℕ)}
    (h : (hs.map Prod.fst).Nodup) :
    ((ps.foldl (fun hs p => setHandle hs p.1 p.2) hs).map Prod.fst).Nodup := by
  induction ps generalizing hs with
  | nil => exact h
  | cons p ps ih => exact ih (nodup_setHandle h p.1 p.2)

/-- Different handles are listed one behind the other. -/
theorem foldl_setHandle (ps : List (LuaValue × ℕ)) {hs : List (LuaValue × ℕ)}
    (h : ((hs ++ ps).map Prod.fst).Nodup) :
    ps.foldl (fun hs p => setHandle hs p.1 p.2) hs = hs ++ ps := by
  induction ps generalizing hs with
  | nil => simp
  | cons p ps ih =>
    have hnew : p.1 ∉ hs.map Prod.fst := by
      rw [List.map_append, List.map_cons, List.nodup_append] at h
      intro hmem
      exact h.2.2 _ hmem _ List.mem_cons_self rfl
    rw [List.foldl_cons, setHandle, if_neg hnew, ih]
    · simp
    · simpa using h

/-- Two lists with the same different keys and the same pairs are one. -/
theorem eq_of_perm_of_keys {κ β : Type*} {l₁ l₂ : List (κ × β)} (hperm : l₁.Perm l₂)
    (hkeys : l₁.map Prod.fst = l₂.map Prod.fst) (hnodup : (l₁.map Prod.fst).Nodup) : l₁ = l₂ := by
  induction l₁ generalizing l₂ with
  | nil => exact (List.Perm.nil_eq hperm)
  | cons p l₁ ih =>
    cases l₂ with
    | nil => simp at hkeys
    | cons q l₂ =>
      simp only [List.map_cons, List.cons.injEq, List.nodup_cons] at hkeys hnodup
      have hpq : p = q := by
        rcases List.mem_cons.mp (hperm.subset List.mem_cons_self) with hpq | hmem
        · exact hpq
        · exact absurd (hkeys.2 ▸ List.mem_map_of_mem hmem) hnodup.1
      subst hpq
      rw [ih ((List.perm_cons p).mp hperm) hkeys.2 hnodup.2]

variable {a : OrmAdapter} {map : ColumnName → LuaValue}

theorem keys_handlePlaces (n : ℕ) (ks : List ColumnName) :
    (handlePlaces a map n ks).map Prod.fst = (ks.filter fun k => a.isHandle (map k)).map map := by
  induction ks generalizing n with
  | nil => rfl
  | cons k ks ih => by_cases h : a.isHandle (map k) <;> simp [h, ih]

variable (a map) in
/-- The parameters have the handles of the columns. -/
theorem keys_handlePlaces_params (n m : ℕ) (ks : List ColumnName) :
    (handlePlaces a map n ks).map Prod.fst
      = (handlePlaces a map m (paramColumns a map ks)).map Prod.fst := by
  rw [keys_handlePlaces, keys_handlePlaces, paramColumns, List.filter_filter]
  congr 1
  apply List.filter_congr
  intro k _
  by_cases hnow : a.isNow (map k)
  · simp [hnow, OrmAdapter.isHandle_eq_false_of_isNow hnow]
  · simp [hnow]

variable (a map) in
/-- Positions that are ahead agree with the parameters where there is no handle. -/
theorem handlePlaces_ahead_iff {m n : ℕ} (h : n < m) (ks : List ColumnName) :
    handlePlaces a map m ks = handlePlaces a map n (paramColumns a map ks)
      ↔ ∀ k ∈ ks, a.isHandle (map k) = false := by
  induction ks generalizing m n with
  | nil => simp [paramColumns, handlePlaces]
  | cons k ks ih =>
    by_cases hnow : a.isNow (map k)
    · have hplain := OrmAdapter.isHandle_eq_false_of_isNow hnow
      have hrest := ih (show n < m + 1 by omega)
      simpa [paramColumns, hnow, hplain] using hrest
    · by_cases hhandle : a.isHandle (map k)
      · simp [paramColumns, hnow, hhandle]
        omega
      · have hrest := ih (show n + 1 < m + 1 by omega)
        simpa [paramColumns, hnow, hhandle] using hrest

/-- The positions of the handles are those of their parameters **exactly if** no built-in comes
before a handle. -/
theorem handlePlaces_eq_iff (n : ℕ) (ks : List ColumnName) :
    handlePlaces a map n ks = handlePlaces a map n (paramColumns a map ks)
      ↔ NowLast a map a.isHandle ks := by
  induction ks generalizing n with
  | nil => simp [paramColumns, handlePlaces, NowLast]
  | cons k ks ih =>
    rw [nowLast_cons]
    by_cases hnow : a.isNow (map k)
    · have hplain := OrmAdapter.isHandle_eq_false_of_isNow hnow
      have hahead := handlePlaces_ahead_iff a map (Nat.lt_succ_self n) ks
      simp only [handlePlaces_cons, hplain, Bool.false_eq_true, if_false, List.nil_append, hnow,
        paramColumns, List.filter_cons, Bool.not_true, true_imp_iff]
      constructor
      · intro heq
        have hall := hahead.mp heq
        exact ⟨hall, nowLast_of_forall hall⟩
      · exact fun h => hahead.mpr h.1
    · have hrest := ih (n + 1)
      by_cases hhandle : a.isHandle (map k)
      · simpa [paramColumns, hnow, hhandle] using hrest
      · simpa [paramColumns, hnow, hhandle] using hrest

/-- The calls are those of the parameters **exactly if** no built-in comes before a handle and no
two columns share one. -/
theorem calls_perm_iff (ks : List ColumnName) :
    ((handlePlaces a map 0 ks).foldl (fun hs p => setHandle hs p.1 p.2) []).Perm
        (handlePlaces a map 0 (paramColumns a map ks))
      ↔ NowLast a map a.isHandle ks ∧ HandlesDiffer a map ks := by
  have hkeys := keys_handlePlaces_params a map 0 0 ks
  have hdiffer : HandlesDiffer a map ks ↔ ((handlePlaces a map 0 ks).map Prod.fst).Nodup := by
    rw [keys_handlePlaces, List.Nodup, List.pairwise_map, List.pairwise_filter, HandlesDiffer]
  rw [← handlePlaces_eq_iff 0, hdiffer]
  constructor
  · intro hperm
    have hnodup := @nodup_foldl_setHandle (handlePlaces a map 0 ks) [] List.nodup_nil
    have hnodup' : ((handlePlaces a map 0 ks).map Prod.fst).Nodup := by
      rw [hkeys]
      exact (hperm.map Prod.fst).nodup_iff.mp hnodup
    rw [foldl_setHandle _ (by simpa using hnodup'), List.nil_append] at hperm
    exact ⟨eq_of_perm_of_keys hperm hkeys hnodup', hnodup'⟩
  · rintro ⟨heq, hnodup⟩
    rw [foldl_setHandle _ (by simpa using hnodup), List.nil_append, heq]

end Handles

/-! ## The row -/

section Rows

variable {a : OrmAdapter} {map : ColumnName → LuaValue}

theorem fillRow_of_notMem {ks : List ColumnName} {k : ColumnName} (h : k ∉ ks) (vs : List LuaValue)
    (r : ColumnName → LuaValue) : fillRow ks vs r k = r k := by
  induction ks generalizing vs r with
  | nil => rfl
  | cons k' ks ih =>
    rw [List.mem_cons, not_or] at h
    rw [fillRow, ih h.2, update_of_ne h.1]

/-- Without values the columns get nil. -/
theorem fillRow_nil {ks : List ColumnName} {k : ColumnName} (h : k ∈ ks)
    (r : ColumnName → LuaValue) : fillRow ks [] r k = .nil := by
  induction ks generalizing r with
  | nil => cases h
  | cons k' ks ih =>
    rw [fillRow, List.tail_nil, List.headD_nil]
    by_cases hmem : k ∈ ks
    · exact ih hmem _
    · rw [fillRow_of_notMem hmem, (List.mem_cons.mp h).resolve_right hmem, update_self]

/-- There is a value for each column that is not nil. -/
theorem length_params_le {ks : List ColumnName} {vs : List LuaValue} {r : ColumnName → LuaValue}
    (h : ∀ k ∈ ks, a.isNow (map k) = false → fillRow ks vs r k ≠ .nil) :
    (paramColumns a map ks).length ≤ vs.length := by
  induction ks generalizing vs r with
  | nil => simp [paramColumns]
  | cons k ks ih =>
    cases vs with
    | nil =>
      have hnone : paramColumns a map (k :: ks) = [] := by
        rw [paramColumns, List.filter_eq_nil_iff]
        intro k' hk' hparam
        exact h k' hk' (by simpa using hparam) (fillRow_nil hk' r)
      simp [hnone]
    | cons v vs =>
      have hrest := @ih vs (update r k v) fun k' hk' hparam =>
        h k' (List.mem_cons_of_mem _ hk') hparam
      have hcons : (paramColumns a map (k :: ks)).length ≤ 1 + (paramColumns a map ks).length := by
        rw [paramColumns, List.filter_cons]
        split
        · simp only [List.length_cons, paramColumns]
          omega
        · simp only [paramColumns]
          omega
      simp only [List.length_cons]
      omega

/-- A built-in at the front leaves no placeholder behind it, if the row is right but for one
column. -/
theorem paramColumns_eq_nil {id k : ColumnName} {ks : List ColumnName} {r : ColumnName → LuaValue}
    (hnodup : (k :: ks).Nodup) (htrue : ∀ k' ∈ ks, (map k').truthy = true) (hnow : a.isNow (map k) = true)
    (h : ∀ k' ∈ k :: ks, k' ≠ id →
      fillRow (k :: ks) ((paramColumns a map ks).map (boundValue a map)) r k'
        = if a.isNow (map k') then .nil else boundValue a map k') :
    paramColumns a map ks = [] := by
  rw [List.nodup_cons] at hnodup
  cases hparams : paramColumns a map ks with
  | nil => rfl
  | cons p ps =>
    exfalso
    have hp : p ∈ ks := List.mem_of_mem_filter (hparams ▸ List.mem_cons_self)
    by_cases hid : k = id
    · subst hid
      have hcount := @length_params_le a map ks (ps.map (boundValue a map))
        (update r k (boundValue a map p)) ?_
      · rw [hparams, List.length_map, List.length_cons] at hcount
        omega
      · intro k' hk' hparam
        have hne : k' ≠ k := fun heq => hnodup.1 (heq ▸ hk')
        have hvalue := h k' (List.mem_cons_of_mem _ hk') hne
        rw [hparams, hparam, if_neg Bool.false_ne_true] at hvalue
        rw [fillRow, List.map_cons, List.tail_cons, List.headD_cons] at hvalue
        rw [hvalue]
        exact boundValue_ne_nil (htrue k' hk')
    · have hvalue := h k List.mem_cons_self hid
      rw [hparams, fillRow, fillRow_of_notMem hnodup.1, update_self, List.map_cons, List.headD_cons,
        if_pos hnow] at hvalue
      exact boundValue_ne_nil (htrue p hp) hvalue

/-- But for the id, the columns get their values **exactly if** no built-in comes before a
placeholder. -/
theorem fillRow_iff (id : ColumnName) {ks : List ColumnName} (hnodup : ks.Nodup)
    (htrue : ∀ k ∈ ks, (map k).truthy = true) (r : ColumnName → LuaValue) :
    (∀ k ∈ ks, k ≠ id → fillRow ks ((paramColumns a map ks).map (boundValue a map)) r k
        = if a.isNow (map k) then .nil else boundValue a map k)
      ↔ NowLast a map (fun vv => !a.isNow vv) ks := by
  induction ks generalizing r with
  | nil => simp [NowLast]
  | cons k ks ih =>
    have hnodup' := List.nodup_cons.mp hnodup
    have htrue' := fun k' hk' => htrue k' (List.mem_cons_of_mem k hk')
    rw [nowLast_cons]
    by_cases hnow : a.isNow (map k)
    · have hskip : paramColumns a map (k :: ks) = paramColumns a map ks := by
        simp [paramColumns, hnow]
      rw [hskip]
      constructor
      · intro h
        have hnil := paramColumns_eq_nil hnodup htrue' hnow h
        have hall : ∀ k' ∈ ks, a.isNow (map k') = true := by
          simpa [paramColumns] using hnil
        have hall' : ∀ k' ∈ ks, (!a.isNow (map k')) = false := fun k' hk' => by simp [hall k' hk']
        exact ⟨fun _ => hall', nowLast_of_forall hall'⟩
      · rintro ⟨hall, -⟩ k' hk' -
        have hall' : ∀ k' ∈ ks, a.isNow (map k') = true := fun k' hk' => by
          simpa using hall hnow k' hk'
        have hnil : paramColumns a map ks = [] := by
          simpa [paramColumns] using hall'
        have hnow' : a.isNow (map k') = true := by
          rcases List.mem_cons.mp hk' with rfl | hk'
          · exact hnow
          · exact hall' k' hk'
        rw [hnil, List.map_nil, fillRow_nil hk', if_pos hnow']
    · have htake : paramColumns a map (k :: ks) = k :: paramColumns a map ks := by
        simp [paramColumns, hnow]
      have hrest := ih hnodup'.2 htrue' (update r k (boundValue a map k))
      rw [htake, ← hrest]
      simp only [fillRow, List.map_cons, List.tail_cons, List.headD_cons]
      constructor
      · intro h
        exact ⟨fun hnow' => absurd hnow' hnow, fun k' hk' => h k' (List.mem_cons_of_mem _ hk')⟩
      · rintro ⟨-, h⟩ k' hk' hid
        rcases List.mem_cons.mp hk' with rfl | hk'
        · rw [fillRow_of_notMem hnodup'.1, update_self, if_neg hnow]
        · exact h k' hk' hid

theorem newRow_eq_value_iff {attr : ColumnName → LuaValue} {k : ColumnName} {v : LuaValue} :
    newRow attr k = .value v ↔ k ≠ keyAttr ∧ attr k = v := by
  rw [newRow]
  by_cases hk : k = keyAttr
  · subst hk
    simp
  · rw [update_of_ne hk]
    simp [hk]

/-- The row returned for an id has the values inserted **exactly if** no built-in comes before a
placeholder, no bound column is named like the recorded attributes, and the id is not bound to
another value. -/
theorem rowAligned_iff (t : OrmTable) (id : LuaValue) {ks : List ColumnName} (hnodup : ks.Nodup)
    (htrue : ∀ k ∈ ks, (map k).truthy = true) :
    RowAligned t a map (paramColumns a map ks)
        (update (fillRow ks ((paramColumns a map ks).map (boundValue a map)) fun _ => .nil) t.fieldId id)
      ↔ NowLast a map (fun vv => !a.isNow vv) ks ∧ ∀ k ∈ ks, a.isNow (map k) = false →
        k ≠ keyAttr ∧ (k = t.fieldId → boundValue a map k = id) := by
  have hmem : ∀ k, k ∈ paramColumns a map ks ↔ k ∈ ks ∧ a.isNow (map k) = false := by
    simp [paramColumns]
  rw [← fillRow_iff t.fieldId hnodup htrue fun _ => .nil]
  constructor
  · rintro ⟨hparams, hothers⟩
    refine ⟨fun k hk hid => ?_, fun k hk hparam => ?_⟩
    · by_cases hnow : a.isNow (map k)
      · have hvalue := (hothers k (by simp [hmem, hnow]) hid).1
        rw [update_of_ne hid] at hvalue
        rw [if_pos hnow, hvalue]
      · have hvalue := (hparams k (by simp [hmem, hnow, hk])).1
        rw [update_of_ne hid] at hvalue
        rw [if_neg hnow, hvalue]
    · obtain ⟨hattr, hrow⟩ := hparams k ((hmem k).mpr ⟨hk, hparam⟩)
      refine ⟨(newRow_eq_value_iff.mp hrow).1, ?_⟩
      rintro rfl
      rw [← hattr, update_self]
  · rintro ⟨hfill, hnames⟩
    refine ⟨fun k hk => ?_, fun k hk hid => ?_⟩
    · obtain ⟨hin, hparam⟩ := (hmem k).mp hk
      obtain ⟨hname, hvalue⟩ := hnames k hin hparam
      have hattr : update (fillRow ks ((paramColumns a map ks).map (boundValue a map)) fun _ => .nil)
          t.fieldId id k = boundValue a map k := by
        by_cases hid : k = t.fieldId
        · rw [hvalue hid, hid, update_self]
        · rw [update_of_ne hid, hfill k hin hid, hparam, if_neg Bool.false_ne_true]
      exact ⟨hattr, newRow_eq_value_iff.mpr ⟨hname, hattr⟩⟩
    · have hattr : update (fillRow ks ((paramColumns a map ks).map (boundValue a map)) fun _ => .nil)
          t.fieldId id k = .nil := by
        rw [update_of_ne hid]
        by_cases hin : k ∈ ks
        · have hnow : a.isNow (map k) = true := by
            simpa [hmem, hin] using hk
          rw [hfill k hin hid, if_pos hnow]
        · rw [fillRow_of_notMem hin]
      exact ⟨hattr, fun v hv => (newRow_eq_value_iff.mp hv).2.symm.trans hattr⟩

end Rows

/-! ## Every insert -/

section Every

variable (t : OrmTable) (a : OrmAdapter) (map : ColumnName → LuaValue)

/-- The lists at the end of the loop. -/
theorem insertLists_eq : t.insertLists a map =
    ⟨t.inserted map, (t.inserted map).map (columnPlace a map),
      (paramColumns a map (t.inserted map)).map (boundValue a map),
      (handlePlaces a map 0 (t.inserted map)).foldl (fun hs h => setHandle hs h.1 h.2) []⟩ := by
  rw [OrmTable.insertLists, foldl_insertColumn _ _ rfl]
  simp [OrmTable.inserted]

/-- An insert that binds its values is aligned **exactly if** its calls and its row are. -/
theorem aligned_of_bound (ks : List ColumnName) (attr : Option (ColumnName → LuaValue))
    (raised : Bool) :
    InsertRun.Aligned ⟨some ⟨t.name, ks, ks.map (columnPlace a map)⟩,
        some ((paramColumns a map ks).map (boundValue a map)),
        (handlePlaces a map 0 ks).foldl (fun hs h => setHandle hs h.1 h.2) [], attr, raised⟩ t a map
      ↔ (NowLast a map a.isHandle ks ∧ HandlesDiffer a map ks) ∧
        ∀ r ∈ attr, RowAligned t a map (paramColumns a map ks) r := by
  have hparams := params_columns a map t.name ks
  rw [← calls_perm_iff, ← hparams]
  constructor
  · exact fun h => ⟨h.called _ rfl rfl, h.row _ rfl⟩
  · rintro ⟨hcalls, hrow⟩
    refine ⟨?_, ?_, ?_⟩
    · rintro _ ⟨⟩ _ ⟨⟩
      rfl
    · rintro _ ⟨⟩ -
      exact hcalls
    · rintro _ ⟨⟩
      exact hrow

/-- **Inserting a row.**  An insert is aligned **exactly if** its columns meet the condition, as
far as the database lets it come. -/
theorem insert_aligned_iff (replies : OrmReplies) :
    (t.insert a (some map) replies).Aligned t a map ↔ t.Insertable a map replies := by
  have hbound := aligned_of_bound t a map (t.inserted map)
  have hnodup : (t.inserted map).Nodup := t.nodup.filter _
  have htrue : ∀ k ∈ t.inserted map, (map k).truthy = true := fun k hk =>
    (List.mem_filter.mp hk).2
  have hrow := rowAligned_iff (a := a) t replies.lastId hnodup htrue
  simp only [OrmTable.insert, insertLists_eq]
  by_cases hnone : t.inserted map = []
  · rw [if_pos hnone]
    constructor
    · rintro -
      exact ⟨fun _ _ => by simp [hnone, NowLast, HandlesDiffer],
        fun _ _ _ _ => by simp [hnone, NowLast]⟩
    · rintro -
      exact ⟨by simp, by simp, by simp⟩
  rw [if_neg hnone]
  -- the run ends where the database fails first
  by_cases hprepares : replies.prepares
  · by_cases hbinds : replies.binds
    · by_cases hexecutes : replies.executes
      · by_cases hid : replies.lastId.truthy
        · simp only [hprepares, hbinds, hexecutes, hid, Bool.not_true, Bool.false_eq_true, if_false,
            if_true]
          rw [hbound]
          constructor
          · exact fun h => ⟨fun _ _ => h.1, fun _ _ _ _ => hrow.mp (h.2 _ rfl)⟩
          · intro h
            refine ⟨h.called hprepares hbinds, ?_⟩
            rintro _ ⟨⟩
            exact hrow.mpr (h.row hprepares hbinds hexecutes hid)
        · simp only [hprepares, hbinds, hexecutes, hid, Bool.not_true, Bool.false_eq_true, if_false]
          rw [hbound]
          constructor
          · exact fun h => ⟨fun _ _ => h.1, fun _ _ _ htrue => absurd htrue hid⟩
          · exact fun h => ⟨h.called hprepares hbinds, by simp⟩
      · simp only [hprepares, hbinds, hexecutes, Bool.not_true, Bool.not_false, Bool.false_eq_true,
          if_false, if_true]
        rw [hbound]
        constructor
        · exact fun h => ⟨fun _ _ => h.1, fun _ _ hdone => absurd hdone hexecutes⟩
        · exact fun h => ⟨h.called hprepares hbinds, by simp⟩
    · simp only [hprepares, hbinds, Bool.not_true, Bool.not_false, Bool.false_eq_true, if_false,
        if_true]
      exact ⟨fun _ => ⟨fun _ h => absurd h hbinds, fun _ h => absurd h hbinds⟩,
        fun _ => ⟨by simp, by simp, by simp⟩⟩
  · simp only [hprepares, Bool.not_false, if_true]
    exact ⟨fun _ => ⟨fun h => absurd h hprepares, fun h => absurd h hprepares⟩,
      fun _ => ⟨by simp, by simp, by simp⟩⟩

end Every

/-- Users with the time of their registration. -/
def users : OrmTable :=
  ⟨bytesOf "users", [(bytesOf "since", .column), (bytesOf "name", .column)], none, by decide⟩

/-- A user is registered now. -/
def alice (k : ColumnName) : LuaValue :=
  if k = bytesOf "since" then .string (bytesOf "NOW()")
  else if k = bytesOf "name" then .string (bytesOf "alice") else .nil

example : (users.insert .mariadb (some alice) ⟨true, true, true, .boolean true⟩).statement.map
    InsertStatement.text = some (bytesOf "insert into users (since,name) values(NOW(),?)") := by
  decide

/-- The name of a user is recorded as the time. -/
theorem name_recorded_as_time :
    ¬∀ (t : OrmTable) (a : OrmAdapter) (map : ColumnName → LuaValue) (replies : OrmReplies),
      (t.insert a (some map) replies).Aligned t a map := by
  intro h
  have hrow := (h users .mariadb alice ⟨true, true, true, .number (.integer 1)⟩).row _ rfl _ rfl
  have htime := (hrow.2 (bytesOf "since") (by decide) (by decide)).1
  exact absurd htime (by decide)

end LuaFan
