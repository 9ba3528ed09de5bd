/-
# Updating a row (`modules/fan/orm_base.lua`, `update` of a row)

A row holds the values of its columns and, under `KEY_ATTR`, those the database has.  The loop
over the model compares them and makes a statement of the columns that differ.  The record is
brought up to date when the statement has been executed.

`update_exact_iff`: an update sets the changed columns to the values of the row **exactly if** none
of them was changed to false, which is written as null, and three odd cases are left out: a column
named like a method of the row that has no value, a column that was and is NaN, and a row without
an id.
-/
import LuaFan.Orm.Insert

namespace LuaFan

open Fp Function LuaValue

/-! ## The code -/

/-- A row: its raw fields, nil where there is none, and the recorded attributes.  Reading a method
of the row makes a closure and keeps it in the row; a new closure is not among the attributes. -/
structure OrmRow where
  fields : ColumnName → LuaValue
  attr : ColumnName → LuaValue
  closure : ColumnName → ℕ
  fresh : ∀ k, attr k ≠ .other .function (closure k)

/-- The names that `__index` of a row answers with a closure. -/
def methodNames : List ColumnName := [bytesOf "delete", bytesOf "remove", bytesOf "update"]

/-- `r[k]` for a column; for other names `__index` has nothing. -/
def OrmRow.get (r : OrmRow) (k : ColumnName) : LuaValue :=
  if r.fields k = .nil ∧ methodNames.contains k then .other .function (r.closure k) else r.fields k

/-- What a column is set to: `null`, or a placeholder. -/
inductive SetTo where
  | null
  | param
  deriving DecidableEq, Repr

/-- `k=null` or `k=?`. -/
def SetTo.text (k : ColumnName) : SetTo → List UInt8
  | null => k ++ bytesOf "=null"
  | param => k ++ bytesOf "=?"

/-- The lists that the loop over the model fills. -/
structure UpdateLists where
  list : List (ColumnName × SetTo)
  keys : List ColumnName
  values : List LuaValue

/-- A field of the model in the loop. -/
def updateColumn (r : OrmRow) (s : UpdateLists) (field : ColumnName × ModelField) : UpdateLists :=
  let k := field.1
  if field.2 = .column ∧ rawEq (r.get k) (r.attr k) = false then
    if (r.get k).truthy then ⟨s.list ++ [(k, .param)], s.keys ++ [k], s.values ++ [r.get k]⟩
    else ⟨s.list ++ [(k, .null)], s.keys ++ [k], s.values⟩
  else s

/-- The statement: the table, what its columns are set to, and the id of the where clause. -/
structure UpdateStatement where
  table : List UInt8
  list : List (ColumnName × SetTo)
  fieldId : ColumnName
  deriving DecidableEq

/-- The text given to `adapter.prepare`. -/
def UpdateStatement.text (stmt : UpdateStatement) : List UInt8 :=
  bytesOf "update " ++ stmt.table ++ bytesOf " set "
    ++ (bytesOf ",").intercalate (stmt.list.map fun item => item.2.text item.1)
    ++ bytesOf " where " ++ stmt.fieldId ++ bytesOf "=?"

/-- `table.insert(values, v)`: nil adds nothing. -/
def insertValue (values : List LuaValue) (v : LuaValue) : List LuaValue :=
  if v = .nil then values else values ++ [v]

/-- Whether preparing, binding, executing and closing succeed. -/
structure UpdateReplies where
  prepares : Bool
  binds : Bool
  executes : Bool
  closes : Bool

/-- What an update does: the statement prepared, the values bound, the recorded attributes after
it, and whether it returns or raises an error. -/
structure UpdateRun where
  statement : Option UpdateStatement
  bound : Option (List LuaValue)
  attr : ColumnName → LuaValue
  returned : Bool

/-- The lists at the end of the loop. -/
def OrmTable.updateLists (t : OrmTable) (r : OrmRow) : UpdateLists :=
  t.model.foldl (updateColumn r) ⟨[], [], []⟩

/-- `r:update()`. -/
def OrmTable.update (t : OrmTable) (r : OrmRow) (replies : UpdateReplies) : UpdateRun :=
  let s := t.updateLists r
  if s.list = [] then ⟨none, none, r.attr, true⟩
  else
    let stmt : UpdateStatement := ⟨t.name, s.list, t.fieldId⟩
    if !replies.prepares then ⟨some stmt, none, r.attr, false⟩
    else
      let values := insertValue s.values (r.attr t.fieldId)
      if !replies.binds then ⟨some stmt, none, r.attr, false⟩
      else if !replies.executes then ⟨some stmt, some values, r.attr, false⟩
      else if !replies.closes then ⟨some stmt, some values, r.attr, false⟩
      else
        let attr := s.keys.foldl (fun attr k => Function.update attr k (r.get k)) r.attr
        ⟨some stmt, some values, attr, true⟩

/-! ## What an update should do -/

/-- The columns of a model. -/
def OrmTable.columns (t : OrmTable) : List ColumnName :=
  (t.model.filter fun field => field.2 = .column).map Prod.fst

/-- Two values are the same if they are one, or if Lua finds them equal. -/
def SameField (v w : LuaValue) : Prop := v = w ∨ rawEq v w = true

instance (v w : LuaValue) : Decidable (SameField v w) := inferInstanceAs (Decidable (_ ∨ _))

/-- The columns whose values are not those recorded. -/
def OrmTable.changed (t : OrmTable) (r : OrmRow) : List ColumnName :=
  t.columns.filter fun k => ¬SameField (r.fields k) (r.attr k)

/-- The statement that sets the changed columns, nil to null. -/
def OrmTable.exactStatement (t : OrmTable) (r : OrmRow) : Option UpdateStatement :=
  if t.changed r = [] then none
  else some ⟨t.name, (t.changed r).map fun k => (k, if r.fields k = .nil then .null else .param),
    t.fieldId⟩

/-- An update is exact: it sets the changed columns to the values of the row where the id is the
recorded one, and the record follows the row if the update returns and is kept otherwise, so that a
retry prepares the same statement. -/
structure UpdateRun.Exact (run : UpdateRun) (t : OrmTable) (r : OrmRow) : Prop where
  statement : run.statement = t.exactStatement r
  bound : ∀ vs ∈ run.bound,
    vs = ((t.changed r).map r.fields).filter (· ≠ .nil) ++ [r.attr t.fieldId]
  recorded : run.returned = true → ∀ k ∈ t.columns, SameField (r.fields k) (run.attr k)
  kept : run.returned = false → run.attr = r.attr
  retried : run.returned = false → ∀ (r' : OrmRow) (replies : UpdateReplies),
    r'.fields = r.fields → r'.attr = run.attr → (t.update r' replies).statement = run.statement

/-- What an update needs of the row to be exact. -/
structure OrmTable.Updatable (t : OrmTable) (r : OrmRow) (replies : UpdateReplies) : Prop where
  methods : ∀ k ∈ t.columns, k ∈ methodNames → r.fields k ≠ .nil
  numbers : ∀ k ∈ t.columns, r.fields k = r.attr k → rawEq (r.fields k) (r.attr k) = true
  falses : ∀ k ∈ t.changed r, r.fields k ≠ .boolean false
  id : replies.prepares → replies.binds → t.changed r ≠ [] → r.attr t.fieldId ≠ .nil

/-! ## The lists -/

section Lists

variable (t : OrmTable) (r : OrmRow)

/-- The columns that the loop finds different. -/
def differing : List ColumnName := t.columns.filter fun k => rawEq (r.get k) (r.attr k) = false

/-- What the loop sets a column to. -/
def setTo (k : ColumnName) : SetTo := if (r.get k).truthy then .param else .null

theorem foldl_updateColumn (model : List (ColumnName × ModelField)) (s : UpdateLists) :
    let ks := ((model.filter fun field => field.2 = .column).map Prod.fst).filter
      fun k => rawEq (r.get k) (r.attr k) = false
    model.foldl (updateColumn r) s = ⟨s.list ++ ks.map fun k => (k, setTo r k), s.keys ++ ks,
      s.values ++ (ks.map r.get).filter truthy⟩ := by
  induction model generalizing s with
  | nil => simp
  | cons field model ih =>
    intro ks
    rw [List.foldl_cons, ih]
    by_cases hcolumn : field.2 = .column
    · by_cases hdiffers : rawEq (r.get field.1) (r.attr field.1) = false
      · by_cases htrue : (r.get field.1).truthy
        · simp [ks, updateColumn, hcolumn, hdiffers, htrue, setTo]
        · simp [ks, updateColumn, hcolumn, hdiffers, htrue, setTo]
      · simp [ks, updateColumn, hcolumn, hdiffers]
    · simp [ks, updateColumn, hcolumn]

theorem updateLists_eq : t.updateLists r = ⟨(differing t r).map fun k => (k, setTo r k),
    differing t r, ((differing t r).map r.get).filter truthy⟩ := by
  rw [OrmTable.updateLists, foldl_updateColumn]
  simp [differing, OrmTable.columns]

/-- The values bound for the columns set to a placeholder, and the id if there is one. -/
def boundValues : List LuaValue :=
  insertValue (((differing t r).map r.get).filter truthy) (r.attr t.fieldId)

/-- The record after the statement has been executed. -/
def recorded (k : ColumnName) : LuaValue := if (differing t r).contains k then r.get k else r.attr k

theorem foldl_record (ks : List ColumnName) (attr : ColumnName → LuaValue) :
    ks.foldl (fun attr k => Function.update attr k (r.get k)) attr
      = fun k => if ks.contains k then r.get k else attr k := by
  induction ks generalizing attr with
  | nil => simp
  | cons k' ks ih =>
    rw [List.foldl_cons, ih]
    funext k
    by_cases hmem : k ∈ ks
    · simp [hmem]
    · by_cases hk : k = k'
      · subst hk
        simp [hmem]
      · simp [hmem, hk]

/-- What an update can do: nothing where no column differs; otherwise the statement is prepared,
the values are bound if that and binding succeed, and the record is kept unless all succeeds. -/
theorem update_cases (replies : UpdateReplies) :
    (differing t r = [] ∧ t.update r replies = ⟨none, none, r.attr, true⟩) ∨
    (differing t r ≠ [] ∧ ∃ bound attr returned, t.update r replies =
        ⟨some ⟨t.name, (differing t r).map fun k => (k, setTo r k), t.fieldId⟩, bound, attr, returned⟩ ∧
      bound = (if replies.prepares && replies.binds then some (boundValues t r) else none) ∧
      attr = if returned then recorded t r else r.attr) := by
  simp only [OrmTable.update, updateLists_eq, List.map_eq_nil_iff]
  by_cases hnone : differing t r = []
  · rw [if_pos hnone]
    exact .inl ⟨hnone, rfl⟩
  · rw [if_neg hnone]
    refine .inr ⟨hnone, ?_⟩
    cases hprepares : replies.prepares with
    | false => exact ⟨_, _, _, rfl, rfl, rfl⟩
    | true =>
      cases hbinds : replies.binds with
      | false => exact ⟨_, _, _, rfl, rfl, rfl⟩
      | true =>
        cases hexecutes : replies.executes with
        | false => exact ⟨_, _, _, rfl, rfl, rfl⟩
        | true =>
          cases hcloses : replies.closes with
          | false => exact ⟨_, _, _, rfl, rfl, rfl⟩
          | true => exact ⟨_, _, _, rfl, rfl, foldl_record r _ _⟩

/-- The statement of an update does not depend on how the database answers. -/
theorem update_statement (replies : UpdateReplies) : (t.update r replies).statement =
    if differing t r = [] then none
    else some ⟨t.name, (differing t r).map fun k => (k, setTo r k), t.fieldId⟩ := by
  rcases update_cases t r replies with ⟨hnone, hrun⟩ | ⟨hsome, bound, attr, returned, hrun, -⟩
  · rw [hrun, if_pos hnone]
  · rw [hrun, if_neg hsome]

variable {t r}

/-- The statement is the exact one **exactly if** the loop finds the changed columns, and sets those
to null that are nil. -/
theorem update_statement_iff (replies : UpdateReplies) :
    (t.update r replies).statement = t.exactStatement r
      ↔ differing t r = t.changed r ∧ ∀ k ∈ t.changed r, ((r.get k).truthy ↔ r.fields k ≠ .nil) := by
  rw [update_statement, OrmTable.exactStatement]
  have hset : ∀ k, setTo r k = (if r.fields k = .nil then .null else .param)
      ↔ ((r.get k).truthy ↔ r.fields k ≠ .nil) := by
    intro k
    rw [setTo]
    by_cases htrue : (r.get k).truthy <;> by_cases hnil : r.fields k = .nil <;> simp [htrue, hnil]
  by_cases hdiffering : differing t r = []
  · rw [if_pos hdiffering, hdiffering]
    by_cases hchanged : t.changed r = []
    · simp [hchanged]
    · simp [hchanged, Ne.symm hchanged]
  · rw [if_neg hdiffering]
    by_cases hchanged : t.changed r = []
    · simp [hchanged, hdiffering]
    · rw [if_neg hchanged, Option.some_inj, UpdateStatement.mk.injEq]
      simp only [true_and, and_true]
      constructor
      · intro hlist
        have hkeys : differing t r = t.changed r := by
          have hmap := congrArg (List.map Prod.fst) hlist
          simpa [Function.comp_def] using hmap
        rw [hkeys, List.map_inj_left] at hlist
        exact ⟨hkeys, fun k hk => (hset k).mp (Prod.mk.inj (hlist k hk)).2⟩
      · rintro ⟨hkeys, hall⟩
        rw [hkeys, List.map_inj_left]
        exact fun k hk => Prod.ext rfl ((hset k).mpr (hall k hk))

/-- The loop makes the exact statement **exactly if** the row has none of the odd cases. -/
theorem differing_iff : (differing t r = t.changed r
      ∧ ∀ k ∈ t.changed r, ((r.get k).truthy ↔ r.fields k ≠ .nil))
    ↔ (∀ k ∈ t.columns, k ∈ methodNames → r.fields k ≠ .nil)
      ∧ (∀ k ∈ t.columns, r.fields k = r.attr k → rawEq (r.fields k) (r.attr k) = true)
      ∧ ∀ k ∈ t.changed r, r.fields k ≠ .boolean false := by
  have hdiffering : ∀ k, k ∈ differing t r ↔ k ∈ t.columns ∧ rawEq (r.get k) (r.attr k) = false := by
    simp [differing]
  have hchanged : ∀ k, k ∈ t.changed r ↔ k ∈ t.columns ∧ ¬SameField (r.fields k) (r.attr k) := by
    simp [OrmTable.changed]
  constructor
  · rintro ⟨hkeys, hset⟩
    have hmethods : ∀ k ∈ t.columns, k ∈ methodNames → r.fields k ≠ .nil := by
      intro k hk hmethod hnil
      have hget : r.get k = .other .function (r.closure k) := if_pos ⟨hnil, List.contains_iff_mem.mpr hmethod⟩
      have hdiffers : rawEq (r.get k) (r.attr k) = false := by
        rw [hget]
        cases hattr : r.attr k <;> simp [rawEq]
        have hfresh := r.fresh k
        grind
      have hmem := hkeys ▸ (hdiffering k).mpr ⟨hk, hdiffers⟩
      exact (hset k hmem).mp (by rw [hget]; rfl) hnil
    have hget : ∀ k ∈ t.columns, r.get k = r.fields k := fun k hk =>
      if_neg fun h => hmethods k hk (List.contains_iff_mem.mp h.2) h.1
    refine ⟨hmethods, fun k hk hsame => ?_, fun k hk hfalse => ?_⟩
    · by_contra hnan
      rw [Bool.not_eq_true] at hnan
      have hmem := hkeys ▸ (hdiffering k).mpr ⟨hk, by rw [hget k hk, hnan]⟩
      exact ((hchanged k).mp hmem).2 (Or.inl hsame)
    · have htrue := (hset k hk).mpr (by rw [hfalse]; simp)
      rw [hget k ((hchanged k).mp hk).1, hfalse] at htrue
      exact Bool.noConfusion htrue
  · rintro ⟨hmethods, hnumbers, hfalses⟩
    have hget : ∀ k ∈ t.columns, r.get k = r.fields k := fun k hk =>
      if_neg fun h => hmethods k hk (List.contains_iff_mem.mp h.2) h.1
    constructor
    · rw [differing, OrmTable.changed]
      apply List.filter_congr
      intro k hk
      rw [hget k hk]
      by_cases hraw : rawEq (r.fields k) (r.attr k) = true
      · simp [SameField, hraw]
      · have hne : r.fields k ≠ r.attr k := fun hsame => hraw (hnumbers k hk hsame)
        simp [SameField, hraw, hne]
    · intro k hk
      have hfalse := hfalses k hk
      rw [hget k ((hchanged k).mp hk).1]
      cases hv : r.fields k with
      | nil => simp [truthy]
      | boolean b => cases b <;> simp_all [truthy]
      | number n => simp [truthy]
      | string s => simp [truthy]
      | table ref => simp [truthy]
      | other type ref => simp [truthy]

end Lists

/-! ## Every update -/

section Every

variable {t : OrmTable} {r : OrmRow}

/-- The values of the columns that are not null are bound. -/
theorem filter_truthy (hset : ∀ k ∈ t.changed r, ((r.get k).truthy ↔ r.fields k ≠ .nil)) :
    ((t.changed r).map r.get).filter truthy = ((t.changed r).map r.fields).filter (· ≠ .nil) := by
  rw [List.filter_map, List.filter_map]
  have hkeys : (t.changed r).filter (truthy ∘ r.get)
      = (t.changed r).filter ((fun v => decide (v ≠ LuaValue.nil)) ∘ r.fields) := by
    apply List.filter_congr
    intro k hk
    rw [comp_apply, comp_apply, Bool.eq_iff_iff, decide_eq_true_iff]
    exact hset k hk
  rw [hkeys]
  apply List.map_congr_left
  intro k hk
  have hvalue : r.fields k ≠ .nil := by simpa using (List.mem_filter.mp hk).2
  exact if_neg fun h => hvalue h.1

/-- **Updating a row.**  An update is exact **exactly if** no column was changed to false, and the
row has none of the odd cases. -/
theorem update_exact_iff (t : OrmTable) (r : OrmRow) (replies : UpdateReplies) :
    (t.update r replies).Exact t r ↔ t.Updatable r replies := by
  constructor
  · intro h
    obtain ⟨hkeys, hset⟩ := (update_statement_iff replies).mp h.statement
    obtain ⟨hmethods, hnumbers, hfalses⟩ := differing_iff.mp ⟨hkeys, hset⟩
    refine ⟨hmethods, hnumbers, hfalses, fun hprepares hbinds hsome hid => ?_⟩
    rcases update_cases t r replies with ⟨hnone, -⟩ | ⟨-, bound, attr, returned, hrun, hbound, -⟩
    · exact hsome (hkeys ▸ hnone)
    · rw [hprepares, hbinds, Bool.and_self, if_pos rfl] at hbound
      have hvalues := h.bound (boundValues t r) (by rw [hrun, hbound]; rfl)
      rw [boundValues, insertValue, if_pos hid, hkeys, filter_truthy hset] at hvalues
      simpa using congrArg List.length hvalues
  · rintro ⟨hmethods, hnumbers, hfalses, hid⟩
    obtain ⟨hkeys, hset⟩ := differing_iff.mpr ⟨hmethods, hnumbers, hfalses⟩
    have hstatement := fun replies => (update_statement_iff replies).mpr ⟨hkeys, hset⟩
    have hget : ∀ k ∈ t.columns, r.get k = r.fields k := fun k hk =>
      if_neg fun hm => hmethods k hk (List.contains_iff_mem.mp hm.2) hm.1
    rcases update_cases t r replies with ⟨hnone, hrun⟩ | ⟨hsome, bound, attr, returned, hrun, hbound, hattr⟩
    · refine ⟨hstatement replies, by simp [hrun], fun _ k hk => ?_, by simp [hrun], by simp [hrun]⟩
      have hsame : k ∉ t.changed r := by simp [← hkeys, hnone]
      rw [hrun]
      simpa [OrmTable.changed, hk] using hsame
    · have hkept : (t.update r replies).returned = false → (t.update r replies).attr = r.attr := by
        rw [hrun]
        intro hraised
        rw [hattr]
        exact if_neg (by simpa using hraised)
      refine ⟨hstatement replies, fun vs hvs => ?_, fun hreturned k hk => ?_, hkept, ?_⟩
      · rw [hrun, hbound] at hvs
        cases hboth : replies.prepares && replies.binds with
        | false => simp [hboth] at hvs
        | true =>
          rw [hboth, if_pos rfl, Option.mem_some_iff] at hvs
          rw [Bool.and_eq_true] at hboth
          have hne := hid hboth.1 hboth.2 (hkeys ▸ hsome)
          rw [← hvs, boundValues, insertValue, if_neg hne, hkeys, filter_truthy hset]
      · rw [hrun] at hreturned ⊢
        show SameField (r.fields k) (attr k)
        rw [hattr, if_pos hreturned, recorded]
        split
        · exact .inl (hget k hk).symm
        · next hnot =>
          rw [hkeys, List.contains_iff_mem] at hnot
          simpa [OrmTable.changed, hk] using hnot
      · -- the statement is made of the fields and the record alone
        intro hraised r' replies' hfields hrecord
        rw [hkept hraised] at hrecord
        have hchanged : t.changed r' = t.changed r := by
          rw [OrmTable.changed, OrmTable.changed, hfields, hrecord]
        have hmethods' : ∀ k ∈ t.columns, k ∈ methodNames → r'.fields k ≠ .nil := by
          rwa [hfields]
        have hnumbers' : ∀ k ∈ t.columns, r'.fields k = r'.attr k →
            rawEq (r'.fields k) (r'.attr k) = true := by
          rwa [hfields, hrecord]
        have hfalses' : ∀ k ∈ t.changed r', r'.fields k ≠ .boolean false := by
          rwa [hchanged, hfields]
        have hagain := (update_statement_iff replies').mpr
          (differing_iff.mpr ⟨hmethods', hnumbers', hfalses'⟩)
        rw [hagain, hstatement replies, OrmTable.exactStatement, OrmTable.exactStatement, hchanged,
          hfields]

end Every

/-- Accounts that are active or not. -/
def accounts : OrmTable :=
  ⟨bytesOf "accounts", [(bytesOf "id", .column), (bytesOf "active", .column)], none, by decide⟩

/-- An active account is changed to one that is not. -/
def closedAccount : OrmRow where
  fields k := if k = bytesOf "id" then .string (bytesOf "7")
    else if k = bytesOf "active" then .boolean false else .nil
  attr k := if k = bytesOf "id" then .string (bytesOf "7")
    else if k = bytesOf "active" then .boolean true else .nil
  closure _ := 0
  fresh k := by split <;> [simp; (split <;> simp)]

example : (accounts.update closedAccount ⟨true, true, true, true⟩).statement.map UpdateStatement.text
    = some (bytesOf "update accounts set active=null where id=?") := by
  decide

/-- A column changed to false is set to null. -/
theorem false_set_to_null :
    ¬∀ (t : OrmTable) (r : OrmRow) (replies : UpdateReplies), (t.update r replies).Exact t r := by
  intro h
  have hstatement := (h accounts closedAccount ⟨true, true, true, true⟩).statement
  exact absurd hstatement (by decide)

end LuaFan
