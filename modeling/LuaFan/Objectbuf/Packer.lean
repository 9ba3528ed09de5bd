/-
# Enumerating a value graph (`src/objectbuf.c`, `packer`)

Before anything is written, `packer` walks the graph of a value and lists its
tables, numbers, strings and functions, each once.  Numbers that a `uint32_t` holds
go into a list of their own.

`packer` is a depth-first visit (`packer_eq_visit`).  What it leaves in the context
is collected in `Packed`: **every value that can be reached is listed, everything
listed can be reached, nothing is listed twice, and the root comes first.**
-/
import LuaFan.Lib.Visit
import LuaFan.Lua.Table

namespace LuaFan

open Fp Graph

/-! ## Value graphs -/

/-- The keys and values of a table, in the order of `lua_next`. -/
def LuaHeap.children (H : LuaHeap) : LuaValue → List LuaValue
  | .table ref => (H.table ref).entries.flatMap fun e => [e.1, e.2]
  | _ => []

/-- A value that can be reached through keys and values. -/
def LuaHeap.Reach (H : LuaHeap) : LuaValue → LuaValue → Prop :=
  Relation.ReflTransGen fun v w => w ∈ H.children v

theorem LuaHeap.mem_children {H : LuaHeap} {ref : ℕ} {v : LuaValue} :
    v ∈ H.children (.table ref) ↔
      ∃ e ∈ (H.table ref).entries, v = e.1 ∨ v = e.2 := by
  simp [LuaHeap.children]

/-! ## The code -/

/-- A Lua table from values to positions, the newest assignment first. -/
abbrev IndexMap := List (LuaValue × ℕ)

def IndexMap.get (m : IndexMap) (v : LuaValue) : Option ℕ :=
  (m.find? fun e => e.1.rawEq v).map Prod.snd

def IndexMap.set (m : IndexMap) (v : LuaValue) (i : ℕ) : IndexMap := (v, i) :: m

/-- The context: the lists of values and the maps from values to list positions. -/
structure Ctx where
  tables : List LuaValue
  numbers : List LuaValue
  u30s : List LuaValue
  strings : List LuaValue
  funcs : List LuaValue
  tableIdxs : IndexMap
  numIdxs : IndexMap
  stringIdxs : IndexMap
  funcIdxs : IndexMap

/-- `ctx_init`. -/
def Ctx.init : Ctx := ⟨[], [], [], [], [], [], [], [], []⟩

/-- The test of `packer_number`: the number, as a `double`, is a whole number from 0
below 2^32. -/
def LuaNumber.isU30 (n : LuaNumber) : Bool :=
  match n.toDouble.value with
  | .fin z => decide (z % unitsPerOne = 0 ∧ 0 ≤ z ∧ z < 2 ^ 32 * unitsPerOne)
  | _ => false

/-- The list and the map of a value get a new member. -/
def Ctx.add (ctx : Ctx) : LuaValue → Ctx
  | .table ref =>
      { ctx with
        tables := ctx.tables ++ [.table ref]
        tableIdxs := ctx.tableIdxs.set (.table ref) (ctx.tables.length + 1) }
  | .number n =>
      if n.isU30 then
        { ctx with
          u30s := ctx.u30s ++ [.number n]
          numIdxs := ctx.numIdxs.set (.number n) (ctx.u30s.length + 1) }
      else
        { ctx with
          numbers := ctx.numbers ++ [.number n]
          numIdxs := ctx.numIdxs.set (.number n) (ctx.numbers.length + 1) }
  | .string s =>
      { ctx with
        strings := ctx.strings ++ [.string s]
        stringIdxs := ctx.stringIdxs.set (.string s) (ctx.strings.length + 1) }
  | .other .function ref =>
      { ctx with
        funcs := ctx.funcs ++ [.other .function ref]
        funcIdxs := ctx.funcIdxs.set (.other .function ref) (ctx.funcs.length + 1) }
  | _ => ctx

/-- `packer_number`; NaN cannot be a key of the map. -/
def packerNumber (ctx : Ctx) (n : LuaNumber) : Except String Ctx :=
  match ctx.numIdxs.get (.number n) with
  | some _ => .ok ctx
  | none => if n.isNan then .error "table index is NaN" else .ok (ctx.add (.number n))

/-- `packer_string`. -/
def packerString (ctx : Ctx) (s : List UInt8) : Ctx :=
  match ctx.stringIdxs.get (.string s) with
  | some _ => ctx
  | none => ctx.add (.string s)

/-- `packer_function`. -/
def packerFunction (ctx : Ctx) (ref : ℕ) : Ctx :=
  match ctx.funcIdxs.get (.other .function ref) with
  | some _ => ctx
  | none => ctx.add (.other .function ref)

/-- `packer`, with `packer_table`.  The depth of the recursion is bounded by the
number of tables; the error `none` means that the bound was too low. -/
def packer (H : LuaHeap) : ℕ → Ctx → LuaValue → Except (Option String) Ctx
  | 0, _, _ => .error none
  | fuel + 1, ctx, .table ref =>
      match ctx.tableIdxs.get (.table ref) with
      | some _ => .ok ctx
      | none =>
          (H.table ref).entries.foldlM (fun ctx e => do
            let ctx ← packer H fuel ctx e.1
            packer H fuel ctx e.2) (ctx.add (.table ref))
  | _ + 1, ctx, .number n => (packerNumber ctx n).mapError some
  | _ + 1, ctx, .string s => .ok (packerString ctx s)
  | _ + 1, ctx, .other .function ref => .ok (packerFunction ctx ref)
  | _ + 1, ctx, _ => .ok ctx

/-! ## Numbers as doubles -/

/-- The words that integers are converted to are no NaNs. -/
theorem value_ofInt_ne_nan (i : ℤ) : (ofInt i).value ≠ .nan := by
  have hle : (ofInt i).mag ≤ infMag := Nat.min_le_right _ _
  unfold Binary64.value
  rw [if_neg (by omega)]
  split
  · split <;> simp
  · simp

namespace LuaNumber

theorem value_toDouble_ne_nan {n : LuaNumber} (h : n.isNan = false) : n.toDouble.value ≠ .nan := by
  cases n with
  | integer i => exact value_ofInt_ne_nan i.toInt
  | float x => exact of_decide_eq_false h

/-- A number is a `double` when its value is that of some word. -/
def IsDouble (n : LuaNumber) : Prop := ∃ x : Binary64, x.value = n.value

theorem value_toDouble_iff (n : LuaNumber) : n.toDouble.value = n.value ↔ n.IsDouble := by
  cases n with
  | integer i => exact value_ofInt_iff i.toInt
  | float x => exact ⟨fun _ => ⟨x, rfl⟩, fun _ => rfl⟩

/-- **The numbers that are written as u30 are the integers from 0 below 2^32.** -/
theorem isU30_iff (n : LuaNumber) : n.isU30 = true ↔ ∃ k : ℕ, k < 2 ^ 32 ∧ n.value = intValue k := by
  have hpos : (0 : ℤ) < unitsPerOne := Int.natCast_pos.mpr unitsPerOne_pos
  -- in terms of the double
  have hdouble : n.isU30 = true ↔ ∃ k : ℕ, k < 2 ^ 32 ∧ n.toDouble.value = intValue k := by
    unfold isU30
    cases hv : n.toDouble.value with
    | fin z =>
        simp only [decide_eq_true_eq, intValue, Value.fin.injEq]
        constructor
        · rintro ⟨hmod, hlow, hhigh⟩
          have hz : z / unitsPerOne * unitsPerOne = z := Int.ediv_mul_cancel_of_emod_eq_zero hmod
          have hq : 0 ≤ z / unitsPerOne := Int.ediv_nonneg hlow hpos.le
          refine ⟨(z / unitsPerOne).toNat, ?_, ?_⟩
          · have : z / unitsPerOne < 2 ^ 32 := Int.ediv_lt_of_lt_mul hpos hhigh
            omega
          · rw [Int.toNat_of_nonneg hq, hz]
        · rintro ⟨k, hk, rfl⟩
          refine ⟨Int.mul_emod_left _ _, Int.mul_nonneg (Int.natCast_nonneg k) hpos.le, ?_⟩
          exact Int.mul_lt_mul_of_pos_right (by exact_mod_cast hk) hpos
    | _ => simp [intValue]
  rw [hdouble]
  cases n with
  | float x => rfl
  | integer i =>
      constructor
      · rintro ⟨k, hk, hval⟩
        -- an integer outside the range is not rounded into it
        obtain ⟨hfin, hunits⟩ := units_of_value hval
        have hrange : 0 ≤ i.toInt ∧ i.toInt < 2 ^ 32 := by
          constructor
          · by_contra hneg
            obtain ⟨mag, hmag, hle⟩ := le_mag_ofInt (n := 1) (i := i.toInt) (by norm_num) (by omega)
            have hmono := units_mono hle
            have hsign : (ofInt i.toInt).neg = true := by
              show decide (i.toInt < 0) = true
              simp only [decide_eq_true_eq]
              omega
            have hv := hval
            simp only [toDouble] at hv hunits hfin
            rw [Binary64.value, if_neg (by omega), if_neg (by omega), hsign, intValue] at hv
            simp only [if_true, Value.fin.injEq] at hv
            have hpos' := unitsPerOne_pos
            have : (0 : ℤ) ≤ k * unitsPerOne := Int.mul_nonneg (Int.natCast_nonneg k) (Int.natCast_nonneg _)
            omega
          · by_contra hbig
            obtain ⟨mag, hmag, hle⟩ :=
              le_mag_ofInt (n := 2 ^ 32) (i := i.toInt) (by norm_num) (by omega)
            have hmono := units_mono hle
            simp only [toDouble] at hunits
            rw [hmag, hunits, Int.natAbs_mul, Int.natAbs_natCast, Int.natAbs_natCast] at hmono
            have := Nat.le_of_mul_le_mul_right hmono unitsPerOne_pos
            omega
        refine ⟨i.toInt.toNat, by omega, ?_⟩
        rw [value, Int.toNat_of_nonneg hrange.1]
      · rintro ⟨k, hk, hval⟩
        have hik : i.toInt = k := by
          simp only [value, intValue, Value.fin.injEq] at hval
          exact Int.eq_of_mul_eq_mul_right hpos.ne' hval
        refine ⟨k, hk, ?_⟩
        rw [toDouble, hik]
        exact value_ofInt_natCast (by omega)

end LuaNumber

/-! ## Packing as a visit -/

/-- The map of a kind of values; none for those that are not listed. -/
def Ctx.idxs (ctx : Ctx) : LuaValue → Option IndexMap
  | .table _ => some ctx.tableIdxs
  | .number _ => some ctx.numIdxs
  | .string _ => some ctx.stringIdxs
  | .other .function _ => some ctx.funcIdxs
  | _ => none

def packerVisitor (H : LuaHeap) : Visitor LuaValue Ctx String where
  children := H.children
  seen ctx v :=
    match ctx.idxs v with
    | some m => (m.get v).isSome
    | none => true
  enter ctx v := if v.isKey = false then .error "table index is NaN" else .ok (ctx.add v)

theorem foldlM_pairs {σ : Type} {ε : Type} (f : σ → LuaValue → Except ε σ) :
    ∀ (es : List (LuaValue × LuaValue)) (s : σ),
      es.foldlM (fun s e => do
        let s ← f s e.1
        f s e.2) s = (es.flatMap fun e => [e.1, e.2]).foldlM f s := by
  intro es
  induction es with
  | nil =>
      intro s
      rfl
  | cons e es ih =>
      intro s
      simp only [List.foldlM_cons, List.flatMap_cons, List.cons_append, List.nil_append, bind_assoc]
      congr 1
      funext s
      congr 1
      funext s
      exact ih s

section Visitor

variable {H : LuaHeap} {ctx : Ctx} {v : LuaValue} {m : IndexMap}

theorem packerVisitor_seen (hm : ctx.idxs v = some m) :
    (packerVisitor H).seen ctx v = (m.get v).isSome := by
  simp only [packerVisitor, hm]

theorem packerVisitor_enter (hkey : v.isKey = true) :
    (packerVisitor H).enter ctx v = .ok (ctx.add v) := by
  simp [packerVisitor, hkey]

/-- A value without children: it is listed, or it was. -/
theorem visit_scalar (fuel : ℕ) (hm : ctx.idxs v = some m) (hkey : v.isKey = true)
    (hchildren : H.children v = []) :
    (packerVisitor H).visit (fuel + 1) ctx v
      = .ok (if (m.get v).isSome then ctx else ctx.add v) := by
  cases hget : (m.get v).isSome with
  | true => exact Visitor.visit_seen (by rw [packerVisitor_seen hm, hget])
  | false =>
      rw [Visitor.visit_unseen (by rw [packerVisitor_seen hm, hget]) (packerVisitor_enter hkey)]
      show (H.children v).foldlM _ _ = _
      rw [hchildren]
      rfl

end Visitor

/-- **`packer` is the depth-first visit of the graph.** -/
theorem packer_eq_visit (H : LuaHeap) (fuel : ℕ) :
    ∀ (ctx : Ctx) (v : LuaValue), packer H fuel ctx v = (packerVisitor H).visit fuel ctx v := by
  induction fuel with
  | zero =>
      intro ctx v
      rfl
  | succ fuel ih =>
      intro ctx v
      cases v with
      | table ref =>
          rw [packer]
          cases hget : ctx.tableIdxs.get (.table ref) with
          | some i =>
              refine (Visitor.visit_seen ?_).symm
              rw [packerVisitor_seen rfl, hget]
              rfl
          | none =>
              have hunseen : (packerVisitor H).seen ctx (.table ref) = false := by
                rw [packerVisitor_seen rfl, hget]
                rfl
              rw [Visitor.visit_unseen hunseen (packerVisitor_enter rfl)]
              simp only
              rw [foldlM_pairs (packer H fuel), funext fun ctx => funext (ih ctx)]
              rfl
      | number n =>
          rw [packer, packerNumber]
          cases hnan : n.isNan with
          | true =>
              -- NaN is in no map, and cannot be put into one
              have hget : ctx.numIdxs.get (.number n) = none := by
                have hval : n.value = .nan := by simpa [LuaNumber.isNan] using hnan
                rw [IndexMap.get, Option.map_eq_none_iff, List.find?_eq_none]
                rintro ⟨k, i⟩ -
                cases k with
                | number m =>
                    simp only [LuaValue.rawEq, LuaNumber.isNan, hval, Bool.and_eq_true,
                      Bool.not_eq_true', decide_eq_false_iff_not, decide_eq_true_eq, not_and]
                    exact fun h => h
                | _ => simp [LuaValue.rawEq]
              rw [hget, Visitor.visit]
              simp [packerVisitor, Ctx.idxs, hget, LuaValue.isKey, hnan, Except.mapError]
          | false =>
              rw [visit_scalar fuel rfl (by simp [LuaValue.isKey, hnan]) rfl]
              cases ctx.numIdxs.get (.number n) <;> rfl
      | string s =>
          rw [packer, packerString, visit_scalar fuel rfl rfl rfl]
          cases ctx.stringIdxs.get (.string s) <;> rfl
      | other type ref =>
          cases type with
          | function =>
              rw [packer, packerFunction, visit_scalar fuel rfl rfl rfl]
              cases ctx.funcIdxs.get (.other .function ref) <;> rfl
          | _ => rfl
      | _ => rfl

/-! ## What the context lists -/

/-- All values in the lists of a context. -/
def Ctx.items (ctx : Ctx) : List LuaValue :=
  ctx.numbers ++ ctx.u30s ++ ctx.strings ++ ctx.funcs ++ ctx.tables

/-- Is the value of a kind that is listed? -/
def LuaValue.listed : LuaValue → Bool
  | .table _ => true
  | .number _ => true
  | .string _ => true
  | .other .function _ => true
  | _ => false

theorem idxs_isSome (ctx : Ctx) (v : LuaValue) : (ctx.idxs v).isSome = v.listed := by
  cases v with
  | other type ref => cases type <;> rfl
  | _ => rfl

theorem IndexMap.get_set (m : IndexMap) (v w : LuaValue) (i : ℕ) :
    (m.set v i).get w = if v.rawEq w then some i else m.get w := by
  rw [IndexMap.set, IndexMap.get, List.find?_cons]
  cases v.rawEq w <;> rfl

/-- A value is in the map of its kind when it is listed. -/
def Ctx.Seen (ctx : Ctx) (v : LuaValue) : Prop := ∃ m, ctx.idxs v = some m ∧ (m.get v).isSome = true

theorem seen_iff {H : LuaHeap} {ctx : Ctx} {v : LuaValue} (hlisted : v.listed = true) :
    (packerVisitor H).seen ctx v = true ↔ ctx.Seen v := by
  have hsome := (idxs_isSome ctx v).trans hlisted
  obtain ⟨m, hm⟩ := Option.isSome_iff_exists.mp hsome
  rw [packerVisitor_seen hm, Ctx.Seen]
  constructor
  · intro h
    exact ⟨m, hm, h⟩
  · rintro ⟨m', hm', h⟩
    rw [hm] at hm'
    cases hm'
    exact h

/-- Adding a value to its list adds it to its map. -/
theorem seen_add (ctx : Ctx) (v w : LuaValue) (hw : w.listed = true) :
    (ctx.add v).Seen w ↔ ctx.Seen w ∨ (v.listed = true ∧ v.rawEq w = true) := by
  have hset : ∀ (m : IndexMap) (i : ℕ), ((m.set v i).get w).isSome = true ↔
      (m.get w).isSome = true ∨ v.rawEq w = true := by
    intro m i
    rw [IndexMap.get_set]
    cases v.rawEq w <;> simp
  cases v with
  | table ref =>
      cases w with
      | table ref' => simp [Ctx.Seen, Ctx.add, Ctx.idxs, hset, LuaValue.listed]
      | other type ref' => cases type <;> simp [Ctx.Seen, Ctx.add, Ctx.idxs, LuaValue.rawEq]
      | _ => simp [Ctx.Seen, Ctx.add, Ctx.idxs, LuaValue.rawEq]
  | number n =>
      cases hu : n.isU30 <;> cases w with
      | number n' => simp [Ctx.Seen, Ctx.add, hu, Ctx.idxs, hset, LuaValue.listed]
      | other type ref' => cases type <;> simp [Ctx.Seen, Ctx.add, hu, Ctx.idxs, LuaValue.rawEq]
      | _ => simp [Ctx.Seen, Ctx.add, hu, Ctx.idxs, LuaValue.rawEq]
  | string s =>
      cases w with
      | string s' => simp [Ctx.Seen, Ctx.add, Ctx.idxs, hset, LuaValue.listed]
      | other type ref' => cases type <;> simp [Ctx.Seen, Ctx.add, Ctx.idxs, LuaValue.rawEq]
      | _ => simp [Ctx.Seen, Ctx.add, Ctx.idxs, LuaValue.rawEq]
  | other type ref =>
      cases type with
      | function =>
          cases w with
          | other type' ref' =>
              cases type' with
              | function => simp [Ctx.Seen, Ctx.add, Ctx.idxs, hset, LuaValue.listed]
              | _ => simp [LuaValue.listed] at hw
          | _ => simp [Ctx.Seen, Ctx.add, Ctx.idxs, LuaValue.rawEq]
      | _ => simp [Ctx.Seen, Ctx.add, LuaValue.listed]
  | _ => simp [Ctx.Seen, Ctx.add, LuaValue.listed]

theorem items_add (ctx : Ctx) (v : LuaValue) (hv : v.listed = true) :
    (ctx.add v).items.Perm (v :: ctx.items) := by
  have hmid : ∀ (xs ys : List LuaValue), (xs ++ [v] ++ ys).Perm (v :: (xs ++ ys)) := by
    intro xs ys
    rw [List.append_assoc]
    exact List.perm_middle
  cases v with
  | table ref => simpa [Ctx.items, Ctx.add] using hmid ctx.items []
  | number n =>
      cases hu : n.isU30 with
      | true =>
          simpa [Ctx.items, Ctx.add, hu] using
            hmid (ctx.numbers ++ ctx.u30s) (ctx.strings ++ ctx.funcs ++ ctx.tables)
      | false =>
          simp [Ctx.items, Ctx.add, hu]
  | string s =>
      simpa [Ctx.items, Ctx.add] using
        hmid (ctx.numbers ++ ctx.u30s ++ ctx.strings) (ctx.funcs ++ ctx.tables)
  | other type ref =>
      cases type with
      | function =>
          rw [Ctx.items, Ctx.add, Ctx.items]
          simpa only [List.append_assoc] using
            hmid (ctx.numbers ++ ctx.u30s ++ ctx.strings ++ ctx.funcs) ctx.tables
      | _ => cases hv
  | _ => cases hv

/-- The kind of the values of each list. -/
structure Ctx.Kinds (ctx : Ctx) : Prop where
  numbers : ∀ w ∈ ctx.numbers, ∃ n, w = .number n ∧ n.isNan = false ∧ n.isU30 = false
  u30s : ∀ w ∈ ctx.u30s, ∃ n, w = .number n ∧ n.isNan = false ∧ n.isU30 = true
  strings : ∀ w ∈ ctx.strings, ∃ s, w = .string s
  funcs : ∀ w ∈ ctx.funcs, ∃ ref, w = .other .function ref
  tables : ∀ w ∈ ctx.tables, ∃ ref, w = .table ref

theorem Ctx.Kinds.add {ctx : Ctx} (h : ctx.Kinds) {v : LuaValue} (hkey : v.isKey = true) :
    (ctx.add v).Kinds := by
  obtain ⟨hnum, hu30, hstr, hfun, htab⟩ := h
  cases v with
  | table ref =>
      refine ⟨hnum, hu30, hstr, hfun, ?_⟩
      simp only [Ctx.add, List.mem_append, List.mem_singleton]
      rintro w (hw | rfl)
      · exact htab w hw
      · exact ⟨ref, rfl⟩
  | number n =>
      have hnan : n.isNan = false := by simpa [LuaValue.isKey] using hkey
      cases hu : n.isU30 with
      | true =>
          simp only [Ctx.add, hu, if_true]
          refine ⟨hnum, ?_, hstr, hfun, htab⟩
          simp only [List.mem_append, List.mem_singleton]
          rintro w (hw | rfl)
          · exact hu30 w hw
          · exact ⟨n, rfl, hnan, hu⟩
      | false =>
          simp only [Ctx.add, hu, Bool.false_eq_true, if_false]
          refine ⟨?_, hu30, hstr, hfun, htab⟩
          simp only [List.mem_append, List.mem_singleton]
          rintro w (hw | rfl)
          · exact hnum w hw
          · exact ⟨n, rfl, hnan, hu⟩
  | string s =>
      refine ⟨hnum, hu30, ?_, hfun, htab⟩
      simp only [Ctx.add, List.mem_append, List.mem_singleton]
      rintro w (hw | rfl)
      · exact hstr w hw
      · exact ⟨s, rfl⟩
  | other type ref =>
      cases type with
      | function =>
          refine ⟨hnum, hu30, hstr, ?_, htab⟩
          simp only [Ctx.add, List.mem_append, List.mem_singleton]
          rintro w (hw | rfl)
          · exact hfun w hw
          · exact ⟨ref, rfl⟩
      | _ => exact ⟨hnum, hu30, hstr, hfun, htab⟩
  | _ => exact ⟨hnum, hu30, hstr, hfun, htab⟩

/-- The lists and the maps of a context agree, and no value is listed twice. -/
structure Ctx.Good (ctx : Ctx) : Prop where
  kinds : ctx.Kinds
  keys : ∀ w ∈ ctx.items, w.isKey = true
  seen_iff : ∀ v, v.listed = true → (ctx.Seen v ↔ ∃ w ∈ ctx.items, w.rawEq v = true)
  nodup : (ctx.items.map LuaValue.normal).Nodup

theorem Ctx.good_init : Ctx.init.Good where
  kinds := ⟨by simp [init], by simp [init], by simp [init], by simp [init], by simp [init]⟩
  keys := by simp [items, init]
  seen_iff := by
    intro v hv
    cases v with
    | other type ref => cases type <;> simp [Seen, init, idxs, IndexMap.get, items]
    | _ => simp [Seen, init, idxs, IndexMap.get, items]
  nodup := by simp [items, init]

theorem Ctx.Good.add {ctx : Ctx} (h : ctx.Good) {v : LuaValue} (hkey : v.isKey = true)
    (hlisted : v.listed = true) (hunseen : ¬ ctx.Seen v) : (ctx.add v).Good where
  kinds := h.kinds.add hkey
  keys := by
    intro w hw
    rcases List.mem_cons.mp ((items_add ctx v hlisted).mem_iff.mp hw) with rfl | hw
    · exact hkey
    · exact h.keys w hw
  seen_iff := by
    intro w hw
    rw [seen_add ctx v w hw, h.seen_iff w hw]
    simp only [(items_add ctx v hlisted).mem_iff, List.mem_cons, exists_eq_or_imp, hlisted, true_and]
    exact or_comm
  nodup := by
    rw [((items_add ctx v hlisted).map LuaValue.normal).nodup_iff, List.map_cons, List.nodup_cons]
    refine ⟨?_, h.nodup⟩
    intro hmem
    obtain ⟨w, hw, heq⟩ := List.mem_map.mp hmem
    exact hunseen ((h.seen_iff v hlisted).mpr ⟨w, hw, (LuaValue.rawEq_iff w v (h.keys w hw)).mpr heq⟩)

/-! ## What `packer` leaves -/

/-- Two values are the same to the maps of a context. -/
def SameItem (w v : LuaValue) : Prop := w = v ∨ (v.listed = true ∧ v.rawEq w = true)

theorem rawEq_cases {v w : LuaValue} (h : v.rawEq w = true) :
    v = w ∨ ∃ n m, v = .number n ∧ w = .number m := by
  cases v with
  | number n =>
      cases w with
      | number m => exact Or.inr ⟨n, m, rfl, rfl⟩
      | _ => simp [LuaValue.rawEq] at h
  | _ => exact Or.inl (by simpa [LuaValue.rawEq] using h)

theorem normal_eq_of_rawEq {v w : LuaValue} (h : v.rawEq w = true) : v.normal = w.normal := by
  obtain rfl | ⟨n, m, rfl, rfl⟩ := rawEq_cases h
  · rfl
  · have hkey : (LuaValue.number n).isKey = true := by
      simp only [LuaValue.rawEq, Bool.and_eq_true] at h
      exact h.1
    exact (LuaValue.rawEq_iff _ _ hkey).mp h

theorem rawEq_congr {w v : LuaValue} (h : w.rawEq v = true) (e : LuaValue) :
    e.rawEq w = e.rawEq v := by
  obtain rfl | ⟨n, m, rfl, rfl⟩ := rawEq_cases h
  · rfl
  · simp only [LuaValue.rawEq, Bool.and_eq_true, decide_eq_true_eq] at h
    cases e with
    | number k => simp only [LuaValue.rawEq, h.2]
    | _ => simp [LuaValue.rawEq]

theorem packerVisitor_enter_eq {H : LuaHeap} {ctx ctx₁ : Ctx} {v : LuaValue}
    (h : (packerVisitor H).enter ctx v = .ok ctx₁) : v.isKey = true ∧ ctx₁ = ctx.add v := by
  simp only [packerVisitor] at h
  split at h
  · cases h
  · rename_i hkey
    cases h
    exact ⟨by simpa using hkey, rfl⟩

theorem packerVisitor_lawful (H : LuaHeap) : Visitor.Lawful (packerVisitor H) SameItem where
  refl v := Or.inl rfl
  children_eq := by
    rintro w v (rfl | ⟨-, h⟩)
    · rfl
    · obtain rfl | ⟨n, m, rfl, rfl⟩ := rawEq_cases h
      · rfl
      · rfl
  seen_enter := by
    intro ctx ctx₁ v w henter
    obtain ⟨hkey, rfl⟩ := packerVisitor_enter_eq henter
    cases hw : w.listed with
    | false =>
        have hnone : ∀ ctx : Ctx, (packerVisitor H).seen ctx w = true := by
          intro ctx
          have hidxs : ctx.idxs w = none := by
            rw [← Option.not_isSome_iff_eq_none, idxs_isSome, hw]
            simp
          simp only [packerVisitor, hidxs]
        simp [hnone]
    | true =>
        rw [seen_iff hw, seen_iff hw, seen_add ctx v w hw]
        constructor
        · rintro (h | h)
          · exact Or.inl h
          · exact Or.inr (Or.inr h)
        · rintro (h | rfl | h)
          · exact Or.inl h
          · exact Or.inr ⟨hw, (LuaValue.rawEq_iff w w hkey).mpr rfl⟩
          · exact Or.inr h

/-- The tables that are not listed yet. -/
def Ctx.unlisted (ctx : Ctx) (H : LuaHeap) : Finset ℕ :=
  (Finset.range H.length).filter fun ref => ctx.tableIdxs.get (.table ref) = none

/-- Entering a value leaves no more tables to list, and fewer if it has children. -/
theorem unlisted_add {H : LuaHeap} {ctx : Ctx} {v : LuaValue}
    (hunseen : (packerVisitor H).seen ctx v = false) :
    ((ctx.add v).unlisted H).card ≤ (ctx.unlisted H).card ∧
      (H.children v ≠ [] → ((ctx.add v).unlisted H).card < (ctx.unlisted H).card) := by
  cases v with
  | table ref =>
      have hnone : ctx.tableIdxs.get (.table ref) = none := by
        rw [packerVisitor_seen rfl] at hunseen
        simpa using hunseen
      have hsub : (ctx.add (.table ref)).unlisted H ⊆ ctx.unlisted H := by
        intro r hr
        simp only [Ctx.unlisted, Finset.mem_filter, Ctx.add, IndexMap.get_set] at hr ⊢
        refine ⟨hr.1, ?_⟩
        have := hr.2
        split at this
        · cases this
        · exact this
      refine ⟨Finset.card_le_card hsub, fun hne => ?_⟩
      apply Finset.card_lt_card
      rw [Finset.ssubset_iff_of_subset hsub]
      have hlt : ref < H.length := by
        by_contra hge
        apply hne
        rw [LuaHeap.children, LuaHeap.table, List.getD_eq_default _ _ (by omega)]
        rfl
      refine ⟨ref, ?_, ?_⟩
      · simp [Ctx.unlisted, hlt, hnone]
      · simp [Ctx.unlisted, Ctx.add, IndexMap.get_set, LuaValue.rawEq]
  | number n =>
      have hsame : (ctx.add (.number n)).unlisted H = ctx.unlisted H := by
        cases hu : n.isU30 <;> simp [Ctx.add, hu, Ctx.unlisted]
      rw [hsame]
      exact ⟨le_rfl, fun hne => absurd rfl hne⟩
  | other type ref =>
      have hsame : (ctx.add (.other type ref)).unlisted H = ctx.unlisted H := by
        cases type <;> rfl
      rw [hsame]
      exact ⟨le_rfl, fun hne => absurd rfl hne⟩
  | _ => exact ⟨le_rfl, fun hne => absurd rfl hne⟩

/-- What the context is after packing a value. -/
structure Packed (H : LuaHeap) (root : LuaValue) (ctx : Ctx) : Prop where
  good : ctx.Good
  reach : ∀ w ∈ ctx.items, H.Reach root w
  complete : ∀ w, H.Reach root w → w.listed = true → ∃ u ∈ ctx.items, u.rawEq w = true
  head : ∀ ref, root = .table ref → ctx.tables.head? = some root

theorem listed_of_unseen {H : LuaHeap} {ctx : Ctx} {v : LuaValue}
    (h : (packerVisitor H).seen ctx v = false) : v.listed = true := by
  by_contra hlisted
  have hidxs : ctx.idxs v = none := by
    rw [← Option.not_isSome_iff_eq_none, idxs_isSome]
    exact hlisted
  simp [packerVisitor, hidxs] at h

theorem packed_of_ok {H : LuaHeap} {root : LuaValue} {fuel : ℕ} {ctx : Ctx}
    (h : packer H fuel Ctx.init root = .ok ctx) : Packed H root ctx := by
  rw [packer_eq_visit] at h
  have hgood : ctx.Good ∧ ∀ w ∈ ctx.items, H.Reach root w := by
    refine Visitor.visit_invariant (fun ctx => ctx.Good ∧ ∀ w ∈ ctx.items, H.Reach root w)
      fuel _ ctx root h ?_ ⟨Ctx.good_init, by simp [Ctx.items, Ctx.init]⟩
    rintro s s₁ u hu hunseen henter ⟨hs, hreach⟩
    obtain ⟨hkey, rfl⟩ := packerVisitor_enter_eq henter
    have hlisted := listed_of_unseen hunseen
    have hnot : ¬ s.Seen u := by
      rw [← seen_iff (H := H) hlisted, hunseen]
      simp
    refine ⟨hs.add hkey hlisted hnot, ?_⟩
    intro w hw
    rcases List.mem_cons.mp ((items_add s u hlisted).mem_iff.mp hw) with rfl | hw
    · exact hu
    · exact hreach w hw
  refine ⟨hgood.1, hgood.2, ?_, ?_⟩
  · intro w hw hlisted
    have hseen : (packerVisitor H).seen ctx w = true := by
      refine Visitor.visit_complete (packerVisitor_lawful H) h ?_ hw
      intro v hv
      -- nothing with children is in an empty map
      cases v with
      | table ref => simp [packerVisitor, Ctx.init, Ctx.idxs, IndexMap.get] at hv
      | _ => rfl
    rw [seen_iff hlisted] at hseen
    exact (hgood.1.seen_iff w hlisted).mp hseen
  · rintro ref rfl
    obtain ⟨n, rfl, ⟨hseen, -⟩ | ⟨hunseen, s₁, henter, hfold⟩⟩ := Visitor.visit_cases h
    · simp [packerVisitor, Ctx.init, Ctx.idxs, IndexMap.get] at hseen
    · obtain ⟨-, rfl⟩ := packerVisitor_enter_eq henter
      -- the lists only grow at their ends
      have hgrow : ∀ (vs : List LuaValue) (t t' : Ctx), t.tables.head? = some (.table ref) →
          vs.foldlM ((packerVisitor H).visit n) t = .ok t' →
          t'.tables.head? = some (.table ref) := by
        intro vs
        induction vs with
        | nil =>
            intro t t' ht hok
            cases hok
            exact ht
        | cons v vs ih =>
            intro t t' ht hok
            obtain ⟨t₁, hv, hrest⟩ := Visitor.foldlM_ok_cons hok
            refine ih t₁ t' ?_ hrest
            refine Visitor.visit_invariant (fun t => t.tables.head? = some (.table ref))
              n t t₁ v hv ?_ ht
            intro s s₁ u _ _ henter hs
            obtain ⟨-, rfl⟩ := packerVisitor_enter_eq henter
            cases u with
            | table r => simp [Ctx.add, hs]
            | number m => cases hu : m.isU30 <;> simp [Ctx.add, hu, hs]
            | other type r => cases type <;> exact hs
            | _ => exact hs
      exact hgrow _ _ _ rfl hfold

/-- A table lowers the number of those that are not listed, so the bound is enough. -/
theorem packer_ne_fuel (H : LuaHeap) (root : LuaValue) :
    packer H (H.length + 1) Ctx.init root ≠ .error none := by
  rw [packer_eq_visit]
  refine Visitor.visit_ne_fuel (fun ctx => (ctx.unlisted H).card) ?_ _ _ _ ?_
  · intro s s₁ v hunseen henter
    obtain ⟨-, rfl⟩ := packerVisitor_enter_eq henter
    exact unlisted_add hunseen
  · rw [Nat.lt_succ_iff]
    refine (Finset.card_filter_le _ _).trans ?_
    rw [Finset.card_range]

/-- **`packer` ends and leaves everything listed**, if no NaN can be reached. -/
theorem packer_ok {H : LuaHeap} {root : LuaValue}
    (hkeys : ∀ w, H.Reach root w → w.listed = true → w.isKey = true) :
    ∃ ctx, packer H (H.length + 1) Ctx.init root = .ok ctx ∧ Packed H root ctx := by
  cases h : packer H (H.length + 1) Ctx.init root with
  | ok ctx => exact ⟨ctx, rfl, packed_of_ok h⟩
  | error e =>
      cases e with
      | none => exact absurd h (packer_ne_fuel H root)
      | some msg =>
          rw [packer_eq_visit] at h
          refine absurd h (Visitor.visit_ne_error _ _ _ ?_)
          intro s u hu hunseen henter
          rw [packerVisitor_enter (hkeys u hu (listed_of_unseen hunseen))] at henter
          cases henter

end LuaFan
