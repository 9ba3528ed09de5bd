/-
# What `packer` lists (`src/objectbuf.c`)

`packer` walks any graph to its end.  If there is a NaN it raises an error; otherwise every
value that can be reached is in the list of its kind, once, and the maps of indices are the
inverses of the lists (`packer_enumerates`).

The invariant is `Ctx.Inverse`: it is kept when a value is added that is not listed yet.
-/
import LuaFan.Objectbuf.Unsupported

namespace LuaFan

open Fp Graph

/-! ## Maps and lists -/

/-- The list of a value's kind. -/
def Ctx.listOf (ctx : Ctx) : LuaValue → List LuaValue
  | .table _ => ctx.tables
  | .number n => if n.isU30 then ctx.u30s else ctx.numbers
  | .string _ => ctx.strings
  | .other .function _ => ctx.funcs
  | _ => []

/-- The map takes a value to its place in the list, counted from one. -/
def IndexMap.InverseOf (m : IndexMap) (vs : List LuaValue) (v : LuaValue) : Prop :=
  ∀ i, m.get v = some i ↔ ∃ j w, i = j + 1 ∧ vs[j]? = some w ∧ w.rawEq v = true

/-- The maps are the inverses of the lists. -/
def Ctx.Inverse (ctx : Ctx) : Prop := ∀ v m, ctx.idxs v = some m → m.InverseOf (ctx.listOf v) v

theorem LuaNumber.isU30_congr {n k : LuaNumber} (h : n.value = k.value) : n.isU30 = k.isU30 := by
  rw [Bool.eq_iff_iff, isU30_iff, isU30_iff, h]

theorem Ctx.inverse_init : Ctx.init.Inverse := by
  have hempty : ∀ v, IndexMap.InverseOf [] [] v := by
    intro v i
    simp [IndexMap.get]
  intro v m hm
  cases v with
  | table ref =>
      cases hm
      exact hempty _
  | number n =>
      cases hm
      rw [listOf]
      split <;> exact hempty _
  | string s =>
      cases hm
      exact hempty _
  | other type ref =>
      cases type with
      | function =>
          cases hm
          exact hempty _
      | _ => cases hm
  | _ => cases hm

section Adding

variable {m : IndexMap} {vs : List LuaValue} {v w : LuaValue}

theorem IndexMap.InverseOf.congr (h : m.InverseOf vs v) (hw : v.rawEq w = true) :
    m.get v = none → ∀ u ∈ vs, u.rawEq w = false := by
  intro hnone u hu
  by_contra huw
  rw [← rawEq_congr hw, Bool.not_eq_false] at huw
  obtain ⟨j, hj, rfl⟩ := List.getElem_of_mem hu
  have := (h (j + 1)).mpr ⟨j, _, rfl, List.getElem?_eq_getElem hj, huw⟩
  rw [hnone] at this
  cases this

/-- A value that is not listed yet comes at the end of its list. -/
theorem IndexMap.InverseOf.set (hv : m.InverseOf vs v) (hw : m.InverseOf vs w)
    (hnone : m.get v = none) : (m.set v (vs.length + 1)).InverseOf (vs ++ [v]) w := by
  intro i
  rw [IndexMap.get_set]
  cases heq : v.rawEq w with
  | true =>
      have hothers := hv.congr heq hnone
      rw [if_pos rfl, Option.some_inj]
      constructor
      · rintro rfl
        exact ⟨vs.length, v, rfl, by simp, heq⟩
      · rintro ⟨j, u, rfl, hu, huw⟩
        rw [List.getElem?_append] at hu
        split at hu
        · rw [hothers u (List.mem_of_getElem? hu)] at huw
          cases huw
        · rename_i hlt
          have : j - vs.length < 1 := (List.getElem?_eq_some_iff.mp hu).1
          omega
  | false =>
      rw [if_neg (by simp), hw i]
      constructor
      · rintro ⟨j, u, rfl, hu, huw⟩
        refine ⟨j, u, rfl, ?_, huw⟩
        rw [List.getElem?_append_left (List.getElem?_eq_some_iff.mp hu).1, hu]
      · rintro ⟨j, u, rfl, hu, huw⟩
        refine ⟨j, u, rfl, ?_, huw⟩
        rw [List.getElem?_append] at hu
        split at hu
        · exact hu
        · obtain rfl := List.mem_singleton.mp (List.mem_of_getElem? hu)
          rw [huw] at heq
          cases heq

/-- Another list is not concerned. -/
theorem IndexMap.InverseOf.set_other {i : ℕ} (hw : m.InverseOf vs w) (hne : v.rawEq w = false) :
    (m.set v i).InverseOf vs w := by
  intro j
  rw [IndexMap.get_set, if_neg (by simp [hne])]
  exact hw j

end Adding

theorem get_eq_none_of_unseen {ctx : Ctx} {v : LuaValue} {m : IndexMap} (hm : ctx.idxs v = some m)
    (hunseen : ¬ctx.Seen v) : m.get v = none := by
  rw [← Option.not_isSome_iff_eq_none]
  exact fun hsome => hunseen ⟨m, hm, hsome⟩

/-- **A value that is not listed yet keeps maps and lists inverse.** -/
theorem Ctx.Inverse.add {ctx : Ctx} (h : ctx.Inverse) {v : LuaValue} (hunseen : ¬ctx.Seen v) :
    (ctx.add v).Inverse := by
  cases v with
  | table ref =>
      have hnone := get_eq_none_of_unseen rfl hunseen
      intro w m hm
      cases w with
      | table ref' =>
          cases hm
          exact (h (.table ref) _ rfl).set (h (.table ref') _ rfl) hnone
      | other type ref' => cases type <;> exact h _ m hm
      | _ => exact h _ m hm
  | number n =>
      have hnone := get_eq_none_of_unseen rfl hunseen
      have hn := h (.number n) _ rfl
      intro w m hm
      cases w with
      | number k =>
          have hk := h (.number k) _ rfl
          -- both lists have their places in one map
          have hother : n.isU30 ≠ k.isU30 → (LuaValue.number n).rawEq (.number k) = false := by
            intro hne
            by_contra heq
            simp only [LuaValue.rawEq, Bool.not_eq_false, Bool.and_eq_true, decide_eq_true_eq] at heq
            exact hne (LuaNumber.isU30_congr heq.2)
          cases hun : n.isU30 <;> cases huk : k.isU30 <;>
            simp only [Ctx.add, Ctx.idxs, Ctx.listOf, hun, huk, if_true, if_false, Bool.false_eq_true,
              Option.some_inj] at hm hn hk hother ⊢ <;> subst hm
          · exact hn.set hk hnone
          · exact hk.set_other (hother (by simp))
          · exact hk.set_other (hother (by simp))
          · exact hn.set hk hnone
      | other type ref' =>
          cases hun : n.isU30 <;> cases type <;> simp only [Ctx.add, hun] at hm ⊢ <;> exact h _ m hm
      | _ => cases hun : n.isU30 <;> simp only [Ctx.add, hun] at hm ⊢ <;> exact h _ m hm
  | string s =>
      have hnone := get_eq_none_of_unseen rfl hunseen
      intro w m hm
      cases w with
      | string s' =>
          cases hm
          exact (h (.string s) _ rfl).set (h (.string s') _ rfl) hnone
      | other type ref' => cases type <;> exact h _ m hm
      | _ => exact h _ m hm
  | other type ref =>
      cases type with
      | function =>
          have hnone := get_eq_none_of_unseen rfl hunseen
          intro w m hm
          cases w with
          | other type' ref' =>
              cases type' with
              | function =>
                  cases hm
                  exact (h (.other .function ref) _ rfl).set (h (.other .function ref') _ rfl) hnone
              | _ => exact h _ m hm
          | _ => exact h _ m hm
      | _ => exact h
  | _ => exact h

theorem inverse_of_ok {H : LuaHeap} {root : LuaValue} {fuel : ℕ} {ctx : Ctx}
    (h : packer H fuel Ctx.init root = .ok ctx) : ctx.Inverse := by
  rw [packer_eq_visit] at h
  refine Visitor.visit_invariant Ctx.Inverse fuel _ ctx root h ?_ Ctx.inverse_init
  intro s s₁ u _ hunseen henter hs
  obtain ⟨-, rfl⟩ := packerVisitor_enter_eq henter
  refine hs.add fun hseen => ?_
  rw [← seen_iff (H := H) (listed_of_unseen hunseen), hunseen] at hseen
  cases hseen

/-! ## Errors -/

/-- `packer` fails only at a NaN. -/
theorem packer_error {H : LuaHeap} {root : LuaValue} {e : Option String}
    (h : packer H (H.length + 1) Ctx.init root = .error e) : e = some "table index is NaN" := by
  cases e with
  | none => exact absurd h (packer_ne_fuel H root)
  | some msg =>
      by_contra hne
      rw [packer_eq_visit] at h
      refine absurd h (Visitor.visit_ne_error _ _ _ ?_)
      intro s u _ _ henter
      simp only [packerVisitor] at henter
      split at henter
      · cases henter
        exact hne rfl
      · cases henter

/-! ## The enumeration -/

/-- What `packer` leaves of the graph of a table. -/
structure Enumerates (H : LuaHeap) (root : LuaValue) (ctx : Ctx) : Prop where
  head : ctx.tables.head? = some root
  nodup_tables : ctx.tables.Nodup
  mem_tables : ∀ v, v ∈ ctx.tables ↔ (∃ ref, v = .table ref) ∧ H.Reach root v
  nodup_strings : ctx.strings.Nodup
  mem_strings : ∀ v, v ∈ ctx.strings ↔ (∃ s, v = .string s) ∧ H.Reach root v
  reach_numbers : ∀ w ∈ ctx.numbers ++ ctx.u30s, (∃ n, w = .number n) ∧ H.Reach root w
  count_numbers : ∀ n, H.Reach root (.number n) →
    (ctx.numbers ++ ctx.u30s).countP (fun w => w.rawEq (.number n)) = 1
  mem_u30s : ∀ n, H.Reach root (.number n) →
    ((∃ w ∈ ctx.u30s, w.rawEq (.number n) = true) ↔ ∃ k : ℕ, k < 2 ^ 32 ∧ n.value = intValue k)
  inverse : ctx.Inverse

section Packed

variable {H : LuaHeap} {root : LuaValue} {ctx : Ctx}

/-- What is listed of a kind is what can be reached of that kind. -/
theorem Packed.mem_kind (hp : Packed H root ctx) {vs : List LuaValue} (hvs : vs ⊆ ctx.items)
    {kind : LuaValue → Prop} (hkind : ∀ v ∈ vs, kind v)
    (hmem : ∀ v ∈ ctx.items, kind v → v ∈ vs)
    (hlisted : ∀ v, kind v → v.listed = true ∧ ∀ u, u.rawEq v = true → u = v) (v : LuaValue) :
    v ∈ vs ↔ kind v ∧ H.Reach root v := by
  constructor
  · intro hv
    exact ⟨hkind v hv, hp.reach v (hvs hv)⟩
  · rintro ⟨hv, hreach⟩
    obtain ⟨u, hu, heq⟩ := hp.complete v hreach (hlisted v hv).1
    obtain rfl := (hlisted v hv).2 u heq
    exact hmem u hu hv

theorem Packed.mem_items_cases (hp : Packed H root ctx) {v : LuaValue} (hv : v ∈ ctx.items) :
    v ∈ ctx.listOf v := by
  simp only [Ctx.items, List.mem_append] at hv
  obtain ⟨hnum, hu30, hstr, hfun, htab⟩ := hp.good.kinds
  rcases hv with (((hv | hv) | hv) | hv) | hv
  · obtain ⟨n, rfl, -, hn⟩ := hnum v hv
    simpa [Ctx.listOf, hn] using hv
  · obtain ⟨n, rfl, -, hn⟩ := hu30 v hv
    simpa [Ctx.listOf, hn] using hv
  · obtain ⟨s, rfl⟩ := hstr v hv
    exact hv
  · obtain ⟨ref, rfl⟩ := hfun v hv
    exact hv
  · obtain ⟨ref, rfl⟩ := htab v hv
    exact hv

/-- In a list without two equal values a value is met once. -/
theorem countP_rawEq {vs : List LuaValue} (hkeys : ∀ w ∈ vs, w.isKey = true)
    (hnodup : (vs.map LuaValue.normal).Nodup) {u v : LuaValue} (hu : u ∈ vs)
    (heq : u.rawEq v = true) : vs.countP (fun w => w.rawEq v) = 1 := by
  have hcount : vs.countP (fun w => w.rawEq v) = (vs.map LuaValue.normal).count v.normal := by
    rw [List.count, List.countP_map]
    apply List.countP_congr
    intro w hw
    rw [LuaValue.rawEq_iff w v (hkeys w hw)]
    simp
  rw [hcount]
  refine List.count_eq_one_of_mem hnodup ?_
  rw [← normal_eq_of_rawEq heq]
  exact List.mem_map_of_mem hu

/-- The numbers of both lists. -/
theorem Ctx.numbers_sublist (ctx : Ctx) : (ctx.numbers ++ ctx.u30s).Sublist ctx.items := by
  simp only [Ctx.items, List.append_assoc]
  exact ((List.sublist_append_left _ _).append_left _)

theorem Packed.exists_number (hp : Packed H root ctx) {n : LuaNumber} (hn : H.Reach root (.number n)) :
    ∃ k, .number k ∈ ctx.listOf (.number n) ∧ (LuaValue.number k).rawEq (.number n) = true := by
  obtain ⟨u, hu, heq⟩ := hp.complete _ hn rfl
  obtain ⟨k, rfl⟩ : ∃ k, u = .number k := by
    cases u with
    | number k => exact ⟨k, rfl⟩
    | _ => simp [LuaValue.rawEq] at heq
  refine ⟨k, ?_, heq⟩
  have hk := hp.mem_items_cases hu
  simp only [LuaValue.rawEq, Bool.and_eq_true, decide_eq_true_eq] at heq
  rwa [Ctx.listOf, LuaNumber.isU30_congr heq.2] at hk

/-- **Everything that can be reached is listed once.** -/
theorem Packed.enumerates (hp : Packed H root ctx) (hinv : ctx.Inverse) {ref : ℕ}
    (hroot : root = .table ref) : Enumerates H root ctx where
  head := hp.head ref hroot
  nodup_tables := hp.nodup_tables
  mem_tables := by
    refine hp.mem_kind (fun v hv => by simp [Ctx.items, hv]) hp.good.kinds.tables ?_ ?_
    · rintro v hv ⟨r, rfl⟩
      exact hp.mem_items_cases hv
    · rintro v ⟨r, rfl⟩
      refine ⟨rfl, fun u hu => ?_⟩
      cases u <;> simp_all [LuaValue.rawEq]
  nodup_strings := hp.nodup_items.sublist (by
    simp only [Ctx.items, List.append_assoc]
    exact ((List.sublist_append_left _ _).trans (List.sublist_append_right _ _)).trans
      (List.sublist_append_right _ _))
  mem_strings := by
    refine hp.mem_kind (fun v hv => by simp [Ctx.items, hv]) hp.good.kinds.strings ?_ ?_
    · rintro v hv ⟨s, rfl⟩
      exact hp.mem_items_cases hv
    · rintro v ⟨s, rfl⟩
      refine ⟨rfl, fun u hu => ?_⟩
      cases u <;> simp_all [LuaValue.rawEq]
  reach_numbers := by
    intro w hw
    refine ⟨?_, hp.reach w ((Ctx.numbers_sublist ctx).subset hw)⟩
    rcases List.mem_append.mp hw with hw | hw
    · obtain ⟨n, rfl, -⟩ := hp.good.kinds.numbers w hw
      exact ⟨n, rfl⟩
    · obtain ⟨n, rfl, -⟩ := hp.good.kinds.u30s w hw
      exact ⟨n, rfl⟩
  count_numbers := by
    intro n hn
    obtain ⟨k, hk, heq⟩ := hp.exists_number hn
    have hsub := Ctx.numbers_sublist ctx
    refine countP_rawEq (fun w hw => hp.good.keys w (hsub.subset hw))
      (hp.good.nodup.sublist (hsub.map _)) (u := .number k) ?_ heq
    rw [Ctx.listOf] at hk
    split at hk
    · exact List.mem_append_right _ hk
    · exact List.mem_append_left _ hk
  mem_u30s := by
    intro n hn
    rw [← LuaNumber.isU30_iff]
    constructor
    · rintro ⟨w, hw, heq⟩
      obtain ⟨k, rfl, -, hk⟩ := hp.good.kinds.u30s w hw
      simp only [LuaValue.rawEq, Bool.and_eq_true, decide_eq_true_eq] at heq
      rw [← LuaNumber.isU30_congr heq.2, hk]
    · intro hu30
      obtain ⟨k, hk, heq⟩ := hp.exists_number hn
      rw [Ctx.listOf, hu30, if_pos rfl] at hk
      exact ⟨_, hk, heq⟩
  inverse := hinv

end Packed

/-- **`packer` ends on every graph**: with an error if there is a NaN, and otherwise with
everything that can be reached in its list, once. -/
theorem packer_enumerates (H : LuaHeap) (ref : ℕ) :
    (HasNan H (.table ref) ∧
      packer H (H.length + 1) Ctx.init (.table ref) = .error (some "table index is NaN")) ∨
    (¬HasNan H (.table ref) ∧ ∃ ctx, packer H (H.length + 1) Ctx.init (.table ref) = .ok ctx ∧
      Enumerates H (.table ref) ctx) := by
  by_cases hnan : HasNan H (.table ref)
  · left
    refine ⟨hnan, ?_⟩
    cases h : packer H (H.length + 1) Ctx.init (.table ref) with
    | ok ctx => exact absurd hnan (packer_ok_iff.mp ⟨ctx, h⟩)
    | error e => rw [packer_error h]
  · right
    obtain ⟨ctx, h⟩ := packer_ok_iff.mpr hnan
    exact ⟨hnan, ctx, h, (packed_of_ok h).enumerates (inverse_of_ok h) rfl⟩

/-- The table whose only element is a NaN. -/
def nanHeap : LuaHeap :=
  [(LuaTable.new none).rawset (intKey 1) (.number (.float ⟨false, infMag + 1, by decide⟩))
    isKey_one]

/-- It is not enumerated. -/
theorem packer_nan : ¬∃ ctx, packer nanHeap (nanHeap.length + 1) Ctx.init (.table 0) = .ok ctx := by
  rw [packer_ok_iff, not_not]
  refine ⟨.float ⟨false, infMag + 1, by decide⟩, Relation.ReflTransGen.single ?_, by decide⟩
  rw [LuaHeap.mem_children]
  exact ⟨(intKey 1, .number (.float ⟨false, infMag + 1, by decide⟩)), by decide, Or.inr rfl⟩

end LuaFan
