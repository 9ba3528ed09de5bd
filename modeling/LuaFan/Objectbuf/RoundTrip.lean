/-
# The round trip of objectbuf

`objectbuf_round_trip` says when a supported graph comes back as it was: **when
every number in it is a double and no table has a string key that reads as the index
of an element of its array part.**  Other integers are rounded, and the entries of
such string keys are lost.

When the graph comes back, the table at place `q` of the list is the copy of the
`q`-th listed table.  Conversely an isomorphism keeps the number of entries of every
table, and no table gains any, so none may lose one.
-/
import LuaFan.Objectbuf.Rebuilt

namespace LuaFan

open Fp

/-- Encoding and decoding give back the same graph. -/
def ComesBack (H : LuaHeap) (o : LuaValue) : Prop :=
  ∃ bytes H' o', objectbufEncode H o .missing = .ok bytes ∧
    objectbufDecode bytes .missing = .ok (H', o') ∧ Isomorphic H o H' o'

/-- Every number of the graph is the value of a double. -/
def DoublesOnly (H : LuaHeap) (o : LuaValue) : Prop :=
  ∀ n, H.Reach o (.number n) → n.IsDouble

/-- No table of the graph has a string key that is taken for an array element. -/
def NothingShadowed (H : LuaHeap) (o : LuaValue) : Prop :=
  ∀ ref, H.Reach o (.table ref) → ∀ e ∈ (H.table ref).entries, ¬ (H.table ref).Shadowed e.1

/-! ## Places -/

/-- The place of a table in the list. -/
def Ctx.place (ctx : Ctx) (ref : ℕ) : ℕ := ctx.tables.idxOf (.table ref)

section Places

variable {H : LuaHeap} {o : LuaValue} {ctx : Ctx}

theorem getElem?_place (hp : Packed H o ctx) {ref : ℕ} (href : H.Reach o (.table ref)) :
    ctx.tables[ctx.place ref]? = some (.table ref) := by
  have hlt := List.idxOf_lt_length_of_mem (hp.mem_tables href)
  rw [Ctx.place, List.getElem?_eq_getElem hlt, List.getElem_idxOf]

theorem place_eq (hp : Packed H o ctx) {q ref : ℕ} (h : ctx.tables[q]? = some (.table ref)) :
    q = ctx.place ref := by
  obtain ⟨hlt, hget⟩ := List.getElem?_eq_some_iff.mp h
  rw [Ctx.place, ← hget, hp.nodup_tables.idxOf_getElem q hlt]

theorem place_injOn (hp : Packed H o ctx) : Set.InjOn ctx.place (H.reachRefs o) := by
  intro r hr r' hr' heq
  have h := getElem?_place hp hr
  rw [heq, getElem?_place hp hr'] at h
  cases h
  rfl

end Places

/-! ## Corresponding values -/

section Same

variable {H : LuaHeap} {o : LuaValue} {f : ℕ → ℕ}

theorem sameValue_normal {v r : LuaValue} (h : SameValue f v r) : SameValue f v r.normal := by
  cases v with
  | number n =>
      cases r with
      | number m => simpa [SameValue, LuaValue.rawEq, LuaValue.normal] using h
      | _ => exact h
  | table ref =>
      simp only [SameValue] at h
      subst h
      rfl
  | _ =>
      -- other scalars are equal only to themselves
      simp only [SameValue, LuaValue.rawEq, decide_eq_true_eq] at h
      subst h
      simp [SameValue, LuaValue.rawEq, LuaValue.normal]

theorem sameValue_cases {v r : LuaValue} (h : SameValue f v r) :
    (∃ ref, v = .table ref ∧ r = .table (f ref)) ∨ ((∀ ref, v ≠ .table ref) ∧ v.rawEq r = true) := by
  cases v with
  | table ref => exact Or.inl ⟨ref, rfl, h⟩
  | _ => exact Or.inr ⟨by simp, h⟩

/-- A key is determined by what corresponds to it. -/
theorem sameValue_inj (hinj : Set.InjOn f (H.reachRefs o)) {v w r : LuaValue} (hv : H.Reach o v)
    (hw : H.Reach o w) (h : SameValue f v r) (h' : SameValue f w r) : v.normal = w.normal := by
  rcases sameValue_cases h with ⟨ref, rfl, rfl⟩ | ⟨hv', heq⟩
  · obtain ⟨ref', rfl, heq⟩ := sameValue_table h'
    rw [hinj hv hw heq]
  · rcases sameValue_cases h' with ⟨ref', rfl, rfl⟩ | ⟨-, heq'⟩
    · obtain ⟨ref, rfl, -⟩ := sameValue_table h
      exact absurd rfl (hv' ref)
    · rw [normal_eq_of_rawEq heq, normal_eq_of_rawEq heq']

/-- Every value of a graph has one that corresponds to it. -/
theorem Isomorphic.exists_same {H' : LuaHeap} {o' : LuaValue} (h : Isomorphic H o H' o')
    {v : LuaValue} (hv : H.Reach o v) : ∃ f w, H'.Reach o' w ∧ SameValue f v w := by
  obtain ⟨f, -, hroot, hentries⟩ := h
  exact ⟨f, exists_same_of_sameEntries hroot hentries hv⟩

/-- Corresponding tables have at least as many entries. -/
theorem SameEntries.length_le {T T' : LuaTable} (h : SameEntries f T T')
    (hinj : Set.InjOn f (H.reachRefs o)) (hreach : ∀ e ∈ T.entries, H.Reach o e.1) :
    T.entries.length ≤ T'.entries.length := by
  classical
  choose! g hg hkey hval using h.1
  have hnodup : (T.entries.map g).Nodup := by
    refine List.Nodup.map_on ?_ (List.Nodup.of_map _ T.nodup)
    intro e he e' he' heq
    have hsame := hkey e' he'
    rw [← heq] at hsame
    have hnormal := sameValue_inj hinj (hreach e he) (hreach e' he') (hkey e he) hsame
    rw [T.normal e he, T.normal e' he'] at hnormal
    exact List.inj_on_of_nodup_map T.nodup he he' hnormal
  have hsub : T.entries.map g ⊆ T'.entries := by
    intro e' he'
    obtain ⟨e, he, rfl⟩ := List.mem_map.mp he'
    exact hg e he
  simpa using (hnodup.subperm hsub).length_le

end Same

/-! ## The graph comes back -/

theorem final_of_nodup {κ α β : Type} {g : β → κ × α} {l : List β}
    (hn : (l.map fun a => (g a).1).Nodup) {a : β} (ha : a ∈ l) : Final (l.map g) (g a) := by
  obtain ⟨pre, post, rfl⟩ := List.append_of_mem ha
  refine final_map.mpr ⟨pre, a, post, rfl, rfl, ?_⟩
  intro b hb heq
  rw [List.map_append, List.map_cons] at hn
  have hcons := (List.nodup_append.mp hn).2.1
  exact (List.nodup_cons.mp hcons).1 (List.mem_map.mpr ⟨b, hb, heq⟩)

theorem not_has_missing (v : LuaValue) : ¬ SymTable.missing.Has v := by
  simp [SymTable.Has, SymTable.missing, IndexMap.get]

section Back

variable {H : LuaHeap} {o : LuaValue} {ctx : Ctx}

theorem sameValue_arrives (hp : Packed H o ctx) {v r : LuaValue} (hv : v.Supported H)
    (hdouble : ∀ n, v = .number n → n.IsDouble) (h : Arrives ctx v r) :
    SameValue ctx.place v r := by
  cases h with
  | @number n m h =>
      have hval := h.trans ((LuaNumber.value_toDouble_iff n).mpr (hdouble n rfl))
      have hnan : n.isNan = false := hv
      simp [SameValue, LuaValue.rawEq, hnan, hval]
  | string s => simp [SameValue, LuaValue.rawEq]
  | @table ref q h => rw [place_eq hp h, SameValue]

theorem sameValue_recv (hp : Packed H o ctx) (hsup : SupportedGraph H o)
    (hfits : Fits H .missing ctx) (hdoubles : DoublesOnly H o) {v : LuaValue} (hv : H.Reach o v) :
    SameValue ctx.place v (recvValue .missing ctx v) := by
  rcases (recv_spec hp hsup SymTable.missing_lawful hfits hv).2 with ⟨b, rfl, hr⟩ | ⟨hhas, -⟩ | ⟨-, harr⟩
  · rw [hr]
    simp [SameValue, LuaValue.rawEq]
  · exact absurd hhas (not_has_missing v)
  · refine sameValue_arrives hp (hsup v hv) ?_ harr
    rintro n rfl
    exact hdoubles n hv

theorem sameValue_root (hp : Packed H o ctx) (hsup : SupportedGraph H o)
    (hdoubles : DoublesOnly H o) (hbool : ∀ b, o ≠ .boolean b) :
    SameValue ctx.place o (receivedRoot .missing ctx) := by
  have hroot := hsup o Relation.ReflTransGen.refl
  have hscalar : (∃ n, o = .number n) ∨ (∃ str, o = .string str) →
      SameValue ctx.place o (receivedRoot .missing ctx) := by
    intro h
    have harr := (receivedRoot_scalar hp SymTable.missing_lawful h).2.1 (not_has_missing o)
    refine sameValue_arrives hp hroot ?_ harr
    rintro n rfl
    exact hdoubles n Relation.ReflTransGen.refl
  cases o with
  | table ref =>
      have hhead := hp.head ref rfl
      rw [List.head?_eq_getElem?] at hhead
      rw [receivedRoot_table hp SymTable.missing_lawful, SameValue, ← place_eq hp hhead]
  | number n => exact hscalar (Or.inl ⟨n, rfl⟩)
  | string str => exact hscalar (Or.inr ⟨str, rfl⟩)
  | boolean b => exact absurd rfl (hbool b)
  | nil => cases hroot
  | other type ref => cases hroot

/-- Every table arrives with its entries. -/
theorem sameEntries_received (hp : Packed H o ctx) (hsup : SupportedGraph H o)
    (hfits : Fits H .missing ctx) (hdoubles : DoublesOnly H o) {ref : ℕ}
    (href : H.Reach o (.table ref))
    (hshadow : ∀ e ∈ (H.table ref).entries, ¬ (H.table ref).Shadowed e.1) :
    SameEntries ctx.place (H.table ref) ((receivedHeap H .missing ctx).table (ctx.place ref)) := by
  have hborder := firstBorder_lt hp hfits href
  have hplace := getElem?_place hp href
  have hsame : ∀ e ∈ (H.table ref).entries,
      SameValue ctx.place e.1 (LuaTable.sentAs (recvValue .missing ctx) e).1 ∧
        SameValue ctx.place e.2 (LuaTable.sentAs (recvValue .missing ctx) e).2 := by
    intro e he
    obtain ⟨hk, hv⟩ := reach_entry href he
    exact ⟨sameValue_normal (sameValue_recv hp hsup hfits hdoubles hk),
      sameValue_recv hp hsup hfits hdoubles hv⟩
  constructor
  · intro e he
    refine ⟨LuaTable.sentAs (recvValue .missing ctx) e, ?_, hsame e he⟩
    rw [mem_receivedHeap hp hsup SymTable.missing_lawful hfits hplace]
    refine final_of_nodup ?_ ((LuaTable.mem_sent (by omega)).mpr ⟨he, hshadow e he⟩)
    -- different keys arrive as different keys
    refine List.Nodup.map_on ?_ (List.Nodup.of_map Prod.fst (LuaTable.nodup_sent (by omega)))
    intro a ha b hb heq
    obtain ⟨ha', -⟩ := (LuaTable.mem_sent (by omega)).mp ha
    obtain ⟨hb', -⟩ := (LuaTable.mem_sent (by omega)).mp hb
    have hb₁ := (hsame b hb').1
    rw [← heq] at hb₁
    have hnormal := sameValue_inj (place_injOn hp) (reach_entry href ha').1 (reach_entry href hb').1
      (hsame a ha').1 hb₁
    rw [(H.table ref).normal a ha', (H.table ref).normal b hb'] at hnormal
    exact List.inj_on_of_nodup_map (H.table ref).nodup ha' hb' hnormal
  · intro e' he'
    rw [mem_receivedHeap hp hsup SymTable.missing_lawful hfits hplace] at he'
    obtain ⟨e, he, rfl⟩ := List.mem_map.mp he'.mem
    obtain ⟨hmem, -⟩ := (LuaTable.mem_sent (by omega)).mp he
    exact ⟨e, hmem, hsame e hmem⟩

end Back

/-- From a boolean only itself can be reached. -/
theorem reach_boolean {H : LuaHeap} {b : Bool} {v : LuaValue} (h : H.Reach (.boolean b) v) :
    v = .boolean b := by
  rcases Relation.ReflTransGen.cases_head h with h | ⟨u, hu, -⟩
  · exact h.symm
  · cases hu

theorem isomorphic_boolean (H H' : LuaHeap) (b : Bool) :
    Isomorphic H (.boolean b) H' (.boolean b) := by
  refine isomorphic_of_sameEntries (f := id) Function.injective_id.injOn ?_ ?_
  · simp [SameValue, LuaValue.rawEq]
  · intro ref href
    cases reach_boolean href

theorem comesBack_boolean (H : LuaHeap) (b : Bool) : ComesBack H (.boolean b) := by
  refine ⟨_, [], .boolean b, rfl, ?_, isomorphic_boolean H [] b⟩
  cases b <;> rfl

theorem comesBack_of_doubles {H : LuaHeap} {o : LuaValue} {bytes : List UInt8} (hsup : SupportedGraph H o)
    (henc : objectbufEncode H o .missing = .ok bytes) (hlen : bytes.length < 2 ^ 32) (hdoubles : DoublesOnly H o)
    (hshadow : NothingShadowed H o) : ComesBack H o := by
  by_cases hbool : ∃ b, o = .boolean b
  · obtain ⟨b, rfl⟩ := hbool
    exact comesBack_boolean H b
  · have hbool' : ∀ b, o ≠ .boolean b := fun b hb => hbool ⟨b, hb⟩
    obtain ⟨ctx, -, hctx, hp, -⟩ := exists_encode hsup .missing
    have hfits := fits_of_short hbool' hctx henc hlen (Or.inl rfl)
    obtain rfl := encode_eq hbool' hctx henc
    refine ⟨_, _, _, henc, sent_received hp hsup SymTable.missing_lawful hfits hbool',
      isomorphic_of_sameEntries (place_injOn hp) (sameValue_root hp hsup hdoubles hbool') ?_⟩
    intro ref href
    exact sameEntries_received hp hsup hfits hdoubles href (hshadow ref href)

/-! ## Nothing else comes back -/

section Lost

variable {H : LuaHeap} {o : LuaValue} {ctx : Ctx}

theorem Arrives.isDouble {v : LuaValue} {m : LuaNumber} (h : Arrives ctx v (.number m)) :
    m.IsDouble := by
  cases h with
  | number h => exact ⟨_, h.symm⟩

/-- **Every number that arrives is a double.** -/
theorem doublesOnly_received (hp : Packed H o ctx) (hsup : SupportedGraph H o)
    (hfits : Fits H .missing ctx) (hbool : ∀ b, o ≠ .boolean b) :
    DoublesOnly (receivedHeap H .missing ctx) (receivedRoot .missing ctx) := by
  intro m hm
  have hrecv : ∀ {v}, H.Reach o v → ∀ {k}, recvValue .missing ctx v = .number k → k.IsDouble := by
    intro v hv k hk
    rcases (recv_spec hp hsup SymTable.missing_lawful hfits hv).2 with
      ⟨b, -, hr⟩ | ⟨hhas, -⟩ | ⟨-, harr⟩
    · rw [hk] at hr
      cases hr
    · exact absurd hhas (not_has_missing v)
    · rw [hk] at harr
      exact harr.isDouble
  rcases Relation.ReflTransGen.cases_tail hm with heq | ⟨w, -, hchild⟩
  · -- the root
    have hroot := hsup o Relation.ReflTransGen.refl
    have hscalar : (∃ n, o = .number n) ∨ (∃ str, o = .string str) → m.IsDouble := by
      intro h
      have harr := (receivedRoot_scalar hp SymTable.missing_lawful h).2.1 (not_has_missing o)
      rw [← heq] at harr
      exact harr.isDouble
    cases o with
    | table ref =>
        rw [receivedRoot_table hp SymTable.missing_lawful] at heq
        cases heq
    | number n => exact hscalar (Or.inl ⟨n, rfl⟩)
    | string str => exact hscalar (Or.inr ⟨str, rfl⟩)
    | boolean b => exact absurd rfl (hbool b)
    | nil => cases hroot
    | other type ref => cases hroot
  · cases w with
    | table q =>
        obtain ⟨e, he, hnum⟩ := LuaHeap.mem_children.mp hchild
        obtain ⟨ref, hq⟩ := exists_of_mem_receivedHeap hp he
        rw [mem_receivedHeap hp hsup SymTable.missing_lawful hfits hq] at he
        obtain ⟨e, hsent, rfl⟩ := List.mem_map.mp he.mem
        have href := hp.reach_tables (List.mem_of_getElem? hq)
        have hborder := firstBorder_lt hp hfits href
        obtain ⟨hk, hv⟩ := reach_entry href ((LuaTable.mem_sent (by omega)).mp hsent).1
        rcases hnum with hnum | hnum
        · -- a key is stored in its normal form
          simp only [LuaTable.sentAs] at hnum
          cases hkey : recvValue .missing ctx e.1 with
          | number k =>
              rw [hkey] at hnum
              cases hnum
              obtain ⟨x, hx⟩ := hrecv hk hkey
              exact ⟨x, by rw [hx, LuaNumber.value_normal]⟩
          | _ =>
              rw [hkey] at hnum
              cases hnum
        · exact hrecv hv hnum.symm
    | _ => cases hchild

/-- No table arrives with more entries than it had, and one with a shadowed key
arrives with fewer. -/
theorem length_received_le (hp : Packed H o ctx) (hsup : SupportedGraph H o)
    (hfits : Fits H .missing ctx) {ref : ℕ} (href : H.Reach o (.table ref)) :
    ((receivedHeap H .missing ctx).table (ctx.place ref)).entries.length
        ≤ (H.table ref).entries.length ∧
      ∀ e ∈ (H.table ref).entries, (H.table ref).Shadowed e.1 →
        ((receivedHeap H .missing ctx).table (ctx.place ref)).entries.length
          < (H.table ref).entries.length := by
  have hborder := firstBorder_lt hp hfits href
  have hplace := getElem?_place hp href
  have hsent : (H.table ref).sent.Nodup :=
    List.Nodup.of_map Prod.fst (LuaTable.nodup_sent (by omega))
  have hsub : (H.table ref).sent ⊆ (H.table ref).entries := fun e he =>
    ((LuaTable.mem_sent (by omega)).mp he).1
  have hle : ((receivedHeap H .missing ctx).table (ctx.place ref)).entries.length
      ≤ (H.table ref).sent.length := by
    have hnodup := List.Nodup.of_map Prod.fst
      ((receivedHeap H .missing ctx).table (ctx.place ref)).nodup
    have hmap : ((receivedHeap H .missing ctx).table (ctx.place ref)).entries
        ⊆ (H.table ref).sent.map (LuaTable.sentAs (recvValue .missing ctx)) := fun e he =>
      ((mem_receivedHeap hp hsup SymTable.missing_lawful hfits hplace).mp he).mem
    simpa using (hnodup.subperm hmap).length_le
  refine ⟨hle.trans (hsent.subperm hsub).length_le, ?_⟩
  intro e he hshadow
  -- the entry is not sent
  have hnot : e ∉ (H.table ref).sent := fun h => ((LuaTable.mem_sent (by omega)).mp h).2 hshadow
  have hcons := (List.nodup_cons.mpr ⟨hnot, hsent⟩).subperm (List.cons_subset.mpr ⟨he, hsub⟩)
  exact hle.trans_lt hcons.length_le

/-- A graph isomorphic to one with doubles only has doubles only. -/
theorem doublesOnly_of_isomorphic {H' : LuaHeap} {o' : LuaValue} (h : Isomorphic H o H' o')
    (hdoubles : DoublesOnly H' o') : DoublesOnly H o := by
  intro n hn
  obtain ⟨f, w, hw, hsame⟩ := h.exists_same hn
  cases w with
  | number m =>
      simp only [SameValue, LuaValue.rawEq, Bool.and_eq_true, decide_eq_true_eq] at hsame
      obtain ⟨x, hx⟩ := hdoubles m hw
      exact ⟨x, hx.trans hsame.2.symm⟩
  | _ => simp [SameValue, LuaValue.rawEq] at hsame

theorem nothingShadowed_of_isomorphic (hp : Packed H o ctx) (hsup : SupportedGraph H o)
    (hfits : Fits H .missing ctx)
    (hiso : Isomorphic H o (receivedHeap H .missing ctx) (receivedRoot .missing ctx)) :
    NothingShadowed H o := by
  classical
  intro ref href e he hshadow
  obtain ⟨f, hbij, -, hentries⟩ := hiso
  let refs := (Finset.range H.length).filter fun r => H.Reach o (.table r)
  let count := fun q => ((receivedHeap H .missing ctx).table q).entries.length
  have hrefs : ∀ {r}, r ∈ refs ↔ H.Reach o (.table r) := by
    intro r
    rw [Finset.mem_filter, Finset.mem_range]
    exact ⟨fun h => h.2, fun h => ⟨hsup _ h, h⟩⟩
  have hfinj : Set.InjOn f refs := hbij.injOn.mono fun r hr => hrefs.mp hr
  have hpinj : Set.InjOn ctx.place refs := (place_injOn hp).mono fun r hr => hrefs.mp hr
  have hbefore : ∑ r ∈ refs, (H.table r).entries.length ≤ ∑ q ∈ refs.image f, count q := by
    rw [Finset.sum_image hfinj]
    apply Finset.sum_le_sum
    intro r hr
    exact (hentries r (hrefs.mp hr)).length_le hbij.injOn fun e he =>
      (reach_entry (hrefs.mp hr) he).1
  have hamong : ∑ q ∈ refs.image f, count q ≤ ∑ q ∈ refs.image ctx.place, count q := by
    apply Finset.sum_le_sum_of_ne_zero
    intro q _ hq
    obtain ⟨e, he⟩ := List.exists_mem_of_length_pos (Nat.pos_of_ne_zero hq)
    obtain ⟨r, hr⟩ := exists_of_mem_receivedHeap hp he
    refine Finset.mem_image.mpr ⟨r, hrefs.mpr ?_, (place_eq hp hr).symm⟩
    exact hp.reach_tables (List.mem_of_getElem? hr)
  have hafter : ∑ q ∈ refs.image ctx.place, count q < ∑ r ∈ refs, (H.table r).entries.length := by
    rw [Finset.sum_image hpinj]
    apply Finset.sum_lt_sum
    · intro r hr
      exact (length_received_le hp hsup hfits (hrefs.mp hr)).1
    · exact ⟨ref, hrefs.mpr href, (length_received_le hp hsup hfits href).2 e he hshadow⟩
  omega

end Lost

/-! ## The round trip -/

theorem doubles_of_comesBack {H : LuaHeap} {o : LuaValue} {bytes : List UInt8} (hsup : SupportedGraph H o)
    (henc : objectbufEncode H o .missing = .ok bytes) (hlen : bytes.length < 2 ^ 32) (h : ComesBack H o) :
    DoublesOnly H o ∧ NothingShadowed H o := by
  obtain ⟨bytes', H', o', henc', hdec, hiso⟩ := h
  rw [henc] at henc'
  cases henc'
  by_cases hbool : ∃ b, o = .boolean b
  · obtain ⟨b, rfl⟩ := hbool
    constructor
    · intro n hn
      cases reach_boolean hn
    · intro ref href
      cases reach_boolean href
  · have hbool' : ∀ b, o ≠ .boolean b := fun b hb => hbool ⟨b, hb⟩
    obtain ⟨ctx, -, hctx, hp, -⟩ := exists_encode hsup .missing
    have hfits := fits_of_short hbool' hctx henc hlen (Or.inl rfl)
    obtain rfl := encode_eq hbool' hctx henc
    rw [sent_received hp hsup SymTable.missing_lawful hfits hbool'] at hdec
    cases hdec
    exact ⟨doublesOnly_of_isomorphic hiso (doublesOnly_received hp hsup hfits hbool'),
      nothingShadowed_of_isomorphic hp hsup hfits hiso⟩

/-- **The round trip**: a supported graph whose encoding is shorter than `2 ^ 32` bytes comes back if and
only if its numbers are doubles and no string key is taken for an array element. -/
theorem objectbuf_round_trip {H : LuaHeap} {o : LuaValue} {bytes : List UInt8} (hsup : SupportedGraph H o)
    (henc : objectbufEncode H o .missing = .ok bytes) (hlen : bytes.length < 2 ^ 32) :
    ComesBack H o ↔ DoublesOnly H o ∧ NothingShadowed H o := by
  constructor
  · exact doubles_of_comesBack hsup henc hlen
  · rintro ⟨hdoubles, hshadow⟩
    exact comesBack_of_doubles hsup henc hlen hdoubles hshadow

/-! ## Two graphs -/

/-- What can be reached stays within a set of values that is closed. -/
theorem reach_of_closed {H : LuaHeap} {o : LuaValue} {vs : List LuaValue} (ho : o ∈ vs)
    (hclosed : ∀ v ∈ vs, ∀ w ∈ H.children v, w ∈ vs) {v : LuaValue} (hv : H.Reach o v) : v ∈ vs := by
  induction hv with
  | refl => exact ho
  | tail _ hw ih => exact hclosed _ ih _ hw

theorem graphSize_le (H : LuaHeap) (o : LuaValue) :
    graphSize H o ≤ o.size + ∑ ref ∈ Finset.range H.length, (H.table ref).size := by
  classical
  unfold graphSize
  apply Nat.add_le_add_left
  apply Finset.sum_le_sum_of_subset
  intro ref href
  exact (Finset.mem_filter.mp href).1

/-- The tables `t = {u, self = t, [u] = true}` and `u = {"x"}`. -/
def cyclicHeap : LuaHeap :=
  [(((LuaTable.new none).rawset (intKey 1) (.table 1) (isKey_intKey 1)).rawset
      (.string "self".toUTF8.toList) (.table 0) rfl).rawset (.table 1) (.boolean true) rfl,
    (LuaTable.new none).rawset (intKey 1) (.string "x".toUTF8.toList) (isKey_intKey 1)]

/-- What can be reached from the first of them. -/
def cyclicValues : List LuaValue :=
  [.table 0, .table 1, intKey 1, .string "self".toUTF8.toList, .boolean true,
    .string "x".toUTF8.toList]

theorem reach_cyclic {v : LuaValue} (hv : LuaHeap.Reach cyclicHeap (.table 0) v) : v ∈ cyclicValues :=
  reach_of_closed (by decide) (by decide +kernel) hv

theorem supportedGraph_cyclic : SupportedGraph cyclicHeap (.table 0) := by
  intro v hv
  have hmem := reach_cyclic hv
  simp only [cyclicValues, List.mem_cons, List.not_mem_nil, or_false] at hmem
  rcases hmem with rfl | rfl | rfl | rfl | rfl | rfl
  · exact (by decide : 0 < cyclicHeap.length)
  · exact (by decide : 1 < cyclicHeap.length)
  · rfl
  · trivial
  · trivial
  · trivial

theorem graphSize_cyclic : graphSize cyclicHeap (.table 0) ≤ 1016 := by
  have hsize := graphSize_le cyclicHeap (.table 0)
  have hsum : ∑ ref ∈ Finset.range (List.length cyclicHeap), (LuaHeap.table cyclicHeap ref).size
      ≤ 1000 := by decide +kernel
  have hroot : (LuaValue.table 0).size = 16 := rfl
  omega

/-- The cyclic graph is encoded to few bytes. -/
theorem encode_cyclic {sym : SymTable} (h : sym.index ≤ 100) :
    ∃ bytes, objectbufEncode cyclicHeap (.table 0) sym = .ok bytes ∧ bytes.length < 2 ^ 32 ∧
      IndexSpace cyclicHeap (.table 0) sym := by
  obtain ⟨ctx, bytes, -, -, henc⟩ := exists_encode supportedGraph_cyclic sym
  have hsize := graphSize_cyclic
  exact ⟨bytes, henc, encode_short supportedGraph_cyclic (by omega) henc⟩

theorem doublesOnly_cyclic : DoublesOnly cyclicHeap (.table 0) := by
  intro n hn
  have hmem := reach_cyclic hn
  simp only [cyclicValues, List.mem_cons, List.not_mem_nil, or_false, reduceCtorEq, false_or,
    intKey, LuaValue.number.injEq] at hmem
  rw [hmem]
  exact isDouble_intKey (k := 1) (by omega)

theorem nothingShadowed_cyclic : NothingShadowed cyclicHeap (.table 0) := by
  rintro ref href e he ⟨⟨str, hstr⟩, hin⟩
  have hmem := reach_cyclic (reach_entry href he).1
  have hzero : luaTonumber e.1 = ofInt 0 := by
    rw [hstr] at hmem ⊢
    simp only [cyclicValues, List.mem_cons, List.not_mem_nil, or_false, reduceCtorEq, false_or,
      intKey, LuaValue.string.injEq] at hmem
    rcases hmem with rfl | rfl <;> decide +kernel
  rw [inArrayPart_of_zero hzero] at hin
  cases hin

/-- A graph with a cycle and a table that occurs as a key and as a value. -/
theorem objectbuf_round_trip_cyclic :
    SupportedGraph cyclicHeap (.table 0) ∧ ComesBack cyclicHeap (.table 0) := by
  have hsup := supportedGraph_cyclic
  obtain ⟨bytes, henc, hlen, -⟩ := @encode_cyclic .missing (by decide)
  exact ⟨hsup, (objectbuf_round_trip hsup henc hlen).mpr ⟨doublesOnly_cyclic, nothingShadowed_cyclic⟩⟩

/-- The table `{"a", ["1"] = "b"}`. -/
def shadowedHeap : LuaHeap :=
  [((LuaTable.new none).rawset (intKey 1) (.string "a".toUTF8.toList) (isKey_intKey 1)).rawset
    (.string "1".toUTF8.toList) (.string "b".toUTF8.toList) rfl]

/-- What can be reached from it. -/
def shadowedValues : List LuaValue :=
  [.table 0, intKey 1, .string "a".toUTF8.toList, .string "1".toUTF8.toList,
    .string "b".toUTF8.toList]

theorem firstBorder_shadowed : firstBorder (LuaHeap.table shadowedHeap 0).entries = 1 := by
  rw [firstBorder, Nat.find_eq_iff]
  decide +kernel

theorem graphSize_shadowed : graphSize shadowedHeap (.table 0) ≤ 1016 := by
  have hsize := graphSize_le shadowedHeap (.table 0)
  have hsum : ∑ ref ∈ Finset.range (List.length shadowedHeap),
      (LuaHeap.table shadowedHeap ref).size ≤ 1000 := by decide +kernel
  have hroot : (LuaValue.table 0).size = 16 := rfl
  omega

/-- The entry with the key `"1"` is lost. -/
theorem objectbuf_loses_shadowed_entry :
    SupportedGraph shadowedHeap (.table 0) ∧ ¬ ComesBack shadowedHeap (.table 0) := by
  have hsup : SupportedGraph shadowedHeap (.table 0) := by
    intro v hv
    have hmem : v ∈ shadowedValues := reach_of_closed (by decide) (by decide +kernel) hv
    simp only [shadowedValues, List.mem_cons, List.not_mem_nil, or_false] at hmem
    rcases hmem with rfl | rfl | rfl | rfl | rfl
    · exact (by decide : 0 < shadowedHeap.length)
    · rfl
    · trivial
    · trivial
    · trivial
  refine ⟨hsup, ?_⟩
  intro h
  obtain ⟨ctx, bytes, -, -, henc⟩ := exists_encode hsup .missing
  have hindex : SymTable.missing.index = 2 := rfl
  have hsize := graphSize_shadowed
  obtain ⟨-, hshadow⟩ := doubles_of_comesBack hsup henc (encode_short hsup (by omega) henc).1 h
  refine hshadow 0 Relation.ReflTransGen.refl
    (.string "1".toUTF8.toList, .string "b".toUTF8.toList) (by decide +kernel) ⟨⟨_, rfl⟩, ?_⟩
  have hnum : luaTonumber (.string "1".toUTF8.toList) = ofInt (1 : ℕ) := by decide +kernel
  rw [firstBorder_shadowed]
  exact inArrayPart_of_value Nat.one_pos le_rfl
    (by rw [hnum, value_ofInt_natCast (by omega)])

end LuaFan
