/-
# What JSON texts stand for

What a JSON text stands for: `Spells d k items s r` says that the text `s` starts with the
items, values or members, and that `r` is left.  What a reader makes of the pieces of a
string and of the word of a number is left open (`Meaning`).

A derivable text has items (`Derives.exists_spells`), and what is spelled is derivable
(`Spells.derives`).
-/
import LuaFan.Lib.JsonText

namespace JsonText

open Fp

/-! ## Nodes -/

/-- A JSON value, with numbers in `ν`; the items of an array have no names of their own. -/
inductive Node (ν : Type) where
  | null
  | boolean (b : Bool)
  | number (x : ν)
  | string (s : List UInt8)
  | container (isObject : Bool) (items : List (List UInt8 × Node ν))

/-- A dialect, and what its strings and numbers stand for. -/
structure Meaning (ν : Type) extends Dialect where
  text : List Piece → List UInt8
  value : List UInt8 → ν

/-- What the literals stand for. -/
def literalNode {ν : Type} : List UInt8 → Node ν → Prop
  | w, t => (w = bytesOf "true" ∧ t = .boolean true) ∨ (w = bytesOf "false" ∧ t = .boolean false) ∨
      (w = bytesOf "null" ∧ t = .null)

variable {ν : Type}

/-- A string in front of `r`, and the text it stands for. -/
def QuotedAs (d : Meaning ν) (text s r : List UInt8) : Prop :=
  ∃ ps : List Piece, (∀ p ∈ ps, p.isValid = true) ∧ d.pieces ps = true ∧
    s = ascii '"' :: ps.flatMap Piece.spell ++ ascii '"' :: r ∧ text = d.text ps

inductive Spells (d : Meaning ν) :
    Kind → List (List UInt8 × Node ν) → List UInt8 → List UInt8 → Prop
  | string {text s r} : QuotedAs d text s r → Spells d (.one false) [([], .string text)] s r
  | number {w r} : d.number w = true → Spells d (.one false) [([], .number (d.value w))] (w ++ r) r
  | literal {w t r} : literalNode w t → Spells d (.one false) [([], t)] (w ++ r) r
  | empty {m s r} : Ws s (closing m :: r) →
      Spells d (.one false) [([], .container m [])] (opening m :: s) r
  | container {m items s r} : Spells d (.many m) items s (closing m :: r) →
      Spells d (.one false) [([], .container m items)] (opening m :: s) r
  | member {key t s s₁ s₂ s₃ r} : QuotedAs d key s s₁ → Ws s₁ (ascii ':' :: s₂) → Ws s₂ s₃ →
      Spells d (.one false) [([], t)] s₃ r → Spells d (.one true) [(key, t)] s r
  | single {m item s s₁ s₂ r} : Ws s s₁ → Spells d (.one m) [item] s₁ s₂ → Ws s₂ r →
      Spells d (.many m) [item] s r
  | more {m item items s s₁ s₂ s₃ r} : Ws s s₁ → Spells d (.one m) [item] s₁ s₂ →
      Ws s₂ (ascii ',' :: s₃) → Spells d (.many m) items s₃ r →
      Spells d (.many m) (item :: items) s r
  | trailing {m item s s₁ s₂ s₃ r} : d.trailing = true → Ws s s₁ →
      Spells d (.one m) [item] s₁ s₂ → Ws s₂ (ascii ',' :: s₃) → Ws s₃ r →
      Spells d (.many m) [item] s r

/-- A JSON text that stands for the tree. -/
def TextOf (d : Meaning ν) (t : Node ν) (s : List UInt8) : Prop :=
  ∃ s₁ s₂, Ws s s₁ ∧ Spells d (.one false) [([], t)] s₁ s₂ ∧ Ws s₂ []

/-! ## Texts and trees -/

variable {d : Meaning ν} {k : Kind} {items : List (List UInt8 × Node ν)} {s r : List UInt8}

theorem QuotedAs.quoted {text : List UInt8} (h : QuotedAs d text s r) : Quoted d.toDialect s r := by
  obtain ⟨ps, hvalid, hpieces, hs, -⟩ := h
  exact ⟨ps, hvalid, hpieces, hs⟩

theorem Quoted.exists_text (h : Quoted d.toDialect s r) : ∃ text, QuotedAs d text s r := by
  obtain ⟨ps, hvalid, hpieces, hs⟩ := h
  exact ⟨d.text ps, ps, hvalid, hpieces, hs, rfl⟩

theorem literalNode_mem {w : List UInt8} {t : Node ν} (h : literalNode w t) : w ∈ literals := by
  rcases h with ⟨rfl, -⟩ | ⟨rfl, -⟩ | ⟨rfl, -⟩ <;> simp [literals]

theorem exists_literalNode {w : List UInt8} (h : w ∈ literals) : ∃ t : Node ν, literalNode w t := by
  simp only [literals, List.mem_cons, List.not_mem_nil, or_false] at h
  rcases h with rfl | rfl | rfl
  · exact ⟨.boolean true, Or.inl ⟨rfl, rfl⟩⟩
  · exact ⟨.boolean false, Or.inr (Or.inl ⟨rfl, rfl⟩)⟩
  · exact ⟨.null, Or.inr (Or.inr ⟨rfl, rfl⟩)⟩

theorem Spells.derives (h : Spells d k items s r) : Derives d.toDialect k s r := by
  induction h with
  | string hq => exact .string hq.quoted
  | number hnum => exact .number hnum
  | literal hlit => exact .literal (literalNode_mem hlit)
  | empty hws => exact .empty hws
  | container _ ih => exact .container ih
  | member hq hws hws' _ ih => exact .member hq.quoted hws hws' ih
  | single hws _ hws' ih => exact .single hws ih hws'
  | more hws _ hws' _ ih ih' => exact .more hws ih hws' ih'
  | trailing ht hws _ hws' hws'' ih => exact .trailing ht hws ih hws' hws''

/-- The items of a derivation: one of a value or a member, any number of a list. -/
def HasItems (d : Meaning ν) (s r : List UInt8) : Kind → Prop
  | .one m => ∃ item, Spells d (.one m) [item] s r
  | .many m => ∃ items, Spells d (.many m) items s r

/-- A value has no name. -/
theorem Spells.unnamed {item : List UInt8 × Node ν} (h : Spells d (.one false) [item] s r) :
    Spells d (.one false) [([], item.2)] s r := by
  cases h with
  | string hq => exact .string hq
  | number hnum => exact .number hnum
  | literal hlit => exact .literal hlit
  | empty hws => exact .empty hws
  | container hm => exact .container hm

theorem Derives.exists_spells (h : Derives d.toDialect k s r) : HasItems d s r k := by
  induction h with
  | string hq =>
      obtain ⟨text, htext⟩ := Quoted.exists_text hq
      exact ⟨_, .string htext⟩
  | number hnum => exact ⟨_, .number hnum⟩
  | literal hlit =>
      obtain ⟨t, ht⟩ := exists_literalNode hlit
      exact ⟨_, .literal ht⟩
  | empty hws => exact ⟨_, .empty hws⟩
  | container _ ih =>
      obtain ⟨items, hitems⟩ := ih
      exact ⟨_, .container hitems⟩
  | member hq hws hws' _ ih =>
      obtain ⟨key, hkey⟩ := Quoted.exists_text hq
      obtain ⟨item, hitem⟩ := ih
      exact ⟨_, .member hkey hws hws' hitem.unnamed⟩
  | single hws _ hws' ih =>
      obtain ⟨item, hitem⟩ := ih
      exact ⟨_, .single hws hitem hws'⟩
  | more hws _ hws' _ ih ih' =>
      obtain ⟨item, hitem⟩ := ih
      obtain ⟨items, hitems⟩ := ih'
      exact ⟨_, .more hws hitem hws' hitems⟩
  | trailing ht hws _ hws' hws'' ih =>
      obtain ⟨item, hitem⟩ := ih
      exact ⟨_, .trailing ht hws hitem hws' hws''⟩

/-- **The texts of a dialect are those that stand for something.** -/
theorem text_iff_exists_node : Text d.toDialect s ↔ ∃ t : Node ν, TextOf d t s := by
  constructor
  · rintro ⟨s₁, s₂, hws, hderives, hend⟩
    obtain ⟨item, hitem⟩ := hderives.exists_spells
    exact ⟨item.2, s₁, s₂, hws, hitem.unnamed, hend⟩
  · rintro ⟨t, s₁, s₂, hws, hspells, hend⟩
    exact ⟨s₁, s₂, hws, hspells.derives, hend⟩

/-- No white space. -/
theorem ws_refl (s : List UInt8) : Ws s s := ⟨[], by simp, rfl⟩

/-- **Items with a comma between each two.** -/
theorem spells_intercalate {m : Bool} {items : List (List UInt8 × Node ν)} :
    ∀ {texts : List (List UInt8)}, texts.length = items.length → items ≠ [] →
      (∀ q ∈ texts.zip items, ∀ r, Spells d (.one m) [q.2] (q.1 ++ r) r) →
      ∀ r, Spells d (.many m) items ([ascii ','].intercalate texts ++ r) r := by
  induction items with
  | nil => exact fun _ hne => absurd rfl hne
  | cons item items ih =>
      intro texts hlen _ hitems r
      obtain ⟨text, texts, rfl⟩ := List.exists_cons_of_length_eq_add_one hlen
      rw [List.zip_cons_cons, List.forall_mem_cons] at hitems
      cases items with
      | nil =>
          obtain rfl : texts = [] := by simpa using hlen
          rw [List.intercalate_singleton]
          exact .single (ws_refl _) (hitems.1 r) (ws_refl r)
      | cons item' items =>
          obtain ⟨text', texts, rfl⟩ := List.exists_cons_of_length_eq_add_one (Nat.succ.inj hlen)
          have hrest := ih (Nat.succ.inj hlen) (List.cons_ne_nil _ _) hitems.2 r
          rw [List.intercalate_cons_cons, List.append_assoc, List.append_assoc]
          exact .more (ws_refl _) (hitems.1 _) (ws_refl _) hrest

/-- A container without white space. -/
theorem spells_container {m : Bool} {items : List (List UInt8 × Node ν)} {texts : List (List UInt8)}
    (hlen : texts.length = items.length)
    (hitems : ∀ q ∈ texts.zip items, ∀ r, Spells d (.one m) [q.2] (q.1 ++ r) r) (r : List UInt8) :
    Spells d (.one false) [([], .container m items)]
      (opening m :: ([ascii ','].intercalate texts ++ closing m :: r)) r := by
  by_cases hne : items = []
  · subst hne
    obtain rfl : texts = [] := by simpa using hlen
    exact .empty (ws_refl _)
  · exact .container (spells_intercalate hlen hne hitems _)

end JsonText
