/-
ScimQuery/Proofs/Search/Fields.lean

The fields of a request that travels.  A filter travels as its canonical text, so
the tree that arrives is the one that is read from that text, `Expr.readBack`.
All other fields arrive as they were sent, and those that are not set are not
sent.

Main results: every tree that was read is the same as itself
(`Expr.Proper.same_refl`; a tree with a number that is not finite is not), and a
request whose filter is replaced by one that is the same is the same request
(`Search.same_withFilter`).
-/
import ScimQuery.Proofs.Filter.ReadBack
import ScimQuery.Search.Basic

namespace ScimQuery

namespace Expr

/-- A proper tree is the same as itself: its numbers are finite. -/
theorem Proper.same_refl {e : Expr} {scope : Option Attribute} (h : e.Proper scope) :
    e.same e = true := by
  induction e generalizing scope with
  | comparison a op v => simp [same, Attribute.same_refl, Literal.same_refl h.2]
  | present a => exact a.same_refl
  | joined l c r ihl ihr => simp [same, ihl h.1, ihr h.2]
  | group n e ih => simp [same, ih h]
  | valuePath a e ih => simp [same, Attribute.same_refl, ih h.2.2]

/-- The tree that is read from the text of an expression, if one is. -/
def readBack (e : Expr) : Expr := (Filter.parse e.render).toOption.getD e

theorem readBack_of_parse {e e' : Expr} (h : Filter.parse e.render = .ok e') :
    e.readBack = e' := by
  simp [readBack, h, Except.toOption]

end Expr

namespace Search

/-! ### What is sent -/

/-- A field that may be absent is sent under its key or not at all. -/
theorem keys_option {α : Type} (key : String) (write : α → String) (o : Option α) :
    ((o.map fun a => (key, write a)).toList.map Prod.fst).Sublist [key] := by
  cases o with
  | none => exact List.nil_sublist _
  | some a => exact List.Sublist.refl _

/-- A list is sent under its key unless it is empty. -/
theorem keys_list {α : Type} (key text : String) (as : List α) :
    ((if as.isEmpty then [] else [(key, text)]).map Prod.fst).Sublist [key] := by
  cases as with
  | nil => exact List.nil_sublist _
  | cons a as => exact List.Sublist.refl _

/-! ### What arrives -/

theorem wellFormed_of_read {as : List Attribute}
    (h : ∀ a ∈ as, ∃ p, Attribute.ofPath? p = some a) : ∀ a ∈ as, a.WellFormed := by
  intro a ha
  obtain ⟨p, hp⟩ := h a ha
  exact (Attribute.ofPath?_eq_some_iff.1 hp).2

theorem sameList_refl {α : Type} {same : α → α → Bool} (h : ∀ a, same a a = true) (as : List α) :
    sameList same as as = true := by
  induction as with
  | nil => rfl
  | cons a as ih => simp [sameList, h a, ih]

theorem sameOption_refl {α : Type} {same : α → α → Bool} {o : Option α}
    (h : ∀ a, o = some a → same a a = true) : sameOption same o o = true := by
  cases o with
  | none => rfl
  | some a => exact h a rfl

/-- Only the filter has to be compared. -/
theorem same_withFilter (r : Search) {filter : Option Expr}
    (h : sameOption Expr.same filter r.filter = true) :
    ({ r with filter := filter } : Search).same r = true := by
  simp [same, h, sameList_refl Attribute.same_refl,
    sameOption_refl fun (a : Attribute) (_ : r.sortBy = some a) => a.same_refl]

theorem parse_filter {filter : Option Expr}
    (h : ∀ e, filter = some e → ∃ e', Filter.parse e.render = .ok e' ∧ e'.same e = true) :
    ∀ e, filter = some e → Filter.parse e.render = .ok e.readBack := by
  intro e he
  obtain ⟨e', hparse, -⟩ := h e he
  rw [hparse, Expr.readBack_of_parse hparse]

/-- The filter that arrives is the same as the one that was sent. -/
theorem sameOption_readBack {filter : Option Expr}
    (h : ∀ e, filter = some e → ∃ e', Filter.parse e.render = .ok e' ∧ e'.same e = true) :
    sameOption Expr.same (filter.map Expr.readBack) filter = true := by
  cases filter with
  | none => rfl
  | some e =>
    obtain ⟨e', hparse, hsame⟩ := h e rfl
    show e.readBack.same e = true
    rw [Expr.readBack_of_parse hparse]
    exact hsame

end Search

end ScimQuery
