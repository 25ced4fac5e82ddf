/-
ScimQuery/Proofs/Attribute/Scope.lean

References inside a value path, written by their bare names and read back.  The
printer drops the parent of a sub-attribute, the reader puts the parent in front
of a bare name.

Main results: both together give the reference back whenever what is left of it
is a name (`ofPath?_render`), and only then (`isName_sub_of_same`); any other
sub-attribute is read as a reference of its own, or not at all.
-/
import ScimQuery.Expr.Printer
import ScimQuery.Proofs.Attribute.Path

namespace ScimQuery.Attribute

/-- What a reference stands for inside a value path of `scope`, or outside any. -/
def inScope (scope : Option Attribute) (a : Attribute) : Attribute :=
  match scope with
  | none => a
  | some parent => a.scopedUnder parent

/-- A reference that can stand in a tree which was read: its path can be read, is
a single word, and no parent is missing from it. -/
structure ProperIn (scope : Option Attribute) (a : Attribute) : Prop where
  wellFormed : a.WellFormed
  plain : a.Plain
  settled : a.inScope scope = a

theorem isWord_path {a : Attribute} (h : a.WellFormed) (hplain : a.Plain) :
    Scan.IsWord a.path.toList := by
  refine ⟨?_, hplain⟩
  rw [toList_path]
  have hne : a.name.toList ≠ [] := (isNameChar_of_isName h.name).1
  simp [hne]

/-- A reference is written as a single word. -/
theorem ProperIn.isWord_render {scope : Option Attribute} {a : Attribute}
    (h : a.ProperIn scope) : Scan.IsWord (a.render scope).toList := by
  have hpath := isWord_path h.wellFormed h.plain
  unfold render
  split
  · rename_i p s hsub
    split
    · exact ⟨ne_nil_of_isSub (h.wellFormed.sub s hsub).1, (plain_iff.1 h.plain).2.2 s hsub⟩
    · exact hpath
  · exact hpath

theorem render_of_isScopedUnder {a p : Attribute} {s : String} (h : a.isScopedUnder p = true)
    (hs : a.sub = some s) : a.render (some p) = s := by
  simp only [render, hs, h, if_true]

theorem render_of_not_isScopedUnder {a p : Attribute} (h : a.isScopedUnder p = false) :
    a.render (some p) = a.path := by
  unfold render
  split
  · rename_i p' s hp hs
    obtain rfl := Option.some.inj hp
    rw [h]
    rfl
  · rfl

theorem isScopedUnder_scopedUnder (w : String) (p : Attribute) :
    ((⟨none, w, none⟩ : Attribute).scopedUnder p).isScopedUnder p = true := by
  simp [scopedUnder, isScopedUnder, Text.alike_refl, Text.alikePart_refl]

/-- A reference of which a name is left when its parent is dropped is read back,
and written in the same way again. -/
theorem ofPath?_render {scope : Option Attribute} {a : Attribute} (h : a.ProperIn scope)
    (hsub : ∀ p, scope = some p → a.isScopedUnder p = true →
      ∃ s, a.sub = some s ∧ isName s.toList = true) :
    ∃ a₀, ofPath? (a.render scope) = some a₀ ∧ (a₀.inScope scope).same a = true ∧
      (a₀.inScope scope).render scope = a.render scope := by
  have hread := h.wellFormed.ofPath?
  rcases scope with - | p
  · exact ⟨a, hread, same_refl a, rfl⟩
  · cases hscoped : a.isScopedUnder p with
    | false =>
      rw [render_of_not_isScopedUnder hscoped]
      refine ⟨a, hread, ?_, ?_⟩
      · rw [h.settled]
        exact same_refl a
      · rw [h.settled]
        exact render_of_not_isScopedUnder hscoped
    | true =>
      obtain ⟨s, hs, hname⟩ := hsub p rfl hscoped
      rw [render_of_isScopedUnder hscoped hs]
      refine ⟨⟨none, s, none⟩, ofPath?_of_isName hname, ?_, ?_⟩
      · -- the parent may differ in case from the one that was dropped
        simp only [isScopedUnder, Bool.and_eq_true] at hscoped
        obtain ⟨⟨-, halike⟩, hurn⟩ := hscoped
        simp [inScope, scopedUnder, same, hs, Text.alikePart_symm hurn, Text.alike_symm halike,
          Text.alikePart_refl]
      · exact render_of_isScopedUnder (isScopedUnder_scopedUnder s p) rfl

theorem length_path_eq_of_same {a b : Attribute} (h : a.same b = true) :
    a.path.toList.length = b.path.toList.length := by
  simp only [same, Bool.and_eq_true] at h
  obtain ⟨⟨hurn, hname⟩, hsub⟩ := h
  have hlen : ∀ {s t : String}, Text.alike s t = true → s.toList.length = t.toList.length :=
    fun h => Text.length_eq_of_fold_eq (Text.alike_iff_fold_eq.1 h)
  have hpart : ∀ {s t : Option String} (f : String → List Char), Text.alikePart s t = true →
      (∀ s t : String, s.toList.length = t.toList.length → (f s).length = (f t).length) →
      (s.elim [] f).length = (t.elim [] f).length := by
    intro s t f hst hf
    cases s with
    | none => cases t with
      | none => rfl
      | some t => cases hst
    | some s => cases t with
      | none => cases hst
      | some t => exact hf s t (hlen hst)
  rw [toList_path, toList_path]
  simp only [List.length_append]
  rw [hlen hname, hpart _ hurn fun s t hst => by simp only [List.length_append, hst],
    hpart _ hsub fun s t hst => by simp only [List.length_cons, hst]]

/-- If the reference is read back, then a name was left of it. -/
theorem isName_sub_of_same {p a a₀ : Attribute} (hscoped : a.isScopedUnder p = true)
    (hread : ofPath? (a.render (some p)) = some a₀) (hsame : (a₀.scopedUnder p).same a = true) :
    ∃ s, a.sub = some s ∧ isName s.toList = true := by
  have hsome : a.sub.isSome = true := by
    simp only [isScopedUnder, Bool.and_eq_true] at hscoped
    exact hscoped.1.1
  obtain ⟨s, hs⟩ := Option.isSome_iff_exists.1 hsome
  rw [render_of_isScopedUnder hscoped hs] at hread
  obtain ⟨hpath, hwf⟩ := ofPath?_eq_some_iff.1 hread
  refine ⟨s, hs, ?_⟩
  by_cases hbare : (a₀.urn.isSome || a₀.sub.isSome) = true
  · -- a qualified reference stays as it is, but is shorter than the one that was written
    rw [Attribute.scopedUnder, if_pos hbare] at hsame
    have hlen := length_path_eq_of_same hsame
    rw [hpath, toList_path a, hs] at hlen
    simp only [Option.elim_some, List.length_append, List.length_cons] at hlen
    omega
  · simp only [Bool.or_eq_true, Option.isSome_iff_ne_none, not_or, Decidable.not_not] at hbare
    obtain ⟨hurn, hsub⟩ := hbare
    have hname : a₀.name = s := by
      rw [← hpath, path, base, hurn, hsub]
    rw [← hname]
    exact hwf.name

end ScimQuery.Attribute
