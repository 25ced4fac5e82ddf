/-
ScimQuery/Proofs/Expr/Scope.lean

Names put under a parent, and written without it.  Making a value path puts every
bare name in its brackets under its attribute, by a rule on what the reference lacks;
the printer leaves the attribute out again, by a rule on what the reference has.

Where no reference named the attribute already, the two cancel out
(`render_scopedUnder`, `written_scopedUnder`).  Where one did, the text gets shorter by
what the printer leaves out (`length_written_scopedUnder`), so it differs.

Main result: the text of a value path has the inner text as it was before scoping
exactly if no reference inside was a sub-attribute of its attribute; scoping a second
time, under whatever parent, does nothing; and all but the references outside value
paths stays as it is (`scopedUnder_unseen_once`).
-/
import ScimQuery.Proofs.Filter.Proper
import ScimQuery.Proofs.Filter.Scoping

namespace ScimQuery

namespace Attribute

/-! ### One reference -/

theorem isScopedUnder_eq_false_of_sub {a p : Attribute} (h : a.sub.isSome = false) :
    a.isScopedUnder p = false := by
  simp [isScopedUnder, h]

theorem scopedUnder_of_isScopedUnder {a p : Attribute} (h : a.isScopedUnder p = true) :
    ∃ s, a.sub = some s ∧ a.scopedUnder p = a := by
  simp only [isScopedUnder, Bool.and_eq_true] at h
  obtain ⟨s, hs⟩ := Option.isSome_iff_exists.1 h.1.1
  exact ⟨s, hs, by simp [scopedUnder, hs]⟩

/-- In the brackets a reference is written as it was before scoping, unless it was a
sub-attribute of the parent. -/
theorem render_scopedUnder {a p : Attribute} (h : a.isScopedUnder p = false) :
    (a.scopedUnder p).render (some p) = a.path := by
  rw [scopedUnder_eq]
  split
  · -- the parent comes in front of a bare name, and the printer leaves it out
    rename_i hbare
    obtain ⟨urn, name, sub⟩ := a
    simp only [isBare, Bool.and_eq_true, Option.isNone_iff_eq_none] at hbare
    obtain ⟨rfl, rfl⟩ := hbare
    exact render_of_isScopedUnder (isScopedUnder_scopedUnder name p) rfl
  · exact render_of_not_isScopedUnder h

/-- How many characters of a reference the printer leaves out in the brackets of the
parent. -/
def leftOut (a p : Attribute) : Nat :=
  if a.isScopedUnder p then a.path.toList.length - (a.render (some p)).toList.length else 0

theorem length_render_lt {a p : Attribute} (h : a.isScopedUnder p = true) :
    (a.render (some p)).toList.length < a.path.toList.length := by
  obtain ⟨s, hs, -⟩ := scopedUnder_of_isScopedUnder h
  rw [render_of_isScopedUnder h hs, toList_path, hs]
  simp only [Option.elim_some, List.length_append, List.length_cons]
  omega

theorem isScopedUnder_of_leftOut {a p : Attribute} (h : a.leftOut p = 0) :
    a.isScopedUnder p = false := by
  refine Bool.eq_false_iff.2 fun hscoped => ?_
  have hlt := length_render_lt hscoped
  rw [leftOut, if_pos hscoped] at h
  omega

theorem length_render_scopedUnder (a p : Attribute) :
    ((a.scopedUnder p).render (some p)).toList.length + a.leftOut p = a.path.toList.length := by
  unfold leftOut
  cases h : a.isScopedUnder p with
  | false => rw [render_scopedUnder h, if_neg Bool.false_ne_true, Nat.add_zero]
  | true =>
    obtain ⟨-, -, heq⟩ := scopedUnder_of_isScopedUnder h
    have hlt := length_render_lt h
    rw [heq, if_pos rfl]
    omega

end Attribute

namespace Expr

/-! ### The text -/

theorem written_scopedUnder {e : Expr} {p : Attribute} (hflat : e.hasValuePath = false)
    (h : ∀ a ∈ e.attributes, a.isScopedUnder p = false) :
    (e.scopedUnder p).written (some p) = e.written none := by
  induction e with
  | comparison a op v =>
    have ha := Attribute.render_scopedUnder (h a List.mem_cons_self)
    simp only [scopedUnder, written, ha]
    rfl
  | present a =>
    have ha := Attribute.render_scopedUnder (h a List.mem_cons_self)
    simp only [scopedUnder, written, ha]
    rfl
  | joined l c r ihl ihr =>
    obtain ⟨hl, hr⟩ := Bool.or_eq_false_iff.1 hflat
    rw [attributes_joined, List.forall_mem_append] at h
    simp only [scopedUnder, written, parensLeft, parensRight, connective?_scopedUnder,
      ihl hl h.1, ihr hr h.2]
  | group n e ih => simp only [scopedUnder, written, ih hflat h]
  | valuePath a e ih => cases hflat

theorem length_parensIf (b : Bool) (cs : List Char) :
    (parensIf b cs).length = cs.length + if b then 2 else 0 := by
  cases b with
  | false => rfl
  | true =>
    show ('(' :: (cs ++ [')'])).length = cs.length + 2
    rw [List.length_cons, List.length_append]
    rfl

/-- How many characters the printer leaves out of the references outside value paths. -/
def leftOut (p : Attribute) : Expr → Nat
  | comparison a _ _ => a.leftOut p
  | present a => a.leftOut p
  | joined l _ r => l.leftOut p + r.leftOut p
  | group _ e => e.leftOut p
  | valuePath .. => 0

theorem isScopedUnder_of_leftOut {e : Expr} (hflat : e.hasValuePath = false) {p : Attribute}
    (h : e.leftOut p = 0) : ∀ a ∈ e.attributes, a.isScopedUnder p = false := by
  induction e with
  | comparison a op v => exact List.forall_mem_singleton.2 (Attribute.isScopedUnder_of_leftOut h)
  | present a => exact List.forall_mem_singleton.2 (Attribute.isScopedUnder_of_leftOut h)
  | joined l c r ihl ihr =>
    obtain ⟨hl, hr⟩ := Bool.or_eq_false_iff.1 hflat
    obtain ⟨hleft, hright⟩ := Nat.add_eq_zero_iff.1 h
    rw [attributes_joined, List.forall_mem_append]
    exact ⟨ihl hl hleft, ihr hr hright⟩
  | group n e ih => exact ih hflat h
  | valuePath a e ih => cases hflat

/-- Scoping makes the text shorter by what the printer leaves out of the references. -/
theorem length_written_scopedUnder {e : Expr} (hflat : e.hasValuePath = false) (p : Attribute) :
    ((e.scopedUnder p).written (some p)).length + e.leftOut p = (e.written none).length := by
  induction e with
  | comparison a op v =>
    have ha := Attribute.length_render_scopedUnder a p
    simp only [scopedUnder, written, leftOut, List.length_append, List.length_cons]
    show _ = a.path.toList.length + _
    omega
  | present a =>
    have ha := Attribute.length_render_scopedUnder a p
    simp only [scopedUnder, written, leftOut, List.length_append, List.length_cons]
    show _ = a.path.toList.length + _
    omega
  | joined l c r ihl ihr =>
    obtain ⟨hl, hr⟩ := Bool.or_eq_false_iff.1 hflat
    have hleft := ihl hl
    have hright := ihr hr
    simp only [scopedUnder, written, parensLeft, parensRight, connective?_scopedUnder,
      leftOut, List.length_append, List.length_cons, length_parensIf]
    omega
  | group n e ih =>
    have hinner := ih hflat
    simp only [scopedUnder, written, leftOut, List.length_append, List.length_cons]
    omega
  | valuePath a e ih => cases hflat

/-- The text in the brackets is the text before scoping exactly if no reference was a
sub-attribute of the attribute. -/
theorem render_under_iff {e : Expr} (hflat : e.hasValuePath = false) (p : Attribute) :
    (under p e).render = p.path ++ "[" ++ e.render ++ "]" ↔
      ∀ a ∈ e.attributes, a.isScopedUnder p = false := by
  have htext : (under p e).render = p.path ++ "[" ++ e.render ++ "]" ↔
      (e.scopedUnder p).written (some p) = e.written none := by
    rw [← String.toList_inj, toList_render]
    simp only [String.toList_append, toList_render, under, written]
    show p.path.toList ++ '[' :: _ = p.path.toList ++ ['['] ++ _ ++ [']'] ↔ _
    simp
  rw [htext]
  constructor
  · intro heq
    have hlength := length_written_scopedUnder hflat p
    rw [heq, Nat.add_eq_left] at hlength
    exact isScopedUnder_of_leftOut hflat hlength
  · exact written_scopedUnder hflat

/-! ### The tree -/

/-- The same tree up to the references outside value paths, which are related by `r`. -/
inductive SameUpTo (r : Attribute → Attribute → Prop) : Expr → Expr → Prop
  | comparison {a b} (op : CompareOp) (v : Literal) :
      r a b → SameUpTo r (.comparison a op v) (.comparison b op v)
  | present {a b} : r a b → SameUpTo r (.present a) (.present b)
  | joined {d d' e e'} (c : Connective) :
      SameUpTo r d d' → SameUpTo r e e' → SameUpTo r (.joined d c e) (.joined d' c e')
  | group {e e'} (n : Bool) : SameUpTo r e e' → SameUpTo r (.group n e) (.group n e')
  | valuePath (a : Attribute) (e : Expr) : SameUpTo r (.valuePath a e) (.valuePath a e)

theorem SameUpTo.size_eq {r : Attribute → Attribute → Prop} {d e : Expr} (h : SameUpTo r d e) :
    e.size = d.size := by
  induction h with
  | comparison op v _ => rfl
  | present _ => rfl
  | joined c _ _ ihd ihe => rw [size, size, ihd, ihe]
  | group n _ ih => rw [size, size, ih]
  | valuePath a e => rfl

theorem SameUpTo.valuePaths_eq {r : Attribute → Attribute → Prop} {d e : Expr}
    (h : SameUpTo r d e) : e.valuePaths = d.valuePaths := by
  induction h with
  | comparison op v _ => rfl
  | present _ => rfl
  | joined c _ _ ihd ihe => rw [valuePaths, valuePaths, ihd, ihe]
  | group n _ ih => exact ih
  | valuePath a e => rfl

/-- Scoping changes bare names outside value paths and nothing else. -/
theorem sameUpTo_scopedUnder (e : Expr) (p : Attribute) :
    SameUpTo (fun a b => b = if a.isBare then ⟨p.urn, p.name, some a.name⟩ else a) e
      (e.scopedUnder p) := by
  induction e with
  | comparison a op v => exact .comparison op v (a.scopedUnder_eq p)
  | present a => exact .present (a.scopedUnder_eq p)
  | joined l c r ihl ihr => exact .joined c ihl ihr
  | group n e ih => exact .group n ih
  | valuePath a e ih => exact .valuePath a e

theorem scopedUnder_scopedUnder (e : Expr) (p q : Attribute) :
    (e.scopedUnder p).scopedUnder q = e.scopedUnder p := by
  induction e with
  | comparison a op v => rw [scopedUnder, scopedUnder, Attribute.scopedUnder_scopedUnder]
  | present a => rw [scopedUnder, scopedUnder, Attribute.scopedUnder_scopedUnder]
  | joined l c r ihl ihr => rw [scopedUnder, scopedUnder, ihl, ihr]
  | group n e ih => rw [scopedUnder, scopedUnder, ih]
  | valuePath a e ih => rfl

/-- A value path is written as its path and, in brackets, the inner text as it was before
scoping, exactly if no reference inside that has a sub-attribute was under the path
already.  Scoping is done once: a second parent changes nothing.  It keeps the size, the
value paths inside, and every node but for the bare names outside these. -/
theorem scopedUnder_unseen_once (t : Expr) (p : Attribute) :
    (t.hasValuePath = false →
      ((under p t).render = p.path ++ "[" ++ t.render ++ "]" ↔
        ∀ a ∈ t.attributes, a.sub.isSome = true → a.isScopedUnder p = false)) ∧
    (∀ q, (t.scopedUnder p).scopedUnder q = t.scopedUnder p) ∧
    (t.scopedUnder p).size = t.size ∧
    (t.scopedUnder p).valuePaths = t.valuePaths ∧
    SameUpTo (fun a b => b = if a.isBare then ⟨p.urn, p.name, some a.name⟩ else a) t
      (t.scopedUnder p) := by
  have hsame := sameUpTo_scopedUnder t p
  refine ⟨fun hflat => ?_, t.scopedUnder_scopedUnder p, hsame.size_eq, hsame.valuePaths_eq, hsame⟩
  rw [render_under_iff hflat]
  refine forall_congr' fun a => forall_congr' fun _ => ⟨fun h _ => h, fun h => ?_⟩
  cases hsub : a.sub.isSome with
  | false => exact Attribute.isScopedUnder_eq_false_of_sub hsub
  | true => exact h hsub

/-- A bare name and a reference of another attribute are written as they were.  The
sub-attribute of the path itself is cut short. -/
theorem scopedUnder_unseen_once_emails :
    let p : Attribute := ⟨none, "emails", none⟩
    let t : Expr := .joined (.comparison ⟨none, "type", none⟩ .eq (.text "work")) .or
      (.group true (.present ⟨none, "name", some "given"⟩))
    let own : Expr := .present ⟨none, "Emails", some "value.ref"⟩
    (under p t).render = "emails" ++ "[" ++ t.render ++ "]" ∧
      (under p own).render ≠ "emails" ++ "[" ++ own.render ++ "]" := by
  intro p t own
  obtain ⟨hiff, -⟩ := scopedUnder_unseen_once t p
  obtain ⟨hiff', -⟩ := scopedUnder_unseen_once own p
  refine ⟨(hiff rfl).2 (by decide), fun heq => ?_⟩
  exact absurd ((hiff' rfl).1 heq) (by decide)

end Expr

end ScimQuery
