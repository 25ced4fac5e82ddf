/-
ScimQuery/Proofs/Filter/Scoping.lean

What the names inside a value path become.  The tree as written has a bare name
there; reading puts it under the attribute in front of the brackets, of which it
takes the URN and the name but not the sub-attribute.

Main results: the value paths of a tree that is read are those that are written,
with each bare name put under the attribute and every other reference as it was
(`valuePaths_resolve`, `attributes_scopedUnder`).  A name comes to stand under the
whole path exactly when the path has no sub-attribute
(`path_scopedUnder_eq_iff`), and names under two paths are the same when the paths
agree up to their sub-attributes (`same_scopedUnder_iff`).  Together:
`valuePaths_of_parseWith`.
-/
import ScimQuery.Proofs.Attribute.Path
import ScimQuery.Proofs.Filter.Acceptance

namespace ScimQuery

namespace Attribute

/-! ### One reference -/

/-- No URN and no sub-attribute. -/
def isBare (a : Attribute) : Bool := a.urn.isNone && a.sub.isNone

/-- The path of a reference inside the brackets of `parent`, if a bare name is
relative to the whole path of `parent`. -/
def pathUnder (parent a : Attribute) : String :=
  if a.isBare then parent.path ++ "." ++ a.name else a.path

theorem scopedUnder_eq (a p : Attribute) :
    a.scopedUnder p = if a.isBare then ⟨p.urn, p.name, some a.name⟩ else a := by
  obtain ⟨urn, name, sub⟩ := a
  cases urn <;> cases sub <;> rfl

theorem scopedUnder_of_isBare {a : Attribute} (h : a.isBare = true) (p : Attribute) :
    a.scopedUnder p = ⟨p.urn, p.name, some a.name⟩ := by
  rw [scopedUnder_eq, if_pos h]

/-- A bare name stands under the whole path unless a sub-attribute is left out. -/
theorem path_scopedUnder_eq_iff {a : Attribute} (h : a.isBare = true) (p : Attribute) :
    (a.scopedUnder p).path = p.pathUnder a ↔ p.sub = none := by
  rw [scopedUnder_of_isBare h, pathUnder, if_pos h]
  obtain ⟨urn, name, sub⟩ := p
  cases sub with
  | none =>
    refine iff_of_true ?_ rfl
    cases urn <;> simp [path, base, String.append_assoc]
  | some s =>
    refine iff_of_false (fun heq => ?_) (Option.some_ne_none s)
    -- the sub-attribute and its dot are missing
    have hdot : ".".toList.length = 1 := rfl
    have hlength := congrArg (fun t : String => t.toList.length) heq
    simp only [String.toList_append, toList_path, List.length_append, Option.elim_some,
      List.length_cons] at hlength
    omega

theorem same_scopedUnder_iff {a b : Attribute} (ha : a.isBare = true) (hb : b.isBare = true)
    (p q : Attribute) :
    (a.scopedUnder p).same (b.scopedUnder q) = true ↔
      ({ p with sub := none } : Attribute).same { q with sub := none } = true ∧
        Text.alike a.name b.name = true := by
  rw [scopedUnder_of_isBare ha, scopedUnder_of_isBare hb]
  simp [same, Text.alikePart]

end Attribute

namespace Expr

/-! ### All references -/

theorem attributes_scopedUnder {e : Expr} (h : e.hasValuePath = false) (p : Attribute) :
    (e.scopedUnder p).attributes = e.attributes.map (·.scopedUnder p) := by
  induction e with
  | comparison a op v => rfl
  | present a => rfl
  | joined l c r ihl ihr =>
    obtain ⟨hl, hr⟩ := Bool.or_eq_false_iff.1 h
    simp only [scopedUnder, attributes_joined, ihl hl, ihr hr, List.map_append]
  | group n e ih => exact ih h
  | valuePath a e ih => cases h

/-- The references are relative to the whole path in front of the brackets exactly when
it has no sub-attribute or there is no bare name. -/
theorem paths_scopedUnder_eq_iff {e : Expr} (h : e.hasValuePath = false) (p : Attribute) :
    (e.scopedUnder p).attributes.map Attribute.path = e.attributes.map p.pathUnder ↔
      p.sub = none ∨ ∀ a ∈ e.attributes, a.isBare = false := by
  have hother : ∀ a : Attribute, a.isBare = false → (a.scopedUnder p).path = p.pathUnder a := by
    intro a ha
    simp only [Attribute.scopedUnder_eq, Attribute.pathUnder, ha, Bool.false_eq_true, if_false]
  rw [attributes_scopedUnder h, List.map_map, List.map_inj_left]
  constructor
  · intro heq
    by_cases hsub : p.sub = none
    · exact .inl hsub
    · refine .inr fun a ha => Bool.eq_false_iff.2 fun hbare => ?_
      exact hsub ((Attribute.path_scopedUnder_eq_iff hbare p).1 (heq a ha))
  · intro hcases a ha
    rcases hbare : a.isBare with - | -
    · exact hother a hbare
    · rcases hcases with hsub | hnone
      · exact (Attribute.path_scopedUnder_eq_iff hbare p).2 hsub
      · rw [hnone a ha] at hbare
        cases hbare

theorem hasValuePath_scopedUnder (e : Expr) (p : Attribute) :
    (e.scopedUnder p).hasValuePath = e.hasValuePath := by
  induction e with
  | comparison a op v => rfl
  | present a => rfl
  | joined l c r ihl ihr => rw [scopedUnder, hasValuePath, hasValuePath, ihl, ihr]
  | group n e ih => exact ih
  | valuePath a e ih => rfl

/-- The value paths of the resolved tree, if none is inside another. -/
theorem valuePaths_resolve {u : Expr} (h : ∀ x ∈ u.valuePaths, x.2.hasValuePath = false) :
    u.resolve.valuePaths = u.valuePaths.map fun x => (x.1, x.2.scopedUnder x.1) := by
  induction u with
  | comparison a op v => rfl
  | present a => rfl
  | joined l c r ihl ihr =>
    rw [valuePaths, List.forall_mem_append] at h
    rw [resolve, valuePaths, valuePaths, ihl h.1, ihr h.2, List.map_append]
  | group n e ih => exact ih h
  | valuePath a e ih =>
    have hflat : e.hasValuePath = false := h (a, e) List.mem_cons_self
    have hscoped : (e.scopedUnder a).hasValuePath = false := by
      rw [hasValuePath_scopedUnder, hflat]
    rw [resolve, under, valuePaths, resolve_of_not_hasValuePath hflat, valuePaths_eq_nil hscoped,
      valuePaths, valuePaths_eq_nil hflat]
    rfl

end Expr

namespace Reading

theorem Derives.not_hasValuePath {layer : Layer} {inside : Bool} {ts : List Token} {u : Expr}
    (h : Derives layer inside ts u) (hinside : inside = true) : u.hasValuePath = false := by
  induction h with
  | conjunction _ ih => exact ih hinside
  | operand _ ih => exact ih hinside
  | or _ _ _ ihl ihr => rw [Expr.hasValuePath, ihl hinside, ihr hinside, Bool.or_false]
  | and _ _ _ ihl ihr => rw [Expr.hasValuePath, ihl hinside, ihr hinside, Bool.or_false]
  | group _ ih => exact ih hinside
  | negated _ _ ih => exact ih hinside
  | valuePath _ _ _ => cases hinside
  | present _ _ => rfl
  | comparison _ _ _ _ => rfl

/-- No value path is written inside another. -/
theorem Derives.flat {layer : Layer} {inside : Bool} {ts : List Token} {u : Expr}
    (h : Derives layer inside ts u) : ∀ x ∈ u.valuePaths, x.2.hasValuePath = false := by
  induction h with
  | conjunction _ ih => exact ih
  | operand _ ih => exact ih
  | or _ _ _ ihl ihr => exact List.forall_mem_append.2 ⟨ihl, ihr⟩
  | and _ _ _ ihl ihr => exact List.forall_mem_append.2 ⟨ihl, ihr⟩
  | group _ ih => exact ih
  | negated _ _ ih => exact ih
  | valuePath _ hu ih => exact List.forall_mem_cons.2 ⟨hu.not_hasValuePath rfl, ih⟩
  | present _ _ => exact nofun
  | comparison _ _ _ _ => exact nofun

end Reading

namespace Filter

open Reading Scan

theorem validate_of_parseWith {limits : Limits} {input : String} {t : Expr}
    (h : parseWith limits input = .ok t) : limits.validate = .ok () := by
  rcases hlimits : limits.validate with fault | ⟨⟩
  · simp [parseWith, hlimits] at h
  · rfl

/-- What the references inside value paths become.  `u` is the tree as written: its
value paths come back in the same order, each bare name in them put under the URN and
the name in front of the brackets, every other reference as it was.  The bare names are
relative to the whole path in front of the brackets exactly where it has no
sub-attribute; paths that differ only there give the same references. -/
theorem valuePaths_of_parseWith {limits : Limits} {input : String} {t : Expr}
    (h : parseWith limits input = .ok t) :
    ∃ ts u, Scans input.toList ts ∧ Derives .filter false ts u ∧
      t.valuePaths.map (fun x => (x.1, x.2.attributes)) =
        u.valuePaths.map (fun x => (x.1, x.2.attributes.map fun a =>
          if a.isBare then ⟨x.1.urn, x.1.name, some a.name⟩ else a)) ∧
      (t.valuePaths.map (fun x => (x.1, x.2.attributes.map Attribute.path)) =
          u.valuePaths.map (fun x => (x.1, x.2.attributes.map x.1.pathUnder)) ↔
        ∀ x ∈ u.valuePaths, x.1.sub = none ∨ ∀ a ∈ x.2.attributes, a.isBare = false) ∧
      ∀ x ∈ u.valuePaths, ∀ y ∈ u.valuePaths, ∀ a ∈ x.2.attributes, ∀ b ∈ y.2.attributes,
        a.isBare = true → b.isBare = true →
          ((a.scopedUnder x.1).same (b.scopedUnder y.1) = true ↔
            ({ x.1 with sub := none } : Attribute).same { y.1 with sub := none } = true ∧
              Text.alike a.name b.name = true) := by
  obtain ⟨-, ts, u, hscans, hu, rfl, -, -⟩ :=
    (parseWith_eq_ok_iff (validate_of_parseWith h)).1 h
  refine ⟨ts, u, hscans, hu, ?_, ?_, ?_⟩
  · rw [Expr.valuePaths_resolve hu.flat, List.map_map]
    refine List.map_congr_left fun x hx => Prod.ext rfl ?_
    simp only [Function.comp_apply, Expr.attributes_scopedUnder (hu.flat x hx),
      Attribute.scopedUnder_eq]
  · rw [Expr.valuePaths_resolve hu.flat, List.map_map, List.map_inj_left]
    refine forall_congr' fun x => forall_congr' fun hx => ?_
    rw [← Expr.paths_scopedUnder_eq_iff (hu.flat x hx) x.1]
    exact ⟨fun heq => (Prod.mk.inj heq).2, fun heq => Prod.ext rfl heq⟩
  · intro x _ y _ a _ b _ ha hb
    exact Attribute.same_scopedUnder_iff ha hb x.1 y.1

/-- Two paths that differ in their sub-attributes only: the name under either of them is
the same reference, and relative to neither path. -/
theorem not_valuePaths_whole_dotted :
    let t : Expr := .joined (.valuePath ⟨none, "a", some "b"⟩ (.present ⟨none, "a", some "x"⟩)) .and
      (.valuePath ⟨none, "a", some "c"⟩ (.present ⟨none, "a", some "x"⟩))
    parse "a.b[x pr] and a.c[x pr]" = .ok t ∧
      ∃ ts u, Scans "a.b[x pr] and a.c[x pr]".toList ts ∧ Derives .filter false ts u ∧
        t.valuePaths.map (fun x => (x.1, x.2.attributes.map Attribute.path)) ≠
          u.valuePaths.map (fun x => (x.1, x.2.attributes.map x.1.pathUnder)) := by
  intro t
  have hparse : parse "a.b[x pr] and a.c[x pr]" = .ok t := rfl
  obtain ⟨ts, u, hscans, hu, -, hiff, -⟩ := valuePaths_of_parseWith hparse
  refine ⟨hparse, ts, u, hscans, hu, ?_⟩
  -- the tokens and the tree as written are known
  obtain ⟨ls, hls, htokens⟩ := lexemes_of_scans hscans
  obtain rfl := Except.ok.inj hls
  obtain rfl : ts = [.word "a.b", .openBracket, .word "x", .word "pr", .closeBracket,
    .word "and", .word "a.c", .openBracket, .word "x", .word "pr", .closeBracket] :=
    (List.append_cancel_right htokens).symm
  have hx : Derives .operand true [.word "x", .word "pr"] (.present ⟨none, "x", none⟩) :=
    .present rfl rfl
  have hpath : ∀ {w a}, Attribute.ofPath? w = some a → Derives .operand false
      [.word w, .openBracket, .word "x", .word "pr", .closeBracket]
      (.valuePath a (.present ⟨none, "x", none⟩)) := fun ha => .valuePath ha hx.filter
  have hb : Attribute.ofPath? "a.b" = some ⟨none, "a", some "b"⟩ := rfl
  have hc : Attribute.ofPath? "a.c" = some ⟨none, "a", some "c"⟩ := rfl
  obtain rfl := hu.unique (.conjunction (.and (.operand (hpath hb)) rfl (hpath hc)))
  rw [ne_eq, hiff]
  decide

end Filter

end ScimQuery
