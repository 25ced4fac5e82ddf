/-
ScimQuery/Proofs/Filter/Proper.lean

The trees that reading gives.  A tree is *proper* when each of its references can
be read and stands in the right scope, its numbers are finite, and no value path
is inside another.

Main results: every tree that is read is proper, tidy and within the limits
(`proper_of_parseWith`), and a proper tree scans to its own tokens
(`Proper.scans_written`).
-/
import ScimQuery.Proofs.Attribute.Scope
import ScimQuery.Proofs.Expr.Writing
import ScimQuery.Proofs.Filter.Acceptance

namespace ScimQuery

namespace Expr

/-- A tree that can be read inside a value path of `scope`, or outside any. -/
def Proper (scope : Option Attribute) : Expr → Prop
  | comparison a _ v => a.ProperIn scope ∧ v.isFinite = true
  | present a => a.ProperIn scope
  | joined l _ r => l.Proper scope ∧ r.Proper scope
  | group _ e => e.Proper scope
  | valuePath a e => scope = none ∧ a.ProperIn none ∧ e.Proper (some a)

/-- What an expression stands for inside a value path of `scope`, or outside any. -/
def inScope (scope : Option Attribute) (e : Expr) : Expr :=
  match scope with
  | none => e
  | some parent => e.scopedUnder parent

/-! ### Texts of proper trees -/

theorem Proper.isWord {e : Expr} {scope : Option Attribute} (h : e.Proper scope) :
    ∀ w ∈ e.references scope, Scan.IsWord w.toList := by
  induction e generalizing scope with
  | comparison a op v =>
    intro w hw
    obtain rfl := List.mem_singleton.1 hw
    exact h.1.isWord_render
  | present a =>
    intro w hw
    obtain rfl := List.mem_singleton.1 hw
    exact Attribute.ProperIn.isWord_render h
  | joined l c r ihl ihr =>
    intro w hw
    rcases List.mem_append.1 hw with hw | hw
    · exact ihl h.1 w hw
    · exact ihr h.2 w hw
  | group n e ih => exact ih h
  | valuePath a e ih =>
    obtain ⟨rfl, ha, he⟩ := h
    intro w hw
    rcases List.mem_cons.1 hw with rfl | hw
    · exact ha.isWord_render
    · exact ih he w hw

theorem Proper.scans_written {e : Expr} {scope : Option Attribute} (h : e.Proper scope) :
    Scan.Scans (e.written scope) (e.tokens scope) :=
  Expr.scans_written h.isWord

theorem Proper.not_hasValuePath {e : Expr} {p : Attribute} (h : e.Proper (some p)) :
    e.hasValuePath = false := by
  induction e with
  | comparison a op v => rfl
  | present a => rfl
  | joined l c r ihl ihr => rw [hasValuePath, ihl h.1, ihr h.2, Bool.or_false]
  | group n e ih => exact ih h
  | valuePath a e ih => cases h.1

theorem Proper.groupedIf {e : Expr} {scope : Option Attribute} (b : Bool) (h : e.Proper scope) :
    (groupedIf b e).Proper scope := by
  cases b with
  | false => exact h
  | true => exact h

theorem Proper.grouped {e : Expr} {scope : Option Attribute} (h : e.Proper scope) :
    e.grouped.Proper scope := by
  induction e generalizing scope with
  | comparison a op v => exact h
  | present a => exact h
  | joined l c r ihl ihr => exact ⟨(ihl h.1).groupedIf _, (ihr h.2).groupedIf _⟩
  | group n e ih => exact ih h
  | valuePath a e ih => exact ⟨h.1, h.2.1, ih h.2.2⟩

/-! ### Proper trees by their parts -/

/-- An expression without value paths is proper when its parts are. -/
theorem proper_of_not_hasValuePath {e : Expr} {p : Attribute} (hflat : e.hasValuePath = false)
    (hattr : ∀ a ∈ e.attributes, a.WellFormed ∧ a.Plain) (hscope : e.scopedUnder p = e)
    (hfinite : ∀ v ∈ e.literals, v.isFinite = true) : e.Proper (some p) := by
  induction e with
  | comparison a op v =>
    obtain ⟨hwf, hplain⟩ := hattr a (by simp)
    exact ⟨⟨hwf, hplain, (Expr.comparison.inj hscope).1⟩, hfinite v (by simp [literals])⟩
  | present a =>
    obtain ⟨hwf, hplain⟩ := hattr a (by simp)
    exact ⟨hwf, hplain, Expr.present.inj hscope⟩
  | joined l c r ihl ihr =>
    obtain ⟨hl, hr⟩ := Bool.or_eq_false_iff.1 hflat
    obtain ⟨hsl, -, hsr⟩ := Expr.joined.inj hscope
    rw [attributes_joined, List.forall_mem_append] at hattr
    rw [literals, List.forall_mem_append] at hfinite
    exact ⟨ihl hl hattr.1 hsl hfinite.1, ihr hr hattr.2 hsr hfinite.2⟩
  | group n e ih => exact ih hflat hattr (Expr.group.inj hscope).2 hfinite
  | valuePath a e ih => cases hflat

/-- A tree is proper when its references, its values and its value paths are. -/
theorem proper_of_parts {e : Expr} (hattr : ∀ a ∈ e.attributes, a.WellFormed ∧ a.Plain)
    (hfinite : ∀ v ∈ e.literals, v.isFinite = true)
    (hpaths : ∀ x ∈ e.valuePaths, x.2.hasValuePath = false ∧ x.2.scopedUnder x.1 = x.2) :
    e.Proper none := by
  induction e with
  | comparison a op v =>
    obtain ⟨hwf, hplain⟩ := hattr a (by simp)
    exact ⟨⟨hwf, hplain, rfl⟩, hfinite v (by simp [literals])⟩
  | present a =>
    obtain ⟨hwf, hplain⟩ := hattr a (by simp)
    exact ⟨hwf, hplain, rfl⟩
  | joined l c r ihl ihr =>
    rw [attributes_joined, List.forall_mem_append] at hattr
    rw [literals, List.forall_mem_append] at hfinite
    rw [valuePaths, List.forall_mem_append] at hpaths
    exact ⟨ihl hattr.1 hfinite.1 hpaths.1, ihr hattr.2 hfinite.2 hpaths.2⟩
  | group n e ih => exact ih hattr hfinite hpaths
  | valuePath a e ih =>
    obtain ⟨hwf, hplain⟩ := hattr a (by simp)
    obtain ⟨hflat, hscope⟩ := hpaths (a, e) List.mem_cons_self
    refine ⟨rfl, ⟨hwf, hplain, rfl⟩, ?_⟩
    exact proper_of_not_hasValuePath hflat
      (fun b hb => hattr b (List.mem_cons_of_mem a hb)) hscope hfinite

/-! ### Resolving keeps the shape -/

@[simp] theorem connective?_scopedUnder (p : Attribute) (e : Expr) :
    (e.scopedUnder p).connective? = e.connective? := by
  cases e <;> rfl

@[simp] theorem connective?_resolve (e : Expr) : e.resolve.connective? = e.connective? := by
  cases e <;> rfl

theorem Tidy.scopedUnder {e : Expr} (h : e.Tidy) (p : Attribute) : (e.scopedUnder p).Tidy := by
  induction e with
  | comparison a op v => exact h
  | present a => exact h
  | joined l c r ihl ihr =>
    obtain ⟨⟨hl, hr⟩, tl, tr⟩ := h
    refine ⟨⟨?_, ?_⟩, ihl tl, ihr tr⟩
    · rwa [parensLeft, connective?_scopedUnder]
    · rwa [parensRight, connective?_scopedUnder]
  | group n e ih => exact ih h
  | valuePath a e ih => exact h

theorem Tidy.resolve {e : Expr} (h : e.Tidy) : e.resolve.Tidy := by
  induction e with
  | comparison a op v => exact h
  | present a => exact h
  | joined l c r ihl ihr =>
    obtain ⟨⟨hl, hr⟩, tl, tr⟩ := h
    refine ⟨⟨?_, ?_⟩, ihl tl, ihr tr⟩
    · rwa [parensLeft, connective?_resolve]
    · rwa [parensRight, connective?_resolve]
  | group n e ih => exact ih h
  | valuePath a e ih => exact (ih h).scopedUnder a

end Expr

/-- A value that was read has a spelling. -/
theorem Literal.isFinite_of_ofRaw? {raw : String} {v : Literal} (h : ofRaw? raw = some v) :
    v.isFinite = true := by
  have hquoted : ∀ {cs}, ofQuoted? cs = some v → v.isFinite = true := by
    intro cs h
    unfold ofQuoted? at h
    split at h
    · obtain ⟨chars, -, rfl⟩ := Option.map_eq_some_iff.1 h
      rfl
    · cases h
  have hnumber : ∀ {cs}, ofNumber? cs = some v → v.isFinite = true := by
    intro cs h
    unfold ofNumber? at h
    split at h
    obtain ⟨d, -, hd⟩ := Option.bind_eq_some_iff.1 h
    simp only [Option.ite_none_right_eq_some, Option.some.injEq] at hd
    obtain ⟨hfinite, rfl⟩ := hd
    exact hfinite
  unfold ofRaw? ofChars? at h
  split at h
  · exact hquoted h
  · repeat' split at h
    · obtain rfl := Option.some.inj h
      rfl
    · obtain rfl := Option.some.inj h
      rfl
    · obtain rfl := Option.some.inj h
      rfl
    · exact hnumber h

namespace Reading

/-! ### Derived trees -/

theorem Derives.connective?_operand {inside : Bool} {ts : List Token} {u : Expr}
    (h : Derives .operand inside ts u) : u.connective? = none := by
  cases h <;> rfl

theorem Derives.connective?_conjunction {inside : Bool} {ts : List Token} {u : Expr}
    (h : Derives .conjunction inside ts u) : u.connective? ≠ some .or := by
  cases h with
  | operand h =>
    rw [h.connective?_operand]
    exact nofun
  | and _ _ _ => exact nofun

theorem Derives.conjunction_of_filter {inside : Bool} {ts : List Token} {u : Expr}
    (h : Derives .filter inside ts u) (hu : u.connective? ≠ some .or) :
    Derives .conjunction inside ts u := by
  cases h with
  | conjunction h => exact h
  | or _ _ _ => exact absurd rfl hu

theorem Derives.operand_of_filter {inside : Bool} {ts : List Token} {u : Expr}
    (h : Derives .filter inside ts u) (hu : u.connective? = none) :
    Derives .operand inside ts u := by
  cases h.conjunction_of_filter (by rw [hu]; exact nofun) with
  | operand h => exact h
  | and _ _ _ => cases hu

theorem Derives.tidy {layer : Layer} {inside : Bool} {ts : List Token} {u : Expr}
    (h : Derives layer inside ts u) : u.Tidy := by
  induction h with
  | conjunction _ ih => exact ih
  | operand _ ih => exact ih
  | or _ _ hr ihl ihr =>
    exact ⟨⟨rfl, Expr.parensRight_or_eq_false_iff.2 hr.connective?_conjunction⟩, ihl, ihr⟩
  | and hl _ hr ihl ihr =>
    exact ⟨⟨Expr.parensLeft_and_eq_false_iff.2 hl.connective?_conjunction,
      Expr.parensRight_and_eq_false_iff.2 hr.connective?_operand⟩, ihl, ihr⟩
  | group _ ih => exact ih
  | negated _ _ ih => exact ih
  | valuePath _ _ ih => exact ih
  | present _ _ => trivial
  | comparison _ _ _ _ => trivial

/-- A reference that was read from a word is proper in any scope. -/
theorem properIn_inScope {scope : Option Attribute} {w : String} {a : Attribute}
    (hscope : ∀ p, scope = some p → p.WellFormed ∧ p.Plain) (hw : Scan.IsWord w.toList)
    (ha : Attribute.ofPath? w = some a) : (a.inScope scope).ProperIn scope := by
  obtain ⟨rfl, hwf⟩ := Attribute.ofPath?_eq_some_iff.1 ha
  have hplain : a.Plain := hw.2
  rcases scope with - | p
  · exact ⟨hwf, hplain, rfl⟩
  · -- a bare name has got its parent now, and no second one would be added
    obtain ⟨hp, hp'⟩ := hscope p rfl
    exact ⟨hwf.scopedUnder hp, hplain.scopedUnder hp', a.scopedUnder_scopedUnder p p⟩

/-- A tree derived from words is proper once it is resolved. -/
theorem Derives.proper {layer : Layer} {inside : Bool} {ts : List Token} {u : Expr}
    (h : Derives layer inside ts u) (hts : ∀ w, .word w ∈ ts → Scan.IsWord w.toList)
    {scope : Option Attribute} (hinside : scope.isSome = inside)
    (hscope : ∀ p, scope = some p → p.WellFormed ∧ p.Plain) :
    (u.resolve.inScope scope).Proper scope := by
  induction h generalizing scope with
  | conjunction _ ih => exact ih hts hinside hscope
  | operand _ ih => exact ih hts hinside hscope
  | or _ _ _ ihl ihr =>
    have hl := ihl (fun w hw => hts w (List.mem_append_left _ hw)) hinside hscope
    have hr := ihr (fun w hw => hts w (List.mem_append_right _ (List.mem_cons_of_mem _ hw)))
      hinside hscope
    cases scope <;> exact ⟨hl, hr⟩
  | and _ _ _ ihl ihr =>
    have hl := ihl (fun w hw => hts w (List.mem_append_left _ hw)) hinside hscope
    have hr := ihr (fun w hw => hts w (List.mem_append_right _ (List.mem_cons_of_mem _ hw)))
      hinside hscope
    cases scope <;> exact ⟨hl, hr⟩
  | group _ ih =>
    have he := ih (fun w hw => hts w (by simp [hw])) hinside hscope
    cases scope <;> exact he
  | negated _ _ ih =>
    have he := ih (fun w hw => hts w (by simp [hw])) hinside hscope
    cases scope <;> exact he
  | @valuePath ts u w a ha _ ih =>
    -- the grammar has value paths outside brackets only; inside, the scope is the new one
    obtain rfl : scope = none := by
      cases scope with
      | none => rfl
      | some p => cases hinside
    have hpa := properIn_inScope hscope (hts w (by simp)) ha
    have hscope' : ∀ p, some a = some p → p.WellFormed ∧ p.Plain := by
      intro p hp
      obtain rfl := Option.some.inj hp
      exact ⟨hpa.wellFormed, hpa.plain⟩
    exact ⟨rfl, hpa, ih (fun w hw => hts w (by simp [hw])) rfl hscope'⟩
  | @present inside w p a ha hp =>
    have hpa := properIn_inScope hscope (hts w (by simp)) ha
    cases scope <;> exact hpa
  | @comparison inside w o a op value raw v ha ho hvalue hv =>
    have hpa := properIn_inScope hscope (hts w (by simp)) ha
    have hv := Literal.isFinite_of_ofRaw? hv
    cases scope <;> exact ⟨hpa, hv⟩

end Reading

/-- What is read is a proper and tidy tree within the limits. -/
theorem Filter.proper_of_parseWith {limits : Limits} (hlimits : limits.validate = .ok ())
    {input : String} {e : Expr} (h : parseWith limits input = .ok e) :
    e.Proper none ∧ e.Tidy ∧ e.nesting ≤ limits.depth ∧ e.operands ≤ limits.operands := by
  obtain ⟨-, ts, u, hscans, hu, rfl, hdepth, hops⟩ := (parseWith_eq_ok_iff hlimits).1 h
  refine ⟨hu.proper (fun w => hscans.isWord) rfl nofun, hu.tidy.resolve, ?_, ?_⟩
  · rwa [Expr.nesting_resolve]
  · rwa [Expr.operands_resolve]

/-- What is read within the default limits. -/
theorem Filter.proper_of_parse {input : String} {e : Expr} (h : parse input = .ok e) :
    e.Proper none ∧ e.Tidy ∧ e.nesting ≤ ({} : Limits).depth ∧
      e.operands ≤ ({} : Limits).operands :=
  proper_of_parseWith rfl h

end ScimQuery
