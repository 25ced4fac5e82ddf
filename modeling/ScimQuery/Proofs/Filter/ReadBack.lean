/-
ScimQuery/Proofs/Filter/ReadBack.lean

Reading the canonical text of a tree.  The text has the tokens of the tree, and
the grammar makes the same tree of them, except that each reference is now what
its written form is read as: `reread` replaces the references in this way, or
fails where one cannot be read.

Main results: the canonical text of a proper and tidy tree is read as its reread
tree, and as nothing else (`parseWith_render_iff`); rereading gives the tree back if
every reference whose parent is dropped inside a value path leaves a name
(`Proper.exists_reread`), and only then (`Proper.abbreviable`).
-/
import ScimQuery.Proofs.Filter.Proper

namespace ScimQuery

namespace Expr

open Attribute (ofPath?)

/-- The tree with each reference read again from its written form. -/
def reread (scope : Option Attribute) : Expr → Option Expr
  | comparison a op v => (ofPath? (a.render scope)).map (comparison · op v)
  | present a => (ofPath? (a.render scope)).map present
  | joined l c r => (l.reread scope).bind fun l' => (r.reread scope).map (joined l' c ·)
  | group n e => (e.reread scope).map (group n)
  | valuePath a e =>
    (ofPath? (a.render scope)).bind fun a' => (e.reread (some a)).map (valuePath a')

theorem reread_joined {l r u : Expr} {c : Connective} {scope : Option Attribute}
    (h : (joined l c r).reread scope = some u) :
    ∃ l' r', l.reread scope = some l' ∧ r.reread scope = some r' ∧ u = joined l' c r' := by
  obtain ⟨l', hl, h⟩ := Option.bind_eq_some_iff.1 h
  obtain ⟨r', hr, rfl⟩ := Option.map_eq_some_iff.1 h
  exact ⟨l', r', hl, hr, rfl⟩

theorem reread_valuePath {e u : Expr} {a : Attribute} {scope : Option Attribute}
    (h : (valuePath a e).reread scope = some u) :
    ∃ a' e', ofPath? (a.render scope) = some a' ∧ e.reread (some a) = some e' ∧
      u = valuePath a' e' := by
  obtain ⟨a', ha, h⟩ := Option.bind_eq_some_iff.1 h
  obtain ⟨e', he, rfl⟩ := Option.map_eq_some_iff.1 h
  exact ⟨a', e', ha, he, rfl⟩

/-- Rereading keeps the shape. -/
theorem shape_reread {e u : Expr} {scope : Option Attribute} (h : e.reread scope = some u) :
    u.nesting = e.nesting ∧ u.operands = e.operands ∧ u.connective? = e.connective? := by
  induction e generalizing scope u with
  | comparison a op v =>
    obtain ⟨a', -, rfl⟩ := Option.map_eq_some_iff.1 h
    exact ⟨rfl, rfl, rfl⟩
  | present a =>
    obtain ⟨a', -, rfl⟩ := Option.map_eq_some_iff.1 h
    exact ⟨rfl, rfl, rfl⟩
  | joined l c r ihl ihr =>
    obtain ⟨l', r', hl, hr, rfl⟩ := reread_joined h
    obtain ⟨hln, hlo, -⟩ := ihl hl
    obtain ⟨hrn, hro, -⟩ := ihr hr
    exact ⟨by rw [nesting, nesting, hln, hrn], by rw [operands, operands, hlo, hro], rfl⟩
  | group n e ih =>
    obtain ⟨e', he, rfl⟩ := Option.map_eq_some_iff.1 h
    obtain ⟨hn, ho, -⟩ := ih he
    exact ⟨by rw [nesting, nesting, hn], by rw [operands, operands, ho], rfl⟩
  | valuePath a e ih =>
    obtain ⟨a', e', -, he, rfl⟩ := reread_valuePath h
    obtain ⟨hn, ho, -⟩ := ih he
    exact ⟨by rw [nesting, nesting, hn], by rw [operands, operands, ho], rfl⟩

end Expr

namespace Reading

/-! ### The grammar derives the tokens of a tree -/

/-- The tightest layer of the grammar that the tree belongs to. -/
def layerOf (e : Expr) : Layer :=
  match e.connective? with
  | none => .operand
  | some .and => .conjunction
  | some .or => .filter

theorem Derives.conjunction_of_layerOf {e u : Expr} {inside : Bool} {ts : List Token}
    (h : Derives (layerOf e) inside ts u) (he : e.connective? ≠ some .or) :
    Derives .conjunction inside ts u := by
  unfold layerOf at h
  rcases hc : e.connective? with - | (- | -)
  · rw [hc] at h
    exact .operand h
  · rwa [hc] at h
  · exact absurd hc he

theorem Derives.operand_of_layerOf {e u : Expr} {inside : Bool} {ts : List Token}
    (h : Derives (layerOf e) inside ts u) (he : e.connective? = none) :
    Derives .operand inside ts u := by
  rwa [layerOf, he] at h

theorem spells_token (v : Literal) : Spells v.token v.render := by
  cases v with
  | text s => exact .quoted _
  | _ => exact .word _

/-- The tokens of a tidy tree derive the reread tree. -/
theorem derives_tokens {e u : Expr} {scope : Option Attribute} (hproper : e.Proper scope)
    (htidy : e.Tidy) (h : e.reread scope = some u) :
    Derives (layerOf e) scope.isSome (e.tokens scope) u := by
  induction e generalizing scope u with
  | comparison a op v =>
    obtain ⟨a', ha, rfl⟩ := Option.map_eq_some_iff.1 h
    exact .comparison ha (CompareOp.ofWord?_keyword op) (spells_token v)
      (Literal.ofRaw?_render hproper.2)
  | present a =>
    obtain ⟨a', ha, rfl⟩ := Option.map_eq_some_iff.1 h
    exact .present ha (Text.alike_refl "pr")
  | joined l c r ihl ihr =>
    -- a tidy tree has its operands in the layers where the grammar wants them
    obtain ⟨l', r', hl, hr, rfl⟩ := Expr.reread_joined h
    obtain ⟨⟨hpl, hpr⟩, tl, tr⟩ := htidy
    have hdl := ihl hproper.1 tl hl
    have hdr := ihr hproper.2 tr hr
    have hword := Connective.ofWord?_keyword c
    simp only [Expr.tokens, hpl, hpr]
    cases c with
    | or =>
      have hr := hdr.conjunction_of_layerOf (Expr.parensRight_or_eq_false_iff.1 hpr)
      exact .or hdl.filter hword hr
    | and =>
      have hl := hdl.conjunction_of_layerOf (Expr.parensLeft_and_eq_false_iff.1 hpl)
      have hr := hdr.operand_of_layerOf (Expr.parensRight_and_eq_false_iff.1 hpr)
      exact .and hl hword hr
  | group n e ih =>
    obtain ⟨e', he, rfl⟩ := Option.map_eq_some_iff.1 h
    have hde := (ih hproper htidy he).filter
    cases n with
    | false => exact .group hde
    | true => exact .negated (Text.alike_refl "not") hde
  | valuePath a e ih =>
    obtain ⟨a', e', ha, he, rfl⟩ := Expr.reread_valuePath h
    obtain ⟨rfl, -, hproper⟩ := hproper
    exact .valuePath ha (ih hproper htidy he).filter

/-! ### The machine rereads the references -/

namespace State

theorem mode_of_enter {limits : Limits} {s s' : State} {frame : Frame}
    (h : s.enter limits frame = .ok s') : s'.mode = .operand := by
  unfold enter at h
  split at h
  · cases h
  · obtain rfl := Except.ok.inj h
    rfl

theorem mode_of_connective {limits : Limits} {s s' : State} (c : Connective)
    (hmode : s.mode = .done) (h : s.step limits (.word c.keyword) = .ok s') :
    s'.mode = .operand := by
  rw [step_connective hmode (Connective.ofWord?_keyword c)] at h
  unfold connect at h
  split at h
  · cases h
  · cases c <;> (obtain rfl := Except.ok.inj h; rfl)

theorem mode_of_word {limits : Limits} {s s' : State} {w : String} (hmode : s.mode = .operand)
    (h : s.step limits (.word w) = .ok s') :
    ∃ a, Attribute.ofPath? w = some a ∧ s'.mode = .path a (Text.alike w "not") := by
  rcases ha : Attribute.ofPath? w with - | a
  · simp only [step, hmode, stepOperand, ha] at h
    cases h
  · rw [step_word_of_operand hmode ha] at h
    obtain rfl := Except.ok.inj h
    exact ⟨a, rfl, rfl⟩

theorem mode_of_value {limits : Limits} {s s' : State} {a : Attribute} {op : CompareOp}
    {value : Token} {raw : String} (hmode : s.mode = .value a op) (hvalue : Spells value raw)
    (h : s.step limits value = .ok s') : s'.mode = .done := by
  rcases hv : Literal.ofRaw? raw with - | v
  · cases hvalue <;> (simp only [step, hmode, stepValue, hv] at h; cases h)
  · rw [step_value hmode hvalue hv] at h
    obtain rfl := Except.ok.inj h
    exact mode_complete _ _

theorem mode_of_closing {limits : Limits} {s s' : State} {token : Token} (hmode : s.mode = .done)
    (htoken : token = .closeParen ∨ token = .closeBracket)
    (h : s.step limits token = .ok s') : s'.mode = .done := by
  simp only [step, hmode] at h
  unfold stepDone at h
  -- the bracket must be that of the innermost frame
  rcases hf : s.frames with - | ⟨⟨negated, outer⟩ | ⟨attr, outer⟩, frames⟩ <;> rw [hf] at h <;>
    rcases htoken with rfl | rfl <;> cases h <;> exact mode_complete _ _

/-- Where the machine takes all tokens of a tree, it has read every reference. -/
theorem reread_of_steps {limits : Limits} {e : Expr} {scope : Option Attribute} {s s' : State}
    (htidy : e.Tidy) (hmode : s.mode = .operand)
    (h : s.steps limits (e.tokens scope) = .ok s') :
    s'.mode = .done ∧ ∃ u, e.reread scope = some u := by
  induction e generalizing scope s s' with
  | comparison a op v =>
    obtain ⟨s₁, h₁, h⟩ := steps_cons_ok h
    obtain ⟨s₂, h₂, h⟩ := steps_cons_ok h
    obtain ⟨s₃, h₃, h⟩ := steps_cons_ok h
    obtain rfl := Except.ok.inj h
    obtain ⟨a', ha, hmode₁⟩ := mode_of_word hmode h₁
    rw [step_operator hmode₁ (CompareOp.ofWord?_keyword op)] at h₂
    obtain rfl := Except.ok.inj h₂
    refine ⟨mode_of_value rfl (spells_token v) h₃, .comparison a' op v, ?_⟩
    rw [Expr.reread, ha]
    rfl
  | present a =>
    obtain ⟨s₁, h₁, h⟩ := steps_cons_ok h
    obtain ⟨s₂, h₂, h⟩ := steps_cons_ok h
    obtain rfl := Except.ok.inj h
    obtain ⟨a', ha, hmode₁⟩ := mode_of_word hmode h₁
    rw [step_pr hmode₁ (Text.alike_refl "pr")] at h₂
    obtain rfl := Except.ok.inj h₂
    refine ⟨mode_complete _ _, .present a', ?_⟩
    rw [Expr.reread, ha]
    rfl
  | joined l c r ihl ihr =>
    obtain ⟨⟨hpl, hpr⟩, tl, tr⟩ := htidy
    simp only [Expr.tokens, hpl, hpr] at h
    obtain ⟨s₁, h₁, h⟩ := steps_append_ok h
    obtain ⟨s₂, h₂, h₃⟩ := steps_cons_ok h
    obtain ⟨hmode₁, l', hl⟩ := ihl tl hmode h₁
    obtain ⟨hmode₃, r', hr⟩ := ihr tr (mode_of_connective c hmode₁ h₂) h₃
    refine ⟨hmode₃, .joined l' c r', ?_⟩
    rw [Expr.reread, hl, hr]
    rfl
  | group n e ih =>
    -- from the opening parenthesis on, both kinds of group are taken alike
    have hparens : ∀ {s : State}, s.mode = .operand →
        s.steps limits (e.tokens scope ++ [.closeParen]) = .ok s' →
        s'.mode = .done ∧ ∃ u, (Expr.group n e).reread scope = some u := by
      intro s hmode h
      obtain ⟨s₁, h₁, h⟩ := steps_append_ok h
      obtain ⟨s₂, h₂, h⟩ := steps_cons_ok h
      obtain rfl := Except.ok.inj h
      obtain ⟨hmode₁, u, hu⟩ := ih htidy hmode h₁
      refine ⟨mode_of_closing hmode₁ (.inl rfl) h₂, .group n u, ?_⟩
      rw [Expr.reread, hu]
      rfl
    cases n with
    | false =>
      obtain ⟨s₁, h₁, h⟩ := steps_cons_ok h
      simp only [step, hmode, stepOperand] at h₁
      exact hparens (mode_of_enter h₁) h
    | true =>
      obtain ⟨s₁, h₁, h⟩ := steps_cons_ok h
      obtain ⟨s₂, h₂, h⟩ := steps_cons_ok h
      obtain ⟨a', -, hmode₁⟩ := mode_of_word hmode h₁
      simp only [step, hmode₁, stepPath, Text.alike_refl, if_true] at h₂
      exact hparens (mode_of_enter h₂) h
  | valuePath a e ih =>
    obtain ⟨s₁, h₁, h⟩ := steps_cons_ok h
    obtain ⟨s₂, h₂, h⟩ := steps_cons_ok h
    obtain ⟨s₃, h₃, h⟩ := steps_append_ok h
    obtain ⟨s₄, h₄, h⟩ := steps_cons_ok h
    obtain rfl := Except.ok.inj h
    obtain ⟨a', ha, hmode₁⟩ := mode_of_word hmode h₁
    have hmode₂ : s₂.mode = .operand := by
      simp only [step, hmode₁, stepPath] at h₂
      split at h₂
      · cases h₂
      · exact mode_of_enter h₂
    obtain ⟨hmode₃, u, hu⟩ := ih htidy hmode₂ h₃
    refine ⟨mode_of_closing hmode₃ (.inr rfl) h₄, .valuePath a' u, ?_⟩
    rw [Expr.reread, ha, hu]
    rfl

end State

end Reading

namespace Attribute

/-- If the parent is dropped from the reference inside a value path of `scope`,
then a name is left. -/
def Abbreviable (scope : Option Attribute) (a : Attribute) : Prop :=
  ∀ p, scope = some p → a.isScopedUnder p = true →
    ∃ s, a.sub = some s ∧ isName s.toList = true

theorem abbreviable_none (a : Attribute) : a.Abbreviable none := by
  intro p hp
  cases hp

theorem abbreviable_of_same {scope : Option Attribute} {a a₀ : Attribute}
    (h : ofPath? (a.render scope) = some a₀) (hsame : (a₀.inScope scope).same a = true) :
    a.Abbreviable scope := by
  rintro p rfl hscoped
  exact isName_sub_of_same hscoped h hsame

end Attribute

theorem Literal.same_refl {v : Literal} (h : v.isFinite = true) : v.same v = true := by
  cases v with
  | null => rfl
  | bool b => exact beq_self_eq_true b
  | text s => exact beq_self_eq_true s
  | number x =>
    have hlt : x.magnitude < Binary64.infinity := of_decide_eq_true h
    have hnan : x.isNaN = false := decide_eq_false (Nat.not_lt.2 (Nat.le_of_lt hlt))
    simp [same, Binary64.same, hnan]

namespace Expr

/-! ### When rereading gives the tree back -/

/-- A name is left of every reference whose parent is dropped. -/
def Abbreviable (scope : Option Attribute) : Expr → Prop
  | comparison a _ _ => a.Abbreviable scope
  | present a => a.Abbreviable scope
  | joined l _ r => l.Abbreviable scope ∧ r.Abbreviable scope
  | group _ e => e.Abbreviable scope
  | valuePath a e => a.Abbreviable scope ∧ e.Abbreviable (some a)

theorem Abbreviable.groupedIf {e : Expr} {scope : Option Attribute} (b : Bool)
    (h : e.Abbreviable scope) : (groupedIf b e).Abbreviable scope := by
  cases b with
  | false => exact h
  | true => exact h

theorem Abbreviable.grouped {e : Expr} {scope : Option Attribute} (h : e.Abbreviable scope) :
    e.grouped.Abbreviable scope := by
  induction e generalizing scope with
  | comparison a op v => exact h
  | present a => exact h
  | joined l c r ihl ihr => exact ⟨(ihl h.1).groupedIf _, (ihr h.2).groupedIf _⟩
  | group n e ih => exact ih h
  | valuePath a e ih => exact ⟨h.1, ih h.2⟩

@[simp] theorem inScope_joined (scope : Option Attribute) (l r : Expr) (c : Connective) :
    (joined l c r).inScope scope = joined (l.inScope scope) c (r.inScope scope) := by
  cases scope <;> rfl

@[simp] theorem inScope_group (scope : Option Attribute) (n : Bool) (e : Expr) :
    (group n e).inScope scope = group n (e.inScope scope) := by
  cases scope <;> rfl

@[simp] theorem inScope_comparison (scope : Option Attribute) (a : Attribute) (op : CompareOp)
    (v : Literal) : (comparison a op v).inScope scope = comparison (a.inScope scope) op v := by
  cases scope <;> rfl

@[simp] theorem inScope_present (scope : Option Attribute) (a : Attribute) :
    (present a).inScope scope = present (a.inScope scope) := by
  cases scope <;> rfl

/-- The reread tree, its value paths resolved, is the tree and has its text. -/
theorem Proper.exists_reread {e : Expr} {scope : Option Attribute} (h : e.Proper scope)
    (habbr : e.Abbreviable scope) :
    ∃ u, e.reread scope = some u ∧ (u.resolve.inScope scope).same e = true ∧
      (u.resolve.inScope scope).written scope = e.written scope := by
  induction e generalizing scope with
  | comparison a op v =>
    obtain ⟨a₀, ha, hsame, hrender⟩ := Attribute.ofPath?_render h.1 habbr
    refine ⟨comparison a₀ op v, by rw [reread, ha]; rfl, ?_, ?_⟩
    · simp [resolve, same, hsame, Literal.same_refl h.2]
    · simp [resolve, written, hrender]
  | present a =>
    obtain ⟨a₀, ha, hsame, hrender⟩ := Attribute.ofPath?_render h habbr
    refine ⟨present a₀, by rw [reread, ha]; rfl, ?_, ?_⟩
    · simp [resolve, same, hsame]
    · simp [resolve, written, hrender]
  | joined l c r ihl ihr =>
    obtain ⟨l', hl, hsl, hwl⟩ := ihl h.1 habbr.1
    obtain ⟨r', hr, hsr, hwr⟩ := ihr h.2 habbr.2
    refine ⟨joined l' c r', by rw [reread, hl, hr]; rfl, ?_, ?_⟩
    · simp [resolve, same, hsl, hsr]
    · simp [resolve, written, parensLeft, parensRight, connective?_eq_of_same hsl,
        connective?_eq_of_same hsr, hwl, hwr]
  | group n e ih =>
    obtain ⟨u, hu, hsame, hwritten⟩ := ih h habbr
    refine ⟨group n u, by rw [reread, hu]; rfl, ?_, ?_⟩
    · simp [resolve, same, hsame]
    · simp [resolve, written, hwritten]
  | valuePath a e ih =>
    obtain ⟨rfl, ha, he⟩ := h
    obtain ⟨u, hu, hsame, hwritten⟩ := ih he habbr.2
    have hread : Attribute.ofPath? (a.render none) = some a := ha.wellFormed.ofPath?
    refine ⟨valuePath a u, by rw [reread, hread, hu]; rfl, ?_, ?_⟩
    · simpa [resolve, under, inScope, same, Attribute.same_refl] using hsame
    · simpa [resolve, under, inScope, written] using hwritten

/-- Where the reread tree is the tree again, a name was left of each reference. -/
theorem Proper.abbreviable {e u : Expr} {scope : Option Attribute} (h : e.Proper scope)
    (hu : e.reread scope = some u) (hsame : (u.resolve.inScope scope).same e = true) :
    e.Abbreviable scope := by
  induction e generalizing scope u with
  | comparison a op v =>
    obtain ⟨a₀, ha, rfl⟩ := Option.map_eq_some_iff.1 hu
    simp only [resolve, inScope_comparison, same, Bool.and_eq_true] at hsame
    exact Attribute.abbreviable_of_same ha hsame.1.1
  | present a =>
    obtain ⟨a₀, ha, rfl⟩ := Option.map_eq_some_iff.1 hu
    simp only [resolve, inScope_present, same] at hsame
    exact Attribute.abbreviable_of_same ha hsame
  | joined l c r ihl ihr =>
    obtain ⟨l', r', hl, hr, rfl⟩ := reread_joined hu
    simp only [resolve, inScope_joined, same, Bool.and_eq_true] at hsame
    exact ⟨ihl h.1 hl hsame.1.1, ihr h.2 hr hsame.2⟩
  | group n e ih =>
    obtain ⟨u', hu', rfl⟩ := Option.map_eq_some_iff.1 hu
    simp only [resolve, inScope_group, same, Bool.and_eq_true] at hsame
    exact ih h hu' hsame.2
  | valuePath a e ih =>
    obtain ⟨rfl, ha, he⟩ := h
    obtain ⟨a', u', ha', hu', rfl⟩ := reread_valuePath hu
    -- outside value paths the reference is read back as it is
    obtain rfl : a = a' := Option.some.inj (ha.wellFormed.ofPath?.symm.trans ha')
    simp only [resolve, under, inScope, same, Bool.and_eq_true] at hsame
    exact ⟨a.abbreviable_none, ih he hu' hsame.2⟩

/-- Inside a value path: every reference is abbreviable. -/
theorem Proper.abbreviable_inside_iff {e : Expr} {p : Attribute} (h : e.Proper (some p)) :
    e.Abbreviable (some p) ↔ ∀ a ∈ e.attributes, a.Abbreviable (some p) := by
  induction e with
  | comparison a op v => simp [Abbreviable]
  | present a => simp [Abbreviable]
  | joined l c r ihl ihr =>
    rw [Abbreviable, ihl h.1, ihr h.2, attributes_joined, List.forall_mem_append]
  | group n e ih => exact ih h
  | valuePath a e ih => cases h.1

/-- Outside value paths: every reference inside each of them is abbreviable. -/
theorem Proper.abbreviable_iff {e : Expr} (h : e.Proper none) :
    e.Abbreviable none ↔
      ∀ x ∈ e.valuePaths, ∀ a ∈ x.2.attributes, a.Abbreviable (some x.1) := by
  induction e with
  | comparison a op v => simp [Abbreviable, valuePaths, Attribute.Abbreviable]
  | present a => simp [Abbreviable, valuePaths, Attribute.Abbreviable]
  | joined l c r ihl ihr =>
    rw [Abbreviable, ihl h.1, ihr h.2, valuePaths, List.forall_mem_append]
  | group n e ih => exact ih h
  | valuePath a e ih =>
    have hflat := h.2.2.not_hasValuePath
    rw [Abbreviable, h.2.2.abbreviable_inside_iff, valuePaths, valuePaths_eq_nil hflat]
    simp [Attribute.Abbreviable]

end Expr

namespace Filter

open Reading

/-- The canonical text of a proper and tidy tree within the limits is read as the
reread tree, and as nothing else. -/
theorem parseWith_render_iff {limits : Limits} (hlimits : limits.validate = .ok ())
    {e e' : Expr} (hproper : e.Proper none) (htidy : e.Tidy)
    (hlength : e.render.utf8ByteSize ≤ limits.length) (hdepth : e.nesting ≤ limits.depth)
    (hops : e.operands ≤ limits.operands) :
    parseWith limits e.render = .ok e' ↔ ∃ u, e.reread none = some u ∧ e' = u.resolve := by
  have hscans : Scan.Scans e.render.toList (e.tokens none) := by
    rw [Expr.toList_render]
    exact hproper.scans_written
  constructor
  · intro h
    obtain ⟨-, ts, v, hscans', hv, rfl, hdepth', hops'⟩ := (parseWith_eq_ok_iff hlimits).1 h
    obtain rfl := hscans.unique hscans'
    -- the machine got through the tokens, so it has read every reference
    have hfits : ({} : State).Fits limits v := ⟨by simpa using hdepth', by simpa using hops'⟩
    obtain ⟨s, hs, -⟩ := State.reads_of_derives hv rfl rfl hfits rfl
    obtain ⟨-, u, hu⟩ := State.reread_of_steps htidy rfl hs
    exact ⟨u, hu, congrArg Expr.resolve (hv.unique (derives_tokens hproper htidy hu))⟩
  · rintro ⟨u, hu, rfl⟩
    obtain ⟨hnesting, hoperands, -⟩ := Expr.shape_reread hu
    refine (parseWith_eq_ok_iff hlimits).2
      ⟨hlength, _, u, hscans, (derives_tokens hproper htidy hu).filter, rfl, ?_, ?_⟩
    · rwa [hnesting]
    · rwa [hoperands]

/-- The same within the default limits. -/
theorem parse_render_iff {e e' : Expr} (hproper : e.Proper none) (htidy : e.Tidy)
    (hlength : e.render.utf8ByteSize ≤ ({} : Limits).length)
    (hdepth : e.nesting ≤ ({} : Limits).depth) (hops : e.operands ≤ ({} : Limits).operands) :
    parse e.render = .ok e' ↔ ∃ u, e.reread none = some u ∧ e' = u.resolve :=
  parseWith_render_iff rfl hproper htidy hlength hdepth hops

end Filter

end ScimQuery
