/-
ScimQuery/Proofs/Expr/Shape.lean

Measures and parts of expressions that limits and reading are about: the nesting
of brackets, the number of operands, the values and the value paths, and the
groups that parentheses in the text stand for.

`grouped` puts a group wherever the printer adds parentheses.  A tree that needs
no such group is *tidy*; `tidy_grouped` and `grouped_of_tidy` say that the tidy
trees are exactly those that `grouped` leaves alone.

Equal trees have the same shape: the same connective at the root and the same
measures (`connective?_eq_of_same`, `shape_eq_of_same`).
-/
import ScimQuery.Expr.Printer

namespace ScimQuery.Expr

/-! ### Measures -/

/-- The most groups and value paths on one way down. -/
def nesting : Expr → Nat
  | comparison .. => 0
  | present _ => 0
  | joined l _ r => max l.nesting r.nesting
  | group _ e => e.nesting + 1
  | valuePath _ e => e.nesting + 1

/-- The number of comparisons and presence tests. -/
def operands : Expr → Nat
  | comparison .. => 1
  | present _ => 1
  | joined l _ r => l.operands + r.operands
  | group _ e => e.operands
  | valuePath _ e => e.operands

theorem operands_pos (e : Expr) : 0 < e.operands := by
  induction e with
  | comparison a op v => exact Nat.one_pos
  | present a => exact Nat.one_pos
  | joined l c r ihl ihr => exact Nat.add_pos_left ihl _
  | group n e ih => exact ih
  | valuePath a e ih => exact ih

@[simp] theorem nesting_scopedUnder (p : Attribute) (e : Expr) :
    (e.scopedUnder p).nesting = e.nesting := by
  induction e with
  | comparison a op v => rfl
  | present a => rfl
  | joined l c r ihl ihr => simp only [scopedUnder, nesting, ihl, ihr]
  | group n e ih => simp only [scopedUnder, nesting, ih]
  | valuePath a e ih => rfl

@[simp] theorem operands_scopedUnder (p : Attribute) (e : Expr) :
    (e.scopedUnder p).operands = e.operands := by
  induction e with
  | comparison a op v => rfl
  | present a => rfl
  | joined l c r ihl ihr => simp only [scopedUnder, operands, ihl, ihr]
  | group n e ih => exact ih
  | valuePath a e ih => rfl

theorem connective?_eq_of_same {d e : Expr} (h : d.same e = true) :
    d.connective? = e.connective? := by
  cases d <;> cases e <;> simp_all [same, connective?]

/-- Equal trees have the same measures. -/
theorem shape_eq_of_same {d e : Expr} (h : d.same e = true) :
    d.nesting = e.nesting ∧ d.operands = e.operands ∧ d.hasValuePath = e.hasValuePath := by
  fun_induction same d e with
  | case1 a op v b op' w => exact ⟨rfl, rfl, rfl⟩
  | case2 a b => exact ⟨rfl, rfl, rfl⟩
  | case3 l c r l' c' r' ihl ihr =>
    simp only [Bool.and_eq_true] at h
    obtain ⟨hln, hlo, hlv⟩ := ihl h.1.1
    obtain ⟨hrn, hro, hrv⟩ := ihr h.2
    simp [nesting, operands, hasValuePath, hln, hlo, hlv, hrn, hro, hrv]
  | case4 n e n' e' ih =>
    simp only [Bool.and_eq_true] at h
    obtain ⟨hn, ho, hv⟩ := ih h.2
    exact ⟨congrArg (· + 1) hn, ho, hv⟩
  | case5 a e b e' ih =>
    simp only [Bool.and_eq_true] at h
    obtain ⟨hn, ho, -⟩ := ih h.2
    exact ⟨congrArg (· + 1) hn, ho, rfl⟩
  | case6 => cases h

/-! ### Parts -/

/-- The values that attributes are compared with, from left to right. -/
def literals : Expr → List Literal
  | comparison _ _ v => [v]
  | present _ => []
  | joined l _ r => l.literals ++ r.literals
  | group _ e => e.literals
  | valuePath _ e => e.literals

/-- The value paths at every depth, each with its attribute and what is inside. -/
def valuePaths : Expr → List (Attribute × Expr)
  | comparison .. => []
  | present _ => []
  | joined l _ r => l.valuePaths ++ r.valuePaths
  | group _ e => e.valuePaths
  | valuePath a e => (a, e) :: e.valuePaths

theorem valuePaths_eq_nil {e : Expr} (h : e.hasValuePath = false) : e.valuePaths = [] := by
  induction e with
  | comparison a op v => rfl
  | present a => rfl
  | joined l c r ihl ihr =>
    obtain ⟨hl, hr⟩ := Bool.or_eq_false_iff.1 h
    simp only [valuePaths, ihl hl, ihr hr, List.append_nil]
  | group n e ih => exact ih h
  | valuePath a e ih => cases h

@[simp] theorem attributes_comparison (a : Attribute) (op : CompareOp) (v : Literal) :
    (comparison a op v).attributes = [a] := rfl

@[simp] theorem attributes_present (a : Attribute) : (present a).attributes = [a] := rfl

@[simp] theorem attributes_joined (l r : Expr) (c : Connective) :
    (joined l c r).attributes = l.attributes ++ r.attributes := by
  simp only [attributes, attributesOnto]
  rw [attributesOnto_eq l]
  rfl

@[simp] theorem attributes_group (n : Bool) (e : Expr) :
    (group n e).attributes = e.attributes := rfl

@[simp] theorem attributes_valuePath (a : Attribute) (e : Expr) :
    (valuePath a e).attributes = a :: e.attributes := rfl

/-! ### Parentheses as groups -/

/-- A group around the expression, if one is asked for. -/
def groupedIf (b : Bool) (e : Expr) : Expr := if b then group false e else e

/-- The tree with a group for each pair of parentheses that the printer adds. -/
def grouped : Expr → Expr
  | comparison a op v => comparison a op v
  | present a => present a
  | joined l c r =>
    joined (groupedIf (parensLeft c l) l.grouped) c (groupedIf (parensRight c r) r.grouped)
  | group n e => group n e.grouped
  | valuePath a e => valuePath a e.grouped

theorem operands_groupedIf (b : Bool) (e : Expr) : (groupedIf b e).operands = e.operands := by
  cases b <;> rfl

@[simp] theorem operands_grouped (e : Expr) : e.grouped.operands = e.operands := by
  induction e with
  | comparison a op v => rfl
  | present a => rfl
  | joined l c r ihl ihr =>
    rw [grouped, operands, operands_groupedIf, operands_groupedIf, ihl, ihr, operands]
  | group n e ih => rw [grouped, operands, operands, ih]
  | valuePath a e ih => rw [grouped, operands, operands, ih]

/-- The printer adds no parentheses. -/
def Tidy : Expr → Prop
  | comparison .. => True
  | present _ => True
  | joined l c r => (parensLeft c l = false ∧ parensRight c r = false) ∧ l.Tidy ∧ r.Tidy
  | group _ e => e.Tidy
  | valuePath _ e => e.Tidy

theorem parensLeft_eq_true {c : Connective} {e : Expr} (h : parensLeft c e = true) :
    ∃ l r, c = .and ∧ e = joined l .or r := by
  simp only [parensLeft, Bool.and_eq_true, beq_iff_eq] at h
  obtain ⟨rfl, hor⟩ := h
  cases e with
  | joined l c r => exact ⟨l, r, rfl, by rw [Option.some.inj hor]⟩
  | _ => cases hor

/-- No parentheses on the left of an `and`: no `or` is there. -/
theorem parensLeft_and_eq_false_iff {e : Expr} :
    parensLeft .and e = false ↔ e.connective? ≠ some .or := by
  simp [parensLeft]

/-- No parentheses on the right of an `and`: nothing joined is there. -/
theorem parensRight_and_eq_false_iff {e : Expr} :
    parensRight .and e = false ↔ e.connective? = none := by
  rcases h : e.connective? with - | (- | -) <;> simp [parensRight, h]

/-- No parentheses on the right of an `or`: no `or` is there. -/
theorem parensRight_or_eq_false_iff {e : Expr} :
    parensRight .or e = false ↔ e.connective? ≠ some .or := by
  rcases h : e.connective? with - | (- | -) <;> simp [parensRight, h]

theorem parensRight_of_connective? {e : Expr} (h : e.connective? = none) (c : Connective) :
    parensRight c e = false := by
  rw [parensRight, h]

@[simp] theorem connective?_grouped (e : Expr) : e.grouped.connective? = e.connective? := by
  cases e <;> rfl

/-- A group is put around a left operand where the printer would add parentheses. -/
theorem parensLeft_groupedIf (c : Connective) (e : Expr) :
    parensLeft c (groupedIf (parensLeft c e) e) = false := by
  cases h : parensLeft c e
  · exact h
  · cases c <;> rfl

theorem parensRight_groupedIf (c : Connective) (e : Expr) :
    parensRight c (groupedIf (parensRight c e) e) = false := by
  cases h : parensRight c e
  · exact h
  · rfl

theorem connective?_groupedIf_left (c : Connective) (e : Expr) :
    parensLeft c (groupedIf (parensLeft c e) e.grouped) = false := by
  have hgrouped : parensLeft c e.grouped = parensLeft c e := by
    rw [parensLeft, connective?_grouped, parensLeft]
  rw [← hgrouped]
  exact parensLeft_groupedIf c e.grouped

theorem connective?_groupedIf_right (c : Connective) (e : Expr) :
    parensRight c (groupedIf (parensRight c e) e.grouped) = false := by
  have hgrouped : parensRight c e.grouped = parensRight c e := by
    rw [parensRight, connective?_grouped, parensRight]
  rw [← hgrouped]
  exact parensRight_groupedIf c e.grouped

theorem tidy_groupedIf {b : Bool} {e : Expr} (h : e.Tidy) : (groupedIf b e).Tidy := by
  cases b
  · exact h
  · exact h

theorem tidy_grouped (e : Expr) : e.grouped.Tidy := by
  induction e with
  | comparison a op v => trivial
  | present a => trivial
  | joined l c r ihl ihr =>
    exact ⟨⟨connective?_groupedIf_left c l, connective?_groupedIf_right c r⟩,
      tidy_groupedIf ihl, tidy_groupedIf ihr⟩
  | group n e ih => exact ih
  | valuePath a e ih => exact ih

theorem grouped_of_tidy {e : Expr} (h : e.Tidy) : e.grouped = e := by
  induction e with
  | comparison a op v => rfl
  | present a => rfl
  | joined l c r ihl ihr =>
    obtain ⟨⟨hl, hr⟩, tl, tr⟩ := h
    rw [grouped, hl, hr, ihl tl, ihr tr]
    rfl
  | group n e ih => rw [grouped, ih h]
  | valuePath a e ih => rw [grouped, ih h]

/-- Equal trees are tidy together. -/
theorem Tidy.of_same {d e : Expr} (hd : d.Tidy) (h : d.same e = true) : e.Tidy := by
  induction d generalizing e with
  | comparison a op v =>
    cases e with
    | comparison b op' w => trivial
    | _ => cases h
  | present a =>
    cases e with
    | present b => trivial
    | _ => cases h
  | joined l c r ihl ihr =>
    cases e with
    | joined l' c' r' =>
      simp only [same, Bool.and_eq_true, beq_iff_eq] at h
      obtain ⟨⟨hl, rfl⟩, hr⟩ := h
      obtain ⟨⟨hpl, hpr⟩, tl, tr⟩ := hd
      rw [parensLeft, connective?_eq_of_same hl] at hpl
      rw [parensRight, connective?_eq_of_same hr] at hpr
      exact ⟨⟨hpl, hpr⟩, ihl tl hl, ihr tr hr⟩
    | _ => cases h
  | group n d ih =>
    cases e with
    | group n' e =>
      simp only [same, Bool.and_eq_true] at h
      show e.Tidy
      exact ih hd h.2
    | _ => cases h
  | valuePath a d ih =>
    cases e with
    | valuePath b e =>
      simp only [same, Bool.and_eq_true] at h
      show e.Tidy
      exact ih hd h.2
    | _ => cases h

end ScimQuery.Expr
