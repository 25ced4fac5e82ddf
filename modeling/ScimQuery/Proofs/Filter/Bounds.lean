/-
ScimQuery/Proofs/Filter/Bounds.lean

What the limits measure.  The machine counts open brackets and connectives while
it reads; on the finished tree these are the nesting of groups and value paths and
the number of comparisons and presence tests.

Main results: limits refuse a text exactly when one of these measures is above
them, so that wider limits keep every answer (`parseWith_eq_ok_iff_within`); and
the tree is at most as deep as the limits on nesting and operands together allow,
a bound that `tower` attains (`depth_le_of_parseWith`).
-/
import ScimQuery.Proofs.Filter.ReadBack

namespace ScimQuery

/-! ### Wider limits -/

namespace Limits

/-- No limit is greater. -/
instance : LE Limits where
  le limits wider :=
    limits.length ≤ wider.length ∧ limits.depth ≤ wider.depth ∧ limits.operands ≤ wider.operands

theorem le_ceiling {limits : Limits} (h : limits.validate = .ok ()) : limits ≤ ceiling := by
  obtain ⟨⟨-, hlength⟩, ⟨-, hdepth⟩, -, hops⟩ := validate_eq_ok_iff.1 h
  exact ⟨hlength, hdepth, hops⟩

end Limits

namespace Filter

open Reading

/-- What is read within some limits is read within others if its measures are. -/
theorem parseWith_of_within {limits other : Limits} (hlimits : limits.validate = .ok ())
    (hother : other.validate = .ok ()) {input : String} {t : Expr}
    (h : parseWith other input = .ok t) (hlength : input.utf8ByteSize ≤ limits.length)
    (hdepth : t.nesting ≤ limits.depth) (hops : t.operands ≤ limits.operands) :
    parseWith limits input = .ok t := by
  obtain ⟨-, ts, u, hscans, hu, rfl, -⟩ := (parseWith_eq_ok_iff hother).1 h
  rw [Expr.nesting_resolve] at hdepth
  rw [Expr.operands_resolve] at hops
  exact (parseWith_eq_ok_iff hlimits).2 ⟨hlength, ts, u, hscans, hu, rfl, hdepth, hops⟩

/-- The measures of what is read are within the limits. -/
theorem within_of_parseWith {limits : Limits} (hlimits : limits.validate = .ok ())
    {input : String} {t : Expr} (h : parseWith limits input = .ok t) :
    input.utf8ByteSize ≤ limits.length ∧ t.nesting ≤ limits.depth ∧
      t.operands ≤ limits.operands := by
  obtain ⟨hlength, -⟩ := (parseWith_eq_ok_iff hlimits).1 h
  obtain ⟨-, -, hdepth, hops⟩ := proper_of_parseWith hlimits h
  exact ⟨hlength, hdepth, hops⟩

/-- Wider limits keep what is read. -/
theorem parseWith_mono {limits wider : Limits} (hlimits : limits.validate = .ok ())
    (hwider : wider.validate = .ok ()) (hle : limits ≤ wider) {input : String} {t : Expr}
    (h : parseWith limits input = .ok t) : parseWith wider input = .ok t := by
  obtain ⟨hlength, hdepth, hops⟩ := within_of_parseWith hlimits h
  obtain ⟨hlength', hdepth', hops'⟩ := hle
  exact parseWith_of_within hwider hlimits h (Nat.le_trans hlength hlength')
    (Nat.le_trans hdepth hdepth') (Nat.le_trans hops hops')

/-- Limits only refuse, and exactly at their measures: what is read within them is what
is read within the greatest limits, as far as the length of the text and the
nesting and the operands of the tree allow.  So wider limits keep every answer. -/
theorem parseWith_eq_ok_iff_within {limits : Limits} (hlimits : limits.validate = .ok ())
    (input : String) (t : Expr) :
    (parseWith limits input = .ok t ↔
      parseWith .ceiling input = .ok t ∧ input.utf8ByteSize ≤ limits.length ∧
        t.nesting ≤ limits.depth ∧ t.operands ≤ limits.operands) ∧
    ∀ wider : Limits, wider.validate = .ok () → limits ≤ wider →
      parseWith limits input = .ok t → parseWith wider input = .ok t := by
  refine ⟨⟨?_, ?_⟩, fun wider hwider hle => parseWith_mono hlimits hwider hle⟩
  · intro h
    exact ⟨parseWith_mono hlimits rfl (Limits.le_ceiling hlimits) h, within_of_parseWith hlimits h⟩
  · rintro ⟨h, hlength, hdepth, hops⟩
    exact parseWith_of_within hlimits rfl h hlength hdepth hops

/-- Limits that a text and its tree just meet: wider ones keep the answer, and none of
the three can be any smaller. -/
theorem parseWith_within_exact :
    let input := "(a pr or b[c pr])"
    let t : Expr := .group false (.joined (.present ⟨none, "a", none⟩) .or
      (.valuePath ⟨none, "b", none⟩ (.present ⟨none, "b", some "c"⟩)))
    parseWith .ceiling input = .ok t ∧ parseWith {} input = .ok t ∧
      parseWith ⟨16, 2, 2⟩ input ≠ .ok t ∧ parseWith ⟨17, 1, 2⟩ input ≠ .ok t ∧
      parseWith ⟨17, 2, 1⟩ input ≠ .ok t := by
  intro input t
  have hwithin : ∀ limits : Limits, limits.validate = .ok () → parseWith limits input = .ok t →
      17 ≤ limits.length ∧ 2 ≤ limits.depth ∧ 2 ≤ limits.operands :=
    fun limits hlimits h => ((parseWith_eq_ok_iff_within hlimits input t).1.1 h).2
  obtain ⟨hiff, hwider⟩ := @parseWith_eq_ok_iff_within ⟨17, 2, 2⟩ rfl input t
  have hread : parseWith ⟨17, 2, 2⟩ "(a pr or b[c pr])" = .ok t := rfl
  refine ⟨(hiff.1 hread).1, hwider {} rfl ⟨by decide, by decide, by decide⟩ hread, ?_, ?_, ?_⟩
  · intro h
    exact absurd (hwithin _ rfl h).1 (by decide)
  · intro h
    exact absurd (hwithin _ rfl h).2.1 (by decide)
  · intro h
    exact absurd (hwithin _ rfl h).2.2 (by decide)

end Filter

/-! ### Depth -/

namespace Expr

/-- Each node on a way down is a bracket, or has an operand of its own beside the way
or at its end. -/
theorem depth_le (e : Expr) : e.depth ≤ e.nesting + e.operands := by
  induction e with
  | comparison a op v => exact Nat.le_refl 1
  | present a => exact Nat.le_refl 1
  | joined l c r ihl ihr =>
    have hl := l.operands_pos
    have hr := r.operands_pos
    simp only [depth, nesting, operands]
    omega
  | group n e ih =>
    simp only [depth, nesting, operands]
    omega
  | valuePath a e ih =>
    simp only [depth, nesting, operands]
    omega

/-- Outside value paths every reference is written in full, and read as it is. -/
theorem Proper.reread_of_not_hasValuePath {e : Expr} (h : e.Proper none)
    (hflat : e.hasValuePath = false) : e.reread none = some e := by
  induction e with
  | comparison a op v =>
    rw [reread, show Attribute.ofPath? (a.render none) = some a from h.1.wellFormed.ofPath?]
    rfl
  | present a =>
    rw [reread, show Attribute.ofPath? (a.render none) = some a from h.wellFormed.ofPath?]
    rfl
  | joined l c r ihl ihr =>
    obtain ⟨hl, hr⟩ := Bool.or_eq_false_iff.1 hflat
    rw [reread, ihl h.1 hl, ihr h.2 hr]
    rfl
  | group n e ih =>
    rw [reread, ih h hflat]
    rfl
  | valuePath a e ih => cases hflat

/-! ### The deepest trees -/

/-- The test that the operands of a tower are. -/
def brick : Expr := present ⟨none, "a", none⟩

/-- A conjunction with `n` connectives. -/
def row : Nat → Expr
  | 0 => brick
  | n + 1 => joined (row n) .and brick

/-- A conjunction with `n` connectives, in `d` pairs of parentheses. -/
def tower (n : Nat) : Nat → Expr
  | 0 => row n
  | d + 1 => group false (tower n d)

theorem shape_row (n : Nat) :
    (row n).depth = n + 1 ∧ (row n).nesting = 0 ∧ (row n).operands = n + 1 ∧
      (row n).hasValuePath = false ∧ (row n).connective? ≠ some .or := by
  induction n with
  | zero => exact ⟨rfl, rfl, rfl, rfl, nofun⟩
  | succ n ih =>
    obtain ⟨hdepth, hnesting, hops, hflat, -⟩ := ih
    refine ⟨?_, ?_, ?_, ?_, nofun⟩
    · show 1 + max (row n).depth 1 = _
      omega
    · show max (row n).nesting 0 = 0
      omega
    · show (row n).operands + 1 = _
      omega
    · exact Bool.or_eq_false_iff.2 ⟨hflat, rfl⟩

theorem shape_tower (n d : Nat) :
    (tower n d).depth = d + (n + 1) ∧ (tower n d).nesting = d ∧ (tower n d).operands = n + 1 ∧
      (tower n d).hasValuePath = false := by
  induction d with
  | zero =>
    obtain ⟨hdepth, hnesting, hops, hflat, -⟩ := shape_row n
    exact ⟨by rw [tower, hdepth, Nat.zero_add], hnesting, hops, hflat⟩
  | succ d ih =>
    obtain ⟨hdepth, hnesting, hops, hflat⟩ := ih
    refine ⟨?_, congrArg (· + 1) hnesting, hops, hflat⟩
    show 1 + (tower n d).depth = _
    omega

theorem proper_brick : brick.Proper none :=
  (Filter.proper_of_parse (show Filter.parse "a pr" = .ok brick from rfl)).1

theorem proper_tower (n d : Nat) : (tower n d).Proper none ∧ (tower n d).Tidy := by
  have hrow : (row n).Proper none ∧ (row n).Tidy := by
    induction n with
    | zero => exact ⟨proper_brick, trivial⟩
    | succ n ih =>
      obtain ⟨hproper, htidy⟩ := ih
      obtain ⟨-, -, -, -, hor⟩ := shape_row n
      exact ⟨⟨hproper, proper_brick⟩, ⟨parensLeft_and_eq_false_iff.2 hor, rfl⟩, htidy, trivial⟩
  induction d with
  | zero => exact hrow
  | succ d ih => exact ih

/-- A tower is written in nine octets for each operand but the first, four for that one,
and two for each group. -/
theorem utf8ByteSize_render_tower (n d : Nat) :
    (tower n d).render.utf8ByteSize = 2 * d + 4 + 9 * n := by
  have hrow : (row n).render.utf8ByteSize = 4 + 9 * n := by
    induction n with
    | zero => rfl
    | succ n ih =>
      obtain ⟨-, -, -, -, hor⟩ := shape_row n
      have hrender : (row (n + 1)).render = (row n).render ++ " and a pr" := by
        apply String.toList_inj.1
        rw [toList_render, String.toList_append, toList_render, row, written,
          parensLeft_and_eq_false_iff.2 hor]
        rfl
      have hlink : " and a pr".utf8ByteSize = 9 := rfl
      rw [hrender, String.utf8ByteSize_append, ih, hlink]
      omega
  induction d with
  | zero => rw [tower, hrow]
  | succ d ih =>
    have hrender : (tower n (d + 1)).render = "(" ++ (tower n d).render ++ ")" := by
      apply String.toList_inj.1
      simp only [toList_render, String.toList_append, tower, written]
      rfl
    have hopen : "(".utf8ByteSize = 1 := rfl
    have hclose : ")".utf8ByteSize = 1 := rfl
    rw [hrender, String.utf8ByteSize_append, String.utf8ByteSize_append, ih, hopen, hclose]
    omega

end Expr

namespace Filter

/-- A proper and tidy tree without value paths is read from its text as it is. -/
theorem parseWith_render {limits : Limits} (hlimits : limits.validate = .ok ()) {e : Expr}
    (hproper : e.Proper none) (htidy : e.Tidy) (hflat : e.hasValuePath = false)
    (hlength : e.render.utf8ByteSize ≤ limits.length) (hdepth : e.nesting ≤ limits.depth)
    (hops : e.operands ≤ limits.operands) : parseWith limits e.render = .ok e := by
  refine (parseWith_render_iff hlimits hproper htidy hlength hdepth hops).2 ⟨e, ?_, ?_⟩
  · exact hproper.reread_of_not_hasValuePath hflat
  · exact (Expr.resolve_of_not_hasValuePath hflat).symm

/-- The limits on nesting and on operands together bound the depth of every tree that is
read, and some tree is that deep unless the text is not allowed to be long enough. -/
theorem depth_le_of_parseWith {limits : Limits} (hlimits : limits.validate = .ok ()) :
    (∀ input t, parseWith limits input = .ok t → t.depth ≤ limits.depth + limits.operands) ∧
      (2 * limits.depth + 4 + 9 * (limits.operands - 1) ≤ limits.length →
        ∃ input t, parseWith limits input = .ok t ∧
          t.depth = limits.depth + limits.operands) := by
  constructor
  · intro input t h
    obtain ⟨-, hdepth, hops⟩ := within_of_parseWith hlimits h
    calc t.depth ≤ t.nesting + t.operands := t.depth_le
      _ ≤ limits.depth + limits.operands := Nat.add_le_add hdepth hops
  · intro hlength
    obtain ⟨-, -, hpos, -⟩ := Limits.validate_eq_ok_iff.1 hlimits
    let t := Expr.tower (limits.operands - 1) limits.depth
    obtain ⟨hdepth, hnesting, hops, hflat⟩ := Expr.shape_tower (limits.operands - 1) limits.depth
    obtain ⟨hproper, htidy⟩ := Expr.proper_tower (limits.operands - 1) limits.depth
    have hcount : limits.operands - 1 + 1 = limits.operands := Nat.sub_add_cancel hpos
    refine ⟨t.render, t, ?_, by rw [hdepth, hcount]⟩
    refine parseWith_render hlimits hproper htidy hflat ?_ (Nat.le_of_eq hnesting) ?_
    · rwa [Expr.utf8ByteSize_render_tower]
    · exact Nat.le_of_eq (hops.trans hcount)

/-- Three brackets and four operands: `(((a pr and a pr and a pr and a pr)))`. -/
theorem depth_le_of_parseWith_small :
    (∀ input t, parseWith ⟨37, 3, 4⟩ input = .ok t → t.depth ≤ 7) ∧
      ∃ input t, parseWith ⟨37, 3, 4⟩ input = .ok t ∧ t.depth = 7 := by
  obtain ⟨hbound, htight⟩ := @depth_le_of_parseWith ⟨37, 3, 4⟩ rfl
  exact ⟨hbound, htight (by decide)⟩

end Filter

end ScimQuery
