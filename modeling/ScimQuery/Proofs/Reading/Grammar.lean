/-
ScimQuery/Proofs/Reading/Grammar.lean

The grammar of filters as a relation: `Derives layer inside ts u` says that the
tokens `ts` spell the tree `u` as a filter, a conjunction or an operand, where
`inside` tells whether they stand in the brackets of a value path.  Trees are as
written, with names inside a value path still bare.

Main results: the machine follows every derivation (`reads_of_derives`).  From a
state that wants an operand and has room for the tree, it takes the tokens and
ends in a state that differs only in what is told, counted and waited for.  So
tokens derive one tree at most (`Derives.unique`).
-/
import ScimQuery.Proofs.Attribute.Path
import ScimQuery.Proofs.Event.Resolution
import ScimQuery.Reading.Machine

namespace ScimQuery.Reading

/-! ### The grammar -/

/-- The three layers of the grammar, from the loosest to the tightest. -/
inductive Layer where
  | filter
  | conjunction
  | operand

/-- The written form of the value that a token spells. -/
inductive Spells : Token → String → Prop
  | quoted (raw : String) : Spells (.quoted raw) raw
  | word (raw : String) : Spells (.word raw) raw

/-- The tokens spell the tree. -/
inductive Derives : Layer → Bool → List Token → Expr → Prop
  | conjunction {inside ts u} :
      Derives .conjunction inside ts u → Derives .filter inside ts u
  | or {inside ts us l r w} :
      Derives .filter inside ts l → Connective.ofWord? w = some .or →
      Derives .conjunction inside us r →
      Derives .filter inside (ts ++ .word w :: us) (.joined l .or r)
  | operand {inside ts u} :
      Derives .operand inside ts u → Derives .conjunction inside ts u
  | and {inside ts us l r w} :
      Derives .conjunction inside ts l → Connective.ofWord? w = some .and →
      Derives .operand inside us r →
      Derives .conjunction inside (ts ++ .word w :: us) (.joined l .and r)
  | group {inside ts u} :
      Derives .filter inside ts u →
      Derives .operand inside (.openParen :: ts ++ [.closeParen]) (.group false u)
  | negated {inside ts u w} :
      Text.alike w "not" = true → Derives .filter inside ts u →
      Derives .operand inside (.word w :: .openParen :: ts ++ [.closeParen]) (.group true u)
  | valuePath {ts u w a} :
      Attribute.ofPath? w = some a → Derives .filter true ts u →
      Derives .operand false (.word w :: .openBracket :: ts ++ [.closeBracket])
        (.valuePath a u)
  | present {inside w p a} :
      Attribute.ofPath? w = some a → Text.alike p "pr" = true →
      Derives .operand inside [.word w, .word p] (.present a)
  | comparison {inside w o a op value raw v} :
      Attribute.ofPath? w = some a → CompareOp.ofWord? o = some op →
      Spells value raw → Literal.ofRaw? raw = some v →
      Derives .operand inside [.word w, .word o, value] (.comparison a op v)

theorem Derives.filter {layer : Layer} {inside : Bool} {ts : List Token} {u : Expr}
    (h : Derives layer inside ts u) : Derives .filter inside ts u := by
  cases layer with
  | filter => exact h
  | conjunction => exact .conjunction h
  | operand => exact .conjunction (.operand h)

/-! ### Steps without positions -/

namespace State

/-- Take tokens one after the other. -/
def steps (limits : Limits) : State → List Token → Except Cause State
  | s, [] => .ok s
  | s, token :: tokens => s.step limits token >>= (steps limits · tokens)

@[simp] theorem steps_nil (limits : Limits) (s : State) : s.steps limits [] = .ok s := rfl

theorem steps_cons {limits : Limits} {s s' : State} {token : Token} (tokens : List Token)
    (h : s.step limits token = .ok s') :
    s.steps limits (token :: tokens) = s'.steps limits tokens := by
  rw [steps, h]
  rfl

theorem steps_append {limits : Limits} {s s' : State} {ts : List Token} (us : List Token)
    (h : s.steps limits ts = .ok s') :
    s.steps limits (ts ++ us) = s'.steps limits us := by
  induction ts generalizing s with
  | nil =>
    obtain rfl := Except.ok.inj h
    rfl
  | cons token ts ih =>
    rw [steps] at h
    rcases e : s.step limits token with cause | s₁
    · rw [e] at h
      cases h
    · rw [e] at h
      rw [List.cons_append, steps_cons _ e]
      exact ih h

theorem steps_append_ok {limits : Limits} {s s' : State} {ts us : List Token}
    (h : s.steps limits (ts ++ us) = .ok s') :
    ∃ s₁, s.steps limits ts = .ok s₁ ∧ s₁.steps limits us = .ok s' := by
  induction ts generalizing s with
  | nil => exact ⟨s, rfl, h⟩
  | cons token ts ih =>
    rw [List.cons_append, steps] at h
    rcases e : s.step limits token with cause | s₁
    · rw [e] at h
      cases h
    · rw [e] at h
      obtain ⟨s₂, h₁, h₂⟩ := ih h
      exact ⟨s₂, (steps_cons ts e).trans h₁, h₂⟩

theorem steps_cons_ok {limits : Limits} {s s' : State} {token : Token} {us : List Token}
    (h : s.steps limits (token :: us) = .ok s') :
    ∃ s₁, s.step limits token = .ok s₁ ∧ s₁.steps limits us = .ok s' := by
  rcases e : s.step limits token with cause | s₁
  · rw [steps, e] at h
    cases h
  · exact ⟨s₁, rfl, (steps_cons us e).symm.trans h⟩

/-! ### Where a tree ends -/

/-- The machine stands in the brackets of a value path. -/
def inside (s : State) : Bool := s.frames.any Frame.isValuePath

/-- The limits leave room for the tree. -/
structure Fits (limits : Limits) (s : State) (u : Expr) : Prop where
  depth : s.frames.length + u.nesting ≤ limits.depth
  operands : s.connectives + u.operands ≤ limits.operands

/-- The tree is told, and its connectives are counted. -/
def after (s : State) (u : Expr) : State :=
  { s with
    mode := .done
    connectives := s.connectives + (u.operands - 1)
    told := u.events.reverse ++ s.told }

/-- The tree is told, and so is that a connective after it waits. -/
def awaiting (s : State) (u : Expr) (level : Level) : State :=
  { s with
    mode := .operand
    level := level
    connectives := s.connectives + u.operands
    told := u.events.reverse ++ s.told }

/-- A bracket is open. -/
def opened (s : State) (frame : Frame) : State :=
  { s with mode := .operand, level := {}, frames := frame :: s.frames }

/-- The `and` that waited for its right operand is told. -/
def closeOperand (s : State) : State :=
  if s.level.andWaits then
    { s with level := { s.level with andWaits := false }, told := .joined .and :: s.told }
  else s

theorem mode_complete (s : State) (event : Event) : (s.complete event).mode = .done := by
  unfold complete
  split <;> rfl

theorem frames_complete (s : State) (event : Event) : (s.complete event).frames = s.frames := by
  unfold complete
  split <;> rfl

theorem complete_eq (s : State) (event : Event) :
    s.complete event =
      { s with mode := .done, told := event :: s.told }.closeOperand := by
  unfold complete closeOperand
  cases s.level.andWaits <;> rfl

/-! ### Single tokens -/

theorem step_word_of_operand {limits : Limits} {s : State} {w : String} {a : Attribute}
    (hmode : s.mode = .operand) (ha : Attribute.ofPath? w = some a) :
    s.step limits (.word w) = .ok { s with mode := .path a (Text.alike w "not") } := by
  simp only [step, hmode, stepOperand, ha]

theorem step_openParen_of_operand {limits : Limits} {s : State} (hmode : s.mode = .operand)
    (hdepth : s.frames.length + 1 ≤ limits.depth) :
    s.step limits .openParen =
      .ok (s.opened (.group false s.level)) := by
  simp only [step, hmode, stepOperand, enter]
  rw [if_neg (by omega)]
  rfl

theorem step_openParen_of_path {limits : Limits} {s : State} {a : Attribute}
    (hmode : s.mode = .path a true) (hdepth : s.frames.length + 1 ≤ limits.depth) :
    s.step limits .openParen =
      .ok (s.opened (.group true s.level)) := by
  simp only [step, hmode, stepPath, enter, if_true]
  rw [if_neg (by omega)]
  rfl

theorem step_openBracket {limits : Limits} {s : State} {a : Attribute} {mayNegate : Bool}
    (hmode : s.mode = .path a mayNegate) (hin : s.inside = false)
    (hdepth : s.frames.length + 1 ≤ limits.depth) :
    s.step limits .openBracket =
      .ok (s.opened (.valuePath a s.level)) := by
  have hany : ¬ s.frames.any Frame.isValuePath = true := by
    rw [show s.frames.any Frame.isValuePath = false from hin]
    exact Bool.false_ne_true
  simp only [step, hmode, stepPath, enter]
  rw [if_neg hany, if_neg (by omega)]
  rfl

theorem step_connective {limits : Limits} {s : State} {w : String} {c : Connective}
    (hmode : s.mode = .done) (hc : Connective.ofWord? w = some c) :
    s.step limits (.word w) = s.connect limits c := by
  simp only [step, hmode, stepDone, hc]

theorem step_closeParen {limits : Limits} {s : State} {n : Bool} {outer : Level}
    {frames : List Frame} (hmode : s.mode = .done)
    (hframes : s.frames = .group n outer :: frames) :
    s.step limits .closeParen =
      .ok ({ s.closeConjunction with level := outer, frames := frames }.complete (.group n)) := by
  simp only [step, hmode, stepDone, hframes]

theorem step_closeBracket {limits : Limits} {s : State} {a : Attribute} {outer : Level}
    {frames : List Frame} (hmode : s.mode = .done)
    (hframes : s.frames = .valuePath a outer :: frames) :
    s.step limits .closeBracket =
      .ok ({ s.closeConjunction with level := outer, frames := frames }.complete
        (.valuePath a)) := by
  simp only [step, hmode, stepDone, hframes]

theorem step_pr {limits : Limits} {s : State} {a : Attribute} {mayNegate : Bool} {p : String}
    (hmode : s.mode = .path a mayNegate) (hp : Text.alike p "pr" = true) :
    s.step limits (.word p) = .ok (s.complete (.present a)) := by
  simp only [step, hmode, stepPath, hp, if_true]

/-- No comparison operator is spelled `pr`. -/
theorem not_alike_pr {o : String} {op : CompareOp} (h : CompareOp.ofWord? o = some op) :
    Text.alike o "pr" = false := by
  have hop : Text.alike op.keyword o = true :=
    List.find?_some (p := fun op : CompareOp => Text.alike op.keyword o) h
  apply Bool.eq_false_iff.2
  intro hpr
  have hfold := (Text.alike_iff_fold_eq.1 hop).trans (Text.alike_iff_fold_eq.1 hpr)
  have hkey : Text.alike op.keyword "pr" = true := Text.alike_iff_fold_eq.2 hfold
  revert hkey
  cases op <;> decide

theorem step_operator {limits : Limits} {s : State} {a : Attribute} {mayNegate : Bool}
    {o : String} {op : CompareOp} (hmode : s.mode = .path a mayNegate)
    (ho : CompareOp.ofWord? o = some op) :
    s.step limits (.word o) = .ok { s with mode := .value a op } := by
  simp only [step, hmode, stepPath, not_alike_pr ho, ho]
  rfl

theorem step_value {limits : Limits} {s : State} {a : Attribute} {op : CompareOp}
    {value : Token} {raw : String} {v : Literal} (hmode : s.mode = .value a op)
    (hvalue : Spells value raw) (hv : Literal.ofRaw? raw = some v) :
    s.step limits value = .ok (s.complete (.comparison a op v)) := by
  cases hvalue with
  | quoted => simp only [step, hmode, stepValue, hv]
  | word => simp only [step, hmode, stepValue, hv]

/-- The word `not` in any case is an attribute path too. -/
theorem ofPath?_of_alike_not {w : String} (h : Text.alike w "not" = true) :
    Attribute.ofPath? w = some ⟨none, w, none⟩ := by
  refine Attribute.ofPath?_of_isName ?_
  rw [Attribute.isName_eq_of_alike h]
  decide

/-- The tokens before a negated filter open its group. -/
theorem steps_negated {limits : Limits} {s : State} {w : String} (hmode : s.mode = .operand)
    (hw : Text.alike w "not" = true) (hdepth : s.frames.length + 1 ≤ limits.depth)
    (ts : List Token) :
    s.steps limits (.word w :: .openParen :: ts) =
      (s.opened (.group true s.level)).steps limits ts := by
  -- `not` is first read as a path
  let s₁ : State := { s with mode := .path ⟨none, w, none⟩ true }
  have hword : s.step limits (.word w) = .ok s₁ := by
    rw [step_word_of_operand hmode (ofPath?_of_alike_not hw), hw]
  have hopen : s₁.step limits .openParen = .ok (s.opened (.group true s.level)) :=
    step_openParen_of_path rfl hdepth
  rw [steps_cons _ hword, steps_cons _ hopen]

/-- The tokens before the filter of a value path open its brackets. -/
theorem steps_valuePath {limits : Limits} {s : State} {w : String} {a : Attribute}
    (hmode : s.mode = .operand) (ha : Attribute.ofPath? w = some a) (hin : s.inside = false)
    (hdepth : s.frames.length + 1 ≤ limits.depth) (ts : List Token) :
    s.steps limits (.word w :: .openBracket :: ts) =
      (s.opened (.valuePath a s.level)).steps limits ts := by
  let s₁ : State := { s with mode := .path a (Text.alike w "not") }
  have hopen : s₁.step limits .openBracket = .ok (s.opened (.valuePath a s.level)) :=
    step_openBracket rfl hin hdepth
  rw [steps_cons _ (step_word_of_operand hmode ha), steps_cons _ hopen]

/-! ### The machine follows derivations -/

/-- From the state, the tokens tell the tree.  A filter is told up to the `or`
that still waits for the end of its right conjunction. -/
def Reads (limits : Limits) (s : State) (ts : List Token) (u : Expr) : Layer → Prop
  | .filter =>
    s.level = {} → ∃ s', s.steps limits ts = .ok s' ∧ s'.level.andWaits = false ∧
      s'.closeConjunction = s.after u
  | .conjunction => s.level.andWaits = false → s.steps limits ts = .ok (s.after u)
  | .operand => s.steps limits ts = .ok (s.after u).closeOperand

@[simp] theorem mode_closeConjunction (s : State) : s.closeConjunction.mode = s.mode := by
  unfold closeConjunction
  split <;> rfl

@[simp] theorem frames_closeConjunction (s : State) : s.closeConjunction.frames = s.frames := by
  unfold closeConjunction
  split <;> rfl

@[simp] theorem connectives_closeConjunction (s : State) :
    s.closeConjunction.connectives = s.connectives := by
  unfold closeConjunction
  split <;> rfl

theorem closeOperand_after {s : State} (h : s.level.andWaits = false) (u : Expr) :
    (s.after u).closeOperand = s.after u := by
  unfold closeOperand
  rw [show (s.after u).level.andWaits = false from h]
  rfl

/-- A bracket closes on a whole filter: the group or value path is an operand. -/
theorem complete_closeConjunction {s t : State} {u v : Expr} {frame : Frame} {event : Event}
    (h : t.closeConjunction = (s.opened frame).after u) (hv : v.events = u.events ++ [event])
    (hops : v.operands = u.operands) :
    { t.closeConjunction with level := s.level, frames := s.frames }.complete event =
      (s.after v).closeOperand := by
  rw [complete_eq, h]
  simp [after, opened, hv, hops]

/-- A conjunction and an `and`: the `and` waits for an operand. -/
theorem steps_and {limits : Limits} {s : State} {ts : List Token} {l : Expr} {w : String}
    (hl : s.Reads limits ts l .conjunction) (hand : s.level.andWaits = false)
    (hw : Connective.ofWord? w = some .and) (hops : s.connectives + l.operands < limits.operands) :
    s.steps limits (ts ++ [.word w]) =
      .ok (s.awaiting l { s.level with andWaits := true }) := by
  have hpos := l.operands_pos
  have hcount : s.connectives + (l.operands - 1) + 1 = s.connectives + l.operands := by omega
  have hstep : (s.after l).step limits (.word w) =
      .ok (s.awaiting l { s.level with andWaits := true }) := by
    rw [step_connective rfl hw]
    simp only [connect, after, hcount, if_neg (Nat.not_le.2 hops)]
    rfl
  rw [steps_append _ (hl hand), steps_cons _ hstep, steps_nil]

/-- A filter and an `or`: the `or` waits for a conjunction. -/
theorem steps_or {limits : Limits} {s : State} {ts : List Token} {l : Expr} {w : String}
    (hl : s.Reads limits ts l .filter) (hlevel : s.level = {})
    (hw : Connective.ofWord? w = some .or) (hops : s.connectives + l.operands < limits.operands) :
    s.steps limits (ts ++ [.word w]) = .ok (s.awaiting l ⟨true, false⟩) := by
  obtain ⟨s₁, hs₁, hand, hclose⟩ := hl hlevel
  have hpos := l.operands_pos
  have hmode : s₁.mode = .done := by
    rw [← mode_closeConjunction, hclose]
    rfl
  have hcount : s₁.connectives + 1 = s.connectives + l.operands := by
    rw [← connectives_closeConjunction, hclose]
    show s.connectives + (l.operands - 1) + 1 = _
    omega
  have hstep : s₁.step limits (.word w) = .ok (s.awaiting l ⟨true, false⟩) := by
    rw [step_connective hmode hw]
    simp only [connect, hcount, if_neg (Nat.not_le.2 hops), hclose, hand]
    rfl
  rw [steps_append _ hs₁, steps_cons _ hstep, steps_nil]

/-- A filter in parentheses. -/
theorem steps_closeParen {limits : Limits} {s : State} {ts : List Token} {u : Expr} {n : Bool}
    (h : (s.opened (.group n s.level)).Reads limits ts u .filter) :
    (s.opened (.group n s.level)).steps limits (ts ++ [Token.closeParen]) =
      .ok (s.after (.group n u)).closeOperand := by
  obtain ⟨s₁, hs₁, -, hclose⟩ := h rfl
  have hmode : s₁.mode = .done := by
    rw [← mode_closeConjunction, hclose]
    rfl
  have hframes : s₁.frames = .group n s.level :: s.frames := by
    rw [← frames_closeConjunction, hclose]
    rfl
  rw [steps_append _ hs₁, steps_cons _ (step_closeParen hmode hframes), steps_nil,
    complete_closeConjunction hclose (Expr.events_group n u) rfl]

/-- A filter in the brackets of a value path. -/
theorem steps_closeBracket {limits : Limits} {s : State} {ts : List Token} {u : Expr}
    {a : Attribute} (h : (s.opened (.valuePath a s.level)).Reads limits ts u .filter) :
    (s.opened (.valuePath a s.level)).steps limits (ts ++ [Token.closeBracket]) =
      .ok (s.after (.valuePath a u)).closeOperand := by
  obtain ⟨s₁, hs₁, -, hclose⟩ := h rfl
  have hmode : s₁.mode = .done := by
    rw [← mode_closeConjunction, hclose]
    rfl
  have hframes : s₁.frames = .valuePath a s.level :: s.frames := by
    rw [← frames_closeConjunction, hclose]
    rfl
  rw [steps_append _ hs₁, steps_cons _ (step_closeBracket hmode hframes), steps_nil,
    complete_closeConjunction hclose (Expr.events_valuePath a u) rfl]

/-- The machine follows every derivation for which the limits leave room. -/
theorem reads_of_derives {layer : Layer} {inside : Bool} {ts : List Token} {u : Expr}
    (h : Derives layer inside ts u) {limits : Limits} {s : State} (hmode : s.mode = .operand)
    (hin : s.inside = inside) (hfits : s.Fits limits u) : s.Reads limits ts u layer := by
  induction h generalizing s with
  | conjunction _ ih =>
    intro hlevel
    have hand : s.level.andWaits = false := by rw [hlevel]
    refine ⟨_, ih hmode hin hfits hand, hand, ?_⟩
    simp [closeConjunction, after, hlevel]
  | @or inside ts us l r w _ hw _ ihl ihr =>
    -- the left filter is told by the `or`, the right conjunction only by what follows it
    obtain ⟨hdepth, hops⟩ := hfits
    simp only [Expr.nesting, Expr.operands] at hdepth hops
    have hpos := r.operands_pos
    intro hlevel
    have hl := ihl hmode hin ⟨by omega, by omega⟩
    have hor := steps_or hl hlevel hw (by omega)
    have hr : (s.awaiting l ⟨true, false⟩).Reads limits us r .conjunction :=
      ihr rfl hin ⟨by simp only [awaiting]; omega, by simp only [awaiting]; omega⟩
    refine ⟨(s.awaiting l ⟨true, false⟩).after r, ?_, rfl, ?_⟩
    · rw [List.append_cons, steps_append _ hor]
      exact hr rfl
    · have hcount : s.connectives + l.operands + (r.operands - 1) =
          s.connectives + (l.operands + r.operands - 1) := by omega
      simp [closeConjunction, after, awaiting, Expr.operands, hcount, hlevel]
  | operand _ ih =>
    intro hand
    have hs : s.steps limits _ = .ok _ := ih hmode hin hfits
    rwa [closeOperand_after hand] at hs
  | @and inside ts us l r w _ hw _ ihl ihr =>
    obtain ⟨hdepth, hops⟩ := hfits
    simp only [Expr.nesting, Expr.operands] at hdepth hops
    have hposl := l.operands_pos
    have hpos := r.operands_pos
    intro hand
    have hl := ihl hmode hin ⟨by omega, by omega⟩
    have hand' := steps_and hl hand hw (by omega)
    have hr : (s.awaiting l { s.level with andWaits := true }).Reads limits us r .operand :=
      ihr rfl hin ⟨by simp only [awaiting]; omega, by simp only [awaiting]; omega⟩
    -- the `and` is told together with its right operand
    have hcount : s.connectives + l.operands + (r.operands - 1) =
        s.connectives + (l.operands + r.operands - 1) := by omega
    rw [List.append_cons, steps_append _ hand']
    refine Eq.trans hr ?_
    simp [closeOperand, after, awaiting, Expr.operands, hcount, ← hand]
  | @group inside ts u _ ih =>
    obtain ⟨hdepth, hops⟩ := hfits
    simp only [Expr.nesting, Expr.operands] at hdepth hops
    have hopen := step_openParen_of_operand hmode (by omega : s.frames.length + 1 ≤ limits.depth)
    rw [Reads, List.cons_append, steps_cons _ hopen]
    exact steps_closeParen (ih rfl hin ⟨by simp only [opened, List.length_cons]; omega, hops⟩)
  | @negated inside ts u w hw _ ih =>
    obtain ⟨hdepth, hops⟩ := hfits
    simp only [Expr.nesting, Expr.operands] at hdepth hops
    rw [Reads, List.cons_append, List.cons_append, steps_negated hmode hw (by omega)]
    exact steps_closeParen (ih rfl hin ⟨by simp only [opened, List.length_cons]; omega, hops⟩)
  | @valuePath ts u w a ha _ ih =>
    obtain ⟨hdepth, hops⟩ := hfits
    simp only [Expr.nesting, Expr.operands] at hdepth hops
    rw [Reads, List.cons_append, List.cons_append, steps_valuePath hmode ha hin (by omega)]
    exact steps_closeBracket (ih rfl rfl ⟨by simp only [opened, List.length_cons]; omega, hops⟩)
  | @present inside w p a ha hp =>
    rw [Reads, steps_cons _ (step_word_of_operand hmode ha), steps_cons _ (step_pr rfl hp),
      steps_nil, complete_eq]
    rfl
  | @comparison inside w o a op value raw v ha ho hvalue hv =>
    rw [Reads, steps_cons _ (step_word_of_operand hmode ha), steps_cons _ (step_operator rfl ho),
      steps_cons _ (step_value rfl hvalue hv), steps_nil, complete_eq]
    rfl

/-- A whole filter is told, down to the last waiting connective. -/
theorem finish_of_closeConjunction {s : State} {u : Expr}
    (h : s.closeConjunction = ({} : State).after u) : s.finish = .ok u.events := by
  have hmode : s.mode = .done := by
    rw [← mode_closeConjunction, h]
    rfl
  have hframes : s.frames = [] := by
    rw [← frames_closeConjunction, h]
    rfl
  simp [finish, hmode, hframes, h, after]

end State

/-! ### Runs -/

/-- A run over lexemes succeeds exactly when the steps over their tokens do, and
end where a filter may end. -/
theorem run_eq_ok_iff {limits : Limits} {last : Nat} {s : State} {ls : List Lexeme}
    {ts : List Token} {events : List Event} (hls : ls.map Lexeme.token = ts ++ [.eof])
    (heof : .eof ∉ ts) :
    run limits last s ls = .ok events ↔
      ∃ s', s.steps limits ts = .ok s' ∧ s'.finish = .ok events := by
  induction ts generalizing s ls with
  | nil =>
    -- only the mark for the end is left
    rcases ls with - | ⟨⟨token, position⟩, rest⟩
    · cases hls
    · simp only [List.map_cons, List.nil_append, List.cons.injEq] at hls
      obtain ⟨rfl, -⟩ := hls
      simp only [run, if_true, State.steps_nil, Except.ok.injEq, exists_eq_left']
      cases s.finish <;> simp [orRefusal]
  | cons t ts ih =>
    rcases ls with - | ⟨⟨token, position⟩, rest⟩
    · cases hls
    · simp only [List.map_cons, List.cons_append, List.cons.injEq] at hls
      obtain ⟨rfl, hrest⟩ := hls
      obtain ⟨hne, hmem⟩ := not_or.1 (mt List.mem_cons.2 heof)
      have hne' : ¬ token = .eof := fun h => hne h.symm
      simp only [run, if_neg hne']
      rcases e : s.step limits token with cause | s₁
      · simp [State.steps, e, bind, Except.bind]
      · rw [State.steps_cons _ e]
        exact ih hrest hmem

/-- The machine accepts what the grammar derives, within the limits. -/
theorem run_of_derives {limits : Limits} {last : Nat} {ls : List Lexeme} {ts : List Token}
    {u : Expr} (hls : ls.map Lexeme.token = ts ++ [.eof]) (heof : .eof ∉ ts)
    (h : Derives .filter false ts u) (hdepth : u.nesting ≤ limits.depth)
    (hops : u.operands ≤ limits.operands) : run limits last {} ls = .ok u.events := by
  have hfits : ({} : State).Fits limits u :=
    ⟨by simpa using hdepth, by simpa using hops⟩
  obtain ⟨s, hs, -, hclose⟩ := State.reads_of_derives h rfl rfl hfits rfl
  exact (run_eq_ok_iff hls heof).2 ⟨s, hs, State.finish_of_closeConjunction hclose⟩

/-- Tokens derive at most one tree, on whatever layers: the machine tells its
events. -/
theorem Derives.unique {layer layer' : Layer} {inside : Bool} {ts : List Token} {u v : Expr}
    (hu : Derives layer inside ts u) (hv : Derives layer' inside ts v) : u = v := by
  -- limits with room for both trees, so that one run follows both derivations
  let s : State := { frames := if inside then [.valuePath ⟨none, "", none⟩ {}] else [] }
  let limits : Limits :=
    { depth := s.frames.length + max u.nesting v.nesting
      operands := max u.operands v.operands }
  have hin : s.inside = inside := by cases inside <;> rfl
  have hfits : ∀ w, w.nesting ≤ max u.nesting v.nesting → w.operands ≤ limits.operands →
      s.Fits limits w := by
    intro w hdepth hops
    exact ⟨Nat.add_le_add_left hdepth _, by simpa [s] using hops⟩
  obtain ⟨s₁, hs₁, -, hclose⟩ := State.reads_of_derives hu.filter rfl hin
    (hfits u (Nat.le_max_left ..) (Nat.le_max_left ..)) rfl
  obtain ⟨s₂, hs₂, -, hclose'⟩ := State.reads_of_derives hv.filter rfl hin
    (hfits v (Nat.le_max_right ..) (Nat.le_max_right ..)) rfl
  obtain rfl := Except.ok.inj (hs₁.symm.trans hs₂)
  have htold : u.events.reverse ++ [] = v.events.reverse ++ [] :=
    congrArg State.told (hclose.symm.trans hclose')
  have hevents : [] ++ u.events = [] ++ v.events := by simpa using htold
  exact (Expr.events_append_inj hevents).1

end ScimQuery.Reading
