/-
ScimQuery/Proofs/Filter/Canonical.lean

The canonical text under the limits that the original text was read with.  The
printer puts blanks around words, escapes control characters and writes numbers
without an exponent, so its text may be longer than the one that was read; it adds
no bracket and no operand.

A reference that is abbreviated inside a value path may not be readable.  Up to the
first such word the machine reads what it has read before, and there it stops
because of the word (`steps_tokens_error`).

Main result: read within the same limits, the canonical text is refused because of
a limit exactly when it is too long (`render_overLimit_iff`).
-/
import ScimQuery.Proofs.Filter.Balance
import ScimQuery.Proofs.Filter.Bounds

namespace ScimQuery

namespace Reading

/-! ### Tokens that stop the machine -/

namespace State

theorem steps_cons_error {limits : Limits} {s : State} {token : Token} {cause : Cause}
    (h : s.step limits token = .error cause) (ts : List Token) :
    s.steps limits (token :: ts) = .error cause := by
  rw [steps, h]
  rfl

theorem steps_append_error {limits : Limits} {s : State} {ts : List Token} {cause : Cause}
    (h : s.steps limits ts = .error cause) (us : List Token) :
    s.steps limits (ts ++ us) = .error cause := by
  induction ts generalizing s with
  | nil => cases h
  | cons token ts ih =>
    rcases hs : s.step limits token with cause' | s₁
    · rw [steps_cons_error hs] at h
      rw [List.cons_append, steps_cons_error hs]
      exact h
    · rw [steps_cons _ hs] at h
      rw [List.cons_append, steps_cons _ hs]
      exact ih h

theorem step_word_error {limits : Limits} {s : State} {w : String} (hmode : s.mode = .operand)
    (hw : Attribute.ofPath? w = none) : s.step limits (.word w) = .error (.path w) := by
  simp only [step, hmode, stepOperand, hw]

/-- The tokens before the filter of a group open it. -/
theorem steps_group {limits : Limits} {s : State} (hmode : s.mode = .operand)
    (hdepth : s.frames.length + 1 ≤ limits.depth) (n : Bool) (ts : List Token) :
    s.steps limits ((if n then [.word "not"] else []) ++ .openParen :: ts) =
      (s.opened (.group n s.level)).steps limits ts := by
  cases n with
  | false => exact steps_cons ts (step_openParen_of_operand hmode hdepth)
  | true => exact steps_negated hmode (Text.alike_refl "not") hdepth ts

end State

/-! ### Where a tree begins -/

/-- On a fresh level any tree may begin. -/
theorem Layer.begins_of_fresh (layer : Layer) {s : State} (hmode : s.mode = .operand)
    (hlevel : s.level = {}) : layer.Begins s := by
  cases layer with
  | filter => exact ⟨hmode, hlevel⟩
  | conjunction => exact ⟨hmode, by rw [hlevel]⟩
  | operand => exact hmode

/-- Where no `and` waits, any tree but an `or` may begin. -/
theorem begins_of_not_or {e : Expr} (he : e.connective? ≠ some .or) {s : State}
    (hmode : s.mode = .operand) (hand : s.level.andWaits = false) : (layerOf e).Begins s := by
  unfold layerOf
  rcases hc : e.connective? with - | (- | -)
  · exact hmode
  · exact ⟨hmode, hand⟩
  · exact absurd hc he

/-- Where joined trees begin, the left one begins. -/
theorem begins_left {l r : Expr} {c : Connective} (hleft : Expr.parensLeft c l = false) {s : State}
    (h : (layerOf (.joined l c r)).Begins s) : (layerOf l).Begins s := by
  cases c with
  | or => exact (layerOf l).begins_of_fresh h.1 h.2
  | and => exact begins_of_not_or (Expr.parensLeft_and_eq_false_iff.1 hleft) h.1 h.2

/-- After a left operand that can be read again and a connective, the right one begins. -/
theorem steps_left_connective {limits : Limits} {l l' r : Expr} {c : Connective}
    {scope : Option Attribute} (hproper : l.Proper scope) (htidy : (Expr.joined l c r).Tidy)
    (hl : l.reread scope = some l') {s : State} (hbegins : (layerOf (.joined l c r)).Begins s)
    (hin : s.inside = scope.isSome) (hdepth : s.frames.length + l.nesting ≤ limits.depth)
    (hops : s.connectives + l.operands < limits.operands) :
    ∃ level, s.steps limits (l.tokens scope ++ [.word c.keyword]) = .ok (s.awaiting l' level) ∧
      (layerOf r).Begins (s.awaiting l' level) := by
  obtain ⟨⟨hleft, hright⟩, htidyl, -⟩ := htidy
  obtain ⟨hnesting, hoperands, -⟩ := Expr.shape_reread hl
  have hderives := derives_tokens hproper htidyl hl
  have hops' : s.connectives + l'.operands < limits.operands := by rwa [hoperands]
  have hfits : s.Fits limits l' := ⟨by rwa [hnesting], Nat.le_of_lt hops'⟩
  have hword := Connective.ofWord?_keyword c
  cases c with
  | or =>
    have hreads := State.reads_of_derives hderives.filter hbegins.mode hin hfits
    refine ⟨_, State.steps_or hreads hbegins.2 hword hops', ?_⟩
    exact begins_of_not_or (Expr.parensRight_or_eq_false_iff.1 hright) rfl rfl
  | and =>
    have hconjunction :=
      hderives.conjunction_of_layerOf (Expr.parensLeft_and_eq_false_iff.1 hleft)
    have hreads := State.reads_of_derives hconjunction hbegins.mode hin hfits
    refine ⟨_, State.steps_and hreads hbegins.2 hword hops', ?_⟩
    rw [layerOf, Expr.parensRight_and_eq_false_iff.1 hright]
    rfl

/-- The tokens of a tree with a reference that cannot be read again: the machine stops at
the first such word, for that reason and no other. -/
theorem steps_tokens_error {limits : Limits} {e : Expr} {scope : Option Attribute}
    (hproper : e.Proper scope) (htidy : e.Tidy) (h : e.reread scope = none) {s : State}
    (hbegins : (layerOf e).Begins s) (hin : s.inside = scope.isSome) (hfits : s.Fits limits e) :
    ∃ raw, s.steps limits (e.tokens scope) = .error (.path raw) := by
  induction e generalizing scope s with
  | comparison a op v =>
    have hnone : Attribute.ofPath? (a.render scope) = none := Option.map_eq_none_iff.1 h
    exact ⟨_, State.steps_cons_error (State.step_word_error hbegins hnone) _⟩
  | present a =>
    have hnone : Attribute.ofPath? (a.render scope) = none := Option.map_eq_none_iff.1 h
    exact ⟨_, State.steps_cons_error (State.step_word_error hbegins hnone) _⟩
  | joined l c r ihl ihr =>
    obtain ⟨hdepth, hops⟩ := hfits
    simp only [Expr.nesting, Expr.operands] at hdepth hops
    have hpos := r.operands_pos
    have htokens : (Expr.joined l c r).tokens scope =
        l.tokens scope ++ .word c.keyword :: r.tokens scope := by
      simp only [Expr.tokens, htidy.1.1, htidy.1.2]
      rfl
    rw [htokens]
    rcases hl : l.reread scope with - | l'
    · -- the word is in the left operand
      obtain ⟨raw, hraw⟩ := ihl hproper.1 htidy.2.1 hl (begins_left htidy.1.1 hbegins) hin
        ⟨by omega, by omega⟩
      exact ⟨raw, State.steps_append_error hraw _⟩
    · -- the left operand is read, and the word is in the right one
      have hr : r.reread scope = none := by
        rw [Expr.reread, hl] at h
        exact Option.map_eq_none_iff.1 h
      obtain ⟨level, hsteps, hbegins'⟩ := steps_left_connective hproper.1 htidy hl hbegins hin
        (by omega : s.frames.length + l.nesting ≤ limits.depth) (by omega)
      obtain ⟨-, hoperands, -⟩ := Expr.shape_reread hl
      obtain ⟨raw, hraw⟩ := ihr hproper.2 htidy.2.2 hr hbegins' hin
        ⟨by simp only [State.awaiting]; omega, by simp only [State.awaiting]; omega⟩
      refine ⟨raw, ?_⟩
      rw [List.append_cons, State.steps_append _ hsteps]
      exact hraw
  | group n e ih =>
    obtain ⟨hdepth, hops⟩ := hfits
    simp only [Expr.nesting, Expr.operands] at hdepth hops
    have hnone : e.reread scope = none := Option.map_eq_none_iff.1 h
    obtain ⟨raw, hraw⟩ := ih (s := s.opened (.group n s.level)) hproper htidy hnone
      ((layerOf e).begins_of_fresh rfl rfl) hin
      ⟨by simp only [State.opened, List.length_cons]; omega, hops⟩
    refine ⟨raw, ?_⟩
    rw [Expr.tokens, State.steps_group hbegins (by omega)]
    exact State.steps_append_error hraw _
  | valuePath a e ih =>
    -- the attribute before the bracket is not abbreviated
    obtain ⟨rfl, ha, hproper⟩ := hproper
    obtain ⟨hdepth, hops⟩ := hfits
    simp only [Expr.nesting, Expr.operands] at hdepth hops
    have hread : Attribute.ofPath? (a.render none) = some a := ha.wellFormed.ofPath?
    have hnone : e.reread (some a) = none := by
      rw [Expr.reread, hread] at h
      exact Option.map_eq_none_iff.1 h
    obtain ⟨raw, hraw⟩ := ih (s := s.opened (.valuePath a s.level)) hproper htidy hnone
      ((layerOf e).begins_of_fresh rfl rfl) rfl
      ⟨by simp only [State.opened, List.length_cons]; omega, hops⟩
    refine ⟨raw, ?_⟩
    rw [Expr.tokens, State.steps_valuePath hbegins hread hin (by omega)]
    exact State.steps_append_error hraw _

/-- A run over lexemes stops where the steps over their tokens do. -/
theorem run_of_steps_error {limits : Limits} {last : Nat} {s : State} {ls : List Lexeme}
    {ts : List Token} {cause : Cause} (hls : ls.map Lexeme.token = ts ++ [.eof])
    (heof : .eof ∉ ts) (h : s.steps limits ts = .error cause) :
    ∃ position, run limits last s ls = .error ⟨position, cause⟩ := by
  induction ts generalizing s ls with
  | nil => cases h
  | cons t ts ih =>
    rcases ls with - | ⟨⟨token, position⟩, rest⟩
    · cases hls
    · simp only [List.map_cons, List.cons_append, List.cons.injEq] at hls
      obtain ⟨rfl, hrest⟩ := hls
      obtain ⟨hne, hmem⟩ := not_or.1 (mt List.mem_cons.2 heof)
      simp only [run, if_neg (Ne.symm hne)]
      rcases hs : s.step limits token with cause' | s₁
      · rw [State.steps_cons_error hs] at h
        obtain rfl := Except.error.inj h
        exact ⟨position, rfl⟩
      · rw [State.steps_cons _ hs] at h
        exact ih hrest hmem h

end Reading

/-- The text is refused because of a limit. -/
def Fault.isOverLimit : Fault → Bool
  | refused _ _ (.grammar (.tooLong _ _)) => true
  | refused _ _ (.grammar (.tooDeep _)) => true
  | refused _ _ (.grammar (.tooMany _)) => true
  | _ => false

namespace Filter

open Reading Scan

/-- A text whose tokens stop the machine is refused for the same cause. -/
theorem parseWith_of_steps_error {limits : Limits} (hlimits : limits.validate = .ok ())
    {input : String} (hlength : input.utf8ByteSize ≤ limits.length) {ts : List Token}
    (hscans : Scans input.toList ts) {cause : Cause}
    (h : ({} : State).steps limits ts = .error cause) :
    ∃ position, parseWith limits input = .error (.refused input (some position) cause) := by
  obtain ⟨ls, hls, htokens⟩ := lexemes_of_scans hscans
  obtain ⟨position, hrun⟩ := @run_of_steps_error _ input.length _ _ _ _ htokens hscans.eof_not_mem h
  refine ⟨position, ?_⟩
  simp only [parseWith, hlimits, if_neg (Nat.not_lt.2 hlength), lexemes, hls, ofLexemes,
    Reading.events, bind, Except.bind, hrun]

/-- The canonical text of a proper and tidy tree within the limits is read, unless an
abbreviated reference in it cannot be. -/
theorem parseWith_render_cases {limits : Limits} (hlimits : limits.validate = .ok ()) {e : Expr}
    (hproper : e.Proper none) (htidy : e.Tidy) (hlength : e.render.utf8ByteSize ≤ limits.length)
    (hdepth : e.nesting ≤ limits.depth) (hops : e.operands ≤ limits.operands) :
    (∃ e', parseWith limits e.render = .ok e') ∨
      ∃ position raw,
        parseWith limits e.render = .error (.refused e.render (some position) (.path raw)) := by
  rcases hu : e.reread none with - | u
  · have hscans : Scans e.render.toList (e.tokens none) := by
      rw [Expr.toList_render]
      exact hproper.scans_written
    have hfits : ({} : State).Fits limits e := ⟨by simpa using hdepth, by simpa using hops⟩
    obtain ⟨raw, hraw⟩ := steps_tokens_error hproper htidy hu
      ((layerOf e).begins_of_fresh rfl rfl) rfl hfits
    obtain ⟨position, hposition⟩ := parseWith_of_steps_error hlimits hlength hscans hraw
    exact .inr ⟨position, raw, hposition⟩
  · exact .inl ⟨u.resolve,
      (parseWith_render_iff hlimits hproper htidy hlength hdepth hops).2 ⟨u, hu, rfl⟩⟩

theorem parseWith_of_tooLong {limits : Limits} (hlimits : limits.validate = .ok ())
    {input : String} (h : limits.length < input.utf8ByteSize) :
    parseWith limits input =
      .error (.ofGrammar input (.tooLong input.utf8ByteSize limits.length) none) := by
  simp only [parseWith, hlimits, if_pos h]

/-- The canonical text of a filter that was read, with the parentheses that it has, keeps
the limits on nesting and on operands; read within the same limits again, it is refused
because of a limit exactly when it is too long. -/
theorem render_overLimit_iff {limits : Limits} (hlimits : limits.validate = .ok ())
    {input : String} {t : Expr} (h : parseWith limits input = .ok t) :
    t.grouped.nesting ≤ limits.depth ∧ t.grouped.operands ≤ limits.operands ∧
      ((∃ fault, parseWith limits t.render = .error fault ∧ fault.isOverLimit = true) ↔
        limits.length < t.render.utf8ByteSize) := by
  obtain ⟨hproper, htidy, hdepth, hops⟩ := proper_of_parseWith hlimits h
  rw [Expr.grouped_of_tidy htidy]
  refine ⟨hdepth, hops, ?_, ?_⟩
  · rintro ⟨fault, hfault, hover⟩
    apply Nat.lt_of_not_le
    intro hlength
    obtain ⟨e', hok⟩ | ⟨position, raw, hpath⟩ :=
      parseWith_render_cases hlimits hproper htidy hlength hdepth hops
    · rw [hok] at hfault
      cases hfault
    · obtain rfl := Except.error.inj (hpath.symm.trans hfault)
      cases hover
  · intro hlength
    exact ⟨_, parseWith_of_tooLong hlimits hlength, rfl⟩

/-- An abbreviated reference that cannot be read again is not a matter of limits. -/
theorem render_overLimit_iff_dotted :
    let t : Expr := .valuePath ⟨none, "emails", none⟩ (.present ⟨none, "emails", some "1"⟩)
    parseWith ⟨19, 1, 1⟩ "emails[emails.1 pr]" = .ok t ∧ t.render = "emails[1 pr]" ∧
      ¬ ∃ fault, parseWith ⟨19, 1, 1⟩ t.render = .error fault ∧ fault.isOverLimit = true := by
  intro t
  have hread : parseWith ⟨19, 1, 1⟩ "emails[emails.1 pr]" = .ok t := rfl
  obtain ⟨-, -, hiff⟩ := render_overLimit_iff rfl hread
  refine ⟨hread, by decide, ?_⟩
  rw [hiff]
  decide

/-- A control character is written with an escape, so the canonical text may be too long
for limits that the original text keeps. -/
theorem render_tooLong_tab :
    let limits : Limits := { length := 8 }
    let t : Expr := .comparison ⟨none, "a", none⟩ .eq (.text "\t")
    limits.validate = .ok () ∧ parseWith limits "a eq \"\t\"" = .ok t ∧
      t.render = "a eq \"\\t\"" ∧ limits.length < t.render.utf8ByteSize ∧
      parseWith limits t.render = .error (.refused t.render none (.grammar (.tooLong 9 8))) := by
  intro limits t
  have hsize : t.render.utf8ByteSize = 9 := by decide
  have hlong : limits.length < t.render.utf8ByteSize := by decide
  have hrefused := parseWith_of_tooLong (show limits.validate = .ok () from rfl) hlong
  rw [hsize] at hrefused
  exact ⟨rfl, rfl, by decide, hlong, hrefused⟩

end Filter

end ScimQuery
