/-
ScimQuery/Proofs/Filter/CaseBlind.lean

Two runs of the reader.  Lexemes that differ in the case of keywords and attribute
paths only are both read, as trees that are the same, or both refused, at the same
lexeme and for a cause of the same kind (`ofLexemes_case_blind`).

The runs tell events with one lower-case form (`Reading.lower_run_eq`).  The
events of a tree determine it, and resolving value paths commutes with lowering,
so the trees have one lower-case form as well.  Values are not lowered; those
that were read are finite, so each is the same as itself.
-/
import ScimQuery.Proofs.Filter.ReadBack
import ScimQuery.Proofs.Filter.Balance
import ScimQuery.Proofs.Reading.Case

namespace ScimQuery

/-- Causes of one kind: a value, a path, or the grammar. -/
def Cause.sameKind : Cause → Cause → Bool
  | literal _, literal _ => true
  | path _, path _ => true
  | grammar _, grammar _ => true
  | _, _ => false

/-- Lowering letters does not change the kind. -/
theorem Cause.sameKind_of_lower_eq {c c' : Cause} (h : c.lower = c'.lower) :
    c.sameKind c' = true := by
  cases c <;> cases c' <;> first | rfl | cases h

namespace Expr

/-! ### Trees in lower case -/

/-- The tree with the letters of all attributes small. -/
def lower : Expr → Expr
  | comparison a op v => comparison a.lower op v
  | present a => present a.lower
  | joined l c r => joined l.lower c r.lower
  | group n e => group n e.lower
  | valuePath a e => valuePath a.lower e.lower

theorem lower_scopedUnder (p : Attribute) (e : Expr) :
    (e.scopedUnder p).lower = e.lower.scopedUnder p.lower := by
  induction e with
  | comparison a op v => simp only [scopedUnder, lower, Attribute.lower_scopedUnder]
  | present a => simp only [scopedUnder, lower, Attribute.lower_scopedUnder]
  | joined l c r ihl ihr => simp only [scopedUnder, lower, ihl, ihr]
  | group n e ih => simp only [scopedUnder, lower, ih]
  | valuePath a e ih => rfl

/-- Names inside value paths find the same parents in lower case. -/
theorem lower_resolve (e : Expr) : e.resolve.lower = e.lower.resolve := by
  induction e with
  | comparison a op v => rfl
  | present a => rfl
  | joined l c r ihl ihr => simp only [resolve, lower, ihl, ihr]
  | group n e ih => simp only [resolve, lower, ih]
  | valuePath a e ih => simp only [resolve, under, lower, lower_scopedUnder, ih]

theorem events_lower (e : Expr) : e.lower.events = e.events.map Event.lower := by
  induction e with
  | comparison a op v => rfl
  | present a => rfl
  | joined l c r ihl ihr =>
    simp only [lower, events_joined, List.map_append, ihl, ihr]
    rfl
  | group n e ih =>
    simp only [lower, events_group, List.map_append, ih]
    rfl
  | valuePath a e ih =>
    simp only [lower, events_valuePath, List.map_append, ih]
    rfl

@[simp] theorem literals_scopedUnder (p : Attribute) (e : Expr) :
    (e.scopedUnder p).literals = e.literals := by
  induction e with
  | comparison a op v => rfl
  | present a => rfl
  | joined l c r ihl ihr => simp only [scopedUnder, literals, ihl, ihr]
  | group n e ih => exact ih
  | valuePath a e ih => rfl

@[simp] theorem literals_resolve (e : Expr) : e.resolve.literals = e.literals := by
  induction e with
  | comparison a op v => rfl
  | present a => rfl
  | joined l c r ihl ihr => simp only [resolve, literals, ihl, ihr]
  | group n e ih => exact ih
  | valuePath a e ih => simp only [resolve, under, literals, literals_scopedUnder, ih]

/-- Trees with one lower-case form are the same, as far as their values are. -/
theorem same_of_lower_eq {e e' : Expr} (h : e.lower = e'.lower)
    (hfinite : ∀ v ∈ e.literals, v.isFinite = true) : e.same e' = true := by
  induction e generalizing e' with
  | comparison a op v =>
    cases e' with
    | comparison b op' w =>
      obtain ⟨ha, rfl, rfl⟩ := comparison.inj h
      have hv := Literal.same_refl (hfinite v List.mem_cons_self)
      simp [same, Attribute.lower_eq_iff_same.1 ha, hv]
    | present _ | joined _ _ _ | group _ _ | valuePath _ _ => cases h
  | present a =>
    cases e' with
    | present b => exact Attribute.lower_eq_iff_same.1 (present.inj h)
    | comparison _ _ _ | joined _ _ _ | group _ _ | valuePath _ _ => cases h
  | joined l c r ihl ihr =>
    cases e' with
    | joined l' c' r' =>
      obtain ⟨hl, rfl, hr⟩ := joined.inj h
      obtain ⟨hfl, hfr⟩ := List.forall_mem_append.1 hfinite
      simp [same, ihl hl hfl, ihr hr hfr]
    | comparison _ _ _ | present _ | group _ _ | valuePath _ _ => cases h
  | group n e ih =>
    cases e' with
    | group n' e' =>
      obtain ⟨rfl, he⟩ := group.inj h
      simp [same, ih he hfinite]
    | comparison _ _ _ | present _ | joined _ _ _ | valuePath _ _ => cases h
  | valuePath a e ih =>
    cases e' with
    | valuePath b e' =>
      obtain ⟨ha, he⟩ := valuePath.inj h
      simp [same, Attribute.lower_eq_iff_same.1 ha, ih he hfinite]
    | comparison _ _ _ | present _ | joined _ _ _ | group _ _ => cases h

end Expr

namespace Reading

/-- The values of a tree that was read are finite. -/
theorem Derives.finite_literals {layer : Layer} {inside : Bool} {ts : List Token} {u : Expr}
    (h : Derives layer inside ts u) : ∀ v ∈ u.literals, v.isFinite = true := by
  induction h with
  | conjunction _ ih => exact ih
  | operand _ ih => exact ih
  | or _ _ _ ihl ihr => exact List.forall_mem_append.2 ⟨ihl, ihr⟩
  | and _ _ _ ihl ihr => exact List.forall_mem_append.2 ⟨ihl, ihr⟩
  | group _ ih => exact ih
  | negated _ _ ih => exact ih
  | valuePath _ _ ih => exact ih
  | present _ _ => exact nofun
  | comparison _ _ _ hv => simpa [Expr.literals] using Literal.isFinite_of_ofRaw? hv

end Reading

namespace Filter

open Reading

/-! ### Two runs -/

variable {limits : Limits} {input input' : String} {ls ls' : List Lexeme}

theorem ofLexemes_of_run_error {refusal : Refusal}
    (hrun : run limits input.length {} ls = .error refusal) :
    ofLexemes limits input ls =
      .error (.refused input (some refusal.position) refusal.cause) := by
  simp only [ofLexemes, Reading.events, hrun]
  rfl

/-- A run that succeeds tells a tree with finite values, and it is read once its value
paths are resolved. -/
theorem exists_tree_of_run {events : List Event}
    (hrun : run limits input.length {} ls = .ok events) :
    ∃ u : Expr, events = u.events ∧ (∀ v ∈ u.literals, v.isFinite = true) ∧
      ofLexemes limits input ls = .ok u.resolve := by
  obtain ⟨ts, u, hu, rfl⟩ := exists_derives_of_run hrun
  refine ⟨u, rfl, hu.finite_literals, ?_⟩
  simp only [ofLexemes, Reading.events, hrun, bind, Except.bind, Assembly.assemble_events]

/-- The case of keywords and attribute paths does not matter.  Lexemes that agree
but for the case of words, and agree in that too after the word of a comparison
operator, make trees that are the same, or are refused at the same position for
causes of one kind.  A missing mark for the end stands where the text ends, so then
the texts have to be equally long. -/
theorem ofLexemes_case_blind (h : recased false ls ls' = true)
    (hlast : input.length = input'.length ∨ .eof ∈ ls.map Lexeme.token) :
    (∃ e e', ofLexemes limits input ls = .ok e ∧ ofLexemes limits input' ls' = .ok e' ∧
      e.same e' = true) ∨
    (∃ position cause cause',
      ofLexemes limits input ls = .error (.refused input (some position) cause) ∧
        ofLexemes limits input' ls' = .error (.refused input' (some position) cause') ∧
          cause.sameKind cause' = true) := by
  have hruns := @lower_run_eq limits _ _ _ _ _ h hlast {} {} [] (reached_start limits) rfl nofun
  rcases hrun : run limits input.length {} ls with refusal | events <;>
    rcases hrun' : run limits input'.length {} ls' with refusal' | events' <;>
      rw [hrun, hrun'] at hruns
  · -- both are refused
    obtain ⟨hposition, hcause⟩ := Refusal.mk.inj (Except.error.inj hruns)
    refine .inr ⟨refusal.position, refusal.cause, refusal'.cause, ofLexemes_of_run_error hrun, ?_,
      Cause.sameKind_of_lower_eq hcause⟩
    rw [ofLexemes_of_run_error hrun', hposition]
  · cases hruns
  · cases hruns
  · -- both are read
    obtain ⟨u, rfl, hfinite, hok⟩ := exists_tree_of_run hrun
    obtain ⟨u', rfl, -, hok'⟩ := exists_tree_of_run hrun'
    have hevents : [] ++ u.lower.events = [] ++ u'.lower.events := by
      rw [Expr.events_lower, Expr.events_lower]
      exact Except.ok.inj hruns
    have hlower : u.resolve.lower = u'.resolve.lower := by
      rw [Expr.lower_resolve, Expr.lower_resolve, (Expr.events_append_inj hevents).1]
    refine .inl ⟨_, _, hok, hok', Expr.same_of_lower_eq hlower ?_⟩
    rwa [Expr.literals_resolve]

/-- A negated group around a value path, in two spellings. -/
theorem ofLexemes_case_blind_negated :
    let texts := ("NOT (Emails[Type EQ \"w\"])", "not (emails[type Eq \"w\"])")
    let ls : List Lexeme := [⟨.word "NOT", 0⟩, ⟨.openParen, 4⟩, ⟨.word "Emails", 5⟩,
      ⟨.openBracket, 11⟩, ⟨.word "Type", 12⟩, ⟨.word "EQ", 17⟩, ⟨.quoted "\"w\"", 20⟩,
      ⟨.closeBracket, 23⟩, ⟨.closeParen, 24⟩, ⟨.eof, 25⟩]
    let ls' : List Lexeme := [⟨.word "not", 0⟩, ⟨.openParen, 4⟩, ⟨.word "emails", 5⟩,
      ⟨.openBracket, 11⟩, ⟨.word "type", 12⟩, ⟨.word "Eq", 17⟩, ⟨.quoted "\"w\"", 20⟩,
      ⟨.closeBracket, 23⟩, ⟨.closeParen, 24⟩, ⟨.eof, 25⟩]
    recased false ls ls' = true ∧
    ((∃ e e', ofLexemes {} texts.1 ls = .ok e ∧ ofLexemes {} texts.2 ls' = .ok e' ∧
      e.same e' = true) ∨
    (∃ position cause cause',
      ofLexemes {} texts.1 ls = .error (.refused texts.1 (some position) cause) ∧
        ofLexemes {} texts.2 ls' = .error (.refused texts.2 (some position) cause') ∧
          cause.sameKind cause' = true)) :=
  ⟨by decide, ofLexemes_case_blind (by decide) (.inl (by decide))⟩

end Filter

end ScimQuery
