/-
ScimQuery/Proofs/Filter/Balance.lean

The machine and the assembly of trees keep in step.  What the machine tells is
always a row of whole trees: one before each connective that waits, and one more
after an operand.  So no event lacks its operands, and a filter that is accepted
leaves one tree.  This holds for all lexemes, also those that no text has, and for
all limits, also those that are not valid.

Limits only decide whether a token is taken, never what it does (`step_mono`).
With that, every rule of the grammar puts one tree on the stack and leaves the
trees below it alone, whatever the machine did before (`told_of_derives`).

Main result: reading fails only by refusing the text or, exactly if they are not
valid, the limits (`reading_never_imbalanced`).
-/
import ScimQuery.Proofs.Filter.Acceptance

namespace ScimQuery

/-! ### Feeding in two parts -/

namespace Assembly

theorem feedAll_append {stack stack' : List Expr} {before : List Event}
    (h : feedAll stack before = .ok stack') (after : List Event) :
    feedAll stack (before ++ after) = feedAll stack' after := by
  induction before generalizing stack with
  | nil =>
    obtain rfl := Except.ok.inj h
    rfl
  | cons event before ih =>
    rw [List.cons_append]
    rw [feedAll] at h ⊢
    rcases hfeed : feed stack event with ⟨stack₁, - | imbalance⟩
    · rw [hfeed] at h
      exact ih h
    · rw [hfeed] at h
      cases h

/-- A rule that tells the events of a tree puts one tree on the stack. -/
theorem feedAll_append_events {told : List Event} {stack : List Expr}
    (h : feedAll [] told = .ok stack) (u : Expr) :
    feedAll [] (told ++ u.events) = .ok (u.resolve :: stack) := by
  have hu := feedAll_events u stack []
  rw [List.append_nil] at hu
  rw [feedAll_append h, hu]
  rfl

/-- The events of a row of trees put them on the stack one after the other. -/
theorem feedAll_eventsOf (stack us : List Expr) :
    feedAll stack (Reading.eventsOf us) = .ok ((us.map Expr.resolve).reverse ++ stack) := by
  induction us generalizing stack with
  | nil => rfl
  | cons u us ih =>
    rw [Reading.eventsOf, List.flatMap_cons, feedAll_events]
    refine (ih (u.resolve :: stack)).trans ?_
    rw [List.map_cons, List.reverse_cons, List.append_assoc]
    rfl

end Assembly

namespace Reading

/-! ### The height of the stack -/

/-- The number of connectives of the level that wait. -/
def Level.waiting (level : Level) : Nat := level.orWaits.toNat + level.andWaits.toNat

/-- The level that the bracket interrupts. -/
def Frame.outer : Frame → Level
  | group _ outer => outer
  | valuePath _ outer => outer

/-- The number of connectives that wait outside the brackets. -/
def waitingOutside : List Frame → Nat
  | [] => 0
  | frame :: frames => waitingOutside frames + frame.outer.waiting

/-- The number of trees that are told: one for each connective that waits, and one
more after an operand. -/
def State.height (s : State) : Nat :=
  waitingOutside s.frames + s.level.waiting + if s.mode = .done then 1 else 0

theorem Begun.length_eq {inside : Bool} {level : Level} {ts : List Token} {us : List Expr}
    (h : Begun inside level ts us) : us.length = level.waiting := by
  cases h <;> rfl

theorem Ended.length_eq {inside : Bool} {level : Level} {ts : List Token} {us : List Expr}
    (h : Ended inside level ts us) : us.length = level.waiting + 1 := by
  cases h <;> rfl

theorem Opened.length_eq {limit : Nat} {inside : Bool} {frames : List Frame} {ts : List Token}
    {us : List Expr} (h : Opened limit inside frames ts us) :
    us.length = waitingOutside frames := by
  induction h with
  | nil => rfl
  | group _ hbegun _ _ ih =>
    rw [List.length_append, ih, hbegun.length_eq]
    rfl
  | negated _ hbegun _ _ _ ih =>
    rw [List.length_append, ih, hbegun.length_eq]
    rfl
  | valuePath _ hbegun _ _ _ ih =>
    rw [List.length_append, ih, hbegun.length_eq]
    rfl

theorem Partial.mode_ne {mode : Mode} {ts : List Token} (h : Partial mode ts) : mode ≠ .done := by
  cases h <;> exact nofun

/-- In every state that is reached, what is told makes a stack of the height that the
state has. -/
theorem Reached.stack {limits : Limits} {s : State} {ts : List Token} (h : Reached limits s ts) :
    ∃ stack, Assembly.feedAll [] s.told.reverse = .ok stack ∧ stack.length = s.height := by
  -- the trees told before the innermost bracket, then those of the present level
  have hfeed : ∀ {inside fs us vs}, Holds limits s inside fs us vs →
      Assembly.feedAll [] s.told.reverse = .ok ((us ++ vs).map Expr.resolve).reverse := by
    intro inside fs us vs hholds
    rw [hholds.told, Assembly.feedAll_eventsOf, List.append_nil]
  cases h with
  | wanting hholds hbegun hpartial _ _ =>
    refine ⟨_, hfeed hholds, ?_⟩
    rw [State.height, if_neg hpartial.mode_ne, List.length_reverse, List.length_map,
      List.length_append, hholds.opened.length_eq, hbegun.length_eq]
    rfl
  | done hholds hended hmode _ _ =>
    refine ⟨_, hfeed hholds, ?_⟩
    rw [State.height, if_pos hmode, List.length_reverse, List.length_map, List.length_append,
      hholds.opened.length_eq, hended.length_eq]
    rfl

/-! ### Wider limits -/

namespace State

theorem enter_mono {limits wider : Limits} (hdepth : limits.depth ≤ wider.depth) {s s' : State}
    {frame : Frame} (h : s.enter limits frame = .ok s') : s.enter wider frame = .ok s' := by
  unfold enter at h ⊢
  split at h
  · cases h
  · rw [if_neg (by omega)]
    exact h

theorem connect_mono {limits wider : Limits} (hops : limits.operands ≤ wider.operands)
    {s s' : State} {c : Connective} (h : s.connect limits c = .ok s') :
    s.connect wider c = .ok s' := by
  unfold connect at h ⊢
  split at h
  · cases h
  · rw [if_neg (by omega)]
    exact h

/-- A token that is taken within limits does the same within wider ones. -/
theorem step_mono {limits wider : Limits} (hdepth : limits.depth ≤ wider.depth)
    (hops : limits.operands ≤ wider.operands) {s s' : State} {token : Token}
    (h : s.step limits token = .ok s') : s.step wider token = .ok s' := by
  unfold step at h ⊢
  split at h
  · unfold stepOperand at h ⊢
    split at h
    · exact enter_mono hdepth h
    · exact h
    · exact h
  · unfold stepPath at h ⊢
    split at h
    · split at h
      · rename_i hnot
        exact (if_pos hnot).trans (enter_mono hdepth h)
      · cases h
    · split at h
      · cases h
      · rename_i hany
        exact (if_neg hany).trans (enter_mono hdepth h)
    · exact h
    · exact h
  · exact h
  · unfold stepDone at h ⊢
    split at h
    · split at h
      · exact connect_mono hops h
      · exact h
    · exact h
    · exact h
    · exact h

theorem steps_mono {limits wider : Limits} (hdepth : limits.depth ≤ wider.depth)
    (hops : limits.operands ≤ wider.operands) {s s' : State} {ts : List Token}
    (h : s.steps limits ts = .ok s') : s.steps wider ts = .ok s' := by
  induction ts generalizing s with
  | nil => exact h
  | cons token ts ih =>
    obtain ⟨s₁, hs₁, hrest⟩ := steps_cons_ok h
    rw [steps_cons _ (step_mono hdepth hops hs₁)]
    exact ih hrest

/-! ### Rules of the grammar -/

theorem told_prefix_closeOperand (s : State) :
    s.told.reverse <+: s.closeOperand.told.reverse := by
  unfold closeOperand
  split
  · rw [List.reverse_cons]
    exact List.prefix_append _ _
  · exact List.prefix_rfl

theorem told_prefix_closeConjunction (s : State) :
    s.told.reverse <+: s.closeConjunction.told.reverse := by
  unfold closeConjunction
  split
  · rw [List.reverse_cons]
    exact List.prefix_append _ _
  · exact List.prefix_rfl

theorem told_after (s : State) (u : Expr) :
    (s.after u).told.reverse = s.told.reverse ++ u.events := by
  rw [after, List.reverse_append, List.reverse_reverse]

end State

/-- The state is one in which a rule of the layer begins: an operand is wanted, and
no connective that binds tighter than the layer waits for it. -/
def Layer.Begins : Layer → State → Prop
  | filter, s => s.mode = .operand ∧ s.level = {}
  | conjunction, s => s.mode = .operand ∧ s.level.andWaits = false
  | operand, s => s.mode = .operand

theorem Layer.Begins.mode {layer : Layer} {s : State} (h : layer.Begins s) :
    s.mode = .operand := by
  cases layer with
  | filter => exact h.1
  | conjunction => exact h.1
  | operand => exact h

/-- A rule tells the events of its tree, after what was told before it.  Events after
these are of connectives that waited outside the rule. -/
theorem told_of_derives {layer : Layer} {inside : Bool} {ts : List Token} {u : Expr}
    (h : Derives layer inside ts u) {limits : Limits} {s s' : State} (hbegins : layer.Begins s)
    (hin : s.inside = inside) (hs : s.steps limits ts = .ok s') :
    s.told.reverse ++ u.events <+: s'.closeConjunction.told.reverse := by
  -- limits with room for the tree, so that the derivation can be followed
  let wider : Limits :=
    { depth := max limits.depth (s.frames.length + u.nesting)
      operands := max limits.operands (s.connectives + u.operands) }
  have hsteps : s.steps wider ts = .ok s' :=
    State.steps_mono (Nat.le_max_left ..) (Nat.le_max_left ..) hs
  have hfits : s.Fits wider u := ⟨Nat.le_max_right .., Nat.le_max_right ..⟩
  have hreads := State.reads_of_derives h hbegins.mode hin hfits
  rw [← State.told_after]
  cases layer with
  | filter =>
    obtain ⟨s₁, hs₁, -, hclose⟩ := hreads hbegins.2
    obtain rfl := Except.ok.inj (hsteps.symm.trans hs₁)
    exact hclose ▸ List.prefix_rfl
  | conjunction =>
    obtain rfl := Except.ok.inj (hsteps.symm.trans (hreads hbegins.2))
    exact State.told_prefix_closeConjunction _
  | operand =>
    obtain rfl := Except.ok.inj (hsteps.symm.trans hreads)
    exact (State.told_prefix_closeOperand _).trans (State.told_prefix_closeConjunction _)

/-! ### Runs over any lexemes -/

theorem finish_of_orRefusal {s : State} {position : Nat} {events : List Event}
    (h : orRefusal position s.finish = .ok events) : s.finish = .ok events := by
  rcases hs : s.finish with cause | told
  · rw [hs] at h
    cases h
  · rw [hs] at h
    exact congrArg Except.ok (Except.ok.inj h)

/-- A run that succeeds has taken some tokens, to a state where a filter may end. -/
theorem exists_steps_of_run {limits : Limits} {last : Nat} {s : State} {ls : List Lexeme}
    {events : List Event} (h : run limits last s ls = .ok events) :
    ∃ ts s', s.steps limits ts = .ok s' ∧ s'.finish = .ok events := by
  induction ls generalizing s with
  | nil => exact ⟨[], s, rfl, finish_of_orRefusal h⟩
  | cons l rest ih =>
    rw [run] at h
    split at h
    · -- whatever stands after the mark for the end is not looked at
      exact ⟨[], s, rfl, finish_of_orRefusal h⟩
    · rcases hs : s.step limits l.token with cause | s₁
      · rw [hs] at h
        cases h
      · rw [hs] at h
        obtain ⟨ts, s', hsteps, hend⟩ := ih h
        exact ⟨l.token :: ts, s', (State.steps_cons ts hs).trans hsteps, hend⟩

/-- What a run tells is the events of one tree, which some tokens derive. -/
theorem exists_derives_of_run {limits : Limits} {last : Nat} {ls : List Lexeme}
    {events : List Event} (h : run limits last {} ls = .ok events) :
    ∃ ts u, Derives .filter false ts u ∧ events = u.events := by
  obtain ⟨ts, s, hsteps, hfinish⟩ := exists_steps_of_run h
  obtain ⟨u, hu, hevents, -⟩ := ((reached_start limits).steps hsteps).finish hfinish
  exact ⟨ts, u, hu, hevents⟩

end Reading

namespace Filter

open Reading

/-! ### Reading -/

/-- Lexemes that are accepted leave one tree on the stack, which is the answer. -/
theorem exists_single_of_events {limits : Limits} {input : String} {ls : List Lexeme}
    {events : List Event} (h : Reading.events limits input ls = .ok events) :
    ∃ e, Assembly.feedAll [] events = .ok [e] ∧ ofLexemes limits input ls = .ok e := by
  rcases hrun : run limits input.length {} ls with refusal | told
  · simp only [Reading.events, hrun] at h
    cases h
  · obtain ⟨ts, u, -, rfl⟩ := exists_derives_of_run hrun
    simp only [Reading.events, hrun] at h
    obtain rfl := Except.ok.inj h
    have hempty : Assembly.feedAll [] [] = .ok [] := rfl
    have hfeed : Assembly.feedAll [] u.events = .ok [u.resolve] :=
      Assembly.feedAll_append_events hempty u
    refine ⟨u.resolve, hfeed, ?_⟩
    simp only [ofLexemes, Reading.events, hrun, bind, Except.bind, Assembly.assemble_events]

/-- Lexemes that are not accepted are refused. -/
theorem isRefused_of_ofLexemes {limits : Limits} {input : String} {ls : List Lexeme}
    {fault : Fault} (h : ofLexemes limits input ls = .error fault) : fault.isRefused = true := by
  rcases hevents : Reading.events limits input ls with fault' | events
  · simp only [ofLexemes, hevents] at h
    obtain rfl := Except.error.inj h
    unfold Reading.events at hevents
    split at hevents
    · cases hevents
    · obtain rfl := Except.error.inj hevents
      rfl
  · obtain ⟨e, -, hok⟩ := exists_single_of_events hevents
    rw [hok] at h
    cases h

theorem isRefused_of_lexemes {input : String} {fault : Fault} (h : lexemes input = .error fault) :
    fault.isRefused = true := by
  unfold lexemes at h
  split at h
  · cases h
  · obtain rfl := Except.error.inj h
    rfl

/-- Under valid limits a text is read or refused. -/
theorem isRefused_of_parseWith {limits : Limits} (hlimits : limits.validate = .ok ())
    {input : String} {fault : Fault} (h : parseWith limits input = .error fault) :
    fault.isRefused = true := by
  simp only [parseWith, hlimits] at h
  split at h
  · obtain rfl := Except.error.inj h
    rfl
  · rcases hls : lexemes input with fault' | ls
    · rw [hls] at h
      obtain rfl := Except.error.inj h
      exact isRefused_of_lexemes hls
    · rw [hls] at h
      exact isRefused_of_ofLexemes h

/-- Limits are refused exactly when they are not valid. -/
theorem parseWith_eq_limits_iff {limits : Limits} {input : String} {fault : LimitFault} :
    parseWith limits input = .error (.limits fault) ↔ limits.validate = .error fault := by
  rcases hlimits : limits.validate with fault' | ⟨⟩
  · simp [parseWith, hlimits]
  · constructor
    · intro h
      cases isRefused_of_parseWith hlimits h
    · intro h
      cases h

/-- Reading keeps in step with the assembly of the tree, for all limits and lexemes:
lexemes are refused or leave one tree; at no time does an event lack its operands; a
rule of the grammar adds one tree to those that were there.  So reading a text fails
only by refusing it, or by refusing the limits if they are not valid. -/
theorem reading_never_imbalanced (limits : Limits) (input : String) (ls : List Lexeme) :
    (∀ fault, ofLexemes limits input ls = .error fault → fault.isRefused = true) ∧
    (∀ events, Reading.events limits input ls = .ok events →
      ∃ e, Assembly.feedAll [] events = .ok [e] ∧ ofLexemes limits input ls = .ok e) ∧
    (∀ ts s, ({} : State).steps limits ts = .ok s →
      ∃ stack, Assembly.feedAll [] s.told.reverse = .ok stack ∧ stack.length = s.height) ∧
    (∀ layer inside ts u s s' stack, Derives layer inside ts u → layer.Begins s →
      s.inside = inside → s.steps limits ts = .ok s' →
      Assembly.feedAll [] s.told.reverse = .ok stack →
      s.told.reverse ++ u.events <+: s'.closeConjunction.told.reverse ∧
        Assembly.feedAll [] (s.told.reverse ++ u.events) = .ok (u.resolve :: stack)) ∧
    (∀ fault, parseWith limits input = .error (.limits fault) ↔ limits.validate = .error fault) ∧
    ∀ fault, parseWith limits input = .error fault →
      fault.isRefused = true ∨ ∃ f, fault = .limits f := by
  refine ⟨fun fault => isRefused_of_ofLexemes, fun events => exists_single_of_events, ?_, ?_,
    fun fault => parseWith_eq_limits_iff, ?_⟩
  · intro ts s hs
    exact ((reached_start limits).steps hs).stack
  · intro layer inside ts u s s' stack hu hbegins hin hs hstack
    exact ⟨told_of_derives hu hbegins hin hs, Assembly.feedAll_append_events hstack u⟩
  · intro fault h
    rcases hlimits : limits.validate with f | ⟨⟩
    · refine .inr ⟨f, ?_⟩
      rw [parseWith_eq_limits_iff.2 hlimits] at h
      exact (Except.error.inj h).symm
    · exact .inl (isRefused_of_parseWith hlimits h)

/-- Lexemes with a bracket after the mark for the end, and limits that are not valid:
the lexemes are read, the limits refused.  After `a pr or`, the conjunction
`b pr and c pr` comes to lie on top of the tree that was told before it. -/
theorem reading_balanced_after_or :
    let a : Expr := .present ⟨none, "a", none⟩
    let b : Expr := .present ⟨none, "b", none⟩
    let c : Expr := .present ⟨none, "c", none⟩
    let limits : Limits := ⟨0, 0, 9⟩
    let ls : List Lexeme := [⟨.word "a", 0⟩, ⟨.word "pr", 2⟩, ⟨.eof, 4⟩, ⟨.closeParen, 4⟩]
    (∃ e, Assembly.feedAll [] a.events = .ok [e] ∧ ofLexemes limits "a pr" ls = .ok e) ∧
      parseWith limits "a pr" = .error (.limits (.zero "max_filter_length")) ∧
      ∃ s s', ({} : State).steps limits [.word "a", .word "pr", .word "or"] = .ok s ∧
        s.steps limits [.word "b", .word "pr", .word "and", .word "c", .word "pr"] = .ok s' ∧
        s'.told.reverse = a.events ++ (Expr.joined b .and c).events ∧
        Assembly.feedAll [] s'.told.reverse = .ok [.joined b .and c, a] := by
  intro a b c limits ls
  obtain ⟨-, hsingle, -, hrule, hfault, -⟩ := reading_never_imbalanced limits "a pr" ls
  refine ⟨hsingle a.events rfl, (hfault _).2 rfl, ?_⟩
  have hb : Derives .operand false [.word "b", .word "pr"] b := .present rfl rfl
  have hc : Derives .operand false [.word "c", .word "pr"] c := .present rfl rfl
  have hand : Derives .conjunction false
      [.word "b", .word "pr", .word "and", .word "c", .word "pr"] (.joined b .and c) :=
    .and (.operand hb) rfl hc
  let s : State := ⟨.operand, ⟨true, false⟩, [], 1, [.present ⟨none, "a", none⟩]⟩
  obtain ⟨-, hfeed⟩ := hrule .conjunction false _ _ s _ [a] hand ⟨rfl, rfl⟩ rfl rfl rfl
  exact ⟨s, _, rfl, rfl, rfl, hfeed⟩

end Filter

end ScimQuery
