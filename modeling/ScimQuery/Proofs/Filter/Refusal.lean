/-
ScimQuery/Proofs/Filter/Refusal.lean

Where a text is refused.  The machine takes tokens as long as they can still
become a filter: whatever state it is in, the operand that has begun can be ended
and the open brackets can be closed, without a connective or a bracket more than
there are.  `State.completion` gives the tokens for that.

Main result: a text that can be cut into lexemes but is not a filter is refused at
one of its lexemes, the mark for the end included.  The lexemes before it can be
continued to a filter within the limits, those up to it cannot
(`parseWith_error_at_first_refused`).
-/
import ScimQuery.Proofs.Filter.Acceptance

namespace ScimQuery

namespace Reading

/-! ### Every state can be completed -/

/-- The token that closes a bracket. -/
def Frame.closing : Frame → Token
  | group .. => .closeParen
  | valuePath .. => .closeBracket

/-- Tokens that end the operand at which the machine is. -/
def Mode.completion : Mode → List Token
  | operand => [.word "id", .word "pr"]
  | path .. => [.word "pr"]
  | value .. => [.word "null"]
  | done => []

namespace State

/-- Tokens that make a filter of what was taken. -/
def completion (s : State) : List Token := s.mode.completion ++ s.frames.map Frame.closing

theorem eof_not_mem_completion (s : State) : .eof ∉ s.completion := by
  have hmode : ∀ mode : Mode, .eof ∉ mode.completion := by
    intro mode
    cases mode <;> simp [Mode.completion]
  have hclosing : ∀ frame : Frame, frame.closing ≠ .eof := by
    rintro (- | -) <;> exact nofun
  simp [completion, hmode, hclosing]

/-- The operand can be ended. -/
theorem steps_mode_completion (limits : Limits) (s : State) :
    ∃ s', s.steps limits s.mode.completion = .ok s' ∧ s'.mode = .done ∧
      s'.frames = s.frames := by
  rcases hmode : s.mode with - | ⟨a, mayNegate⟩ | ⟨a, op⟩ | -
  · have hid : Attribute.ofPath? "id" = some ⟨none, "id", none⟩ := rfl
    have hpr : Text.alike "pr" "pr" = true := rfl
    let s₁ : State := { s with mode := .path ⟨none, "id", none⟩ (Text.alike "id" "not") }
    refine ⟨s₁.complete (.present ⟨none, "id", none⟩), ?_, mode_complete _ _,
      frames_complete _ _⟩
    rw [Mode.completion, steps_cons _ (step_word_of_operand hmode hid),
      steps_cons _ (step_pr rfl hpr), steps_nil]
  · have hpr : Text.alike "pr" "pr" = true := rfl
    refine ⟨s.complete (.present a), ?_, mode_complete _ _, frames_complete _ _⟩
    rw [Mode.completion, steps_cons _ (step_pr hmode hpr), steps_nil]
  · have hnull : Literal.ofRaw? "null" = some .null := rfl
    refine ⟨s.complete (.comparison a op .null), ?_, mode_complete _ _, frames_complete _ _⟩
    rw [Mode.completion, steps_cons _ (step_value hmode (.word "null") hnull), steps_nil]
  · exact ⟨s, rfl, hmode, rfl⟩

/-- After an operand, the brackets can be closed from the innermost outwards. -/
theorem steps_closing (limits : Limits) {s : State} (hmode : s.mode = .done) :
    ∃ s', s.steps limits (s.frames.map Frame.closing) = .ok s' ∧ s'.mode = .done ∧
      s'.frames = [] := by
  generalize hframes : s.frames = frames
  induction frames generalizing s with
  | nil => exact ⟨s, rfl, hmode, hframes⟩
  | cons frame frames ih =>
    -- the bracket leaves a state after an operand, with one frame less
    have hstep : ∃ s₁, s.step limits frame.closing = .ok s₁ ∧ s₁.mode = .done ∧
        s₁.frames = frames := by
      cases frame with
      | group n outer =>
        exact ⟨_, step_closeParen hmode hframes, mode_complete _ _, frames_complete _ _⟩
      | valuePath a outer =>
        exact ⟨_, step_closeBracket hmode hframes, mode_complete _ _, frames_complete _ _⟩
    obtain ⟨s₁, hs₁, hmode₁, hframes₁⟩ := hstep
    obtain ⟨s', hs', hend⟩ := ih hmode₁ hframes₁
    exact ⟨s', (steps_cons _ hs₁).trans hs', hend⟩

/-- Every state can be completed to a filter, whatever the limits. -/
theorem finish_completion (limits : Limits) (s : State) :
    ∃ s' events, s.steps limits s.completion = .ok s' ∧ s'.finish = .ok events := by
  obtain ⟨s₁, hs₁, hmode₁, hframes₁⟩ := s.steps_mode_completion limits
  obtain ⟨s₂, hs₂, hmode₂, hframes₂⟩ := s₁.steps_closing limits hmode₁
  rw [hframes₁] at hs₂
  refine ⟨s₂, s₂.closeConjunction.told.reverse, (steps_append _ hs₁).trans hs₂, ?_⟩
  simp only [finish, hmode₂, hframes₂, List.isEmpty_nil, if_true]

/-- The token is not taken after the state; the mark for the end is taken where a
filter may end. -/
def Refuses (limits : Limits) (s : State) (token : Token) (cause : Cause) : Prop :=
  if token = .eof then s.finish = .error cause else s.step limits token = .error cause

end State

/-! ### Runs that fail -/

/-- A run over lexemes that are taken goes on with the lexemes after them. -/
theorem run_append {limits : Limits} {last : Nat} {s s' : State} {before : List Lexeme}
    (heof : ∀ l ∈ before, l.token ≠ .eof)
    (hs : s.steps limits (before.map Lexeme.token) = .ok s') (rest : List Lexeme) :
    run limits last s (before ++ rest) = run limits last s' rest := by
  induction before generalizing s with
  | nil =>
    obtain rfl := Except.ok.inj hs
    rfl
  | cons l before ih =>
    obtain ⟨s₁, hs₁, hrest⟩ := State.steps_cons_ok hs
    obtain ⟨hl, hbefore⟩ := List.forall_mem_cons.1 heof
    rw [List.cons_append, run, if_neg hl, hs₁]
    exact ih hbefore hrest

/-- A lexeme that is refused ends the run, whatever comes after it. -/
theorem run_of_refuses {limits : Limits} {s : State} {l : Lexeme} {cause : Cause}
    (h : s.Refuses limits l.token cause) (last : Nat) (rest : List Lexeme) :
    run limits last s (l :: rest) = .error ⟨l.position, cause⟩ := by
  unfold State.Refuses at h
  rw [run]
  split
  · rename_i heof
    rw [if_pos heof] at h
    rw [h]
    rfl
  · rename_i heof
    rw [if_neg heof] at h
    rw [h]

/-- A run that fails does so at the first lexeme that is refused. -/
theorem exists_refuses_of_run {limits : Limits} {last : Nat} {s : State} {ls : List Lexeme}
    {refusal : Refusal} (hls : .eof ∈ ls.map Lexeme.token)
    (h : run limits last s ls = .error refusal) :
    ∃ before l after s', ls = before ++ l :: after ∧ (∀ b ∈ before, b.token ≠ .eof) ∧
      s.steps limits (before.map Lexeme.token) = .ok s' ∧
      s'.Refuses limits l.token refusal.cause ∧ refusal.position = l.position := by
  induction ls generalizing s with
  | nil => cases hls
  | cons l rest ih =>
    rw [run] at h
    by_cases heof : l.token = .eof
    · rw [if_pos heof] at h
      rcases hs : s.finish with cause | events
      · rw [hs] at h
        obtain rfl := Except.error.inj h
        exact ⟨[], l, rest, s, rfl, by simp, rfl, (if_pos heof).mpr hs, rfl⟩
      · rw [hs] at h
        cases h
    · rw [if_neg heof] at h
      rcases hs : s.step limits l.token with cause | s₁
      · rw [hs] at h
        obtain rfl := Except.error.inj h
        exact ⟨[], l, rest, s, rfl, by simp, rfl, (if_neg heof).mpr hs, rfl⟩
      · rw [hs] at h
        have hrest : .eof ∈ rest.map Lexeme.token := by
          rw [List.map_cons] at hls
          exact (List.mem_cons.1 hls).resolve_left (Ne.symm heof)
        obtain ⟨before, l', after, s', rfl, hbefore, hsteps, hrefuses⟩ := ih hrest h
        exact ⟨l :: before, l', after, s', rfl, List.forall_mem_cons.2 ⟨heof, hbefore⟩,
          (State.steps_cons _ hs).trans hsteps, hrefuses⟩

end Reading

namespace Filter

open Reading

theorem scan_of_lexemes {input : String} {ls : List Lexeme} (h : lexemes input = .ok ls) :
    Scan.lexemes input.toList = .ok ls := by
  unfold lexemes at h
  split at h
  · rename_i ls' hls
    rw [hls, Except.ok.inj h]
  · cases h

/-- Reading lexemes fails only where the run over them does. -/
theorem ofLexemes_eq_error {limits : Limits} {input : String} {ls : List Lexeme}
    {ts : List Token} {fault : Fault} (hls : ls.map Lexeme.token = ts ++ [.eof])
    (heof : .eof ∉ ts) (hpos : 0 < limits.operands)
    (h : ofLexemes limits input ls = .error fault) :
    ∃ refusal, run limits input.length {} ls = .error refusal ∧
      fault = .refused input (some refusal.position) refusal.cause := by
  rcases hrun : run limits input.length {} ls with refusal | events
  · simp only [ofLexemes, Reading.events, hrun] at h
    exact ⟨refusal, rfl, (Except.error.inj h).symm⟩
  · -- what the machine tells is the events of a tree, and these can be assembled
    obtain ⟨u, hu, -, hdepth, hops⟩ := (run_eq_ok_iff_derives hls heof hpos).1 hrun
    rw [(ofLexemes_eq_ok_iff hls heof hpos).2 ⟨u, hu, rfl, hdepth, hops⟩] at h
    cases h

/-- Lexemes that the machine takes can be continued to a filter. -/
theorem exists_ofLexemes_append {limits : Limits} {before : List Lexeme} {s : State}
    (heof : ∀ l ∈ before, l.token ≠ .eof) (hpos : 0 < limits.operands)
    (hs : ({} : State).steps limits (before.map Lexeme.token) = .ok s) (input : String) :
    ∃ rest e, ofLexemes limits input (before ++ rest) = .ok e := by
  obtain ⟨s', events, hs', hfinish⟩ := s.finish_completion limits
  let ts : List Token := before.map Lexeme.token ++ s.completion
  let rest : List Lexeme := (s.completion ++ [Token.eof]).map (Lexeme.mk · 0)
  have hls : (before ++ rest).map Lexeme.token = ts ++ [.eof] := by
    simp [rest, ts, Function.comp_def]
  have hts : .eof ∉ ts := by
    intro hmem
    rcases List.mem_append.1 hmem with hmem | hmem
    · obtain ⟨l, hl, htoken⟩ := List.mem_map.1 hmem
      exact heof l hl htoken
    · exact s.eof_not_mem_completion hmem
  have hrun : run limits input.length {} (before ++ rest) = .ok events :=
    (run_eq_ok_iff hls hts).2 ⟨s', (State.steps_append _ hs).trans hs', hfinish⟩
  obtain ⟨u, hu, -, hdepth, hops⟩ := (run_eq_ok_iff_derives hls hts hpos).1 hrun
  exact ⟨rest, u.resolve, (ofLexemes_eq_ok_iff hls hts hpos).2 ⟨u, hu, rfl, hdepth, hops⟩⟩

/-- Lexemes up to one that is refused cannot be continued. -/
theorem ofLexemes_ne_ok_of_refuses {limits : Limits} {before : List Lexeme} {l : Lexeme}
    {s : State} {cause : Cause} (heof : ∀ b ∈ before, b.token ≠ .eof)
    (hs : ({} : State).steps limits (before.map Lexeme.token) = .ok s)
    (h : s.Refuses limits l.token cause) (input : String) (rest : List Lexeme) (e : Expr) :
    ofLexemes limits input (before ++ l :: rest) ≠ .ok e := by
  have hrun : run limits input.length {} (before ++ l :: rest) = .error ⟨l.position, cause⟩ :=
    (run_append heof hs _).trans (run_of_refuses h _ rest)
  intro hok
  simp only [ofLexemes, Reading.events, hrun] at hok
  cases hok

/-- A text that is cut into lexemes but is not a filter is refused at the first
lexeme that no filter within the limits goes on with. -/
theorem parseWith_error_at_first_refused {limits : Limits} (hlimits : limits.validate = .ok ())
    {input : String} (hlength : input.utf8ByteSize ≤ limits.length) {ls : List Lexeme}
    (hls : lexemes input = .ok ls) {fault : Fault} (h : parseWith limits input = .error fault) :
    ∃ before l after cause, ls = before ++ l :: after ∧
      fault = .refused input (some l.position) cause ∧
      (∃ rest e, ofLexemes limits input (before ++ rest) = .ok e) ∧
      ∀ rest e, ofLexemes limits input (before ++ l :: rest) ≠ .ok e := by
  obtain ⟨-, -, hpos, -⟩ := Limits.validate_eq_ok_iff.1 hlimits
  have hparse : ofLexemes limits input ls = .error fault := by
    simp only [parseWith, hlimits, hls, if_neg (Nat.not_lt.2 hlength)] at h
    exact h
  obtain ⟨ts, htokens, heof, -⟩ := Scan.sound_of_lexemes (scan_of_lexemes hls)
  obtain ⟨refusal, hrun, rfl⟩ := ofLexemes_eq_error htokens heof hpos hparse
  have hmark : Token.eof ∈ ls.map Lexeme.token := by simp [htokens]
  obtain ⟨before, l, after, s, rfl, hbefore, hsteps, hrefuses, hposition⟩ :=
    exists_refuses_of_run hmark hrun
  refine ⟨before, l, after, refusal.cause, rfl, by rw [hposition], ?_, ?_⟩
  · exact exists_ofLexemes_append hbefore hpos hsteps input
  · exact ofLexemes_ne_ok_of_refuses hbefore hsteps hrefuses input

/-- The second bracket is one too many: the text before it can still become a
filter, and nothing that goes on with it can. -/
theorem parseWith_error_at_inner_paren :
    let input := "a pr and (b pr or (c pr))"
    ∃ before l after, lexemes input = .ok (before ++ l :: after) ∧ l.position = 18 ∧
      (∃ rest e, ofLexemes { depth := 1 } input (before ++ rest) = .ok e) ∧
      ∀ rest e, ofLexemes { depth := 1 } input (before ++ l :: rest) ≠ .ok e := by
  have hls : lexemes "a pr and (b pr or (c pr))" = .ok
      [⟨.word "a", 0⟩, ⟨.word "pr", 2⟩, ⟨.word "and", 5⟩, ⟨.openParen, 9⟩, ⟨.word "b", 10⟩,
        ⟨.word "pr", 12⟩, ⟨.word "or", 15⟩, ⟨.openParen, 18⟩, ⟨.word "c", 19⟩, ⟨.word "pr", 21⟩,
        ⟨.closeParen, 23⟩, ⟨.closeParen, 24⟩, ⟨.eof, 25⟩] := rfl
  have hparse : parseWith { depth := 1 } "a pr and (b pr or (c pr))" =
      .error (.refused "a pr and (b pr or (c pr))" (some 18) (.grammar (.tooDeep 1))) := rfl
  obtain ⟨before, l, after, cause, hsplit, hfault, hcontinue⟩ :=
    parseWith_error_at_first_refused rfl (by decide) hls hparse
  obtain ⟨-, hposition, -⟩ := Fault.refused.inj hfault
  rw [hsplit] at hls
  exact ⟨before, l, after, hls, (Option.some.inj hposition).symm, hcontinue⟩

end Filter

end ScimQuery
