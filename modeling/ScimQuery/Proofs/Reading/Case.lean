/-
ScimQuery/Proofs/Reading/Case.lean

The grammar does not see the case of keywords and attribute paths.  Everything
that the machine holds and tells has a lower-case form, in which attributes and
quoted words are lowered and values stay as they are.

A step commutes with lowering: where a value is wanted the token is kept
(`lower_step_value`), elsewhere it is lowered too (`lower_step`).  So lexemes
that differ in the case of words only, and not in a word after an operator, lead
to outcomes with one lower-case form (`lower_run_eq`).
-/
import ScimQuery.Proofs.Attribute.Case
import ScimQuery.Proofs.Reading.Soundness

namespace ScimQuery

/-! ### Words -/

namespace CompareOp

theorem ofWord?_lower (word : String) : ofWord? (Text.lower word) = ofWord? word := by
  simp only [ofWord?, Text.alike_lower_right]

end CompareOp

namespace Connective

theorem ofWord?_lower (word : String) : ofWord? (Text.lower word) = ofWord? word := by
  simp only [ofWord?, Text.alike_lower_left]

end Connective

/-! ### Tokens and lexemes -/

namespace Token

/-- Words that are alike, or tokens that are equal. -/
def alike : Token → Token → Bool
  | word a, word b => Text.alike a b
  | a, b => a == b

/-- The token with the letters of a word small. -/
def lower : Token → Token
  | word raw => word (Text.lower raw)
  | token => token

/-- A word that is a comparison operator in any case. -/
def isOperator : Token → Bool
  | word raw => (CompareOp.ofWord? raw).isSome
  | _ => false

theorem lower_eq_of_alike {a b : Token} (h : a.alike b = true) : a.lower = b.lower := by
  unfold alike at h
  split at h
  · exact congrArg word (Text.lower_eq_iff_alike.2 h)
  · rw [eq_of_beq h]

theorem lower_eq_eof {token : Token} : token.lower = eof ↔ token = eof := by
  cases token <;> simp [lower]

end Token

/-- The same lexemes, but for the case of words.  A word right after the word of a
comparison operator is the same in case too, and so is the first where `fixed`
holds. -/
def recased (fixed : Bool) : List Lexeme → List Lexeme → Bool
  | [], [] => true
  | l :: ls, l' :: ls' =>
    l.position == l'.position && l.token.alike l'.token && (!fixed || l.token == l'.token) &&
      recased l.token.isOperator ls ls'
  | _, _ => false

/-! ### Lower-case forms of what is told -/

/-- The wanted thing after an attribute with small letters. -/
def Wanted.lower : Wanted → Wanted
  | operator a => operator a.lower
  | continuation a => continuation a.lower
  | wanted => wanted

/-- The reason with the letters of what was found and wanted small. -/
def Reason.lower : Reason → Reason
  | unexpected wanted found => unexpected wanted.lower found.lower
  | reason => reason

/-- The cause with the letters of attribute paths small, and not those of values. -/
def Cause.lower : Cause → Cause
  | literal raw => literal raw
  | path raw => path (Text.lower raw)
  | grammar reason => grammar reason.lower

/-- The node with its attribute's letters small. -/
def Event.lower : Event → Event
  | comparison a op v => comparison a.lower op v
  | present a => present a.lower
  | joined c => joined c
  | group n => group n
  | valuePath a => valuePath a.lower

namespace Reading

/-- The frame with its attribute's letters small. -/
def Frame.lower : Frame → Frame
  | group n outer => group n outer
  | valuePath a outer => valuePath a.lower outer

/-- The mode with its attribute's letters small. -/
def Mode.lower : Mode → Mode
  | operand => operand
  | path a mayNegate => path a.lower mayNegate
  | value a op => value a.lower op
  | done => done

/-- A value is wanted. -/
def Mode.wantsValue : Mode → Bool
  | value _ _ => true
  | _ => false

@[simp] theorem Mode.wantsValue_lower (mode : Mode) : mode.lower.wantsValue = mode.wantsValue := by
  cases mode <;> rfl

/-- The refusal with its cause in lower case. -/
def Refusal.lower (refusal : Refusal) : Refusal := ⟨refusal.position, refusal.cause.lower⟩

/-- Change a result and a failure, each in its way. -/
def mapBoth {ε α β : Type} (onFailure : ε → ε) (onResult : α → β) : Except ε α → Except ε β
  | .ok a => .ok (onResult a)
  | .error e => .error (onFailure e)

@[simp] theorem lower_refuse {α β : Type} (f : α → β) (wanted : Wanted) (found : Token) :
    mapBoth Cause.lower f (refuse wanted found) = refuse wanted.lower found.lower := rfl

namespace State

/-- The machine with the letters of all attributes small. -/
def lower (s : State) : State :=
  { s with
    mode := s.mode.lower
    frames := s.frames.map Frame.lower
    told := s.told.map Event.lower }

variable {limits : Limits}

/-! ### Parts of a step -/

theorem lower_complete (s : State) (event : Event) :
    (s.complete event).lower = s.lower.complete event.lower := by
  have hlevel : s.lower.level = s.level := rfl
  unfold complete
  rw [hlevel]
  split <;> rfl

theorem lower_closeConjunction (s : State) :
    s.closeConjunction.lower = s.lower.closeConjunction := by
  have hlevel : s.lower.level = s.level := rfl
  unfold closeConjunction
  rw [hlevel]
  split <;> rfl

theorem lower_connect (s : State) (c : Connective) :
    mapBoth Cause.lower lower (s.connect limits c) = s.lower.connect limits c := by
  have hcount : s.lower.connectives = s.connectives := rfl
  unfold connect
  rw [hcount]
  split
  · rfl
  · cases c with
    | and => rfl
    | or =>
      rw [← lower_closeConjunction]
      rfl

theorem lower_enter (s : State) (frame : Frame) :
    mapBoth Cause.lower lower (s.enter limits frame) = s.lower.enter limits frame.lower := by
  have hdepth : s.lower.frames.length = s.frames.length := List.length_map _
  unfold enter
  rw [hdepth]
  split <;> rfl

theorem lower_ending (s : State) : s.ending.lower = s.lower.ending := by
  obtain ⟨mode, level, frames, connectives, told⟩ := s
  rcases frames with - | ⟨⟨⟩ | ⟨⟩, frames⟩ <;> rfl

theorem any_isValuePath_lower (s : State) :
    s.lower.frames.any Frame.isValuePath = s.frames.any Frame.isValuePath := by
  have hframe : Frame.isValuePath ∘ Frame.lower = Frame.isValuePath := by
    funext frame
    cases frame <;> rfl
  rw [lower, List.any_map, hframe]

/-! ### Steps -/

theorem lower_stepOperand (s : State) (token : Token) :
    mapBoth Cause.lower lower (s.stepOperand limits token) =
      s.lower.stepOperand limits token.lower := by
  cases token with
  | openParen => exact s.lower_enter (.group false s.level)
  | word raw =>
    simp only [stepOperand, Token.lower, Attribute.ofPath?_lower, Text.alike_lower_left]
    cases Attribute.ofPath? raw <;> rfl
  | closeParen | openBracket | closeBracket | quoted _ | eof => rfl

theorem lower_stepPath (s : State) (a : Attribute) (mayNegate : Bool) (token : Token) :
    mapBoth Cause.lower lower (s.stepPath limits a mayNegate token) =
      s.lower.stepPath limits a.lower mayNegate token.lower := by
  cases token with
  | openParen =>
    cases mayNegate with
    | true => exact s.lower_enter (.group true s.level)
    | false => rfl
  | openBracket =>
    simp only [stepPath, Token.lower, any_isValuePath_lower]
    split
    · rfl
    · exact s.lower_enter (.valuePath a s.level)
  | word raw =>
    simp only [stepPath, Token.lower, CompareOp.ofWord?_lower, Text.alike_lower_left]
    split
    · exact congrArg Except.ok (s.lower_complete (.present a))
    · cases CompareOp.ofWord? raw <;> rfl
  | closeParen | closeBracket | quoted _ | eof => rfl

/-- Values are not lowered. -/
theorem lower_stepValue (s : State) (a : Attribute) (op : CompareOp) (token : Token) :
    mapBoth Cause.lower lower (s.stepValue a op token) = s.lower.stepValue a.lower op token := by
  cases token with
  | word raw | quoted raw =>
    simp only [stepValue]
    cases Literal.ofRaw? raw with
    | none => rfl
    | some value => exact congrArg Except.ok (s.lower_complete (.comparison a op value))
  | openParen | closeParen | openBracket | closeBracket | eof => rfl

/-- A bracket closes: what the frame held before, with its letters small. -/
theorem lower_close (s : State) (outer : Level) (frames : List Frame) (event : Event) :
    ({ s.closeConjunction with level := outer, frames := frames }.complete event).lower =
      { s.lower.closeConjunction with
        level := outer, frames := frames.map Frame.lower }.complete event.lower := by
  rw [lower_complete, ← lower_closeConjunction]
  rfl

theorem lower_stepDone (s : State) (token : Token) :
    mapBoth Cause.lower lower (s.stepDone limits token) =
      s.lower.stepDone limits token.lower := by
  obtain ⟨mode, level, frames, connectives, told⟩ := s
  cases token with
  | word raw =>
    simp only [stepDone, Token.lower, Connective.ofWord?_lower]
    cases Connective.ofWord? raw with
    | none => rw [lower_refuse, lower_ending]; rfl
    | some c => exact lower_connect _ c
  | closeParen =>
    rcases frames with - | ⟨⟨negated, outer⟩ | ⟨a, outer⟩, frames⟩
    · rfl
    · exact congrArg Except.ok (lower_close _ outer frames (.group negated))
    · rfl
  | closeBracket =>
    rcases frames with - | ⟨⟨negated, outer⟩ | ⟨a, outer⟩, frames⟩
    · rfl
    · rfl
    · exact congrArg Except.ok (lower_close _ outer frames (.valuePath a))
  | openParen | openBracket | quoted _ | eof =>
    rcases frames with - | ⟨⟨negated, outer⟩ | ⟨a, outer⟩, frames⟩ <;> rfl

/-- A step where no value is wanted: the token is lowered with the machine. -/
theorem lower_step {s : State} (hmode : s.mode.wantsValue = false) (token : Token) :
    mapBoth Cause.lower lower (s.step limits token) = s.lower.step limits token.lower := by
  obtain ⟨mode, level, frames, connectives, told⟩ := s
  cases mode with
  | operand => exact lower_stepOperand _ token
  | path a mayNegate => exact lower_stepPath _ a mayNegate token
  | value a op => cases hmode
  | done => exact lower_stepDone _ token

/-- A step where a value is wanted: the token stays. -/
theorem lower_step_value {s : State} (hmode : s.mode.wantsValue = true) (token : Token) :
    mapBoth Cause.lower lower (s.step limits token) = s.lower.step limits token := by
  obtain ⟨mode, level, frames, connectives, told⟩ := s
  cases mode with
  | value a op => exact lower_stepValue _ a op token
  | operand | path _ _ | done => cases hmode

/-- One step of two machines with one lower-case form. -/
theorem lower_step_eq {s s' : State} {token token' : Token} (hs : s.lower = s'.lower)
    (htoken : token.lower = token'.lower)
    (hvalue : s.mode.wantsValue = true → token = token') :
    mapBoth Cause.lower lower (s.step limits token) =
      mapBoth Cause.lower lower (s'.step limits token') := by
  have hmode : s.mode.wantsValue = s'.mode.wantsValue := by
    rw [← Mode.wantsValue_lower, ← Mode.wantsValue_lower s'.mode]
    exact congrArg (fun s => s.mode.wantsValue) hs
  cases hwants : s.mode.wantsValue with
  | true =>
    obtain rfl := hvalue hwants
    rw [lower_step_value hwants, lower_step_value (hmode ▸ hwants), hs]
  | false => rw [lower_step hwants, lower_step (hmode ▸ hwants), hs, htoken]

theorem lower_finish (s : State) :
    mapBoth Cause.lower (List.map Event.lower) s.finish = s.lower.finish := by
  obtain ⟨mode, level, frames, connectives, told⟩ := s
  cases mode with
  | operand | path _ _ | value _ _ => rfl
  | done =>
    rcases frames with - | ⟨⟨negated, outer⟩ | ⟨a, outer⟩, frames⟩
    · show Except.ok (List.map Event.lower (List.reverse _)) = Except.ok (List.reverse _)
      rw [List.map_reverse, ← lower_closeConjunction]
      rfl
    · rfl
    · rfl

end State

/-! ### Runs -/

theorem recased_cons {fixed : Bool} {l l' : Lexeme} {ls ls' : List Lexeme} :
    recased fixed (l :: ls) (l' :: ls') = true ↔
      l.position = l'.position ∧ l.token.alike l'.token = true ∧
        (fixed = true → l.token = l'.token) ∧ recased l.token.isOperator ls ls' = true := by
  cases fixed <;> simp [recased, and_assoc]

/-- Where a value is wanted, the token before was the word of an operator. -/
theorem Reached.isOperator {limits : Limits} {s : State} {ts : List Token} {token : Token}
    (h : Reached limits s (ts ++ [token])) (hmode : s.mode.wantsValue = true) :
    token.isOperator = true := by
  cases h with
  | done _ _ hdone _ _ =>
    rw [hdone] at hmode
    cases hmode
  | @wanting inside fs us ls vs ps _ _ hpartial _ hts =>
    generalize s.mode = mode at hpartial hmode
    cases hpartial with
    | operand => cases hmode
    | path _ => cases hmode
    | @value w o a op _ ho =>
      obtain rfl : token = .word o := by simpa using congrArg List.getLast? hts
      exact Option.isSome_iff_exists.2 ⟨_, ho⟩

/-- What a run comes to, in lower case. -/
def lowerOutcome (outcome : Except Refusal (List Event)) : Except Refusal (List Event) :=
  mapBoth Refusal.lower (List.map Event.lower) outcome

/-- The end of two machines with one lower-case form. -/
theorem lower_finish_eq {s s' : State} (hs : s.lower = s'.lower) (position : Nat) :
    lowerOutcome (orRefusal position s.finish) = lowerOutcome (orRefusal position s'.finish) := by
  have hposition : ∀ x : Except Cause (List Event), lowerOutcome (orRefusal position x) =
      orRefusal position (mapBoth Cause.lower (List.map Event.lower) x) := by
    intro x
    cases x <;> rfl
  rw [hposition, hposition, State.lower_finish, State.lower_finish, hs]

/-- Lexemes that differ in the case of words only, and not in a word after an
operator, have outcomes with one lower-case form. -/
theorem lower_run_eq {limits : Limits} {last last' : Nat} {fixed : Bool} {ls ls' : List Lexeme}
    (h : recased fixed ls ls' = true) (hlast : last = last' ∨ .eof ∈ ls.map Lexeme.token)
    {s s' : State} {ts : List Token} (hreached : Reached limits s ts) (hs : s.lower = s'.lower)
    (hfixed : s.mode.wantsValue = true → fixed = true) :
    lowerOutcome (run limits last s ls) = lowerOutcome (run limits last' s' ls') := by
  induction ls generalizing fixed ls' s s' ts with
  | nil =>
    rcases ls' with - | ⟨l', ls'⟩
    · obtain rfl := hlast.resolve_right List.not_mem_nil
      exact lower_finish_eq hs last
    · cases h
  | cons l ls ih =>
    rcases ls' with - | ⟨l', ls'⟩
    · cases h
    · obtain ⟨hposition, halike, hkept, hrest⟩ := recased_cons.1 h
      have htoken := Token.lower_eq_of_alike halike
      rw [run, run]
      by_cases heof : l.token = .eof
      · have heof' : l'.token = .eof := by
          rw [← Token.lower_eq_eof, ← htoken, heof]
          rfl
        rw [if_pos heof, if_pos heof', hposition]
        exact lower_finish_eq hs l'.position
      · have heof' : l'.token ≠ .eof := by
          rwa [Ne, ← Token.lower_eq_eof, ← htoken, Token.lower_eq_eof]
        rw [if_neg heof, if_neg heof']
        have hstep := @State.lower_step_eq limits _ _ _ _ hs htoken fun hwants =>
          hkept (hfixed hwants)
        rcases hl : s.step limits l.token with cause | s₁ <;>
          rcases hl' : s'.step limits l'.token with cause' | s₁' <;> rw [hl, hl'] at hstep
        · -- both are refused here
          show Except.error (Refusal.lower ⟨_, cause⟩) = Except.error (Refusal.lower ⟨_, cause'⟩)
          rw [Refusal.lower, Refusal.lower, Except.error.inj hstep, hposition]
        · cases hstep
        · cases hstep
        · -- a value is wanted only after the word of an operator, so the next word is fixed
          have hreached₁ := hreached.step hl
          have hlast₁ : last = last' ∨ .eof ∈ ls.map Lexeme.token :=
            hlast.imp_right fun hmem => (List.mem_cons.1 hmem).resolve_left (Ne.symm heof)
          exact ih hrest hlast₁ hreached₁ (Except.ok.inj hstep) hreached₁.isOperator

end Reading

end ScimQuery
