/-
ScimQuery/Reading/Machine.lean

The grammar of filters as a machine that takes one token at a time.

    filter   =  conjunction *( "or" conjunction )
    conjunction  =  operand *( "and" operand )
    operand  =  [ "not" ] "(" filter ")"
             /  path "[" filter "]"
             /  path "pr"
             /  path operator value

A value path does not stand inside another.  The machine knows what it has to
see next, which brackets are open, and which connectives wait for their right
operand.  It tells the tree as events, each as soon as its operands are told.
A token that cannot go on from the tokens before it is refused at once.
-/
import ScimQuery.Event
import ScimQuery.Limits
import ScimQuery.Fault

namespace ScimQuery.Reading

/-! ### States -/

/-- The connectives of one level that wait for their right operand. -/
structure Level where
  /-- An `or` waits. -/
  orWaits : Bool := false
  /-- An `and` waits; it binds tighter. -/
  andWaits : Bool := false
  deriving DecidableEq, Repr

/-- An open bracket, with the level that it interrupts. -/
inductive Frame where
  | group (negated : Bool) (outer : Level)
  | valuePath (attr : Attribute) (outer : Level)
  deriving DecidableEq, Repr

/-- What the machine has to see next. -/
inductive Mode where
  /-- An operand. -/
  | operand
  /-- What follows an attribute path.  After the word `not`, this may also be the
  bracket of a negated group. -/
  | path (attr : Attribute) (mayNegate : Bool)
  /-- A value. -/
  | value (attr : Attribute) (op : CompareOp)
  /-- What follows an operand. -/
  | done
  deriving DecidableEq, Repr

/-- The machine. -/
structure State where
  mode : Mode := .operand
  level : Level := {}
  /-- Open brackets, innermost first. -/
  frames : List Frame := []
  /-- The connectives met so far. -/
  connectives : Nat := 0
  /-- The events told so far, last first. -/
  told : List Event := []
  deriving DecidableEq, Repr

/-- The frame is a value path. -/
def Frame.isValuePath : Frame → Bool
  | valuePath .. => true
  | group .. => false

/-! ### Steps -/

/-- An operand is complete: an `and` that waited for it is told. -/
def State.complete (s : State) (event : Event) : State :=
  let told := event :: s.told
  if s.level.andWaits then
    { s with
      mode := .done
      level := { s.level with andWaits := false }
      told := .joined .and :: told }
  else { s with mode := .done, told := told }

/-- The conjunction is complete: an `or` that waited for it is told. -/
def State.closeConjunction (s : State) : State :=
  if s.level.orWaits then
    { s with level := { s.level with orWaits := false }, told := .joined .or :: s.told }
  else s

/-- A connective: its right operand is wanted now. -/
def State.connect (limits : Limits) (s : State) (c : Connective) : Except Cause State :=
  if limits.operands ≤ s.connectives + 1 then .error (.grammar (.tooMany limits.operands))
  else match c with
    | .and =>
      .ok { s with
        mode := .operand
        connectives := s.connectives + 1
        level := { s.level with andWaits := true } }
    | .or =>
      .ok { s.closeConjunction with
        mode := .operand
        connectives := s.connectives + 1
        level := { s.level with orWaits := true } }

/-- A bracket opens. -/
def State.enter (limits : Limits) (s : State) (frame : Frame) : Except Cause State :=
  if limits.depth < s.frames.length + 1 then .error (.grammar (.tooDeep limits.depth))
  else .ok { s with mode := .operand, level := {}, frames := frame :: s.frames }

/-- The token does not go on here. -/
def refuse {α : Type} (wanted : Wanted) (found : Token) : Except Cause α :=
  .error (.grammar (.unexpected wanted found))

/-- A token where an operand is wanted. -/
def State.stepOperand (limits : Limits) (s : State) (token : Token) : Except Cause State :=
  match token with
  | .openParen => s.enter limits (.group false s.level)
  | .word raw =>
    match Attribute.ofPath? raw with
    | some attr => .ok { s with mode := .path attr (Text.alike raw "not") }
    | none => .error (.path raw)
  | token => refuse .operand token

/-- A token after an attribute path. -/
def State.stepPath (limits : Limits) (s : State) (attr : Attribute) (mayNegate : Bool)
    (token : Token) : Except Cause State :=
  match token with
  | .openParen =>
    if mayNegate then s.enter limits (.group true s.level)
    else refuse (.continuation attr) token
  | .openBracket =>
    if s.frames.any Frame.isValuePath then .error (.grammar .nestedValuePath)
    else s.enter limits (.valuePath attr s.level)
  | .word raw =>
    if Text.alike raw "pr" then .ok (s.complete (.present attr))
    else match CompareOp.ofWord? raw with
      | some op => .ok { s with mode := .value attr op }
      | none => refuse (.operator attr) token
  | token => refuse (.continuation attr) token

/-- A token where a value is wanted. -/
def State.stepValue (s : State) (attr : Attribute) (op : CompareOp) (token : Token) :
    Except Cause State :=
  let read (raw : String) : Except Cause State :=
    match Literal.ofRaw? raw with
    | some value => .ok (s.complete (.comparison attr op value))
    | none => .error (.literal raw)
  match token with
  | .quoted raw => read raw
  | .word raw => read raw
  | token => refuse (.value op) token

/-- What may follow besides a connective. -/
def State.ending (s : State) : Wanted :=
  match s.frames with
  | [] => .ending
  | .group .. :: _ => .closeParen
  | .valuePath .. :: _ => .closeBracket

/-- A token after an operand. -/
def State.stepDone (limits : Limits) (s : State) (token : Token) : Except Cause State :=
  match token, s.frames with
  | .word raw, _ =>
    match Connective.ofWord? raw with
    | some c => s.connect limits c
    | none => refuse s.ending token
  | .closeParen, .group negated outer :: frames =>
    .ok ({ s.closeConjunction with level := outer, frames := frames }.complete (.group negated))
  | .closeBracket, .valuePath attr outer :: frames =>
    .ok ({ s.closeConjunction with level := outer, frames := frames }.complete
      (.valuePath attr))
  | token, _ => refuse s.ending token

/-- One token. -/
def State.step (limits : Limits) (s : State) (token : Token) : Except Cause State :=
  match s.mode with
  | .operand => s.stepOperand limits token
  | .path attr mayNegate => s.stepPath limits attr mayNegate token
  | .value attr op => s.stepValue attr op token
  | .done => s.stepDone limits token

/-- The end of the tokens: the events told, if a filter is complete. -/
def State.finish (s : State) : Except Cause (List Event) :=
  match s.mode with
  | .operand => refuse .operand .eof
  | .path attr _ => refuse (.continuation attr) .eof
  | .value _ op => refuse (.value op) .eof
  | .done =>
    if s.frames.isEmpty then .ok s.closeConjunction.told.reverse else refuse s.ending .eof

/-! ### Runs -/

/-- A cause, and the position of the lexeme at which it was found. -/
structure Refusal where
  position : Nat
  cause : Cause
  deriving DecidableEq, Repr

/-- Put a position to a cause. -/
def orRefusal {α : Type} (position : Nat) : Except Cause α → Except Refusal α
  | .ok value => .ok value
  | .error cause => .error ⟨position, cause⟩

/-- Run on lexemes up to the mark for the end.  Where the mark is missing, the end
is at position `last`. -/
def run (limits : Limits) (last : Nat) : State → List Lexeme → Except Refusal (List Event)
  | s, [] => orRefusal last s.finish
  | s, ⟨token, position⟩ :: rest =>
    if token = .eof then orRefusal position s.finish
    else match s.step limits token with
      | .ok s => run limits last s rest
      | .error cause => .error ⟨position, cause⟩

/-- The events of the filter that the lexemes make; faults quote `input`. -/
def events (limits : Limits) (input : String) (lexemes : List Lexeme) :
    Except Fault (List Event) :=
  match run limits input.length {} lexemes with
  | .ok events => .ok events
  | .error refusal => .error (.refused input (some refusal.position) refusal.cause)

end ScimQuery.Reading
