/-
ScimQuery/Event.lean

Events: an expression told one node at a time, operands before the node that
joins them.  `Expr.events` tells a tree.

A tree is built from its events on a stack of finished trees: an event takes its
operands from there, the right one first, and puts the node back.  An event whose
operands are missing fails, and the operands it had taken are lost.
-/
import ScimQuery.Expr.Basic
import ScimQuery.Fault

namespace ScimQuery

/-! ### Telling a tree -/

/-- One node of an expression, its operands told before. -/
inductive Event where
  | comparison (attr : Attribute) (op : CompareOp) (value : Literal)
  | present (attr : Attribute)
  | joined (connective : Connective)
  | group (negated : Bool)
  | valuePath (attr : Attribute)
  deriving DecidableEq, Repr

namespace Expr

/-- The events of a tree, then `rest`. -/
def eventsOnto (rest : List Event) : Expr → List Event
  | comparison a op v => .comparison a op v :: rest
  | present a => .present a :: rest
  | joined l c r => eventsOnto (eventsOnto (.joined c :: rest) r) l
  | group n e => eventsOnto (.group n :: rest) e
  | valuePath a e => eventsOnto (.valuePath a :: rest) e

/-- The events of a tree: left, right, connective. -/
def events (e : Expr) : List Event := e.eventsOnto []

theorem eventsOnto_eq (e : Expr) (rest : List Event) :
    e.eventsOnto rest = e.events ++ rest := by
  induction e generalizing rest with
  | comparison a op v => rfl
  | present a => rfl
  | joined l c r ihl ihr =>
    simp only [events, eventsOnto]
    rw [ihr (.joined c :: rest), ihr [.joined c], ihl, ihl (r.events ++ [Event.joined c])]
    simp
  | group n e ih =>
    simp only [events, eventsOnto]
    rw [ih (.group n :: rest), ih [.group n]]
    simp
  | valuePath a e ih =>
    simp only [events, eventsOnto]
    rw [ih (.valuePath a :: rest), ih [.valuePath a]]
    simp

end Expr

end ScimQuery

/-! ### Building a tree -/

namespace ScimQuery.Assembly

/-- What an event does to the stack of finished trees. -/
def feed (stack : List Expr) (event : Event) : List Expr × Option Imbalance :=
  match event, stack with
  | .comparison a op v, stack => (.comparison a op v :: stack, none)
  | .present a, stack => (.present a :: stack, none)
  | .joined c, r :: l :: stack => (.joined l c r :: stack, none)
  | .joined _, _ => ([], some .underflow)
  | .group n, e :: stack => (.group n e :: stack, none)
  | .valuePath a, e :: stack => (.under a e :: stack, none)
  | _, [] => ([], some .underflow)

/-- The stack holds one tree. -/
def checkSingle (stack : List Expr) : Option Imbalance :=
  if stack.length = 1 then none else some (.notSingle stack.length)

/-- The one tree on the stack. -/
def result : List Expr → Except Imbalance Expr
  | [e] => .ok e
  | stack => .error (.notSingle stack.length)

/-- The stack after events that all succeed. -/
def feedAll : List Expr → List Event → Except Imbalance (List Expr)
  | stack, [] => .ok stack
  | stack, event :: events =>
    match feed stack event with
    | (stack, none) => feedAll stack events
    | (_, some imbalance) => .error imbalance

/-- The tree that the events tell. -/
def assemble (events : List Event) : Except Imbalance Expr :=
  feedAll [] events >>= result

end ScimQuery.Assembly
