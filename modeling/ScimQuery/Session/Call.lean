/-
ScimQuery/Session/Call.lean

Building a filter call by call.  A session is empty, holds a complete filter, or
holds a filter whose last connective waits for its right operand.  Connectives
open their slot on the right edge only, as in text: an `and` after a complete
`or` takes the right operand of the `or` for its left one.

Operands from outside keep their grouping: parentheses are put around those that
would be regrouped.  A call reads its attribute paths first; a value path must not
hold another one.
-/
import ScimQuery.Expr.Printer
import ScimQuery.Fault

namespace ScimQuery

/-! ### Sessions -/

/-- A connective without its right operand, possibly under another one. -/
inductive Pending where
  | slot (left : Expr) (connective : Connective)
  | nested (left : Expr) (connective : Connective) (inner : Pending)
  deriving DecidableEq, Repr

namespace Pending

/-- The connective with the open slot. -/
def connective : Pending → Connective
  | slot _ c => c
  | nested _ _ inner => inner.connective

/-- Put an expression into the slot. -/
def fill (e : Expr) : Pending → Expr
  | slot l c => .joined l c e
  | nested l c inner => .joined l c (inner.fill e)

end Pending

/-- The progress of a filter. -/
inductive Session where
  | empty
  | complete (root : Expr)
  | pending (waiting : Pending)
  deriving DecidableEq, Repr

namespace Session

/-- A left operand, in a group if it would be regrouped. -/
def wrapLeft (c : Connective) (e : Expr) : Expr :=
  if Expr.parensLeft c e then .group false e else e

/-- A right operand, in a group if it would be regrouped. -/
def wrapRight (c : Connective) (e : Expr) : Expr :=
  if Expr.parensRight c e then .group false e else e

/-! ### Placing and connecting -/

/-- An operand becomes the root or fills the open slot. -/
def place (e : Expr) : Session → Except Fault Session
  | empty => .ok (complete e)
  | pending p => .ok (complete (p.fill (wrapRight p.connective e)))
  | complete root => .error (.protocol (.alreadyComplete root.render e.render))

/-- A connective opens a slot. -/
def connect (c : Connective) : Session → Except Fault Session
  | complete root =>
    match c, root with
    | .and, .joined l .or r => .ok (pending (.nested l .or (.slot r .and)))
    | c, root => .ok (pending (.slot root c))
  | empty => .error (.protocol (.startsWith c))
  | pending p => .error (.protocol (.adjacent c p.connective))

/-- An operand together with a connective: the connective comes after the operand
while one is wanted, and before it when the filter is complete. -/
def merge (c : Connective) (e : Expr) : Session → Except Fault Session
  | empty => .ok (pending (.slot (wrapLeft c e) c))
  | pending p => (pending p).place e >>= connect c
  | complete root => (complete root).connect c >>= place e

/-- Two operands with a connective between them, as one operand; the connective
also joins it to a complete filter. -/
def mergePair (c : Connective) (l r : Expr) (s : Session) : Except Fault Session :=
  let pair := Expr.joined (wrapLeft c l) c (wrapRight c r)
  match s with
  | complete root => (complete root).connect c >>= place pair
  | s => s.place pair

/-! ### Results -/

/-- The complete filter. -/
def expr? : Session → Option Expr
  | complete root => some root
  | _ => none

/-- The session holds a complete filter. -/
def isComplete (s : Session) : Bool := s.expr?.isSome

/-- Finish the session. -/
def build : Session → Except Fault Expr
  | complete root => .ok root
  | empty => .error (.protocol .nothingBuilt)
  | pending p => .error (.protocol (.missingOperand p.connective))

/-- The canonical text of the complete filter. -/
def render (s : Session) : Except Fault String := do
  let e ← s.build
  .ok e.render

/-- The complete filter as it travels in a query value. -/
def encoded (s : Session) : Except Fault String := do
  let e ← s.build
  .ok e.encoded

end Session

/-! ### Calls -/

/-- A call of a building session. -/
inductive Call where
  /-- Compare an attribute with a value. -/
  | compare (key : String) (op : CompareOp) (value : Literal)
  /-- Test an attribute for presence. -/
  | present (key : String)
  /-- A connective alone. -/
  | connect (c : Connective)
  /-- A connective with an expression. -/
  | merge (c : Connective) (e : Expr)
  /-- A connective with two expressions. -/
  | pair (c : Connective) (left right : Expr)
  /-- A negated expression. -/
  | negate (e : Expr)
  /-- A condition on one value of a multi-valued attribute. -/
  | has (key : String) (e : Expr)
  deriving Repr

namespace Session

/-- The session after a call. -/
def call (s : Session) : Call → Except Fault Session
  | .compare key op value => do
    let attr ← Attribute.read key
    s.place (.comparison attr op value)
  | .present key => do
    let attr ← Attribute.read key
    s.place (.present attr)
  | .connect c => s.connect c
  | .merge c e => s.merge c e
  | .pair c l r => s.mergePair c l r
  | .negate e => s.place (.group true e)
  | .has key e => do
    let attr ← Attribute.read key
    if e.hasValuePath then .error (.ofGrammar key .nestedValuePath none)
    else s.place (.under attr e)

/-- The session after calls that all succeed. -/
def calls : Session → List Call → Except Fault Session
  | s, [] => .ok s
  | s, c :: cs => s.call c >>= (calls · cs)

end Session

end ScimQuery
