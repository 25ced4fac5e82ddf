/-
ScimQuery/Expr/Printer.lean

The canonical text of an expression: one space around every operator, keywords in
lower case, and parentheses only where a group stands or where the text would
otherwise be read as another tree.  Inside a value path, sub-attributes of its
attribute are written by their bare names.

The printer gives the text in pieces, put in front of the pieces that follow.  A
chain of connectives is walked in a loop from its root to its left end, so that a
long one takes no growing stack; the connectives met on the way are kept with
their right operands and written after the operand at the left end, the last one
met first.
-/
import ScimQuery.Expr.Basic
import ScimQuery.Text.Octets

namespace ScimQuery

namespace Attribute

/-- A reference as it is written inside a value path of `scope`. -/
def render (scope : Option Attribute) (a : Attribute) : String :=
  match scope, a.sub with
  | some parent, some sub => if a.isScopedUnder parent then sub else a.path
  | _, _ => a.path

end Attribute

namespace Expr

/-- A left operand in need of parentheses: an `or` before an `and`. -/
def parensLeft (c : Connective) (left : Expr) : Bool :=
  c == .and && left.connective? == some .or

/-- A right operand in need of parentheses: any that is joined itself, except an
`and` after an `or`. -/
def parensRight (c : Connective) (right : Expr) : Bool :=
  match right.connective? with
  | some .and => c != .or
  | some .or => true
  | none => false

/-- The pieces of an operand in front of the pieces `after`, in parentheses if these are
asked for. -/
def enclosed (parens : Bool) (operand : List String → List String) (after : List String) :
    List String :=
  if parens then "(" :: operand (")" :: after) else operand after

/-- The links of a chain: connectives, each with what puts the pieces of the operand
to its right in front of others. -/
abbrev Links := List (Connective × (List String → List String))

/-- The pieces of the links, in front of the pieces `after`. -/
def Links.pieces (links : Links) (after : List String) : List String :=
  links.foldr (fun (c, right) rest => " " :: c.keyword :: " " :: right rest) after

/-- The pieces of the text and of the links that follow it, in front of the pieces
`after`. -/
def pieces (scope : Option Attribute) (links : Links) : Expr → List String → List String
  | comparison a op v, after =>
    a.render scope :: " " :: op.keyword :: " " :: v.render :: links.pieces after
  | present a, after => a.render scope :: " pr" :: links.pieces after
  | joined l c r, after =>
    let links := (c, enclosed (parensRight c r) (r.pieces scope [])) :: links
    -- an operand in parentheses ends the chain
    if parensLeft c l then enclosed true (l.pieces scope []) (Links.pieces links after)
    else l.pieces scope links after
  | group negated e, after =>
    let inner := enclosed true (e.pieces scope []) (links.pieces after)
    if negated then "not " :: inner else inner
  | valuePath a e, after =>
    a.render scope :: "[" :: e.pieces (some a) [] ("]" :: links.pieces after)

/-- The text inside a value path of `scope`, or outside any. -/
def renderIn (scope : Option Attribute) (e : Expr) : String := String.join (e.pieces scope [] [])

/-- The canonical text. -/
def render (e : Expr) : String := e.renderIn none

/-- The canonical text as it travels in a query value. -/
def encoded (e : Expr) : String := String.ofList (Text.Percent.encode e.render.toList)

end Expr

end ScimQuery
