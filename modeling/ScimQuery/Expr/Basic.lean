/-
ScimQuery/Expr/Basic.lean

Filter expressions: comparisons and presence tests, joined by connectives,
grouped, and put under value paths.

Making a value path puts every bare name inside it under its attribute; value
paths further inside keep their own names.
-/
import ScimQuery.Attribute.Basic
import ScimQuery.Keyword
import ScimQuery.Literal.Basic

namespace ScimQuery

/-- A filter expression. -/
inductive Expr where
  /-- An attribute compared with a value. -/
  | comparison (attr : Attribute) (op : CompareOp) (value : Literal)
  /-- An attribute that has a value. -/
  | present (attr : Attribute)
  /-- Two expressions with a connective between them. -/
  | joined (left : Expr) (connective : Connective) (right : Expr)
  /-- An expression in parentheses, negated or not. -/
  | group (negated : Bool) (inner : Expr)
  /-- A condition on one value of a multi-valued attribute. -/
  | valuePath (attr : Attribute) (inner : Expr)
  deriving DecidableEq, Repr

namespace Expr

/-! ### Scope -/

/-- Put bare names under a parent, except inside value paths. -/
def scopedUnder (parent : Attribute) : Expr → Expr
  | comparison a op v => comparison (a.scopedUnder parent) op v
  | present a => present (a.scopedUnder parent)
  | joined l c r => joined (l.scopedUnder parent) c (r.scopedUnder parent)
  | group n e => group n (e.scopedUnder parent)
  | valuePath a e => valuePath a e

/-- The value path with bare names of the inner expression put under its
attribute. -/
def under (attr : Attribute) (inner : Expr) : Expr :=
  valuePath attr (inner.scopedUnder attr)

/-! ### Measures and views -/

/-- The connective at the root. -/
def connective? : Expr → Option Connective
  | joined _ c _ => some c
  | _ => none

/-- A comparison, a presence test or a value path. -/
def isLeaf : Expr → Bool
  | comparison .. => true
  | present _ => true
  | valuePath .. => true
  | _ => false

/-- The number of nodes. -/
def size : Expr → Nat
  | comparison .. => 1
  | present _ => 1
  | joined l _ r => 1 + l.size + r.size
  | group _ e => 1 + e.size
  | valuePath _ e => 1 + e.size

/-- The number of nodes on the longest way down. -/
def depth : Expr → Nat
  | comparison .. => 1
  | present _ => 1
  | joined l _ r => 1 + max l.depth r.depth
  | group _ e => 1 + e.depth
  | valuePath _ e => 1 + e.depth

/-- The attributes from left to right, then `rest`; that of a value path comes
before those inside it. -/
def attributesOnto (rest : List Attribute) : Expr → List Attribute
  | comparison a _ _ => a :: rest
  | present a => a :: rest
  | joined l _ r => attributesOnto (attributesOnto rest r) l
  | group _ e => attributesOnto rest e
  | valuePath a e => a :: attributesOnto rest e

/-- The attributes from left to right. -/
def attributes (e : Expr) : List Attribute := e.attributesOnto []

/-- Some node is a value path. -/
def hasValuePath : Expr → Bool
  | comparison .. => false
  | present _ => false
  | joined l _ r => l.hasValuePath || r.hasValuePath
  | group _ e => e.hasValuePath
  | valuePath .. => true

/-- Equality of expressions: attributes up to ASCII case, numbers as numbers. -/
def same : Expr → Expr → Bool
  | comparison a op v, comparison b op' w => a.same b && op == op' && v.same w
  | present a, present b => a.same b
  | joined l c r, joined l' c' r' => l.same l' && c == c' && r.same r'
  | group n e, group n' e' => n == n' && e.same e'
  | valuePath a e, valuePath b e' => a.same b && e.same e'
  | _, _ => false

theorem attributesOnto_eq (e : Expr) (rest : List Attribute) :
    e.attributesOnto rest = e.attributes ++ rest := by
  induction e generalizing rest with
  | comparison a op v => rfl
  | present a => rfl
  | joined l c r ihl ihr =>
    simp only [attributes, attributesOnto]
    rw [ihr rest, ihr [], ihl, ihl (r.attributes ++ [])]
    simp
  | group n e ih => exact ih rest
  | valuePath a e ih =>
    simp only [attributes, attributesOnto]
    rw [ih rest, ih []]
    simp

end Expr

end ScimQuery
