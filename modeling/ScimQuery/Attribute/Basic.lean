/-
ScimQuery/Attribute/Basic.lean

Attribute references: an optional schema URN, an attribute name and an optional
sub-attribute, written `urn:name.sub`.

A path is read from its separators.  The last colon ends the schema URN, the first
dot after it ends the attribute's name, and what follows the dot must have no empty
part between its own dots.

Inside the brackets of a value path a bare name stands for a sub-attribute of the
bracketed attribute.  `scopedUnder` makes that explicit, and `isScopedUnder`
tells which references could be written as a bare name there.
-/
import ScimQuery.Text.Basic
import ScimQuery.Text.Segments

/-! ### Schema URNs -/

namespace ScimQuery.Urn

/-- A letter of either case.  Besides the ASCII letters these are the two
characters whose other case is one: the long s and the Kelvin sign. -/
def isLetter (c : Char) : Bool := c.isAlpha || c == '\u017f' || c == '\u212a'

/-- A letter or a digit. -/
def isLetterOrDigit (c : Char) : Bool := isLetter c || c.isDigit

/-- A namespace identifier: letters, digits and hyphens, no hyphen first. -/
def isNamespace : List Char → Bool
  | [] => false
  | c :: cs => isLetterOrDigit c && cs.all fun d => isLetterOrDigit d || d == '-'

/-- A segment between the namespace and the name. -/
def isMiddle (cs : List Char) : Bool := !cs.isEmpty && cs.all fun c => !Text.isBlank c

/-- A schema's name: a letter, then letters, digits, `_` and `-`. -/
def isName : List Char → Bool
  | [] => false
  | c :: cs => isLetter c && cs.all fun d => isLetterOrDigit d || d == '_' || d == '-'

/-- The segments after the namespace: any number between, and the name. -/
def isTail : List (List Char) → Bool
  | [] => false
  | [last] => isName last
  | segment :: rest => isMiddle segment && isTail rest

/-- A schema URN: segments between colons, of which the first is `urn`, the second
a namespace identifier, and the last a name. -/
def isSchema (cs : List Char) : Bool :=
  match Text.segments ':' cs with
  | scheme :: space :: rest =>
    Text.alikeChars scheme ['u', 'r', 'n'] && isNamespace space && isTail rest
  | _ => false

example : isSchema "urn:ietf:params:scim:schemas:core:2.0:User".toList := by decide
example : ¬ isSchema "urn:ietf".toList ∧ ¬ isSchema "urn:a:2.0".toList := by decide

end ScimQuery.Urn

namespace ScimQuery

/-- A reference to an attribute or a sub-attribute. -/
structure Attribute where
  /-- The URN of the schema that defines the attribute. -/
  urn : Option String
  /-- The attribute's name. -/
  name : String
  /-- What follows the first dot, further dots included. -/
  sub : Option String
  deriving DecidableEq, Repr

namespace Attribute

/-! ### Paths -/

/-- The name and the sub-attribute. -/
def base (a : Attribute) : String :=
  match a.sub with
  | some sub => a.name ++ "." ++ sub
  | none => a.name

/-- The full written form. -/
def path (a : Attribute) : String :=
  match a.urn with
  | some urn => urn ++ ":" ++ a.base
  | none => a.base

/-- An attribute's name: an optional `$`, a letter, then letters, digits, `-` and
`_`, all of them ASCII. -/
def isName (cs : List Char) : Bool :=
  let cs := match cs with
    | '$' :: rest => rest
    | _ => cs
  match cs with
  | [] => false
  | c :: rest => c.isAlpha && rest.all fun d => d.isAlphanum || d == '-' || d == '_'

/-- A sub-attribute: no part between dots is empty. -/
def isSub (cs : List Char) : Bool := (Text.segments '.' cs).all fun part => !part.isEmpty

/-- Read the characters of a path. -/
def ofChars? (cs : List Char) : Option Attribute :=
  let (urn, rest) := Text.cutLast ':' cs
  let (name, sub) := Text.cutFirst '.' rest
  if urn.all Urn.isSchema && isName name && sub.all isSub then
    some ⟨urn.map String.ofList, String.ofList name, sub.map String.ofList⟩
  else none

/-- Read a path. -/
def ofPath? (path : String) : Option Attribute := ofChars? path.toList

/-! ### Scope -/

/-- A bare name, put under the given parent; any other reference as it is.  The
parent's own sub-attribute plays no part. -/
def scopedUnder (a parent : Attribute) : Attribute :=
  if a.urn.isSome || a.sub.isSome then a
  else ⟨parent.urn, parent.name, some a.name⟩

/-- A sub-attribute of the attribute that `parent` names. -/
def isScopedUnder (a parent : Attribute) : Bool :=
  a.sub.isSome && Text.alike a.name parent.name && Text.alikePart a.urn parent.urn

theorem scopedUnder_scopedUnder (a p q : Attribute) :
    (a.scopedUnder p).scopedUnder q = a.scopedUnder p := by
  by_cases h : (a.urn.isSome || a.sub.isSome) = true
  · simp [scopedUnder, h]
  · simp [scopedUnder, h]

/-! ### Equality -/

/-- Equality of references: every part is compared up to ASCII case. -/
def same (a b : Attribute) : Bool :=
  Text.alikePart a.urn b.urn && Text.alike a.name b.name && Text.alikePart a.sub b.sub

theorem same_refl (a : Attribute) : a.same a = true := by
  simp [same, Text.alikePart_refl, Text.alike_refl]

theorem same_symm {a b : Attribute} (h : a.same b = true) : b.same a = true := by
  simp only [same, Bool.and_eq_true] at h ⊢
  exact ⟨⟨Text.alikePart_symm h.1.1, Text.alike_symm h.1.2⟩, Text.alikePart_symm h.2⟩

theorem same_trans {a b c : Attribute} (h₁ : a.same b = true) (h₂ : b.same c = true) :
    a.same c = true := by
  simp only [same, Bool.and_eq_true] at h₁ h₂ ⊢
  exact ⟨⟨Text.alikePart_trans h₁.1.1 h₂.1.1, Text.alike_trans h₁.1.2 h₂.1.2⟩,
    Text.alikePart_trans h₁.2 h₂.2⟩

end Attribute

end ScimQuery
