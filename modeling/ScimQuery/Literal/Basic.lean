/-
ScimQuery/Literal/Basic.lean

The values that attributes are compared with, and their written form: `null`,
`true`, `false`, numbers in positional notation with the fewest digits that read
back, and quoted text.  A number that is not finite has no spelling and is
written `null`.

Quoted text is read by the rules of JSON with two liberties: an apostrophe may be
escaped by a backslash, and control characters may stand as they are.  Both are
brought to JSON's form first.  Anything else is `null`, `true`, `false` or a number
whose nearest binary value is finite.
-/
import ScimQuery.Json.Basic
import ScimQuery.Number.Shortest

namespace ScimQuery

/-- A comparison value. -/
inductive Literal where
  | null
  | bool (b : Bool)
  | number (x : Binary64)
  | text (s : String)
  deriving DecidableEq, Repr

namespace Literal

open ScimQuery.Json

/-! ### Writing -/

/-- The characters of a finite number. -/
def numberChars (x : Binary64) : List Char :=
  (if x.negative then ['-'] else []) ++ (Binary64.shortest x.magnitude).text

/-- The written form. -/
def render : Literal → String
  | null => "null"
  | bool true => "true"
  | bool false => "false"
  | number x => if x.isFinite then String.ofList (numberChars x) else "null"
  | text s => Json.Quoted.write s

/-! ### Reading -/

/-- The apostrophe. -/
def apostrophe : Char := '\x27'

/-- Take the backslash from an escaped apostrophe and escape control characters;
all other escapes stay.  `acc` holds what is written, last first. -/
def normalizeFrom (acc : List Char) : List Char → List Char
  | [] => acc.reverse
  | '\\' :: c :: rest =>
    if c = apostrophe then normalizeFrom (apostrophe :: acc) rest
    else normalizeFrom (c :: '\\' :: acc) rest
  | c :: rest =>
    if c.toNat < 0x20 then normalizeFrom ((Quoted.escapeControl c).reverse ++ acc) rest
    else normalizeFrom (c :: acc) rest

/-- The text between the quotes in JSON's form. -/
def normalize (cs : List Char) : List Char := normalizeFrom [] cs

/-- Read the characters after an opening quote, the last of which closes it. -/
def ofQuoted? (cs : List Char) : Option Literal :=
  match cs.reverse with
  | '"' :: inner =>
    (Quoted.decode? (normalize inner.reverse)).map fun chars => text (String.ofList chars)
  | _ => none

/-- Read a number; it must be finite. -/
def ofNumber? (cs : List Char) : Option Literal :=
  let (negative, digits) := match cs with
    | '-' :: rest => (true, rest)
    | '+' :: rest => (false, rest)
    | _ => (false, cs)
  (Decimal.read? digits).bind fun d =>
    let x := Binary64.ofDecimal negative d
    if x.isFinite then some (number x) else none

/-- Read the characters of a value. -/
def ofChars? (cs : List Char) : Option Literal :=
  match cs with
  | '"' :: rest => ofQuoted? rest
  | _ =>
    if cs = ['n', 'u', 'l', 'l'] then some null
    else if cs = ['t', 'r', 'u', 'e'] then some (bool true)
    else if cs = ['f', 'a', 'l', 's', 'e'] then some (bool false)
    else ofNumber? cs

/-- Read a value. -/
def ofRaw? (raw : String) : Option Literal := ofChars? raw.toList

/-! ### Equality -/

/-- Equality of values: numbers are compared as numbers. -/
def same : Literal → Literal → Bool
  | null, null => true
  | bool a, bool b => a == b
  | number x, number y => x.same y
  | text s, text t => s == t
  | _, _ => false

end Literal

end ScimQuery
