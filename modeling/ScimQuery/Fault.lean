/-
ScimQuery/Fault.lean

Everything that can be wrong with a filter, a session, a request or its limits,
as causes; `Fault.message` puts a fault into words.  Where a caller raises a
fault with a reason of its own, the reason is `stated`.

Single parts of a filter can be read on their own: a path, a value, an operator.
The fault quotes the part itself.
-/
import ScimQuery.Attribute.Basic
import ScimQuery.Keyword
import ScimQuery.Lexeme
import ScimQuery.Literal.Basic
import ScimQuery.Text.Octets

namespace ScimQuery

/-! ### Filter text -/

/-- What should have come next. -/
inductive Wanted where
  | operand
  | closeParen
  | closeBracket
  /-- After an attribute, in place of another word. -/
  | operator (after : Attribute)
  /-- After an attribute, in place of something that is no word. -/
  | continuation (after : Attribute)
  /-- After an operator. -/
  | value (after : CompareOp)
  /-- After a whole filter. -/
  | ending
  deriving DecidableEq, Repr

/-- The wanted thing in words. -/
def Wanted.describe : Wanted → String
  | operand => "attribute expression"
  | closeParen => "')'"
  | closeBracket => "']'"
  | operator a => "comparison operator or 'pr' after '" ++ a.path ++ "'"
  | continuation a => "comparison operator, 'pr' or '[' after '" ++ a.path ++ "'"
  | value op => "comparison value after '" ++ op.keyword ++ "'"
  | ending => "logical operator or end of filter"

/-- Why lexemes do not make a filter. -/
inductive Reason where
  | unclosedString
  | unexpected (wanted : Wanted) (found : Token)
  | tooLong (size limit : Nat)
  | tooDeep (limit : Nat)
  | tooMany (limit : Nat)
  | nestedValuePath
  | unknownOperator
  | stated (text : String)
  deriving DecidableEq, Repr

/-- The reason in words. -/
def Reason.describe : Reason → String
  | unclosedString => "unterminated string literal"
  | unexpected wanted found => "expected " ++ wanted.describe ++ ", found " ++ found.describe
  | tooLong size limit =>
    "filter is " ++ toString size ++ " bytes, maximum is " ++ toString limit
  | tooDeep limit => "nesting depth exceeds maximum of " ++ toString limit
  | tooMany limit => "filter joins more than " ++ toString limit ++ " logical operands"
  | nestedValuePath => "value paths cannot be nested"
  | unknownOperator => "unknown comparison operator"
  | stated text => text

/-- What is wrong with a piece of text. -/
inductive Cause where
  /-- It is no comparison value. -/
  | literal (raw : String)
  /-- It is no attribute path. -/
  | path (raw : String)
  /-- It does not follow the grammar. -/
  | grammar (reason : Reason)
  deriving DecidableEq, Repr

/-- The text that a cause carries. -/
def Cause.detail : Cause → String
  | literal raw => raw
  | path raw => raw
  | grammar reason => reason.describe

/-- The cause in words. -/
def Cause.describe : Cause → String
  | literal raw => "unparsable literal `" ++ raw ++ "`"
  | path raw => "malformed attribute path `" ++ raw ++ "`"
  | grammar reason => reason.describe

/-! ### Sessions, requests, limits -/

/-- A call that a building session does not allow where it stands. -/
inductive Violation where
  /-- An operand after a complete filter, both in their written form. -/
  | alreadyComplete (root added : String)
  | startsWith (c : Connective)
  | adjacent (c before : Connective)
  | nothingBuilt
  | missingOperand (c : Connective)
  | stated (text : String)
  deriving DecidableEq, Repr

/-- The violation in words. -/
def Violation.describe : Violation → String
  | alreadyComplete root added =>
    "'" ++ root ++ "' is already complete; call and() or or() before adding '" ++ added ++ "'"
  | startsWith c => "cannot start a filter with '" ++ c.keyword ++ "'"
  | adjacent c before =>
    "'" ++ c.keyword ++ "' cannot follow '" ++ before.keyword ++ "' without an operand in between"
  | nothingBuilt => "cannot build an empty filter"
  | missingOperand c => "'" ++ c.keyword ++ "' is missing its right operand"
  | stated text => text

/-- Why a query value cannot be decoded. -/
inductive Garbling where
  | octets (encoded : String) (fault : Text.Utf8.Fault)
  | stated (text : String)
  deriving DecidableEq, Repr

/-- The garbling in words. -/
def Garbling.describe : Garbling → String
  | octets encoded fault => "`" ++ encoded ++ "`: " ++ fault.message
  | stated text => text

/-- Why the value of a search parameter cannot be used. -/
inductive Misuse where
  | notNatural (given : String)
  | notSortOrder (given : String)
  | stated (text : String)
  deriving DecidableEq, Repr

/-- The misuse in words. -/
def Misuse.describe : Misuse → String
  | notNatural given => "expected a non-negative integer, got `" ++ given ++ "`"
  | notSortOrder given => "expected `ascending` or `descending`, got `" ++ given ++ "`"
  | stated text => text

/-- Why limits are refused. -/
inductive LimitFault where
  | zero (name : String)
  | tooLarge (name : String) (value ceiling : Nat)
  | stated (text : String)
  /-- A parameter that is no limit. -/
  | parameter (text : String)
  deriving DecidableEq, Repr

/-- The fault in words. -/
def LimitFault.message : LimitFault → String
  | zero name => "Invalid limit: " ++ name ++ " cannot be zero"
  | tooLarge name value ceiling =>
    "Invalid limit: " ++ name ++ " of " ++ toString value ++ " exceeds maximum of " ++
      toString ceiling
  | stated text => "Invalid limit: " ++ text
  | parameter text => "Invalid configuration parameter: " ++ text

/-- Events that do not come from a tree. -/
inductive Imbalance where
  /-- An event whose operands are missing. -/
  | underflow
  /-- As many trees as given, where there should be one. -/
  | notSingle (count : Nat)
  | stated (text : String)
  deriving DecidableEq, Repr

/-- The imbalance in words. -/
def Imbalance.describe : Imbalance → String
  | underflow => "expression stack underflow"
  | notSingle count =>
    "wrong number (" ++ toString count ++ ") of expressions on stack, should be 1"
  | stated text => text

/-! ### Faults -/

/-- Everything that can be wrong. -/
inductive Fault where
  /-- Text that is refused, the text around it, and where in it. -/
  | refused (input : String) (position : Option Nat) (cause : Cause)
  | protocol (violation : Violation)
  | encoding (garbling : Garbling)
  | parameter (name : String) (misuse : Misuse)
  | limits (fault : LimitFault)
  | imbalance (imbalance : Imbalance)
  deriving DecidableEq, Repr

namespace Fault

/-- The fault in words. -/
def message : Fault → String
  | refused input (some position) cause =>
    "filter syntax error at position " ++ toString position ++ " in `" ++ input ++ "`: " ++
      cause.describe
  | refused input none cause => "filter syntax error in `" ++ input ++ "`: " ++ cause.describe
  | protocol violation => "builder protocol violation: " ++ violation.describe
  | encoding garbling => "invalid transport encoding: " ++ garbling.describe
  | parameter name misuse => "invalid search parameter `" ++ name ++ "`: " ++ misuse.describe
  | limits fault => fault.message
  | imbalance i => "internal parser error: " ++ i.describe

/-- A text that is no comparison value. -/
def ofLiteral (raw : String) : Fault := refused raw none (.literal raw)

/-- A text that is no attribute path. -/
def ofPath (raw : String) : Fault := refused raw none (.path raw)

/-- A text that does not follow the grammar. -/
def ofGrammar (input : String) (reason : Reason) (position : Option Nat) : Fault :=
  refused input position (.grammar reason)

/-- A fault of a piece of text, seen in the text around it. -/
def relocate (fault : Fault) (input : String) (position : Nat) : Fault :=
  match fault with
  | refused _ _ cause => refused input (some position) cause
  | other => other

/-- Text was refused. -/
def isRefused : Fault → Bool
  | refused .. => true
  | _ => false

/-- A session did not allow a call. -/
def isProtocol : Fault → Bool
  | protocol _ => true
  | _ => false

/-- Where text was refused, if that is known. -/
def position? : Fault → Option Nat
  | refused _ position _ => position
  | _ => none

/-- Why text was refused. -/
def cause? : Fault → Option Cause
  | refused _ _ cause => some cause
  | _ => none

end Fault

/-! ### Parts of a filter -/

/-- Read an attribute path. -/
def Attribute.read (path : String) : Except Fault Attribute :=
  match ofPath? path with
  | some attr => .ok attr
  | none => .error (.ofPath path)

/-- Put the parts of a path together. -/
def Attribute.readParts (urn : Option String) (name : String) (sub : Option String) :
    Except Fault Attribute :=
  read (path ⟨urn, name, sub⟩)

/-- Read a comparison value. -/
def Literal.read (raw : String) : Except Fault Literal :=
  match ofRaw? raw with
  | some value => .ok value
  | none => .error (.ofLiteral raw)

/-- Read a comparison operator. -/
def CompareOp.read (word : String) : Except Fault CompareOp :=
  match ofWord? word with
  | some op => .ok op
  | none => .error (.ofGrammar word .unknownOperator none)

end ScimQuery
