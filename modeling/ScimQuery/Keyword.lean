/-
ScimQuery/Keyword.lean

The words of the filter language: nine comparison operators and two connectives.
They are written in lower case and read in any ASCII case.
-/
import ScimQuery.Text.Basic

namespace ScimQuery

/-- The operators of a comparison. -/
inductive CompareOp where
  /-- Equal. -/
  | eq
  /-- Not equal. -/
  | ne
  /-- Contains. -/
  | co
  /-- Starts with. -/
  | sw
  /-- Ends with. -/
  | ew
  /-- Greater than. -/
  | gt
  /-- Greater than or equal. -/
  | ge
  /-- Less than. -/
  | lt
  /-- Less than or equal. -/
  | le
  deriving DecidableEq, Repr

namespace CompareOp

/-- Every operator once. -/
def all : List CompareOp := [eq, ne, co, sw, ew, gt, ge, lt, le]

/-- The written form. -/
def keyword : CompareOp → String
  | eq => "eq"
  | ne => "ne"
  | co => "co"
  | sw => "sw"
  | ew => "ew"
  | gt => "gt"
  | ge => "ge"
  | lt => "lt"
  | le => "le"

/-- The operator that a word spells in any ASCII case. -/
def ofWord? (word : String) : Option CompareOp := all.find? fun op => Text.alike op.keyword word

theorem mem_all (op : CompareOp) : op ∈ all := by cases op <;> decide

theorem ofWord?_keyword (op : CompareOp) : ofWord? op.keyword = some op := by
  cases op <;> decide

end CompareOp

/-- The connectives between operands. -/
inductive Connective where
  | and
  | or
  deriving DecidableEq, Repr

namespace Connective

/-- The written form. -/
def keyword : Connective → String
  | and => "and"
  | or => "or"

/-- The connective that a word spells in any ASCII case. -/
def ofWord? (word : String) : Option Connective :=
  if Text.alike word "and" then some and
  else if Text.alike word "or" then some or
  else none

theorem ofWord?_keyword (c : Connective) : ofWord? c.keyword = some c := by
  cases c <;> decide

end Connective

end ScimQuery
