/-
ScimQuery/Limits.lean

Limits on filter text: its length in octets, the nesting of groups and value
paths, and the number of operands.  Each limit has a default and a ceiling; limits
are checked before they are used, in this order.

Limits can be written as JSON and read from it.
-/
import ScimQuery.Fault
import ScimQuery.Json.Record

namespace ScimQuery

/-- Limits on filter text. -/
structure Limits where
  /-- The most octets. -/
  length : Nat := 65536
  /-- The deepest nesting of groups and value paths. -/
  depth : Nat := 64
  /-- The most operands joined by connectives. -/
  operands : Nat := 1024
  deriving DecidableEq, Repr

namespace Limits

/-- The greatest allowed limits. -/
def ceiling : Limits := ⟨16777216, 1024, 8192⟩

/-- Check one limit: it is not zero and not above its ceiling. -/
def check (name : String) (value ceiling : Nat) : Except LimitFault Unit :=
  if value = 0 then .error (.zero name)
  else if ceiling < value then .error (.tooLarge name value ceiling)
  else .ok ()

/-- Check every limit; the first fault counts. -/
def validate (limits : Limits) : Except LimitFault Unit := do
  check "max_filter_length" limits.length ceiling.length
  check "max_nesting_depth" limits.depth ceiling.depth
  check "max_logical_operands" limits.operands ceiling.operands

/-! ### Limits as JSON -/

/-- Every limit with its key. -/
def toJson (limits : Limits) : String :=
  "\x7b\"maxFilterLength\":" ++ toString limits.length ++
    ",\"maxNestingDepth\":" ++ toString limits.depth ++
    ",\"maxLogicalOperands\":" ++ toString limits.operands ++ "\x7d"

/-- How a limit is read: a key, and the change that its value makes. -/
def field (key : String) (set : Nat → Limits → Limits) : Json.Field Limits where
  key := key
  read := fun cs => do
    let (n, rest) ← Json.natural Json.maxInteger cs
    .ok (set n, rest)

/-- The fields in their order. -/
def fields : List (Json.Field Limits) :=
  [field "maxFilterLength" fun n l => { l with length := n },
    field "maxNestingDepth" fun n l => { l with depth := n },
    field "maxLogicalOperands" fun n l => { l with operands := n }]

/-- Read limits from JSON; those left out have their default. -/
def ofJson (text : String) : Except Json.Fault Limits := Json.document (Json.record fields {}) text

end Limits

end ScimQuery
