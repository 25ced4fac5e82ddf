/-
ScimQuery/Search/Basic.lean

Search requests: a filter, the attributes to give back or to leave out, the order
of the results, and which of them to give.
-/
import ScimQuery.Filter

namespace ScimQuery

/-- The order of results. -/
inductive SortOrder where
  | ascending
  | descending
  deriving DecidableEq, Repr

namespace SortOrder

/-- The written form. -/
def keyword : SortOrder → String
  | ascending => "ascending"
  | descending => "descending"

/-- The order that a word spells exactly. -/
def ofKeyword? (word : String) : Option SortOrder :=
  if word = "ascending" then some ascending
  else if word = "descending" then some descending
  else none

/-- Read an order in any ASCII case. -/
def read (word : String) : Except Fault SortOrder :=
  if Text.alike word "ascending" then .ok ascending
  else if Text.alike word "descending" then .ok descending
  else .error (.parameter "sortOrder" (.notSortOrder word))

end SortOrder

/-- A search request. -/
structure Search where
  schemas : List String := ["urn:ietf:params:scim:api:messages:2.0:SearchRequest"]
  /-- The attributes to give back; all if there are none. -/
  attributes : List Attribute := []
  /-- The attributes to leave out. -/
  excluded : List Attribute := []
  filter : Option Expr := none
  sortBy : Option Attribute := none
  sortOrder : Option SortOrder := none
  /-- The number of the first result, counted from one. -/
  startIndex : Option UInt32 := none
  /-- The most results to give. -/
  count : Option UInt32 := none
  deriving DecidableEq, Repr

namespace Search

/-- Two lists agree element by element. -/
def sameList {α : Type} (same : α → α → Bool) : List α → List α → Bool
  | [], [] => true
  | a :: as, b :: bs => same a b && sameList same as bs
  | _, _ => false

/-- Two optional values agree. -/
def sameOption {α : Type} (same : α → α → Bool) : Option α → Option α → Bool
  | none, none => true
  | some a, some b => same a b
  | _, _ => false

/-- Equality of requests: expressions and attributes by their own equality. -/
def same (r s : Search) : Bool :=
  r.schemas == s.schemas && sameList Attribute.same r.attributes s.attributes &&
    sameList Attribute.same r.excluded s.excluded && sameOption Expr.same r.filter s.filter &&
    sameOption Attribute.same r.sortBy s.sortBy && r.sortOrder == s.sortOrder &&
    r.startIndex == s.startIndex && r.count == s.count

/-! ### Filling in a request -/

/-- Give back one more attribute. -/
def addAttribute (r : Search) (path : String) : Except Fault Search := do
  let attr ← Attribute.read path
  .ok { r with attributes := r.attributes ++ [attr] }

/-- Leave out one more attribute. -/
def addExcluded (r : Search) (path : String) : Except Fault Search := do
  let attr ← Attribute.read path
  .ok { r with excluded := r.excluded ++ [attr] }

/-- Sort by an attribute. -/
def setSortBy (r : Search) (path : String) : Except Fault Search := do
  let attr ← Attribute.read path
  .ok { r with sortBy := some attr }

/-- Sort in an order. -/
def setSortOrder (r : Search) (word : String) : Except Fault Search := do
  let order ← SortOrder.read word
  .ok { r with sortOrder := some order }

end Search

end ScimQuery
