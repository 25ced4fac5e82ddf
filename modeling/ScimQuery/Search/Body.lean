/-
ScimQuery/Search/Body.lean

Requests as JSON.  The fields are written in a fixed order; empty lists, except
that of the schemas, and absent values are left out.
-/
import ScimQuery.Search.Basic

namespace ScimQuery.Search

/-! ### Writing -/

/-- A list of quoted texts. -/
def listText (items : List String) : String :=
  "[" ++ ",".intercalate (items.map Json.Quoted.write) ++ "]"

/-- The keys that are set, and the JSON text of their values. -/
def members (r : Search) : List (String × String) :=
  let paths (as : List Attribute) := listText (as.map Attribute.path)
  [("schemas", listText r.schemas)] ++
    (if r.attributes.isEmpty then [] else [("attributes", paths r.attributes)]) ++
    (if r.excluded.isEmpty then [] else [("excludedAttributes", paths r.excluded)]) ++
    (r.filter.map fun e => ("filter", Json.Quoted.write e.render)).toList ++
    (r.sortBy.map fun a => ("sortBy", Json.Quoted.write a.path)).toList ++
    (r.sortOrder.map fun o => ("sortOrder", Json.Quoted.write o.keyword)).toList ++
    (r.startIndex.map fun n => ("startIndex", toString n.toNat)).toList ++
    (r.count.map fun n => ("count", toString n.toNat)).toList

/-- The JSON text of a request. -/
def body (r : Search) : String :=
  "\x7b" ++ ",".intercalate (r.members.map fun (key, value) =>
    Json.Quoted.write key ++ ":" ++ value) ++ "\x7d"

/-! ### Reading -/

/-- An attribute path. -/
def attributeReader : Json.Reader Attribute := Json.textAs Attribute.ofPath?

/-- A number below `2 ^ 32`. -/
def indexReader : Json.Reader UInt32 := fun cs => do
  let (n, rest) ← Json.natural (UInt32.size - 1) cs
  .ok (UInt32.ofNat n, rest)

/-- The quoted name of a sort order.  Anything that is no quoted text is not looked
at further and taken for ill-formed. -/
def sortOrderName : Json.Reader SortOrder := fun cs =>
  match Json.skipSpaces cs with
  | [] => .error .cutShort
  | '"' :: rest => Json.textAs SortOrder.ofKeyword? ('"' :: rest)
  | _ => .error .illFormed

/-- A sort order: its name, or an object with its name as the only key and `null`
as the value. -/
def sortOrderReader : Json.Reader SortOrder := fun cs =>
  match Json.skipSpaces cs with
  | '{' :: rest => do
    let (order, rest) ← sortOrderName rest
    let rest ← Json.skipColon rest
    let rest ← match Json.skipSpaces rest with
      | 'n' :: rest => Json.skipLetters ['u', 'l', 'l'] rest
      | rest => .error (Json.mismatch rest)
    match Json.skipSpaces rest with
    | [] => .error .cutShort
    | c :: rest => if c = '}' then .ok (order, rest) else .error .illFormed
  | cs => sortOrderName cs

/-- How a field is read: a key, and the change that its value makes. -/
def field {α : Type} (key : String) (read : Json.Reader α) (set : α → Search → Search) :
    Json.Field Search where
  key := key
  read := fun cs => do
    let (value, rest) ← read cs
    .ok (set value, rest)

/-- The fields in their order. -/
def fields : List (Json.Field Search) :=
  [field "schemas" (Json.list Json.text) fun v r => { r with schemas := v },
    field "attributes" (Json.list attributeReader) fun v r => { r with attributes := v },
    field "excludedAttributes" (Json.list attributeReader) fun v r => { r with excluded := v },
    field "filter" (Json.nullable Filter.reader) fun v r => { r with filter := v },
    field "sortBy" (Json.nullable attributeReader) fun v r => { r with sortBy := v },
    field "sortOrder" (Json.nullable sortOrderReader) fun v r => { r with sortOrder := v },
    field "startIndex" (Json.nullable indexReader) fun v r => { r with startIndex := v },
    field "count" (Json.nullable indexReader) fun v r => { r with count := v }]

/-- Read a request from JSON; fields left out have their default. -/
def ofBody (text : String) : Except Json.Fault Search :=
  Json.document (Json.record fields {}) text

end ScimQuery.Search
