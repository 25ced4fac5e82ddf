/-
ScimQuery/Search/Query.lean

Requests as query strings.  The parameters that are set are written in a fixed
order, attribute lists with commas between their paths, every value
percent-encoded.  Reading takes the parameters one after the other: a later one
replaces an earlier one, an unknown one is passed over, and the first that cannot
be read is the fault.
-/
import ScimQuery.Search.Basic

namespace ScimQuery.Search

/-! ### Writing -/

/-- The paths with commas between them. -/
def joinPaths (as : List Attribute) : String := ",".intercalate (as.map Attribute.path)

/-- The parameters that are set, with their values not yet encoded. -/
def parameters (r : Search) : List (String × String) :=
  (r.filter.map fun e => ("filter", e.render)).toList ++
    (if r.attributes.isEmpty then [] else [("attributes", joinPaths r.attributes)]) ++
    (if r.excluded.isEmpty then [] else [("excludedAttributes", joinPaths r.excluded)]) ++
    (r.sortBy.map fun a => ("sortBy", a.path)).toList ++
    (r.sortOrder.map fun o => ("sortOrder", o.keyword)).toList ++
    (r.startIndex.map fun n => ("startIndex", toString n.toNat)).toList ++
    (r.count.map fun n => ("count", toString n.toNat)).toList

/-- The query string, without a question mark. -/
def query (r : Search) : String :=
  "&".intercalate (r.parameters.map fun (key, value) => key ++ "=" ++ Filter.encode value)

/-- The request's parameters after those of a query string that is there already. -/
def appendTo (r : Search) (existing : String) : String :=
  if r.query.isEmpty then existing
  else if existing.isEmpty then r.query
  else existing ++ "&" ++ r.query

/-- A URL with the request's parameters after those it has.  A URL ends in an
optional query after `?` and an optional fragment after `#`; without parameters
it stays as it is. -/
def applyTo (r : Search) (url : String) : String :=
  if r.query.isEmpty then url
  else
    let (front, fragment) := Text.cutFirst '#' url.toList
    let (address, existing) := Text.cutFirst '?' front
    String.ofList address ++ "?" ++ r.appendTo (String.ofList (existing.getD [])) ++
      (match fragment with
        | some cs => "#" ++ String.ofList cs
        | none => "")

/-! ### Reading -/

/-- A list of paths: blanks around a path and empty entries do not count. -/
def readPaths (value : String) : Except Fault (List Attribute) :=
  let entries := (Text.segments ',' value.toList).map Text.trim
  (entries.filter fun entry => !entry.isEmpty).mapM fun entry => Attribute.read (String.ofList entry)

/-- A number below `2 ^ 32`: digits, after an optional plus sign. -/
def readNumber (key value : String) : Except Fault UInt32 :=
  let digits := match value.toList with
    | '+' :: rest => rest
    | cs => cs
  let n := Nat.ofDigitChars 10 digits 0
  if digits.isEmpty || !digits.all Char.isDigit || UInt32.size ≤ n then
    .error (.parameter key (.notNatural value))
  else .ok (UInt32.ofNat n)

/-- Take one parameter over. -/
def setParameter (r : Search) (key value : String) : Except Fault Search :=
  if key = "filter" then do
    let e ← Filter.parse value
    .ok { r with filter := some e }
  else if key = "attributes" then do
    let as ← readPaths value
    .ok { r with attributes := as }
  else if key = "excludedAttributes" then do
    let as ← readPaths value
    .ok { r with excluded := as }
  else if key = "sortBy" then r.setSortBy value
  else if key = "sortOrder" then r.setSortOrder value
  else if key = "startIndex" then do
    let n ← readNumber key value
    .ok { r with startIndex := some n }
  else if key = "count" then do
    let n ← readNumber key value
    .ok { r with count := some n }
  else .ok r

/-- A text of a query string, its octets that are not UTF-8 replaced. -/
def decodeForm (cs : List Char) : String := String.ofList (Text.Percent.decodeLossy cs)

/-- The parameters of a query string, decoded. -/
def pairs (cs : List Char) : List (String × String) :=
  let pieces := (Text.segments '&' cs).filter fun piece => !piece.isEmpty
  pieces.map fun piece =>
    let (key, value) := Text.cutFirst '=' piece
    (decodeForm key, decodeForm (value.getD []))

/-- Read a request from a query string; question marks in front do not count. -/
def ofQuery (query : String) : Except Fault Search :=
  (pairs (query.toList.dropWhile (· == '?'))).foldlM
    (fun r (key, value) => r.setParameter key value) {}

end ScimQuery.Search
