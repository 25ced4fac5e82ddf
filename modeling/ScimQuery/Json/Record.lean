/-
ScimQuery/Json/Record.lean

Readers for the values that requests and limits are made of: texts, naturals,
values that may be null, lists, and records.  A record is written as an object,
whose unknown keys are passed over and whose known keys may come once, or as a
list of its fields in their order, of which the last ones may be left out.
-/
import ScimQuery.Json.Number
import ScimQuery.Json.Skip

namespace ScimQuery.Json

/-! ### Single values -/

/-- The fault at a value of another shape than the wanted one: the value is
looked at as far as its kind takes, and its own fault comes first. -/
def mismatch : List Char → Fault
  | [] => .cutShort
  | c :: cs =>
    let after : Except Fault (List Char) :=
      if c = '[' ∨ c = '{' then .ok cs
      else if c = '"' then (Quoted.read cs).map Prod.snd
      else if c = '-' ∨ c.isDigit then (readNumber (c :: cs)).map Prod.snd
      else skipScalar c cs
    match after with
    | .ok _ => .unfit
    | .error fault => fault

/-- A quoted text. -/
def text : Reader String := fun cs =>
  match skipSpaces cs with
  | '"' :: rest => (Quoted.read rest).map fun (chars, rest) => (String.ofList chars, rest)
  | cs => .error (mismatch cs)

/-- A quoted text that stands for a value. -/
def textAs {α : Type} (parse : String → Option α) : Reader α := fun cs => do
  let (s, rest) ← text cs
  match parse s with
  | some value => .ok (value, rest)
  | none => .error .unfit

/-- A natural number up to a bound. -/
def natural (bound : Nat) : Reader Nat := fun cs =>
  match skipSpaces cs with
  | [] => .error .cutShort
  | c :: rest =>
    if c = '-' ∨ c.isDigit then do
      match ← readNumber (c :: rest) with
      | (some n, rest) => if n ≤ bound then .ok (n, rest) else .error .unfit
      | (none, _) => .error .unfit
    else .error (mismatch (c :: rest))

/-- `null`, or a value. -/
def nullable {α : Type} (read : Reader α) : Reader (Option α) := fun cs =>
  match skipSpaces cs with
  | 'n' :: rest => do
    let rest ← skipLetters ['u', 'l', 'l'] rest
    .ok (none, rest)
  | cs => do
    let (value, rest) ← read cs
    .ok (some value, rest)

/-! ### Lists -/

/-- The text of the next element, or none at the closing bracket, which is left. -/
def nextElement? (first : Bool) (cs : List Char) : Except Fault (Option (List Char)) :=
  match skipSpaces cs with
  | [] => .error .cutShort
  | c :: rest =>
    if c = ']' then .ok none
    else if first then .ok (some (c :: rest))
    else if c = ',' then
      match skipSpaces rest with
      | [] => .error .cutShort
      | ']' :: _ => .error .illFormed
      | rest => .ok (some rest)
    else .error .illFormed

/-- Step over the bracket that closes a list. -/
def skipClosing (cs : List Char) : Except Fault (List Char) :=
  match skipSpaces cs with
  | [] => .error .cutShort
  | c :: rest => if c = ']' then .ok rest else .error .illFormed

/-- Elements up to the closing bracket.  Every element takes a character, so as
many steps as there are characters, and one for the bracket, are enough. -/
def elements {α : Type} (read : Reader α) : Nat → Bool → List α → Reader (List α)
  | 0, _, _, _ => .error .cutShort
  | steps + 1, first, acc, cs => do
    match ← nextElement? first cs with
    | none => (skipClosing cs).map fun rest => (acc.reverse, rest)
    | some start =>
      let (value, rest) ← read start
      elements read steps false (value :: acc) rest

/-- A list. -/
def list {α : Type} (read : Reader α) : Reader (List α) := fun cs =>
  match skipSpaces cs with
  | '[' :: rest => elements read (rest.length + 1) true [] rest
  | cs => .error (mismatch cs)

/-! ### Records -/

/-- A field of a record: its key, and how its value changes the record. -/
structure Field (σ : Type) where
  key : String
  read : Reader (σ → σ)

/-- The text after the opening quote of the next key, or none at the closing
brace, which is left. -/
def nextKey? (first : Bool) (cs : List Char) : Except Fault (Option (List Char)) :=
  match skipSpaces cs with
  | [] => .error .cutShort
  | c :: rest =>
    if c = '}' then .ok none
    else if first then if c = '"' then .ok (some rest) else .error .illFormed
    else if c = ',' then
      match skipSpaces rest with
      | [] => .error .cutShort
      | '"' :: rest => .ok (some rest)
      | _ => .error .illFormed
    else .error .illFormed

/-- Members up to the closing brace; `seen` holds the known keys met so far. -/
def members {σ : Type} (fields : List (Field σ)) :
    Nat → Bool → List String → σ → Reader σ
  | 0, _, _, _, _ => .error .cutShort
  | steps + 1, first, seen, record, cs => do
    match ← nextKey? first cs with
    | none => .ok (record, (skipSpaces cs).drop 1)
    | some start =>
      let (chars, rest) ← Quoted.read start
      let key := String.ofList chars
      match fields.find? (·.key == key) with
      | none =>
        let rest ← skipColon rest
        let rest ← skipValue rest
        members fields steps false seen record rest
      | some field =>
        -- a second one is a fault before its value is read
        if seen.contains key then .error .unfit
        else
          let rest ← skipColon rest
          let (change, rest) ← field.read rest
          members fields steps false (key :: seen) (change record) rest

/-- The fields in their order, up to the closing bracket. -/
def positional {σ : Type} : List (Field σ) → Bool → σ → Reader σ
  | [], _, record, cs => (skipClosing cs).map fun rest => (record, rest)
  | field :: fields, first, record, cs => do
    match ← nextElement? first cs with
    | none => (skipClosing cs).map fun rest => (record, rest)
    | some start =>
      let (change, rest) ← field.read start
      positional fields false (change record) rest

/-- A record; fields that are left out keep their value in `default`. -/
def record {σ : Type} (fields : List (Field σ)) (default : σ) : Reader σ := fun cs =>
  match skipSpaces cs with
  | '{' :: rest => members fields (rest.length + 1) true [] default rest
  | '[' :: rest => positional fields true default rest
  | cs => .error (mismatch cs)

end ScimQuery.Json
