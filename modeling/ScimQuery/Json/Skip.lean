/-
ScimQuery/Json/Skip.lean

Stepping over a value that nobody wants.  Containers may be nested to any depth:
the open ones are kept on a list.  Text is checked less strictly than where it is
wanted (surrogates need no partner), and numbers may have any size.
-/
import ScimQuery.Json.Basic

namespace ScimQuery.Json

/-- A container that is still open. -/
inductive Container where
  | list
  | object
  deriving DecidableEq, Repr

/-- The bracket that closes a container. -/
def Container.close : Container → Char
  | .list => ']'
  | .object => '}'

/-- Step over digits, at least one; a number that breaks off is ill-formed. -/
def skipDigits : List Char → Except Fault (List Char)
  | [] => .error .illFormed
  | c :: cs => if c.isDigit then .ok (cs.dropWhile Char.isDigit) else .error .illFormed

/-- Step over an optional exponent. -/
def skipExponent : List Char → Except Fault (List Char)
  | [] => .ok []
  | c :: cs =>
    if c = 'e' ∨ c = 'E' then
      match cs with
      | [] => .error .illFormed
      | s :: rest => if s = '+' ∨ s = '-' then skipDigits rest else skipDigits cs
    else .ok (c :: cs)

/-- Step over a number without its sign. -/
def skipNumber : List Char → Except Fault (List Char)
  | [] => .error .illFormed
  | c :: cs => do
    if !c.isDigit then .error .illFormed
    else if c = '0' && (cs.head?.map Char.isDigit).getD false then .error .illFormed
    else match cs.dropWhile Char.isDigit with
      | '.' :: rest => skipDigits rest >>= skipExponent
      | rest => skipExponent rest

/-- Step over a key and its colon. -/
def skipKey (cs : List Char) : Except Fault (List Char) :=
  match skipSpaces cs with
  | [] => .error .cutShort
  | c :: rest => if c = '"' then Quoted.skip rest >>= skipColon else .error .illFormed

/-- Step over a value that is no container. -/
def skipScalar (c : Char) (cs : List Char) : Except Fault (List Char) :=
  if c = 'n' then skipLetters ['u', 'l', 'l'] cs
  else if c = 't' then skipLetters ['r', 'u', 'e'] cs
  else if c = 'f' then skipLetters ['a', 'l', 's', 'e'] cs
  else if c = '"' then Quoted.skip cs
  else if c = '-' then skipNumber cs
  else if c.isDigit then skipNumber (c :: cs)
  else .error .illFormed

/-- Where stepping over a value stands. -/
inductive Due where
  /-- A value is due. -/
  | value
  /-- The open container is due to go on or to close. -/
  | next

/-- Step on with the given open containers.  Every step takes a character, so as
many steps as there are characters, and one to see the end, are enough. -/
def skipSteps : Nat → Due → List Container → List Char → Except Fault (List Char)
  | 0, _, _, _ => .error .cutShort
  | _ + 1, .next, [], cs => .ok cs
  | steps + 1, .next, top :: outer, cs =>
    match skipSpaces cs with
    | [] => .error .cutShort
    | c :: rest =>
      if c = top.close then skipSteps steps .next outer rest
      else if c = ',' then
        match top with
        | .list => skipSteps steps .value (top :: outer) rest
        | .object => skipKey rest >>= skipSteps steps .value (top :: outer)
      else .error .illFormed
  | steps + 1, .value, outer, cs =>
    match skipSpaces cs with
    | [] => .error .cutShort
    | '[' :: rest =>
      match skipSpaces rest with
      | ']' :: rest => skipSteps steps .next outer rest
      | _ => skipSteps steps .value (.list :: outer) rest
    | '{' :: rest =>
      match skipSpaces rest with
      | '}' :: rest => skipSteps steps .next outer rest
      | _ => skipKey rest >>= skipSteps steps .value (.object :: outer)
    | c :: rest => skipScalar c rest >>= skipSteps steps .next outer

/-- Step over one value. -/
def skipValue (cs : List Char) : Except Fault (List Char) :=
  skipSteps (cs.length + 1) .value [] cs

end ScimQuery.Json
