/-
ScimQuery/Json/Basic.lean

Reading JSON text in one pass, straight into the value that is wanted.  A reader
takes the text before it and gives a value and the text after it.  The first
fault that is met on the way decides how the text is refused; there are three
kinds of faults, and which one it is depends on the wanted value as well as on
the text.

Quoted text is the one value that is written as well.  Writing escapes the quote,
the backslash and the characters below U+0020 and leaves all else as it is.
Reading goes one character at a time through the stages of an escape; a character
above U+FFFF may be escaped as a pair of surrogates, and a surrogate without its
partner is refused.
-/
import ScimQuery.Text.Basic

namespace ScimQuery.Json

/-! ### Readers -/

/-- Why a text is refused. -/
inductive Fault where
  /-- The text ends too early. -/
  | cutShort
  /-- The text is not JSON. -/
  | illFormed
  /-- The text is JSON, but not of the wanted shape, or its value is refused. -/
  | unfit
  deriving DecidableEq, Repr

/-- A reader of `α`: a value and the text after it, or a fault. -/
abbrev Reader (α : Type) := List Char → Except Fault (α × List Char)

/-- The white space of JSON. -/
def isSpace (c : Char) : Bool := c == ' ' || c == '\n' || c == '\t' || c == '\r'

/-- The text from its first character that is no white space. -/
def skipSpaces (cs : List Char) : List Char := cs.dropWhile isSpace

/-- Step over the given letters, the rest of a word such as `null`. -/
def skipLetters : List Char → List Char → Except Fault (List Char)
  | [], cs => .ok cs
  | _ :: _, [] => .error .cutShort
  | l :: ls, c :: cs => if c = l then skipLetters ls cs else .error .illFormed

/-- Step over the colon between a key and its value. -/
def skipColon (cs : List Char) : Except Fault (List Char) :=
  match skipSpaces cs with
  | [] => .error .cutShort
  | c :: rest => if c = ':' then .ok rest else .error .illFormed

/-- Read a whole text: nothing but white space may follow the value. -/
def document {α : Type} (read : Reader α) (text : String) : Except Fault α := do
  let (value, rest) ← read text.toList
  if (skipSpaces rest).isEmpty then .ok value else .error .illFormed

end ScimQuery.Json

namespace ScimQuery.Json.Quoted

open ScimQuery.Text

/-! ### Writing quoted text -/

/-- A control character as `\u` and four digits. -/
def escapeControl (c : Char) : List Char :=
  ['\\', 'u', '0', '0', Hex.lower (c.toNat / 16 % 16), Hex.lower (c.toNat % 16)]

/-- A character as it stands between the quotes. -/
def encodeChar (c : Char) : List Char :=
  if c = '"' then ['\\', '"']
  else if c = '\\' then ['\\', '\\']
  else if c = '\n' then ['\\', 'n']
  else if c = '\r' then ['\\', 'r']
  else if c = '\t' then ['\\', 't']
  else if c = '\x08' then ['\\', 'b']
  else if c = '\x0c' then ['\\', 'f']
  else if c.toNat < 0x20 then escapeControl c
  else [c]

/-- A text as it stands between the quotes. -/
def encode (cs : List Char) : List Char := cs.flatMap encodeChar

/-- A text with its quotes. -/
def write (s : String) : String := "\"" ++ String.ofList (encode s.toList) ++ "\""

/-! ### Reading quoted text -/

/-- Where reading stands. -/
inductive Stage where
  /-- Outside any escape. -/
  | plain
  /-- After a backslash. -/
  | escape
  /-- After `\u`: the digits so far, and the high surrogate that came before. -/
  | digits (before : Option Nat) (got : List Char)
  /-- After a high surrogate, which a second escape must follow. -/
  | paired (high : Nat)
  /-- After a high surrogate and a backslash. -/
  | pairedEscape (high : Nat)

/-- What a character does. -/
inductive Move where
  /-- Reading goes on in another stage. -/
  | go (stage : Stage)
  /-- A character of the text is complete. -/
  | emit (c : Char)
  /-- The closing quote. -/
  | close
  /-- The character cannot stand here. -/
  | refuse

/-- The character that a letter after a backslash stands for. -/
def shortEscape? (c : Char) : Option Char :=
  if c = '"' ∨ c = '\\' ∨ c = '/' then some c
  else if c = 'b' then some '\x08'
  else if c = 'f' then some '\x0c'
  else if c = 'n' then some '\n'
  else if c = 'r' then some '\r'
  else if c = 't' then some '\t'
  else none

/-- The first half of a pair. -/
def isHigh (n : Nat) : Bool := 0xD800 ≤ n && n < 0xDC00

/-- The second half of a pair. -/
def isLow (n : Nat) : Bool := 0xDC00 ≤ n && n < 0xE000

/-- Four digits after `\u`.  Unless `strict`, surrogates need no partner. -/
def unitMove (strict : Bool) (before : Option Nat) (n : Nat) : Move :=
  if !strict then .emit (Char.ofNat n)
  else match before with
    | none => if isHigh n then .go (.paired n) else if isLow n then .refuse else .emit (Char.ofNat n)
    | some h =>
      if isLow n then .emit (Char.ofNat (0x10000 + (h - 0xD800) * 1024 + (n - 0xDC00)))
      else .refuse

/-- One character. -/
def Stage.move (strict : Bool) : Stage → Char → Move
  | .plain, c =>
    if c = '"' then .close
    else if c = '\\' then .go .escape
    else if c.toNat < 0x20 then .refuse
    else .emit c
  | .escape, c =>
    if c = 'u' then .go (.digits none [])
    else match shortEscape? c with
      | some d => .emit d
      | none => .refuse
  | .digits before got, c =>
    -- four octets are taken before they are looked at
    let got := got ++ [c]
    if got.foldl (fun n d => n + d.utf8Size) 0 < 4 then .go (.digits before got)
    else match Hex.number? got with
      | some n => unitMove strict before n
      | none => .refuse
  | .paired n, c => if c = '\\' then .go (.pairedEscape n) else .refuse
  | .pairedEscape n, c => if c = 'u' then .go (.digits (some n) []) else .refuse

/-- Read on to the closing quote; `acc` holds the characters read, last first. -/
def readFrom (strict : Bool) (stage : Stage) (acc : List Char) : Reader (List Char)
  | [] => .error .cutShort
  | c :: cs =>
    match stage.move strict c with
    | .go stage => readFrom strict stage acc cs
    | .emit d => readFrom strict .plain (d :: acc) cs
    | .close => .ok (acc.reverse, cs)
    | .refuse => .error .illFormed

/-- Read the text after an opening quote. -/
def read : Reader (List Char) := readFrom true .plain []

/-- Step over the text after an opening quote. -/
def skip (cs : List Char) : Except Fault (List Char) :=
  (readFrom false .plain [] cs).map Prod.snd

/-- The text that a whole row of characters between quotes stands for. -/
def decode? (cs : List Char) : Option (List Char) :=
  match read (cs ++ ['"']) with
  | .ok (text, []) => some text
  | _ => none

end ScimQuery.Json.Quoted
