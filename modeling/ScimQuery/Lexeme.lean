/-
ScimQuery/Lexeme.lean

Lexemes: the brackets, quoted strings and words of a filter text, each with the
position of its first character, and a mark for the end.  Keywords, attribute
paths and bare values are all words; which one a word is follows from where it
stands.

A text is cut into lexemes one character at a time.  The scanner is between
lexemes, inside a word, or inside a quoted string.  A word ends before the next
blank, bracket or quote; a string ends at the first quote that no backslash
stands before, where a backslash takes the character after it along.  The text has
no lexemes only if it ends inside a string.
-/
import ScimQuery.Text.Basic

namespace ScimQuery

/-! ### Tokens -/

/-- What a lexeme is. -/
inductive Token where
  /-- An opening parenthesis. -/
  | openParen
  /-- A closing parenthesis. -/
  | closeParen
  /-- An opening bracket. -/
  | openBracket
  /-- A closing bracket. -/
  | closeBracket
  /-- A quoted string with its quotes and escapes. -/
  | quoted (raw : String)
  /-- A run of characters without blanks, brackets and quotes. -/
  | word (raw : String)
  /-- The end of the text. -/
  | eof
  deriving DecidableEq, Repr

/-- How a token is named in a message. -/
def Token.describe : Token → String
  | openParen => "'('"
  | closeParen => "')'"
  | openBracket => "'['"
  | closeBracket => "']'"
  | quoted raw => "'" ++ raw ++ "'"
  | word raw => "'" ++ raw ++ "'"
  | eof => "end of input"

/-- A token and the position of its first character, counted in characters. -/
structure Lexeme where
  token : Token
  position : Nat
  deriving DecidableEq, Repr

end ScimQuery

/-! ### Scanning -/

namespace ScimQuery.Scan

/-- The token of a single bracket. -/
def bracket? (c : Char) : Option Token :=
  if c = '(' then some .openParen
  else if c = ')' then some .closeParen
  else if c = '[' then some .openBracket
  else if c = ']' then some .closeBracket
  else none

/-- The characters that end a word. -/
def isDelimiter (c : Char) : Bool := Text.isBlank c || (bracket? c).isSome || c == '"'

/-- Where the scanner stands.  Characters read are kept last first. -/
inductive Place where
  | between
  | word (start : Nat) (read : List Char)
  | quoted (start : Nat) (read : List Char) (escaped : Bool)

/-- The scanner: its place, the position of the next character, and the lexemes
found, last first. -/
structure Scanner where
  place : Place
  position : Nat
  found : List Lexeme

/-- A character between lexemes, after `found`. -/
def enter (found : List Lexeme) (position : Nat) (c : Char) : Scanner :=
  if Text.isBlank c then ⟨.between, position + 1, found⟩
  else match bracket? c with
    | some token => ⟨.between, position + 1, ⟨token, position⟩ :: found⟩
    | none =>
      if c = '"' then ⟨.quoted position [c] false, position + 1, found⟩
      else ⟨.word position [c], position + 1, found⟩

/-- The lexeme of a word. -/
def wordLexeme (start : Nat) (read : List Char) : Lexeme :=
  ⟨.word (String.ofList read.reverse), start⟩

/-- One character. -/
def feed (s : Scanner) (c : Char) : Scanner :=
  match s.place with
  | .between => enter s.found s.position c
  | .word start read =>
    if isDelimiter c then enter (wordLexeme start read :: s.found) s.position c
    else ⟨.word start (c :: read), s.position + 1, s.found⟩
  | .quoted start read true => ⟨.quoted start (c :: read) false, s.position + 1, s.found⟩
  | .quoted start read false =>
    if c = '"' then
      ⟨.between, s.position + 1,
        ⟨.quoted (String.ofList (c :: read).reverse), start⟩ :: s.found⟩
    else ⟨.quoted start (c :: read) (c == '\\'), s.position + 1, s.found⟩

/-- The lexemes at the end of the text, or the position of the quote that is not
closed. -/
def finish (s : Scanner) : Except Nat (List Lexeme) :=
  match s.place with
  | .between => .ok ((⟨.eof, s.position⟩ :: s.found).reverse)
  | .word start read => .ok ((⟨.eof, s.position⟩ :: wordLexeme start read :: s.found).reverse)
  | .quoted start _ _ => .error start

/-- The lexemes of a text, or the position of the quote that is not closed. -/
def lexemes (cs : List Char) : Except Nat (List Lexeme) :=
  finish (cs.foldl feed ⟨.between, 0, []⟩)

end ScimQuery.Scan
