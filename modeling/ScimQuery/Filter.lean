/-
ScimQuery/Filter.lean

Filter text to expressions and back.  Reading checks the limits, then the length
of the text, cuts it into lexemes, runs the grammar over them and builds the tree
that it tells.  A filter also travels percent-encoded, and as a JSON text.
-/
import ScimQuery.Event
import ScimQuery.Expr.Printer
import ScimQuery.Lexeme
import ScimQuery.Reading.Machine

namespace ScimQuery.Filter

/-- The lexemes of a text. -/
def lexemes (input : String) : Except Fault (List Lexeme) :=
  match Scan.lexemes input.toList with
  | .ok lexemes => .ok lexemes
  | .error position => .error (.ofGrammar input .unclosedString (some position))

/-- The expression that lexemes make; faults quote `input`. -/
def ofLexemes (limits : Limits) (input : String) (lexemes : List Lexeme) : Except Fault Expr := do
  let events ← Reading.events limits input lexemes
  match Assembly.assemble events with
  | .ok e => .ok e
  | .error imbalance => .error (.imbalance imbalance)

/-- Read a filter within the given limits. -/
def parseWith (limits : Limits) (input : String) : Except Fault Expr := do
  match limits.validate with
  | .error fault => .error (.limits fault)
  | .ok () =>
    if limits.length < input.utf8ByteSize then
      .error (.ofGrammar input (.tooLong input.utf8ByteSize limits.length) none)
    else
      let lexemes ← lexemes input
      ofLexemes limits input lexemes

/-- Read a filter. -/
def parse (input : String) : Except Fault Expr := parseWith {} input

/-! ### Transport -/

/-- A text as it travels in a query value. -/
def encode (text : String) : String := String.ofList (Text.Percent.encode text.toList)

/-- The text of a query value. -/
def decode (encoded : String) : Except Fault String :=
  match Text.Percent.decode encoded.toList with
  | .ok chars => .ok (String.ofList chars)
  | .error fault => .error (.encoding (.octets encoded fault))

/-- Read a filter from a query value. -/
def parseEncoded (encoded : String) : Except Fault Expr := decode encoded >>= parse

/-- Read a filter from a JSON text. -/
def reader : Json.Reader Expr := Json.textAs fun s => (parse s).toOption

end ScimQuery.Filter
