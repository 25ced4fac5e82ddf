/-
ScimQuery/Text/Octets.lean

Texts as octets.  In UTF-8 a character is written by `Utf8.encodeChar`; octets are
read one at a time by a machine that is either between characters or inside a
character some of whose octets are still owed.

Two readers share the machine.  `Utf8.decode` refuses octets that are not UTF-8 and
says where the refused run starts and how long it is; `Utf8.decodeLossy` puts one
replacement character in the place of each refused run.  A refused run is the
longest start of a character that the octets hold, or one octet if no character
starts with it.

In query strings the octets are percent-encoded.  ASCII letters, digits and `-_.~`
travel as they are, every other octet as `%` and two upper-case hexadecimal digits.
Reading takes `%` with two hexadecimal digits of either case for an octet, leaves
any other `%` as it stands, and takes `+` for a space.
-/
import ScimQuery.Text.Basic

namespace ScimQuery.Text.Utf8

/-! ### Writing UTF-8 -/

/-- The octets of a character, one to four. -/
def encodeChar (c : Char) : List UInt8 :=
  let n := c.toNat
  if n < 0x80 then [n.toUInt8]
  else if n < 0x800 then [(0xC0 + n / 64).toUInt8, (0x80 + n % 64).toUInt8]
  else if n < 0x10000 then
    [(0xE0 + n / 4096).toUInt8, (0x80 + n / 64 % 64).toUInt8, (0x80 + n % 64).toUInt8]
  else
    [(0xF0 + n / 262144).toUInt8, (0x80 + n / 4096 % 64).toUInt8,
      (0x80 + n / 64 % 64).toUInt8, (0x80 + n % 64).toUInt8]

/-- The octets of a text. -/
def encode (cs : List Char) : List UInt8 := cs.flatMap encodeChar

/-! ### The machine that reads UTF-8 -/

/-- A character whose first `taken` octets are read. -/
structure Begun where
  /-- Octets still to come. -/
  owed : Nat
  /-- The least next octet. -/
  low : Nat
  /-- The greatest next octet. -/
  high : Nat
  /-- Octets read. -/
  taken : Nat
  /-- The code point's bits read so far. -/
  value : Nat

/-- What one octet does. -/
inductive Outcome where
  /-- It ends a character. -/
  | char (c : Char)
  /-- The character goes on. -/
  | more (b : Begun)
  /-- No character has it here. -/
  | refused

/-- The first octet of a character. -/
def lead (n : Nat) : Outcome :=
  if n < 0x80 then .char (Char.ofNat n)
  else if n < 0xC2 then .refused
  else if n < 0xE0 then .more ⟨1, 0x80, 0xBF, 1, n - 0xC0⟩
  else if n < 0xF0 then
    -- no overlong forms, no surrogates
    .more ⟨2, if n = 0xE0 then 0xA0 else 0x80, if n = 0xED then 0x9F else 0xBF, 1, n - 0xE0⟩
  else if n < 0xF5 then
    -- no overlong forms, nothing above the last code point
    .more ⟨3, if n = 0xF0 then 0x90 else 0x80, if n = 0xF4 then 0x8F else 0xBF, 1, n - 0xF0⟩
  else .refused

/-- A later octet of a character. -/
def Begun.feed (b : Begun) (n : Nat) : Outcome :=
  if n < b.low ∨ b.high < n then .refused
  else
    let value := b.value * 64 + (n - 0x80)
    if b.owed = 1 then .char (Char.ofNat value)
    else .more ⟨b.owed - 1, 0x80, 0xBF, b.taken + 1, value⟩

/-- One octet, between characters or inside one. -/
def feed : Option Begun → Nat → Outcome
  | none, n => lead n
  | some b, n => b.feed n

/-! ### Reading UTF-8 -/

/-- Where octets stop being UTF-8. -/
inductive Fault where
  /-- A run of `length` octets from `index` on starts no character. -/
  | invalid (length index : Nat)
  /-- The octets end inside the character that starts at `index`. -/
  | cut (index : Nat)
  deriving DecidableEq, Repr

/-- How a fault is worded. -/
def Fault.message : Fault → String
  | .invalid length index =>
    "invalid utf-8 sequence of " ++ toString length ++ " bytes from index " ++ toString index
  | .cut index => "incomplete utf-8 byte sequence from index " ++ toString index

/-- Octets read since the last whole character. -/
def taken : Option Begun → Nat
  | none => 0
  | some b => b.taken

/-- Read on from octet number `index`; `acc` holds the characters read, last first. -/
def decodeFrom (index : Nat) (acc : List Char) :
    Option Begun → List UInt8 → Except Fault (List Char)
  | none, [] => .ok acc.reverse
  | some b, [] => .error (.cut (index - b.taken))
  | state, o :: os =>
    match feed state o.toNat with
    | .char c => decodeFrom (index + 1) (c :: acc) none os
    | .more b => decodeFrom (index + 1) acc (some b) os
    | .refused => .error (.invalid (max 1 (taken state)) (index - taken state))

/-- The text that the octets spell, or where they stop being UTF-8. -/
def decode (os : List UInt8) : Except Fault (List Char) := decodeFrom 0 [] none os

/-- What stands for octets that are not UTF-8. -/
def replacement : Char := '\ufffd'

/-- Read on, with a replacement character for each refused run. -/
def decodeLossyFrom (acc : List Char) : Option Begun → List UInt8 → List Char
  | none, [] => acc.reverse
  | some _, [] => (replacement :: acc).reverse
  | none, o :: os =>
    match lead o.toNat with
    | .char c => decodeLossyFrom (c :: acc) none os
    | .more b => decodeLossyFrom acc (some b) os
    | .refused => decodeLossyFrom (replacement :: acc) none os
  | some b, o :: os =>
    match b.feed o.toNat with
    | .char c => decodeLossyFrom (c :: acc) none os
    | .more b' => decodeLossyFrom acc (some b') os
    | .refused =>
      -- the run so far is replaced, and the octet may start a character itself
      match lead o.toNat with
      | .char c => decodeLossyFrom (c :: replacement :: acc) none os
      | .more b' => decodeLossyFrom (replacement :: acc) (some b') os
      | .refused => decodeLossyFrom (replacement :: replacement :: acc) none os

/-- The text that the octets spell, each refused run replaced. -/
def decodeLossy (os : List UInt8) : List Char := decodeLossyFrom [] none os

end ScimQuery.Text.Utf8

namespace ScimQuery.Text.Percent

/-! ### Percent-encoding -/

/-- The characters that need no escape. -/
def isUnreserved (c : Char) : Bool :=
  c.isAlphanum || c == '-' || c == '_' || c == '.' || c == '~'

/-- An octet as `%` and two digits. -/
def escape (o : UInt8) : List Char := ['%', Hex.upper (o.toNat / 16), Hex.upper (o.toNat % 16)]

/-- A character as it travels. -/
def encodeChar (c : Char) : List Char :=
  if isUnreserved c then [c] else (Utf8.encodeChar c).flatMap escape

/-- A text as it travels in a query value. -/
def encode (cs : List Char) : List Char := cs.flatMap encodeChar

/-! ### Percent-decoding -/

/-- A space for each `+`. -/
def plusToSpace (cs : List Char) : List Char := cs.map fun c => if c = '+' then ' ' else c

/-- The octets that an escaped text stands for; `acc` holds those read, last first. -/
def octetsFrom (acc : List UInt8) : List Char → List UInt8
  | [] => acc.reverse
  | '%' :: a :: b :: rest =>
    match Hex.value? a, Hex.value? b with
    | some x, some y => octetsFrom ((16 * x + y).toUInt8 :: acc) rest
    | _, _ => octetsFrom (('%').toNat.toUInt8 :: acc) (a :: b :: rest)
  | c :: rest => octetsFrom ((Utf8.encodeChar c).reverse ++ acc) rest

/-- The octets that an escaped text stands for. -/
def octets (cs : List Char) : List UInt8 := octetsFrom [] (plusToSpace cs)

/-- Read a query value; its octets must be UTF-8. -/
def decode (cs : List Char) : Except Utf8.Fault (List Char) := Utf8.decode (octets cs)

/-- Read a form value; octets that are not UTF-8 are replaced. -/
def decodeLossy (cs : List Char) : List Char := Utf8.decodeLossy (octets cs)

end ScimQuery.Text.Percent
