/-
ScimQuery/Json/Number.lean

Numbers in JSON text, where a natural number is wanted.  A sign, a fraction or an
exponent makes a number unfit, and so does a value above the bound; but a number
too large for binary floating point is not taken for a number at all.
-/
import ScimQuery.Json.Basic
import ScimQuery.Number.Binary64

namespace ScimQuery.Json

open ScimQuery

/-! ### The range of numbers -/

/-- The greatest integer that is read exactly. -/
def maxInteger : Nat := 0xFFFFFFFFFFFFFFFF

/-- A value under way: the digits that fit into an integer, and their power of ten. -/
structure Scaled where
  significand : Nat
  exponent : Int

/-- Append a digit if the result fits. -/
def Scaled.append? (s : Scaled) (c : Char) : Option Nat :=
  let n := s.significand * 10 + (c.toNat - 48)
  if n ≤ maxInteger then some n else none

/-- The digits before the point.  From the first that does not fit on, each one
only counts as a power of ten. -/
def Scaled.ofWhole (digits : List Char) : Scaled :=
  (digits.foldl
    (fun (s, full) c =>
      match if full then none else s.append? c with
      | some n => (⟨n, 0⟩, false)
      | none => (⟨s.significand, s.exponent + 1⟩, true))
    ((⟨0, 0⟩ : Scaled), false)).1

/-- The digits after the point, up to the first that does not fit. -/
def Scaled.addFraction (s : Scaled) (digits : List Char) : Scaled :=
  (digits.foldl
    (fun (s, full) c =>
      match if full then none else s.append? c with
      | some n => (⟨n, s.exponent - 1⟩, false)
      | none => (s, true))
    (s, false)).1

/-- The product of the significand and the power of ten is finite. -/
def Scaled.inRange (s : Scaled) : Bool :=
  match s.exponent with
  | .negSucc _ => true
  | .ofNat e =>
    if 308 < e then s.significand == 0
    else
      let units n := Binary64.unitsOf (Binary64.nearest n 1)
      Binary64.nearest (units s.significand * units (Nat.pow 10 e)) (Binary64.perOne * Binary64.perOne)
        < Binary64.infinity

/-! ### Reading -/

/-- Digits, at least one, and the text after them. -/
def readDigits : Reader (List Char)
  | [] => .error .cutShort
  | c :: cs =>
    if c.isDigit then .ok ((c :: cs).takeWhile Char.isDigit, (c :: cs).dropWhile Char.isDigit)
    else .error .illFormed

/-- The digits before the point: a zero stands alone. -/
def readWhole : Reader (List Char) := fun cs => do
  let (digits, rest) ← readDigits cs
  if digits.length > 1 && digits.head? == some '0' then .error .illFormed
  else .ok (digits, rest)

/-- An optional fraction. -/
def readFraction : Reader (List Char)
  | '.' :: cs => readDigits cs
  | cs => .ok ([], cs)

/-- An optional exponent. -/
def readExponent : Reader (Option Int)
  | [] => .ok (none, [])
  | c :: cs =>
    if c = 'e' ∨ c = 'E' then do
      let (negative, cs) := match cs with
        | '-' :: cs => (true, cs)
        | '+' :: cs => (false, cs)
        | _ => (false, cs)
      let (digits, rest) ← readDigits cs
      let n : Int := Nat.ofDigitChars 10 digits 0
      .ok (some (if negative then -n else n), rest)
    else .ok (none, c :: cs)

/-- Read a number; the value is given only if it is a natural number written
without sign, fraction and exponent. -/
def readNumber : Reader (Option Nat) := fun cs => do
  let (negative, cs) := match cs with
    | '-' :: cs => (true, cs)
    | _ => (false, cs)
  let (whole, cs) ← readWhole cs
  let (fraction, cs) ← readFraction cs
  let (exponent?, cs) ← readExponent cs
  let value := Nat.ofDigitChars 10 whole 0
  if fraction.isEmpty && exponent? == none && value ≤ maxInteger then
    .ok (if negative then none else some value, cs)
  else
    let scaled := (Scaled.ofWhole whole).addFraction fraction
    if { scaled with exponent := scaled.exponent + exponent?.getD 0 }.inRange then .ok (none, cs)
    else .error .illFormed

end ScimQuery.Json
