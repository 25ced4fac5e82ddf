/-
ScimQuery/Number/Decimal.lean

Decimal numbers: a coefficient times a power of ten.  `Decimal.read?` takes the
written form of a number without its sign, digits with an optional point and an
optional exponent, and `Decimal.text` writes a decimal without an exponent.
-/
namespace ScimQuery

/-- The number `coefficient · 10 ^ exponent`. -/
structure Decimal where
  coefficient : Nat
  exponent : Int
  deriving DecidableEq, Repr

namespace Decimal

/-- The number as a fraction of naturals. -/
def ratio (d : Decimal) : Nat × Nat :=
  match d.exponent with
  | .ofNat k => (d.coefficient * Nat.pow 10 k, 1)
  | .negSucc k => (d.coefficient, Nat.pow 10 (k + 1))

theorem ratio_neg (c : Nat) {k : Nat} (h : 0 < k) :
    (⟨c, -(k : Int)⟩ : Decimal).ratio = (c, Nat.pow 10 k) := by
  obtain ⟨k, rfl⟩ := Nat.exists_eq_succ_of_ne_zero (Nat.pos_iff_ne_zero.1 h)
  rfl

/-! ### Writing -/

/-- The digits of `n`, zeros put in front until there are `places` of them. -/
def padded (places n : Nat) : List Char :=
  let digits := Nat.toDigits 10 n
  List.replicate (places - digits.length) '0' ++ digits

/-- Positional notation: every digit down to the last place, and no exponent. -/
def text (d : Decimal) : List Char :=
  match d.exponent with
  | .ofNat k => Nat.toDigits 10 (d.coefficient * Nat.pow 10 k)
  | .negSucc k =>
    let unit := Nat.pow 10 (k + 1)
    Nat.toDigits 10 (d.coefficient / unit) ++ '.' :: padded (k + 1) (d.coefficient % unit)

/-! ### Reading -/

/-- The value of an exponent's digits.  Once it has reached 65536 it is large
enough, and further digits are passed over. -/
def exponentValue (digits : List Char) : Nat :=
  digits.foldl (fun e c => if e < 65536 then 10 * e + (c.toNat - 48) else e) 0

/-- The exponent after its mark: an optional sign and at least one digit. -/
def readExponent? (cs : List Char) : Option Int :=
  let (negative, digits) := match cs with
    | '-' :: rest => (true, rest)
    | '+' :: rest => (false, rest)
    | _ => (false, cs)
  if digits.isEmpty || !digits.all Char.isDigit then none
  else if negative then some (-(exponentValue digits : Int))
  else some (exponentValue digits)

/-- The digits after the point if there is a point, and what follows them. -/
def cutFraction : List Char → List Char × List Char
  | '.' :: rest => (rest.takeWhile Char.isDigit, rest.dropWhile Char.isDigit)
  | rest => ([], rest)

/-- Read an unsigned number: digits before or after an optional point, at least
one in all, then an optional exponent. -/
def read? (cs : List Char) : Option Decimal :=
  let whole := cs.takeWhile Char.isDigit
  let (fraction, rest) := cutFraction (cs.dropWhile Char.isDigit)
  if whole.isEmpty && fraction.isEmpty then none
  else
    let exponent? := match rest with
      | [] => some 0
      | c :: rest => if c = 'e' ∨ c = 'E' then readExponent? rest else none
    exponent?.map fun exponent =>
      ⟨Nat.ofDigitChars 10 (whole ++ fraction) 0, exponent - fraction.length⟩

example : (read? "12.50".toList).map text = some "12.50".toList := by decide
example : read? ".5e-2".toList = some ⟨5, -3⟩ := by decide
example : read? ".".toList = none ∧ read? "1e".toList = none := by decide

end Decimal

end ScimQuery
