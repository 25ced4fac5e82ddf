/-
ScimQuery/Number/Binary64.lean

Binary floating point of 64 bits, as exact arithmetic on naturals.  Besides its
sign, a number is one natural of 63 bits, its *magnitude*: magnitudes are in the
order of the numbers they stand for, infinity comes after every finite number,
and what comes after infinity is not a number.

A finite number is `significand · 2 ^ scale` times the least positive number,
which is `2 ^ -1074`.  `nearest` rounds a fraction of naturals to the nearest
magnitude, a tie to the even one.

`nearest_value` says that rounding gives every finite number back from its own
exact value.
-/
import ScimQuery.Number.Decimal

namespace ScimQuery

/-- A sign and the 63 bits after it. -/
structure Binary64 where
  negative : Bool
  magnitude : Nat
  magnitude_lt : magnitude < 0x8000000000000000
  deriving DecidableEq, Repr

namespace Binary64

/-! ### Magnitudes -/

/-- The magnitude of infinity: all exponent bits set, no fraction. -/
def infinity : Nat := 0x7FF0000000000000

/-- The leading bit of a significand, which the 52 bits of the fraction follow. -/
def leadingBit : Nat := 0x10000000000000

/-- The least positive number is two to minus this power. -/
def leastPower : Nat := 1074

/-- The least positive number goes this often into one. -/
def perOne : Nat := Nat.pow 2 leastPower

theorem leastPower_pos : 0 < leastPower := by decide

theorem perOne_eq : perOne = Nat.pow 2 leastPower := by
  unfold perOne
  rfl

theorem twoPow_pos (k : Nat) : 0 < Nat.pow 2 k := Nat.two_pow_pos k

theorem perOne_pos : 0 < perOne := by
  rw [perOne_eq]
  exact twoPow_pos leastPower

/-- The power of two that the significand is multiplied by, over the least
positive number. -/
def scaleOf (magnitude : Nat) : Nat := magnitude / leadingBit - 1

/-- The fraction bits, with the leading bit unless the number is subnormal. -/
def significandOf (magnitude : Nat) : Nat := magnitude - scaleOf magnitude * leadingBit

/-- A finite magnitude as a multiple of the least positive number. -/
def unitsOf (magnitude : Nat) : Nat := significandOf magnitude * Nat.pow 2 (scaleOf magnitude)

/-- The quotient rounded to the nearest natural, a tie to the even one. -/
def roundDiv (num den : Nat) : Nat :=
  let q := num / den
  let r := num % den
  if 2 * r < den ∨ (2 * r = den ∧ q % 2 = 0) then q else q + 1

/-- The magnitude nearest to `num / den`; from halfway past the last finite one
on it is infinity. -/
def nearest (num den : Nat) : Nat :=
  let units := num * perOne
  let scale := (units / den).log2 - 52
  min infinity (scale * leadingBit + roundDiv units (den * Nat.pow 2 scale))

theorem roundDiv_mul_self (m : Nat) {den : Nat} (h : 0 < den) : roundDiv (m * den) den = m := by
  simp [roundDiv, Nat.mul_div_cancel _ h, h]

/-- A significand is below twice the leading bit, and has that bit set unless the
scale is zero. -/
theorem significandOf_bounds (m : Nat) :
    significandOf m < 2 * leadingBit ∧ (scaleOf m ≠ 0 → leadingBit ≤ significandOf m) := by
  unfold significandOf scaleOf leadingBit
  constructor
  · omega
  · omega

theorem scaleOf_mul_add_significandOf (m : Nat) :
    scaleOf m * leadingBit + significandOf m = m := by
  unfold significandOf scaleOf leadingBit
  omega

/-- The scale is read off the number of bits. -/
theorem log2_unitsOf (m : Nat) : (unitsOf m).log2 - 52 = scaleOf m := by
  obtain ⟨hlt, hle⟩ := significandOf_bounds m
  have hbit : leadingBit = 2 ^ 52 := by decide
  rw [hbit] at hlt hle
  by_cases hs : scaleOf m = 0
  · -- a subnormal number, or one of the least scale: at most 53 bits
    rw [unitsOf, hs]
    show (significandOf m * 1).log2 - 52 = 0
    rw [Nat.mul_one]
    by_cases h0 : significandOf m = 0
    · simp [h0]
    · have hbits : (significandOf m).log2 < 53 := (Nat.log2_lt h0).2 (by omega)
      omega
  · -- exactly 53 bits before scaling
    have hge := hle hs
    have h0 : significandOf m ≠ 0 := by
      intro h
      rw [h] at hge
      exact absurd hge (by decide)
    have hpos : 0 < 2 ^ scaleOf m := Nat.two_pow_pos _
    have h1 : significandOf m * 2 ^ scaleOf m ≠ 0 :=
      Nat.mul_ne_zero h0 (Nat.pos_iff_ne_zero.1 hpos)
    rw [unitsOf, Nat.pow_eq]
    have hlow : 52 + scaleOf m ≤ (significandOf m * 2 ^ scaleOf m).log2 := by
      rw [Nat.le_log2 h1, Nat.pow_add]
      exact Nat.mul_le_mul_right _ hge
    have hhigh : (significandOf m * 2 ^ scaleOf m).log2 < 53 + scaleOf m := by
      rw [Nat.log2_lt h1, Nat.pow_add]
      exact Nat.mul_lt_mul_of_pos_right (by omega) hpos
    omega

/-- Rounding gives every finite magnitude back from its exact value, in whatever
terms the fraction is written. -/
theorem nearest_value {m k : Nat} (h : m ≤ infinity) (hk : 0 < k) :
    nearest (unitsOf m * k) (perOne * k) = m := by
  have hpos : 0 < perOne * k := Nat.mul_pos perOne_pos hk
  have hunits : unitsOf m * k * perOne = unitsOf m * (perOne * k) := by
    rw [Nat.mul_assoc, Nat.mul_comm k]
  have hsplit : unitsOf m * (perOne * k)
      = significandOf m * (perOne * k * Nat.pow 2 (scaleOf m)) := by
    rw [unitsOf, Nat.mul_assoc, Nat.mul_comm (Nat.pow 2 (scaleOf m))]
  unfold nearest
  simp only [hunits, Nat.mul_div_cancel _ hpos, log2_unitsOf]
  rw [hsplit, roundDiv_mul_self _ (Nat.mul_pos hpos (twoPow_pos _)),
    scaleOf_mul_add_significandOf]
  omega

theorem nearest_lt (num den : Nat) : nearest num den < 0x8000000000000000 :=
  Nat.lt_of_le_of_lt (Nat.min_le_left _ _) (by decide)

/-! ### Numbers -/

/-- Neither infinite nor not a number. -/
def isFinite (x : Binary64) : Bool := x.magnitude < infinity

/-- Not a number. -/
def isNaN (x : Binary64) : Bool := infinity < x.magnitude

/-- The number nearest to a fraction, with the given sign. -/
def ofRatio (negative : Bool) (num den : Nat) : Binary64 :=
  ⟨negative, nearest num den, nearest_lt num den⟩

/-- The number nearest to a decimal, with the given sign. -/
def ofDecimal (negative : Bool) (d : Decimal) : Binary64 :=
  ofRatio negative d.ratio.1 d.ratio.2

/-- The number nearest to an integer. -/
def ofInt (n : Int) : Binary64 := ofRatio (n < 0) n.natAbs 1

/-- The number with the given 64 bits; higher bits are dropped. -/
def ofBits (bits : Nat) : Binary64 :=
  ⟨bits / 0x8000000000000000 % 2 = 1, bits % 0x8000000000000000, Nat.mod_lt _ (by decide)⟩

/-- The 64 bits of a number. -/
def bits (x : Binary64) : Nat := (if x.negative then 0x8000000000000000 else 0) + x.magnitude

/-- One of the values that are not a number. -/
def nan : Binary64 := ofBits 0x7FF8000000000000

/-- The number of the 32-bit format with the given bits, which is a number of the
64-bit format too.  There the fraction has 23 bits, and the least positive number
is `2 ^ -149`. -/
def ofBinary32Bits (bits : Nat) : Binary64 :=
  let negative := bits / 0x80000000 % 2 = 1
  let magnitude := bits % 0x80000000
  if magnitude < 0x7F800000 then
    let scale := magnitude / 0x800000 - 1
    ofRatio negative ((magnitude - scale * 0x800000) * Nat.pow 2 scale) (Nat.pow 2 149)
  else if magnitude = 0x7F800000 then ⟨negative, infinity, by decide⟩
  else nan

/-- Equality of numbers: zero equals negative zero, and what is not a number
equals nothing. -/
def same (x y : Binary64) : Bool :=
  !x.isNaN && !y.isNaN &&
    ((x.magnitude == 0 && y.magnitude == 0) ||
      (x.negative == y.negative && x.magnitude == y.magnitude))

example : (ofInt 9007199254740993).bits = 0x4340000000000000 := by decide +kernel
example : (ofDecimal false ⟨1, 400⟩).magnitude = infinity := by decide +kernel

end Binary64

end ScimQuery
