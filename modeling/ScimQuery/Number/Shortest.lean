/-
ScimQuery/Number/Shortest.lean

The decimal with the fewest digits that reads back to a given binary number.
The grids of powers of ten are tried from the coarse to the fine: first the power
next above the number, then grids with one digit, two digits and so on.  On each
of them the two neighbours of the number are candidates.  The first grid with a
neighbour that reads back wins, and of two that read back the nearer one, the
upper one on a tie.

`ofDecimal_shortest` says that the result reads back: it is found by reading the
candidates, and where none were found the exact value would be taken.
-/
import ScimQuery.Number.Binary64

namespace ScimQuery.Binary64

/-- The number over a power of ten, as a fraction of naturals. -/
def overPower (units : Nat) : Int → Nat × Nat
  | .ofNat k => (units, perOne * Nat.pow 10 k)
  | .negSucc k => (units * Nat.pow 10 (k + 1), perOne)

/-- Reading the decimal gives the magnitude. -/
def readsBack (magnitude : Nat) (d : Decimal) : Bool :=
  nearest d.ratio.1 d.ratio.2 = magnitude

/-- The neighbour on the grid `10 ^ exponent` that reads back, if there is one. -/
def onGrid? (magnitude : Nat) (exponent : Int) : Option Decimal :=
  let (num, den) := overPower (unitsOf magnitude) exponent
  let low : Decimal := ⟨num / den, exponent⟩
  let high : Decimal := ⟨num / den + 1, exponent⟩
  if readsBack magnitude low && (2 * (num % den) < den || !readsBack magnitude high) then some low
  else if readsBack magnitude high then some high
  else none

/-- The place of the first digit: a positive number is below `10` to this power
and not below the power before. -/
def leadingPlace (magnitude : Nat) : Int :=
  -- the least positive number is above `10 ^ -324`
  (Nat.toDigits 10 (unitsOf magnitude * Nat.pow 10 324 / perOne)).length - 324

/-- The exact value. -/
def exactDecimal (magnitude : Nat) : Decimal :=
  ⟨unitsOf magnitude * Nat.pow 5 leastPower, -(leastPower : Int)⟩

/-- The shortest decimal that reads back.  Seventeen digits are always enough. -/
def shortest (magnitude : Nat) : Decimal :=
  if magnitude = 0 then ⟨0, 0⟩
  else
    let place := leadingPlace magnitude
    ((List.range 18).findSome? fun (n : Nat) => onGrid? magnitude (place - n)).getD
      (exactDecimal magnitude)

/-! ### The result reads back -/

theorem readsBack_of_onGrid? {m : Nat} {e : Int} {d : Decimal} (h : onGrid? m e = some d) :
    readsBack m d = true := by
  simp only [onGrid?] at h
  split at h
  · rename_i hc
    obtain rfl := Option.some.inj h
    exact (Bool.and_eq_true_iff.1 hc).1
  · split at h
    · rename_i hc
      obtain rfl := Option.some.inj h
      exact hc
    · cases h

theorem tenPow_eq (k : Nat) : Nat.pow 10 k = Nat.pow 2 k * Nat.pow 5 k := by
  simp only [Nat.pow_eq, ← Nat.mul_pow]

theorem fivePow_pos (k : Nat) : 0 < Nat.pow 5 k := Nat.pow_pos (by decide)

theorem readsBack_of_nearest {m c k : Nat} (hk : 0 < k) (h : nearest c (Nat.pow 10 k) = m) :
    readsBack m ⟨c, -(k : Int)⟩ = true := by
  rw [readsBack, Decimal.ratio_neg c hk, decide_eq_true_eq]
  exact h

/-- The exact value reads back.  The power of two is a variable here: as a numeral it
would have hundreds of digits. -/
theorem readsBack_scaled {m k : Nat} (h : m ≤ infinity) (hk : 0 < k)
    (hone : perOne = Nat.pow 2 k) :
    readsBack m ⟨unitsOf m * Nat.pow 5 k, -(k : Int)⟩ = true := by
  apply readsBack_of_nearest hk
  rw [tenPow_eq, ← hone]
  exact nearest_value h (fivePow_pos k)

theorem readsBack_exactDecimal {m : Nat} (h : m ≤ infinity) :
    readsBack m (exactDecimal m) = true :=
  readsBack_scaled h leastPower_pos perOne_eq

/-- Reading the shortest decimal gives the number back. -/
theorem ofDecimal_shortest {x : Binary64} (h : x.magnitude ≤ infinity) :
    ofDecimal x.negative (shortest x.magnitude) = x := by
  have key : readsBack x.magnitude (shortest x.magnitude) = true := by
    unfold shortest
    split
    · rename_i h0
      rw [h0]
      decide +kernel
    · rcases hf : (List.range 18).findSome?
          (fun (n : Nat) => onGrid? x.magnitude (leadingPlace x.magnitude - n)) with - | d
      · simpa [hf] using readsBack_exactDecimal h
      · obtain ⟨n, -, hn⟩ := List.exists_of_findSome?_eq_some hf
        simpa [hf] using readsBack_of_onGrid? hn
  obtain ⟨negative, magnitude, hm⟩ := x
  simpa [readsBack, ofDecimal, ofRatio] using key

end ScimQuery.Binary64
