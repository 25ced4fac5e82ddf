/-
ScimQuery/Text/Basic.lean

The characters of filter texts.  Words are separated by the characters of the
Unicode property White_Space; keywords and attribute names are compared without
regard to ASCII case, and no other letter is folded; octets and control characters
are spelled with hexadecimal digits, read in either case.

`alike` compares two texts character by character, `fold` gives the lower-case
form.  `alike_iff_fold_eq` joins the two: texts are alike exactly when their folded
forms are equal.  Parts that may be absent are compared in the same way
(`alikePart_iff_fold_eq`).
-/
namespace ScimQuery.Text

/-! ### Blanks -/

/-- The property White_Space. -/
def isBlank (c : Char) : Bool :=
  let n := c.toNat
  (0x09 ≤ n && n ≤ 0x0D) || n == 0x20 || n == 0x85 || n == 0xA0 || n == 0x1680 ||
    (0x2000 ≤ n && n ≤ 0x200A) || n == 0x2028 || n == 0x2029 || n == 0x202F ||
    n == 0x205F || n == 0x3000

/-- Drop the blanks at both ends. -/
def trim (cs : List Char) : List Char :=
  ((cs.dropWhile isBlank).reverse.dropWhile isBlank).reverse

/-- The ASCII white space is blank. -/
theorem isBlank_of_isWhitespace {c : Char} (h : c.isWhitespace = true) : isBlank c = true := by
  simp only [Char.isWhitespace, Bool.or_eq_true, decide_eq_true_eq] at h
  rcases h with ((rfl | rfl) | rfl) | rfl <;> decide

example : isBlank '\u00a0' ∧ isBlank '\u2028' ∧ ¬ isBlank '\u200b' ∧ ¬ isBlank 'a' := by decide

/-! ### ASCII case -/

/-- The lower-case form: the letters `A` to `Z` become small, all else stays. -/
def fold (cs : List Char) : List Char := cs.map Char.toLower

/-- Equality up to ASCII case, one character at a time. -/
def alikeChars : List Char → List Char → Bool
  | [], [] => true
  | a :: as, b :: bs => a.toLower == b.toLower && alikeChars as bs
  | _, _ => false

/-- Two words that differ at most in ASCII case. -/
def alike (a b : String) : Bool := alikeChars a.toList b.toList

theorem alikeChars_iff_fold_eq {as bs : List Char} :
    alikeChars as bs = true ↔ fold as = fold bs := by
  induction as generalizing bs with
  | nil => cases bs <;> simp [alikeChars, fold]
  | cons a as ih =>
    cases bs with
    | nil => simp [alikeChars, fold]
    | cons b bs =>
      have := @ih bs
      simp_all [alikeChars, fold]

/-- Texts are alike exactly when their folded forms are equal. -/
theorem alike_iff_fold_eq {a b : String} :
    alike a b = true ↔ fold a.toList = fold b.toList :=
  alikeChars_iff_fold_eq

theorem length_eq_of_fold_eq {as bs : List Char} (h : fold as = fold bs) :
    as.length = bs.length := by
  have hlen := congrArg List.length h
  rwa [fold, fold, List.length_map, List.length_map] at hlen

theorem alike_refl (a : String) : alike a a = true := alike_iff_fold_eq.2 rfl

theorem alike_symm {a b : String} (h : alike a b = true) : alike b a = true :=
  alike_iff_fold_eq.2 (alike_iff_fold_eq.1 h).symm

theorem alike_trans {a b c : String} (h₁ : alike a b = true) (h₂ : alike b c = true) :
    alike a c = true :=
  alike_iff_fold_eq.2 ((alike_iff_fold_eq.1 h₁).trans (alike_iff_fold_eq.1 h₂))

/-- Absent parts are alike, present parts are compared, nothing else is alike. -/
def alikePart : Option String → Option String → Bool
  | some a, some b => alike a b
  | none, none => true
  | _, _ => false

/-- Parts are alike exactly when a form that only alike texts share is equal on them. -/
theorem map_eq_iff_alikePart {β : Type} {f : String → β}
    (hf : ∀ {s t}, f s = f t ↔ alike s t = true) {s t : Option String} :
    s.map f = t.map f ↔ alikePart s t = true := by
  cases s <;> cases t <;> simp [alikePart, hf]

theorem alikePart_iff_fold_eq {a b : Option String} : alikePart a b = true ↔
    (a.map fun s => fold s.toList) = b.map fun s => fold s.toList :=
  (map_eq_iff_alikePart alike_iff_fold_eq.symm).symm

theorem alikePart_refl (a : Option String) : alikePart a a = true := alikePart_iff_fold_eq.2 rfl

theorem alikePart_symm {a b : Option String} (h : alikePart a b = true) :
    alikePart b a = true :=
  alikePart_iff_fold_eq.2 (alikePart_iff_fold_eq.1 h).symm

theorem alikePart_trans {a b c : Option String} (h₁ : alikePart a b = true)
    (h₂ : alikePart b c = true) : alikePart a c = true :=
  alikePart_iff_fold_eq.2 ((alikePart_iff_fold_eq.1 h₁).trans (alikePart_iff_fold_eq.1 h₂))

end ScimQuery.Text

/-! ### Hexadecimal digits -/

namespace ScimQuery.Text.Hex

/-- The value of a hexadecimal digit of either case. -/
def value? (c : Char) : Option Nat :=
  if '0' ≤ c ∧ c ≤ '9' then some (c.toNat - 48)
  else if 'a' ≤ c ∧ c ≤ 'f' then some (c.toNat - 87)
  else if 'A' ≤ c ∧ c ≤ 'F' then some (c.toNat - 55)
  else none

/-- The upper-case digit of a value below sixteen. -/
def upper (n : Nat) : Char :=
  if n < 10 then Char.ofNat (48 + n) else Char.ofNat (55 + n)

/-- The lower-case digit of a value below sixteen. -/
def lower (n : Nat) : Char :=
  if n < 10 then Char.ofNat (48 + n) else Char.ofNat (87 + n)

/-- The value of a row of digits, the first one the highest. -/
def number? (cs : List Char) : Option Nat :=
  cs.foldl (fun acc c => acc.bind fun n => (value? c).map (16 * n + ·)) (some 0)

theorem value?_upper : ∀ n < 16, value? (upper n) = some n := by decide

theorem value?_lower : ∀ n < 16, value? (lower n) = some n := by decide

end ScimQuery.Text.Hex
