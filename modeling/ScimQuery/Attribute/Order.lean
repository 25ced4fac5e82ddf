/-
ScimQuery/Attribute/Order.lean

The order of attribute references: by URN, then name, then sub-attribute, each in
its lower-case form by code points, an absent part before every present one.  The
parts in lower case are also the key by which references are looked up.

Equality, order and scope see only the key: references are the same exactly when
their keys are equal (`folded_eq_iff_same`), and exactly then neither comes before
the other (`order_eq_iff_same`).  So nothing changes when a reference is replaced by
the same one (`order_congr`, `isScopedUnder_congr`), and the order is total up to
`same`.
-/
import ScimQuery.Attribute.Basic

namespace ScimQuery.Attribute

variable {a a' b b' : Attribute}

/-! ### Keys -/

/-- The parts in lower case, by which references are ordered and told apart. -/
def folded (a : Attribute) : Option (List Char) × List Char × Option (List Char) :=
  (a.urn.map fun s => Text.fold s.toList, Text.fold a.name.toList,
    a.sub.map fun s => Text.fold s.toList)

/-- References are the same exactly when their keys are equal. -/
theorem folded_eq_iff_same : a.folded = b.folded ↔ a.same b = true := by
  simp only [folded, Prod.mk.injEq, same, Bool.and_eq_true, Text.alikePart_iff_fold_eq,
    Text.alike_iff_fold_eq, and_assoc]

theorem same_congr (ha : a.same a' = true) (hb : b.same b' = true) :
    a.same b = a'.same b' := by
  rw [Bool.eq_iff_iff, ← folded_eq_iff_same, ← folded_eq_iff_same, folded_eq_iff_same.2 ha,
    folded_eq_iff_same.2 hb]

/-- As tests, references that are the same cannot be told apart. -/
theorem same_eq_of_same (h : a.same b = true) : a.same = b.same :=
  funext fun c => same_congr h (same_refl c)

theorem same_comm (a b : Attribute) : a.same b = b.same a :=
  Bool.eq_iff_iff.2 ⟨same_symm, same_symm⟩

/-- Whether a reference is a sub-attribute can be seen from the keys. -/
theorem isScopedUnder_iff : a.isScopedUnder b = true ↔
    a.folded.2.2.isSome = true ∧ a.folded.2.1 = b.folded.2.1 ∧ a.folded.1 = b.folded.1 := by
  simp only [isScopedUnder, folded, Bool.and_eq_true, Option.isSome_map, Text.alike_iff_fold_eq,
    Text.alikePart_iff_fold_eq, and_assoc]

theorem isScopedUnder_congr (ha : a.same a' = true) (hb : b.same b' = true) :
    a.isScopedUnder b = a'.isScopedUnder b' := by
  rw [Bool.eq_iff_iff, isScopedUnder_iff, isScopedUnder_iff, folded_eq_iff_same.2 ha,
    folded_eq_iff_same.2 hb]

/-! ### The order -/

/-- The order of references. -/
def order (a b : Attribute) : Ordering :=
  ((compare a.folded.1 b.folded.1).then (compare a.folded.2.1 b.folded.2.1)).then
    (compare a.folded.2.2 b.folded.2.2)

/-- Neither reference comes before the other exactly when they are the same. -/
theorem order_eq_iff_same : a.order b = .eq ↔ a.same b = true := by
  rw [← folded_eq_iff_same, Prod.ext_iff, Prod.ext_iff]
  simp only [order, Ordering.then_eq_eq, Std.LawfulEqOrd.compare_eq_iff_eq, and_assoc]

theorem order_congr (ha : a.same a' = true) (hb : b.same b' = true) :
    a.order b = a'.order b' := by
  unfold order
  rw [folded_eq_iff_same.2 ha, folded_eq_iff_same.2 hb]

instance : Std.TransCmp order :=
  inferInstanceAs <| Std.TransCmp <| compareLex
    (compareLex (compareOn fun a : Attribute => a.folded.1) (compareOn fun a => a.folded.2.1))
    (compareOn fun a => a.folded.2.2)

theorem order_swap (a b : Attribute) : b.order a = (a.order b).swap := Std.OrientedCmp.eq_swap

theorem order_trans (a b c : Attribute) (hab : (a.order b).isLE = true)
    (hbc : (b.order c).isLE = true) : (a.order c).isLE = true :=
  Std.TransCmp.isLE_trans hab hbc

theorem order_antisymm (hab : (a.order b).isLE = true) (hba : (b.order a).isLE = true) :
    a.same b = true :=
  order_eq_iff_same.1 (Std.OrientedCmp.isLE_antisymm hab hba)

theorem order_total (a b : Attribute) : ((a.order b).isLE || (b.order a).isLE) = true := by
  rw [order_swap a b]
  cases a.order b <;> rfl

/-- References in order come one before the other unless they are the same. -/
theorem order_eq_lt_iff : a.order b = .lt ↔ (a.order b).isLE = true ∧ a.same b = false := by
  rw [← Bool.not_eq_true, ← order_eq_iff_same]
  cases a.order b <;> decide

/-! ### Lists -/

/-- A list of references in their order; references that are the same stay as
they came. -/
def sort (as : List Attribute) : List Attribute :=
  as.mergeSort fun a b => (a.order b).isLE

/-- One reference for each group of the same ones. -/
def distinct (as : List Attribute) : List Attribute :=
  (as.foldl (fun kept a => if kept.any (same a) then kept else a :: kept) []).reverse

end ScimQuery.Attribute
