/-
ScimQuery/Proofs/Text/Order.lean

Texts in order, by code points and by octets.  Of two characters the one with the
smaller code point has the smaller octets: either it has fewer of them, and then
its first one is smaller, or the octets are the digits of the code point, most
significant first.  No octets after them can change that, so `Precedes` speaks of
octets with anything behind them.

Main result: the octets of two texts stand in the order of the texts
(`compare_encode`), those in lower case too (`compare_foldedOctets`).
-/
import ScimQuery.Proofs.Text.Utf8

namespace ScimQuery.Text.Utf8

/-! ### Characters -/

/-- The first octets are smaller, whatever follows. -/
def Precedes (os ps : List UInt8) : Prop := ∀ xs ys, compare (os ++ xs) (ps ++ ys) = .lt

theorem precedes_of_lt {m n : Nat} (hlt : m < n) (hn : n < 256) (os ps : List UInt8) :
    Precedes (m.toUInt8 :: os) (n.toUInt8 :: ps) := by
  have hoctet : m.toUInt8 < n.toUInt8 := by
    rw [UInt8.lt_iff_toNat_lt, toNat_toUInt8 hn, toNat_toUInt8 (by omega)]
    exact hlt
  have hfirst : compare m.toUInt8 n.toUInt8 = .lt := if_pos hoctet
  intro xs ys
  rw [List.cons_append, List.cons_append, List.compare_cons_cons, hfirst, Ordering.lt_then]

/-- The first octets decide, or are equal and leave it to the others. -/
theorem precedes_cons {m n : Nat} (hle : m ≤ n) (hn : n < 256) {os ps : List UInt8}
    (h : m = n → Precedes os ps) : Precedes (m.toUInt8 :: os) (n.toUInt8 :: ps) := by
  rcases Nat.lt_or_eq_of_le hle with hlt | rfl
  · exact precedes_of_lt hlt hn os ps
  · intro xs ys
    rw [List.cons_append, List.cons_append, List.compare_cons_cons, Std.ReflOrd.compare_self,
      Ordering.eq_then]
    exact h rfl xs ys

/-- The smaller code point has the smaller octets. -/
theorem precedes_encodeChar {c d : Char} (h : c < d) : Precedes (encodeChar c) (encodeChar d) := by
  have hlt : c.toNat < d.toNat := h
  have hlast : d.toNat < 0x110000 := by
    rcases d.valid with hlow | ⟨-, hhigh⟩
    · exact Nat.lt_trans hlow (by decide)
    · exact hhigh
  unfold encodeChar
  generalize c.toNat = m at hlt
  generalize d.toNat = n at hlt hlast
  simp only
  -- more octets start with a greater one; as many are compared digit by digit
  split
  · split
    · exact precedes_of_lt hlt (by omega) _ _
    split
    · exact precedes_of_lt (by omega) (by omega) _ _
    split
    · exact precedes_of_lt (by omega) (by omega) _ _
    · exact precedes_of_lt (by omega) (by omega) _ _
  split
  · rw [if_neg (by omega)]
    split
    · exact precedes_cons (by omega) (by omega) fun h₁ =>
        precedes_of_lt (by omega) (by omega) _ _
    split
    · exact precedes_of_lt (by omega) (by omega) _ _
    · exact precedes_of_lt (by omega) (by omega) _ _
  split
  · rw [if_neg (by omega), if_neg (by omega)]
    split
    · exact precedes_cons (by omega) (by omega) fun h₁ =>
        precedes_cons (by omega) (by omega) fun h₂ => precedes_of_lt (by omega) (by omega) _ _
    · exact precedes_of_lt (by omega) (by omega) _ _
  · rw [if_neg (by omega), if_neg (by omega), if_neg (by omega)]
    exact precedes_cons (by omega) (by omega) fun h₁ =>
      precedes_cons (by omega) (by omega) fun h₂ =>
        precedes_cons (by omega) (by omega) fun h₃ => precedes_of_lt (by omega) (by omega) _ _

/-! ### Texts -/

theorem compare_append (os xs ys : List UInt8) :
    compare (os ++ xs) (os ++ ys) = compare xs ys := by
  induction os with
  | nil => rfl
  | cons o os ih =>
    rw [List.cons_append, List.cons_append, List.compare_cons_cons, Std.ReflOrd.compare_self,
      Ordering.eq_then, ih]

theorem compare_nil_encode_cons (d : Char) (ds : List Char) :
    compare [] (encode (d :: ds)) = .lt := by
  rw [encode, List.flatMap_cons]
  rcases ho : encodeChar d with - | ⟨o, os⟩
  · exact absurd ho (encodeChar_ne_nil d)
  · rfl

/-- Octets stand in the order of the texts that they spell. -/
theorem compare_encode (cs ds : List Char) : compare (encode cs) (encode ds) = compare cs ds := by
  have hlt : ∀ {c d : Char}, compare c d = .lt → Precedes (encodeChar c) (encodeChar d) :=
    fun hcd => precedes_encodeChar (compareOfLessAndEq_eq_lt.1 hcd)
  induction cs generalizing ds with
  | nil =>
    cases ds with
    | nil => rfl
    | cons d ds => exact compare_nil_encode_cons d ds
  | cons c cs ih =>
    cases ds with
    | nil => exact Std.OrientedCmp.gt_of_lt (compare_nil_encode_cons c cs)
    | cons d ds =>
      rw [List.compare_cons_cons, encode, encode, List.flatMap_cons, List.flatMap_cons]
      cases hcd : compare c d with
      | lt => exact hlt hcd _ _
      | eq =>
        obtain rfl := Std.LawfulEqOrd.eq_of_compare hcd
        rw [compare_append]
        exact ih ds
      | gt => exact Std.OrientedCmp.gt_of_lt (hlt (Std.OrientedCmp.lt_of_gt hcd) _ _)

end ScimQuery.Text.Utf8

namespace ScimQuery.Text

/-! ### Texts in lower case -/

/-- The octets of a text in lower case. -/
def foldedOctets (s : String) : List UInt8 := Utf8.encode (fold s.toList)

theorem compare_foldedOctets (s t : String) :
    compare (foldedOctets s) (foldedOctets t) = compare (fold s.toList) (fold t.toList) :=
  Utf8.compare_encode _ _

theorem compare_map_foldedOctets (s t : Option String) :
    compare (s.map foldedOctets) (t.map foldedOctets) =
      compare (s.map fun s => fold s.toList) (t.map fun t => fold t.toList) := by
  cases s with
  | none => cases t <;> rfl
  | some s => cases t with
    | none => rfl
    | some t => exact compare_foldedOctets s t

end ScimQuery.Text
