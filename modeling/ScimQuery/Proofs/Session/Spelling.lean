/-
ScimQuery/Proofs/Session/Spelling.lean

Trees that are spelled by their own texts: the text of such a tree derives a tree
equal to it, whatever the limits are.

A session grows its tree on the right edge only (`Expr.extend`), and the grammar
makes the same tree of the longer text (`Derives.extend`).  So a spelled tree stays
spelled with a connective and a spelled operand added (`Spelled.extend`), as long
as the operand is in a group wherever it would be regrouped, which is what the
session sees to (`place_of_connect`).
-/
import ScimQuery.Proofs.Filter.Proper
import ScimQuery.Proofs.Session.Calls

namespace ScimQuery

/-! ### One connective and one operand -/

namespace Expr

/-- The tree with a connective and an operand added on its right edge. -/
def extend (c : Connective) (root operand : Expr) : Expr :=
  match c, root with
  | .and, joined l .or r => joined l .or (joined r .and operand)
  | c, root => joined root c operand

theorem extend_of_parensLeft {c : Connective} {root : Expr} (h : parensLeft c root = false)
    (operand : Expr) : extend c root operand = joined root c operand := by
  cases c with
  | or => rfl
  | and =>
    cases root with
    | joined l c r =>
      cases c with
      | and => rfl
      | or => cases h
    | _ => rfl

/-- An `and` goes to the right operand of an `or`; all else goes to the root. -/
theorem extend_cases (c : Connective) (root : Expr) :
    (∃ l r, c = .and ∧ root = joined l .or r) ∨
      (parensLeft c root = false ∧ ∀ operand, extend c root operand = joined root c operand) := by
  cases h : parensLeft c root with
  | false => exact .inr ⟨rfl, extend_of_parensLeft h⟩
  | true => exact .inl (parensLeft_eq_true h)

theorem operands_extend (c : Connective) (root operand : Expr) :
    (extend c root operand).operands = root.operands + operand.operands := by
  obtain ⟨l, r, rfl, rfl⟩ | ⟨-, hextend⟩ := extend_cases c root
  · exact (Nat.add_assoc l.operands r.operands operand.operands).symm
  · rw [hextend, operands]

theorem nesting_extend (c : Connective) (root operand : Expr) :
    (extend c root operand).nesting = max root.nesting operand.nesting := by
  obtain ⟨l, r, rfl, rfl⟩ | ⟨-, hextend⟩ := extend_cases c root
  · exact (Nat.max_assoc l.nesting r.nesting operand.nesting).symm
  · rw [hextend, nesting]

theorem resolve_extend (c : Connective) (root operand : Expr) :
    (extend c root operand).resolve = extend c root.resolve operand.resolve := by
  obtain ⟨l, r, rfl, rfl⟩ | ⟨hleft, hextend⟩ := extend_cases c root
  · rfl
  · have hleft' : parensLeft c root.resolve = false := by
      rwa [parensLeft, connective?_resolve]
    rw [hextend, extend_of_parensLeft hleft', resolve]

theorem same_extend (c : Connective) {d e d' e' : Expr} (h : d.same e = true)
    (h' : d'.same e' = true) : (extend c d d').same (extend c e e') = true := by
  obtain ⟨l, r, rfl, rfl⟩ | ⟨hleft, hextend⟩ := extend_cases c d
  · cases e with
    | joined l' c' r' =>
      -- the other tree has the same `or` at its root, so it is extended there too
      simp only [same, Bool.and_eq_true, beq_iff_eq] at h
      obtain ⟨⟨hl, rfl⟩, hr⟩ := h
      simp [extend, same, hl, hr, h']
    | _ => cases h
  · have hleft' : parensLeft c e = false := by
      rwa [parensLeft, ← connective?_eq_of_same h]
    rw [hextend, extend_of_parensLeft hleft']
    simp [same, h, h']

/-- The text grows by the connective and the operand. -/
theorem written_extend {c : Connective} {root operand : Expr} (hroot : root.Tidy)
    (hright : parensRight c operand = false) :
    (extend c root operand).written none =
      root.written none ++ ' ' :: (c.keyword.toList ++ ' ' :: operand.written none) := by
  obtain ⟨l, r, rfl, rfl⟩ | ⟨hleft, hextend⟩ := extend_cases c root
  · -- neither the old right operand nor the new one gets parentheses
    obtain ⟨⟨hl, hr⟩, -⟩ := hroot
    have hr' : parensLeft .and r = false :=
      parensLeft_and_eq_false_iff.2 (parensRight_or_eq_false_iff.1 hr)
    have hjoined : parensRight .or (joined r .and operand) = false := rfl
    simp [extend, written, parensIf, hl, hr, hr', hright, hjoined]
  · simp [hextend, written, parensIf, hleft, hright]

theorem render_extend {c : Connective} {root operand : Expr} (hroot : root.Tidy)
    (hright : parensRight c operand = false) :
    (extend c root operand).render =
      root.render ++ " " ++ c.keyword ++ " " ++ operand.render := by
  apply String.toList_inj.1
  simp [toList_render, written_extend hroot hright, String.toList_append]

end Expr

/-- The grammar extends a tree in the same way. -/
theorem Reading.Derives.extend {inside : Bool} {ts us : List Token} {u o : Expr} {c : Connective}
    (hu : Derives .filter inside ts u) (ho : Derives .filter inside us o)
    (hright : Expr.parensRight c o = false) :
    Derives .filter inside (ts ++ .word c.keyword :: us) (Expr.extend c u o) := by
  have hword := Connective.ofWord?_keyword c
  obtain ⟨l, r, rfl, rfl⟩ | ⟨hleft, hextend⟩ := Expr.extend_cases c u
  · -- an `or` is derived on the filter layer only, and its right operand takes the `and`
    have ho := ho.operand_of_filter (Expr.parensRight_and_eq_false_iff.1 hright)
    cases hu with
    | conjunction hu => exact absurd rfl hu.connective?_conjunction
    | @or inside ts₁ ts₂ _ _ w hl hw hr =>
      have htokens : ts₁ ++ .word w :: ts₂ ++ .word Connective.and.keyword :: us =
          ts₁ ++ .word w :: (ts₂ ++ .word Connective.and.keyword :: us) := by simp
      rw [htokens]
      exact .or hl hw (.and hr hword ho)
  · rw [hextend]
    cases c with
    | or =>
      have ho := ho.conjunction_of_filter (Expr.parensRight_or_eq_false_iff.1 hright)
      exact .or hu hword ho
    | and =>
      have hu := hu.conjunction_of_filter (Expr.parensLeft_and_eq_false_iff.1 hleft)
      have ho := ho.operand_of_filter (Expr.parensRight_and_eq_false_iff.1 hright)
      exact .conjunction (.and hu hword ho)

/-! ### Spelled trees -/

namespace Expr

open Reading Scan

/-- The text of the tree derives a tree that is equal to it once it is resolved. -/
def Spelled (e : Expr) : Prop :=
  ∃ ts u, Scans e.render.toList ts ∧ Derives .filter false ts u ∧ u.resolve.same e = true

theorem spelled_of_parse {e e' : Expr} (h : Filter.parse e.render = .ok e')
    (hsame : e'.same e = true) : e.Spelled := by
  obtain ⟨-, ts, u, hscans, hu, rfl, -⟩ := Filter.parse_eq_ok_iff.1 h
  exact ⟨ts, u, hscans, hu, hsame⟩

/-- Within the limits, a spelled tree is read back from its text. -/
theorem Spelled.parse {e : Expr} (h : e.Spelled)
    (hlength : e.render.utf8ByteSize ≤ ({} : Limits).length)
    (hdepth : e.nesting ≤ ({} : Limits).depth) (hops : e.operands ≤ ({} : Limits).operands) :
    ∃ e', Filter.parse e.render = .ok e' ∧ e'.same e = true := by
  obtain ⟨ts, u, hscans, hu, hsame⟩ := h
  obtain ⟨hnesting, hoperands, -⟩ := shape_eq_of_same hsame
  rw [nesting_resolve] at hnesting
  rw [operands_resolve] at hoperands
  rw [← hnesting] at hdepth
  rw [← hoperands] at hops
  exact ⟨u.resolve, Filter.parse_eq_ok_iff.2 ⟨hlength, ts, u, hscans, hu, rfl, hdepth, hops⟩, hsame⟩

theorem Spelled.tidy {e : Expr} (h : e.Spelled) : e.Tidy := by
  obtain ⟨ts, u, -, hu, hsame⟩ := h
  exact hu.tidy.resolve.of_same hsame

/-- A group keeps the tree spelled. -/
theorem Spelled.groupedIf {e : Expr} (h : e.Spelled) (b : Bool) : (groupedIf b e).Spelled := by
  cases b with
  | false => exact h
  | true =>
    obtain ⟨ts, u, hscans, hu, hsame⟩ := h
    refine ⟨_, .group false u, ?_, .conjunction (.operand (.group hu)), hsame⟩
    rw [toList_render] at hscans ⊢
    exact hscans.parens

/-- A connective and an operand keep the tree spelled. -/
theorem Spelled.extend {root operand : Expr} {c : Connective} (hroot : root.Spelled)
    (hoperand : operand.Spelled) (hright : parensRight c operand = false) :
    (extend c root operand).Spelled := by
  have htidy := hroot.tidy
  obtain ⟨ts, u, hts, hu, hsame⟩ := hroot
  obtain ⟨us, o, hus, ho, hsame'⟩ := hoperand
  have hright' : parensRight c o = false := by
    rwa [parensRight, ← connective?_resolve, connective?_eq_of_same hsame']
  refine ⟨_, _, ?_, hu.extend ho hright', ?_⟩
  · rw [toList_render] at hts hus ⊢
    rw [written_extend htidy hright]
    exact hts.blank ((scans_connective c).blank hus)
  · rw [resolve_extend]
    exact same_extend c hsame hsame'

end Expr

/-! ### Operands in groups -/

namespace Session

theorem parensLeft_wrapLeft (c : Connective) (e : Expr) :
    Expr.parensLeft c (wrapLeft c e) = false :=
  Expr.parensLeft_groupedIf c e

theorem parensRight_wrapRight (c : Connective) (e : Expr) :
    Expr.parensRight c (wrapRight c e) = false :=
  Expr.parensRight_groupedIf c e

theorem wrapRight_of_parensRight {c : Connective} {e : Expr} (h : Expr.parensRight c e = false) :
    wrapRight c e = e :=
  if_neg (Bool.eq_false_iff.1 h)

theorem spelled_wrapLeft {e : Expr} (h : e.Spelled) (c : Connective) : (wrapLeft c e).Spelled :=
  h.groupedIf (Expr.parensLeft c e)

theorem spelled_wrapRight {e : Expr} (h : e.Spelled) (c : Connective) : (wrapRight c e).Spelled :=
  h.groupedIf (Expr.parensRight c e)

/-- Two operands with a connective between them. -/
theorem spelled_pair {l r : Expr} (hl : l.Spelled) (hr : r.Spelled) (c : Connective) :
    (Expr.joined (wrapLeft c l) c (wrapRight c r)).Spelled := by
  rw [← Expr.extend_of_parensLeft (parensLeft_wrapLeft c l)]
  exact (spelled_wrapLeft hl c).extend (spelled_wrapRight hr c) (parensRight_wrapRight c r)

/-- An operand in the slot of a connective extends the filter before it. -/
theorem place_of_connect {c : Connective} {root : Expr} {p : Pending}
    (h : (complete root).connect c = .ok (pending p)) (e : Expr) :
    (pending p).place e = .ok (complete (Expr.extend c root (wrapRight c e))) := by
  obtain ⟨l, r, rfl, rfl, hp⟩ | ⟨hleft, hp⟩ := connect_cases c root
  · obtain rfl := Session.pending.inj (Except.ok.inj (h.symm.trans hp))
    rfl
  · obtain rfl := Session.pending.inj (Except.ok.inj (h.symm.trans hp))
    rw [Expr.extend_of_parensLeft hleft]
    rfl

end Session

end ScimQuery
