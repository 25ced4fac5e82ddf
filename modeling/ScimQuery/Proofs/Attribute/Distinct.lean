/-
ScimQuery/Proofs/Attribute/Distinct.lean

Lists of references without repeats.  There are several ways to drop the repeats of
a list: comparing each reference with those kept so far, sorting the list and
comparing neighbours, or putting the references into a set, which orders them or
looks them up by the hash of their keys.  The first compares by `same`, a tree by
`order` and a table by `folded`.

They keep the same references, and of those that are the same the first one: `a` is
kept exactly if it is what a search for `a` finds (`mem_distinct`, `mem_compact`).
Sorting does not change what a search finds, since it is stable (`filter_sort`).
The order by characters is that of the octets of the parts (`order_eq_octetOrder`).

Main result: equality, order and keys of references are consistent, and so are the
sorted lists, the sets and the lists without repeats that are made with them
(`same_order_folded_consistent`).
-/
import Mathlib.Data.List.Destutter
import Mathlib.Data.List.Induction
import ScimQuery.Attribute.Order
import ScimQuery.Proofs.Attribute.Case
import ScimQuery.Proofs.Text.Order

namespace ScimQuery.Attribute

/-! ### One after the other -/

theorem any_eq_of_same {a b : Attribute} (h : a.same b = true) (as : List Attribute) :
    as.any a.same = as.any b.same := by
  rw [same_eq_of_same h]

/-- One more reference is kept unless it is there already. -/
theorem distinct_concat (as : List Attribute) (b : Attribute) :
    distinct (as ++ [b]) =
      if (distinct as).any b.same then distinct as else distinct as ++ [b] := by
  unfold distinct
  rw [List.foldl_append, List.foldl_cons, List.foldl_nil, List.any_reverse]
  split
  · rfl
  · rw [List.reverse_cons]

theorem any_distinct (as : List Attribute) (a : Attribute) :
    (distinct as).any a.same = as.any a.same := by
  induction as using List.reverseRecOn generalizing a with
  | nil => rfl
  | append_singleton as b ih =>
    rw [distinct_concat, List.any_append, ih]
    split
    · rename_i hthere
      cases hab : a.same b with
      | true => simp [ih, any_eq_of_same hab, hthere]
      | false => simp [ih, hab]
    · rw [List.any_append, ih]

theorem apart_distinct (as : List Attribute) :
    (distinct as).Pairwise fun a b => a.same b = false := by
  induction as using List.reverseRecOn with
  | nil => exact List.Pairwise.nil
  | append_singleton as b ih =>
    rw [distinct_concat]
    split
    · exact ih
    · rename_i hnew
      refine List.pairwise_append.2 ⟨ih, List.pairwise_singleton _ b, fun a ha c hc => ?_⟩
      obtain rfl := List.mem_singleton.1 hc
      rw [same_comm, ← Bool.not_eq_true]
      exact fun hsame => hnew (List.any_eq_true.2 ⟨a, ha, hsame⟩)

/-- The references that are kept are those that a search for themselves finds. -/
theorem mem_distinct {as : List Attribute} {a : Attribute} :
    a ∈ distinct as ↔ as.find? a.same = some a := by
  induction as using List.reverseRecOn with
  | nil => simp [distinct]
  | append_singleton as b ih =>
    -- a search that has found nothing so far goes on to `b`
    have hlast : as.find? a.same = none ∧ [b].find? a.same = some a ↔
        ¬ as.any b.same = true ∧ a = b := by
      constructor
      · rintro ⟨hnone, hfind⟩
        obtain rfl := List.mem_singleton.1 (List.mem_of_find?_eq_some hfind)
        exact ⟨by simpa using hnone, rfl⟩
      · rintro ⟨hnew, rfl⟩
        exact ⟨by simpa using hnew, List.find?_cons_of_pos (same_refl a)⟩
    rw [List.find?_append, Option.or_eq_some_iff, hlast, ← ih, distinct_concat, any_distinct]
    split
    · rename_i hthere
      rw [or_iff_left fun h => h.1 hthere]
    · rename_i hnew
      rw [List.mem_append, List.mem_singleton, and_iff_right hnew]

/-! ### Sorting -/

theorem sort_perm (as : List Attribute) : (sort as).Perm as := List.mergeSort_perm as _

theorem pairwise_sort (as : List Attribute) :
    (sort as).Pairwise fun a b => (a.order b).isLE = true :=
  List.pairwise_mergeSort order_trans order_total as

/-- Sorting is stable: references that are the same stay as they came. -/
theorem filter_sort (as : List Attribute) (a : Attribute) :
    (sort as).filter a.same = as.filter a.same := by
  have hsame : (as.filter a.same).Pairwise fun b c => (b.order c).isLE = true := by
    refine List.pairwise_of_forall_mem_list fun b hb c hc => ?_
    have hbc := same_trans (same_symm (List.mem_filter.1 hb).2) (List.mem_filter.1 hc).2
    rw [order_eq_iff_same.2 hbc]
    rfl
  have hsub : (as.filter a.same).Sublist (sort as) :=
    List.sublist_mergeSort order_trans order_total hsame List.filter_sublist
  have hfilter := hsub.filter a.same
  simp only [List.filter_filter, Bool.and_self] at hfilter
  exact (hfilter.eq_of_length ((sort_perm as).filter a.same).length_eq.symm).symm

theorem find?_sort (as : List Attribute) (a : Attribute) :
    (sort as).find? a.same = as.find? a.same := by
  rw [← List.head?_filter, filter_sort, List.head?_filter]

/-! ### Strictly in order -/

/-- Each reference comes before all later ones, so no two are the same. -/
def Ascending (as : List Attribute) : Prop := as.Pairwise fun a b => a.order b = .lt

theorem Ascending.nodup {as : List Attribute} (h : Ascending as) : as.Nodup := by
  refine h.imp fun {a b} hlt => ?_
  rintro rfl
  exact Std.OrientedCmp.not_lt_of_lt hlt hlt

/-- References in order without repeats are determined by which they are. -/
theorem Ascending.eq_of_perm {as bs : List Attribute} (has : Ascending as) (hbs : Ascending bs)
    (h : as.Perm bs) : as = bs := by
  refine h.eq_of_pairwise (fun a b _ _ hab hba => ?_) has hbs
  exact absurd hba (Std.OrientedCmp.not_lt_of_lt hab)

theorem Ascending.eq_of_mem_iff {as bs : List Attribute} (has : Ascending as)
    (hbs : Ascending bs) (h : ∀ a, a ∈ as ↔ a ∈ bs) : as = bs :=
  has.eq_of_perm hbs ((List.perm_ext_iff_of_nodup has.nodup hbs.nodup).2 h)

theorem ascending_sort_distinct (as : List Attribute) : Ascending (sort (distinct as)) := by
  have hapart : (sort (distinct as)).Pairwise fun a b => a.same b = false :=
    (sort_perm _).symm.pairwise (apart_distinct as) fun {a b} h => by rwa [same_comm]
  exact (pairwise_sort _).imp₂ (fun _ _ hle hne => order_eq_lt_iff.2 ⟨hle, hne⟩) hapart

/-! ### Neighbours -/

/-- The list with each run of references that are the same cut down to its first. -/
def compact (as : List Attribute) : List Attribute := as.destutter fun a b => a.same b = false

theorem compact_cons_cons (a b : Attribute) (as : List Attribute) :
    compact (a :: b :: as) =
      if a.same b = false then a :: compact (b :: as) else compact (a :: as) :=
  List.destutter_cons_cons as _

theorem compact_sublist (as : List Attribute) : (compact as).Sublist as :=
  List.destutter_sublist _ as

/-- In a list in order, all that follows a new reference comes after the one before. -/
theorem order_eq_lt_of_new {a b : Attribute} {as : List Attribute}
    (h : (a :: b :: as).Pairwise fun a b => (a.order b).isLE = true) (hne : a.same b = false) :
    ∀ c ∈ b :: as, a.order c = .lt := by
  obtain ⟨ha, hb⟩ := List.pairwise_cons.1 h
  have hlt : a.order b = .lt := order_eq_lt_iff.2 ⟨ha b List.mem_cons_self, hne⟩
  intro c hc
  rcases List.mem_cons.1 hc with rfl | hc
  · exact hlt
  · exact Std.TransCmp.lt_of_lt_of_isLE hlt ((List.pairwise_cons.1 hb).1 c hc)

section Ordered

variable {as : List Attribute} (h : as.Pairwise fun a b => (a.order b).isLE = true)

include h

theorem ascending_compact : Ascending (compact as) := by
  induction as using List.twoStepInduction with
  | nil => exact List.Pairwise.nil
  | singleton a => exact List.pairwise_singleton _ a
  | cons_cons a b as _ ih =>
    rw [compact_cons_cons]
    split
    · rename_i hne
      refine List.pairwise_cons.2 ⟨fun c hc => ?_, ih b (List.pairwise_cons.1 h).2⟩
      exact order_eq_lt_of_new h hne c ((compact_sublist _).subset hc)
    · exact ih a (h.sublist ((List.sublist_cons_self b as).cons_cons a))

/-- Of references in order, those that are kept are the ones that a search for
themselves finds. -/
theorem mem_compact {c : Attribute} : c ∈ compact as ↔ as.find? c.same = some c := by
  induction as using List.twoStepInduction with
  | nil => exact iff_of_false List.not_mem_nil nofun
  | singleton a =>
    rw [compact, List.destutter_singleton, List.mem_singleton, List.find?_singleton]
    constructor
    · rintro rfl
      rw [if_pos (same_refl c)]
    · intro hfind
      split at hfind
      · exact (Option.some.inj hfind).symm
      · cases hfind
  | cons_cons a b as _ ih =>
    rw [compact_cons_cons]
    cases hab : a.same b with
    | true =>
      -- a search that passes over `a` passes over `b` as well
      rw [if_neg (by simp), ih a (h.sublist ((List.sublist_cons_self b as).cons_cons a))]
      cases hca : c.same a with
      | true => rw [List.find?_cons_of_pos hca, List.find?_cons_of_pos hca]
      | false =>
        have hcb : ¬ c.same b = true := by
          rw [← same_congr (same_refl c) hab, hca]
          exact Bool.false_ne_true
        have hca' : ¬ c.same a = true := Bool.eq_false_iff.1 hca
        rw [List.find?_cons_of_neg hca', List.find?_cons_of_neg hca', List.find?_cons_of_neg hcb]
    | false =>
      rw [if_pos rfl, List.mem_cons, ih b (List.pairwise_cons.1 h).2]
      cases hca : c.same a with
      | true =>
        -- all later references come after `a`
        have hlater : ¬ (b :: as).find? c.same = some c := by
          intro hfind
          have hlt := order_eq_lt_of_new h hab c (List.mem_of_find?_eq_some hfind)
          rw [order_eq_iff_same.2 (same_symm hca)] at hlt
          cases hlt
        rw [or_iff_left hlater, List.find?_cons_of_pos hca, Option.some.injEq, eq_comm]
      | false =>
        have hne : c ≠ a := by
          rintro rfl
          rw [same_refl] at hca
          cases hca
        rw [or_iff_right hne, List.find?_cons_of_neg (Bool.eq_false_iff.1 hca)]

end Ordered

/-- Sorting and dropping repeats can be done in either order. -/
theorem compact_sort (as : List Attribute) : compact (sort as) = sort (distinct as) := by
  have hsort := pairwise_sort as
  refine (ascending_compact hsort).eq_of_mem_iff (ascending_sort_distinct as) fun a => ?_
  rw [mem_compact hsort, find?_sort, (sort_perm _).mem_iff, mem_distinct]

/-! ### Sets -/

section Sets

/-- A list with one more reference, unless it is there already, goes on holding what
`distinct` keeps. -/
theorem perm_distinct_concat {as kept kept' : List Attribute} {b : Attribute}
    (h : kept.Perm (distinct as))
    (hinsert : kept'.Perm (if kept.any b.same then kept else b :: kept)) :
    kept'.Perm (distinct (as ++ [b])) := by
  refine hinsert.trans ?_
  rw [distinct_concat, h.any_eq]
  split
  · exact h
  · exact (h.cons b).trans (List.perm_append_singleton b _).symm

/-- Sets of references tell them apart up to case. -/
local instance : BEq Attribute := ⟨same⟩

variable (hash : Option (List Char) × List Char × Option (List Char) → UInt64)

/-- Sets that keep references in a tree, by their order. -/
abbrev OrderedSet := Std.TreeSet Attribute order

/-- Sets that keep references in a table, by the hash of their keys. -/
abbrev HashedSet := @Std.HashSet Attribute _ ⟨fun a => hash a.folded⟩

/-- The references put into a tree, one after the other. -/
def orderedSet (as : List Attribute) : OrderedSet := as.foldl .insert ∅

/-- The references put into a table, one after the other. -/
def hashedSet (as : List Attribute) : HashedSet hash := as.foldl .insert ∅

instance : Std.LawfulBEqCmp order where
  compare_eq_iff_beq := order_eq_iff_same

instance : EquivBEq Attribute where
  symm := same_symm
  trans := same_trans
  rfl := same_refl _

instance : @LawfulHashable Attribute _ ⟨fun a => hash a.folded⟩ :=
  @LawfulHashable.mk Attribute _ ⟨fun a => hash a.folded⟩ fun _ _ h =>
    congrArg hash (folded_eq_iff_same.2 h)

theorem toList_orderedSet_perm (as : List Attribute) :
    (orderedSet as).toList.Perm (distinct as) := by
  induction as using List.reverseRecOn with
  | nil => exact List.Perm.refl []
  | append_singleton as b ih =>
    refine perm_distinct_concat ih ?_
    have hmem : b ∈ orderedSet as ↔ (orderedSet as).toList.any b.same = true := by
      rw [← Std.TreeSet.contains_iff_mem, ← Std.TreeSet.contains_toList, List.contains_eq_any_beq]
      rfl
    rw [orderedSet, List.foldl_append]
    simp only [← hmem]
    exact Std.TreeSet.toList_insert_perm

/-- A tree lists the references it holds in order. -/
theorem toList_orderedSet (as : List Attribute) :
    (orderedSet as).toList = sort (distinct as) :=
  Ascending.eq_of_perm Std.TreeSet.ordered_toList (ascending_sort_distinct as)
    ((toList_orderedSet_perm as).trans (sort_perm _).symm)

/-- A table lists the references it holds in some order. -/
theorem toList_hashedSet_perm (as : List Attribute) :
    (hashedSet hash as).toList.Perm (distinct as) := by
  induction as using List.reverseRecOn with
  | nil => exact List.Perm.of_eq Std.HashSet.toList_empty
  | append_singleton as b ih =>
    refine perm_distinct_concat ih ?_
    have hmem : b ∈ hashedSet hash as ↔ (hashedSet hash as).toList.any b.same = true := by
      rw [← Std.HashSet.contains_iff_mem, ← Std.HashSet.contains_toList, List.contains_eq_any_beq]
      rfl
    rw [hashedSet, List.foldl_append]
    simp only [← hmem]
    exact Std.HashSet.toList_insert_perm

theorem contains_orderedSet (as : List Attribute) (a : Attribute) :
    (orderedSet as).contains a = as.any a.same := by
  rw [← Std.TreeSet.contains_toList, List.contains_eq_any_beq, ← any_distinct]
  exact (toList_orderedSet_perm as).any_eq

theorem contains_hashedSet (as : List Attribute) (a : Attribute) :
    (hashedSet hash as).contains a = as.any a.same := by
  rw [← Std.HashSet.contains_toList, List.contains_eq_any_beq, ← any_distinct]
  exact (toList_hashedSet_perm hash as).any_eq

end Sets

/-! ### Octets -/

/-- The order of the octets of the parts in lower case, an absent part first. -/
def octetOrder (a b : Attribute) : Ordering :=
  ((compare (a.urn.map Text.foldedOctets) (b.urn.map Text.foldedOctets)).then
    (compare (Text.foldedOctets a.name) (Text.foldedOctets b.name))).then
      (compare (a.sub.map Text.foldedOctets) (b.sub.map Text.foldedOctets))

/-- Ordered by characters or by octets, references stand in one order. -/
theorem order_eq_octetOrder (a b : Attribute) : a.order b = a.octetOrder b := by
  rw [octetOrder, Text.compare_map_foldedOctets, Text.compare_foldedOctets,
    Text.compare_map_foldedOctets]
  rfl

/-! ### Consistency -/

/-- Two references are the same exactly when they differ in nothing but the case of ASCII
letters, when their keys are equal, and when neither comes before the other.  The order is
total up to that, and none of this changes when a reference is replaced by the same one.
So the repeats of a list can be dropped by comparing, by sorting, by a tree or by a table
of keys: the same references are kept, and sorted they make one list. -/
theorem same_order_folded_consistent :
    Equivalence (fun a b : Attribute => a.same b = true) ∧
    (∀ a b : Attribute,
      (a.same b = true ↔ a.lower = b.lower) ∧ (a.same b = true ↔ a.folded = b.folded) ∧
        (a.same b = true ↔ a.order b = .eq) ∧ a.order b = a.octetOrder b) ∧
    (∀ a b c : Attribute,
      b.order a = (a.order b).swap ∧ ((a.order b).isLE = true ∨ (b.order a).isLE = true) ∧
        ((a.order b).isLE = true → (b.order a).isLE = true → a.same b = true) ∧
        ((a.order b).isLE = true → (b.order c).isLE = true → (a.order c).isLE = true)) ∧
    (∀ a a' b b' : Attribute, a.same a' = true → b.same b' = true →
      a.same b = a'.same b' ∧ a.order b = a'.order b' ∧
        a.isScopedUnder b = a'.isScopedUnder b') ∧
    ∀ as : List Attribute,
      ((sort as).Perm as ∧ (sort as).Pairwise fun a b => (a.order b).isLE = true) ∧
      ((distinct as).Pairwise fun a b => a.same b = false) ∧
      compact (sort as) = sort (distinct as) ∧
      (orderedSet as).toList = sort (distinct as) ∧
      ∀ hash, (hashedSet hash as).toList.Perm (distinct as) ∧
        ∀ a, (distinct as).any a.same = as.any a.same ∧
          (orderedSet as).contains a = as.any a.same ∧
          (hashedSet hash as).contains a = as.any a.same := by
  refine ⟨⟨same_refl, same_symm, same_trans⟩, fun a b => ?_, fun a b c => ?_, ?_, fun as => ?_⟩
  · exact ⟨lower_eq_iff_same.symm, folded_eq_iff_same.symm, order_eq_iff_same.symm,
      order_eq_octetOrder a b⟩
  · have htotal := Bool.or_eq_true_iff.1 (order_total a b)
    exact ⟨order_swap a b, htotal, order_antisymm, order_trans a b c⟩
  · intro a a' b b' ha hb
    exact ⟨same_congr ha hb, order_congr ha hb, isScopedUnder_congr ha hb⟩
  · refine ⟨⟨sort_perm as, pairwise_sort as⟩, apart_distinct as, compact_sort as,
      toList_orderedSet as, fun hash => ⟨toList_hashedSet_perm hash as, fun a => ?_⟩⟩
    exact ⟨any_distinct as a, contains_orderedSet as a, contains_hashedSet hash as a⟩

/-- Two spellings of one reference, and a third that differs in a letter whose case is not
folded. -/
theorem same_order_folded_consistent_accent :
    let a : Attribute := ⟨none, "Emails", some "typÉ"⟩
    let b : Attribute := ⟨none, "emails", some "TYPÉ"⟩
    let c : Attribute := ⟨none, "EMAILS", some "typé"⟩
    a.order b = .eq ∧ a.folded = b.folded ∧ a.order c ≠ .eq ∧ a.order c = b.order c ∧
      (orderedSet [a, c, b]).toList = compact (sort [a, c, b]) ∧
      ∀ hash, (hashedSet hash [a, c, b]).toList.Perm [a, c] := by
  intro a b c
  obtain ⟨-, hone, -, hcongr, hlists⟩ := same_order_folded_consistent
  have hab : a.same b = true := by decide
  have hac : ¬ a.same c = true := by decide
  obtain ⟨-, -, hcompact, hordered, hhashed⟩ := hlists [a, c, b]
  have hdistinct : distinct [a, c, b] = [a, c] := by decide
  refine ⟨(hone a b).2.2.1.1 hab, (hone a b).2.1.1 hab, fun h => hac ((hone a c).2.2.1.2 h),
    (hcongr a b c c hab (by decide)).2.1, hordered.trans hcompact.symm, fun hash => ?_⟩
  rw [← hdistinct]
  exact (hhashed hash).1

end ScimQuery.Attribute
