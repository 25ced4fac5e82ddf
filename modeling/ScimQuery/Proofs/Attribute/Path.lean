/-
ScimQuery/Proofs/Attribute/Path.lean

Attribute paths and the references they stand for.  A reference is *well formed*
if its parts are what the reader of paths takes apart: a schema URN, a name, and
a sub-attribute without a colon.

Main result: reading a path gives a reference exactly when the reference is well
formed and is written as that path (`ofPath?_eq_some_iff`).  So a path is read in
one way only, and what is read is written back character for character.
Well-formedness survives putting a name under a parent
(`WellFormed.scopedUnder`).
-/
import ScimQuery.Attribute.Basic
import ScimQuery.Proofs.Lexeme.Scanning

namespace ScimQuery.Attribute

/-! ### Names and their characters -/

/-- The characters of a name, after an optional `$`. -/
def isNameChar (c : Char) : Bool := c.isAlphanum || c == '-' || c == '_' || c == '$'

theorem isNameChar_of_isName {cs : List Char} (h : isName cs = true) :
    cs ≠ [] ∧ ∀ c ∈ cs, isNameChar c = true := by
  have tail : ∀ {c : Char} {rest : List Char},
      (c.isAlpha && rest.all fun d => d.isAlphanum || d == '-' || d == '_') = true →
      ∀ d ∈ c :: rest, isNameChar d = true := by
    intro c rest hc d hd
    obtain ⟨hc₁, hrest⟩ := Bool.and_eq_true_iff.1 hc
    rcases List.mem_cons.1 hd with rfl | hd
    · simp [isNameChar, Char.isAlphanum, hc₁]
    · have hd' := List.all_eq_true.1 hrest d hd
      simp only [isNameChar, hd', Bool.true_or]
  unfold isName at h
  rcases cs with - | ⟨c, rest⟩
  · cases h
  · refine ⟨List.cons_ne_nil c rest, ?_⟩
    by_cases hc : c = '$'
    · -- after the `$` there must still be a letter
      subst hc
      rcases rest with - | ⟨d, rest⟩
      · cases h
      · intro x hx
        rcases List.mem_cons.1 hx with rfl | hx
        · rfl
        · exact tail h x hx
    · apply tail
      simpa [hc] using h

theorem not_mem_of_isName {cs : List Char} {d : Char} (h : isName cs = true)
    (hd : isNameChar d = false) : d ∉ cs := by
  intro hmem
  have hd' := (isNameChar_of_isName h).2 d hmem
  rw [hd] at hd'
  cases hd'

/-- A name has no dot, so it is a sub-attribute of one part. -/
theorem isSub_of_isName {cs : List Char} (h : isName cs = true) : isSub cs = true := by
  have hne : cs ≠ [] := (isNameChar_of_isName h).1
  unfold isSub
  rw [Text.segments_of_not_mem (not_mem_of_isName h rfl)]
  simpa using hne

theorem ne_nil_of_isSub {cs : List Char} (h : isSub cs = true) : cs ≠ [] := by
  rintro rfl
  cases h

/-- Being a name does not depend on the case of letters. -/
theorem isName_fold (cs : List Char) : isName (Text.fold cs) = isName cs := by
  have hrest : Text.CaseBlind fun d => d.isAlphanum || d == '-' || d == '_' :=
    Text.caseBlind_of_capitals (by decide)
  have tail : ∀ c rest, (Char.isAlpha (Char.toLower c) &&
        (Text.fold rest).all fun d => d.isAlphanum || d == '-' || d == '_') =
      (c.isAlpha && rest.all fun d => d.isAlphanum || d == '-' || d == '_') := by
    intro c rest
    rw [Text.caseBlind_isAlpha c, Text.all_fold hrest]
  have hdollar : Text.CaseBlind (· == '$') := Text.caseBlind_beq rfl
  rcases cs with - | ⟨c, rest⟩
  · rfl
  · by_cases hc : c = '$'
    · subst hc
      rcases rest with - | ⟨d, rest⟩
      · rfl
      · exact tail d rest
    · -- no letter becomes a `$` when it is folded
      have hlower : c.toLower ≠ '$' := by
        have heq : (c.toLower == '$') = (c == '$') := hdollar c
        rw [beq_eq_false_iff_ne.2 hc] at heq
        exact beq_eq_false_iff_ne.1 heq
      simpa [isName, Text.fold, hc, hlower] using tail c rest

theorem isName_eq_of_alike {a b : String} (h : Text.alike a b = true) :
    isName a.toList = isName b.toList := by
  rw [← isName_fold a.toList, Text.alike_iff_fold_eq.1 h, isName_fold]

/-! ### Well-formed references -/

/-- The parts are those that a path is taken apart into. -/
structure WellFormed (a : Attribute) : Prop where
  urn : ∀ u, a.urn = some u → Urn.isSchema u.toList = true
  name : isName a.name.toList = true
  sub : ∀ s, a.sub = some s → isSub s.toList = true ∧ ':' ∉ s.toList

theorem toList_path (a : Attribute) :
    a.path.toList =
      (a.urn.elim [] fun u => u.toList ++ [':']) ++
        (a.name.toList ++ a.sub.elim [] fun s => '.' :: s.toList) := by
  obtain ⟨urn, name, sub⟩ := a
  cases urn <;> cases sub <;>
    simp [path, base, String.toList_append]

theorem WellFormed.colon_not_mem_base {a : Attribute} (h : a.WellFormed) :
    ':' ∉ a.base.toList := by
  have hname : ':' ∉ a.name.toList := not_mem_of_isName h.name rfl
  rcases hs : a.sub with - | s
  · simpa [base, hs] using hname
  · have hsub : ':' ∉ s.toList := (h.sub s hs).2
    simp [base, hs, String.toList_append, hname, hsub]

theorem WellFormed.cutFirst_base {a : Attribute} (h : a.WellFormed) :
    Text.cutFirst '.' a.base.toList = (a.name.toList, a.sub.map String.toList) := by
  have hname : '.' ∉ a.name.toList := not_mem_of_isName h.name rfl
  rcases hs : a.sub with - | s
  · simpa [base, hs] using Text.cutFirst_of_not_mem hname
  · simpa [base, hs, String.toList_append] using Text.cutFirst_append hname s.toList

theorem WellFormed.cutLast_path {a : Attribute} (h : a.WellFormed) :
    Text.cutLast ':' a.path.toList = (a.urn.map String.toList, a.base.toList) := by
  have hbase := h.colon_not_mem_base
  rcases hu : a.urn with - | u
  · simpa [path, hu] using Text.cutLast_of_not_mem hbase
  · simpa [path, hu, String.toList_append] using Text.cutLast_append u.toList hbase

/-- A well-formed reference is read from its own path. -/
theorem WellFormed.ofPath? {a : Attribute} (h : a.WellFormed) :
    Attribute.ofPath? a.path = some a := by
  have hurn : (a.urn.map String.toList).all Urn.isSchema = true := by
    rcases hu : a.urn with - | u
    · rfl
    · exact h.urn u hu
  have hsub : (a.sub.map String.toList).all isSub = true := by
    rcases hs : a.sub with - | s
    · rfl
    · exact (h.sub s hs).1
  have hparts : ((a.urn.map String.toList).map String.ofList = a.urn) ∧
      ((a.sub.map String.toList).map String.ofList = a.sub) := by
    constructor
    · cases a.urn <;> simp [String.ofList_toList]
    · cases a.sub <;> simp [String.ofList_toList]
  simp only [Attribute.ofPath?, ofChars?, h.cutLast_path, h.cutFirst_base, hurn, h.name, hsub,
    hparts.1, hparts.2, String.ofList_toList]
  rfl

/-- Reading gives a reference exactly when it is well formed and the path is its
written form. -/
theorem ofPath?_eq_some_iff {p : String} {a : Attribute} :
    Attribute.ofPath? p = some a ↔ a.path = p ∧ a.WellFormed := by
  constructor
  · intro h
    unfold Attribute.ofPath? ofChars? at h
    rcases hurn : Text.cutLast ':' p.toList with ⟨urn, rest⟩
    rcases hname : Text.cutFirst '.' rest with ⟨name, sub⟩
    simp only [hurn, hname] at h
    split at h
    · rename_i hparts
      obtain rfl := Option.some.inj h
      simp only [Bool.and_eq_true] at hparts
      obtain ⟨⟨hu, hn⟩, hs⟩ := hparts
      -- the last colon and the first dot after it put the path together again
      obtain ⟨hcolon, hp⟩ := Text.cutLast_spec hurn
      obtain ⟨-, hrest⟩ := Text.cutFirst_spec hname
      refine ⟨String.toList_inj.1 ?_, ?_, ?_, ?_⟩
      · rw [toList_path, hp, hrest]
        cases urn <;> cases sub <;> simp
      · intro u hu'
        obtain ⟨cs, rfl, rfl⟩ := Option.map_eq_some_iff.1 hu'
        simpa using hu
      · simpa using hn
      · intro s hs'
        obtain ⟨cs, rfl, rfl⟩ := Option.map_eq_some_iff.1 hs'
        rw [hrest] at hcolon
        exact ⟨by simpa using hs, by simpa using fun h => hcolon (by simp [h])⟩
    · cases h
  · rintro ⟨rfl, h⟩
    exact h.ofPath?

/-- A name read as a path is a bare name. -/
theorem ofPath?_of_isName {w : String} (h : isName w.toList = true) :
    Attribute.ofPath? w = some ⟨none, w, none⟩ :=
  ofPath?_eq_some_iff.2 ⟨rfl, nofun, h, nofun⟩

theorem WellFormed.scopedUnder {a p : Attribute} (ha : a.WellFormed) (hp : p.WellFormed) :
    (a.scopedUnder p).WellFormed := by
  unfold Attribute.scopedUnder
  split
  · exact ha
  · -- the bare name becomes the sub-attribute
    refine ⟨hp.urn, hp.name, ?_⟩
    intro s hs
    obtain rfl := Option.some.inj hs
    exact ⟨isSub_of_isName ha.name, not_mem_of_isName ha.name rfl⟩

/-! ### References as words -/

/-- No character of the written form is a delimiter. -/
def Plain (a : Attribute) : Prop := ∀ c ∈ a.path.toList, Scan.isDelimiter c = false

theorem plain_iff {a : Attribute} :
    a.Plain ↔ (∀ u, a.urn = some u → ∀ c ∈ u.toList, Scan.isDelimiter c = false) ∧
      (∀ c ∈ a.name.toList, Scan.isDelimiter c = false) ∧
      ∀ s, a.sub = some s → ∀ c ∈ s.toList, Scan.isDelimiter c = false := by
  have hcolon : Scan.isDelimiter ':' = false := by decide
  have hdot : Scan.isDelimiter '.' = false := by decide
  unfold Plain
  rw [toList_path]
  obtain ⟨urn, name, sub⟩ := a
  cases urn <;> cases sub <;>
    simp [hcolon, hdot, or_imp, forall_and]

theorem toNat_lt_of_isNameChar {c : Char} (h : isNameChar c = true) : c.toNat < 128 := by
  have hupper : c.isUpper = true → c.toNat ≤ 90 := fun h =>
    UInt32.le_iff_toNat_le.1 (of_decide_eq_true h).2
  have hlower : c.isLower = true → c.toNat ≤ 122 := fun h =>
    UInt32.le_iff_toNat_le.1 (of_decide_eq_true (Bool.and_eq_true_iff.1 h).2)
  have hdigit : c.isDigit = true → c.toNat ≤ 57 := fun h =>
    UInt32.le_iff_toNat_le.1 (of_decide_eq_true (Bool.and_eq_true_iff.1 h).2)
  have hcases : (((c.isUpper || c.isLower || c.isDigit) || c == '-') || c == '_') || c == '$' := h
  simp only [Bool.or_eq_true, beq_iff_eq] at hcases
  rcases hcases with ((((h | h) | h) | rfl) | rfl) | rfl
  · exact Nat.lt_of_le_of_lt (hupper h) (by decide)
  · exact Nat.lt_of_le_of_lt (hlower h) (by decide)
  · exact Nat.lt_of_le_of_lt (hdigit h) (by decide)
  · decide
  · decide
  · decide

theorem not_isDelimiter_of_isNameChar {c : Char} (h : isNameChar c = true) :
    Scan.isDelimiter c = false := by
  have hall : ∀ n < 128, isNameChar (Char.ofNat n) = true →
      Scan.isDelimiter (Char.ofNat n) = false := by decide
  have hc := hall c.toNat (toNat_lt_of_isNameChar h)
  rw [Char.ofNat_toNat] at hc
  exact hc h

/-- The first character of a schema URN is a `u` of either case. -/
theorem head?_of_isSchema {cs : List Char} (h : Urn.isSchema cs = true) :
    ∃ c, cs.head? = some c ∧ c.toLower = 'u' := by
  unfold Urn.isSchema at h
  split at h
  · rename_i scheme space rest hsegments
    simp only [Bool.and_eq_true] at h
    rcases scheme with - | ⟨c, scheme⟩
    · cases h.1.1
    · have hu : c.toLower = 'u' := beq_iff_eq.1 (Bool.and_eq_true_iff.1 h.1.1).1
      refine ⟨c, ?_, hu⟩
      rw [← Text.join_segments ':' cs, hsegments]
      rfl
  · cases h

/-- A path does not start with a delimiter. -/
theorem WellFormed.head?_path {a : Attribute} (h : a.WellFormed) :
    ∃ c, a.path.toList.head? = some c ∧ Scan.isDelimiter c = false := by
  rw [toList_path]
  rcases hu : a.urn with - | u
  · obtain ⟨hne, hchars⟩ := isNameChar_of_isName h.name
    rcases hname : a.name.toList with - | ⟨c, cs⟩
    · exact absurd hname hne
    · rw [hname] at hchars
      exact ⟨c, rfl, not_isDelimiter_of_isNameChar (hchars c List.mem_cons_self)⟩
  · obtain ⟨c, hhead, hc⟩ := head?_of_isSchema (h.urn u hu)
    have hblind : Text.CaseBlind Scan.isDelimiter := Text.caseBlind_of_capitals (by decide)
    refine ⟨c, by simp [hhead], ?_⟩
    rw [← hblind c, hc]
    decide

theorem Plain.scopedUnder {a p : Attribute} (ha : a.Plain) (hp : p.Plain) :
    (a.scopedUnder p).Plain := by
  unfold Attribute.scopedUnder
  split
  · exact ha
  · obtain ⟨hurn, hname, -⟩ := plain_iff.1 hp
    refine plain_iff.2 ⟨hurn, hname, ?_⟩
    intro s hs
    obtain rfl := Option.some.inj hs
    exact (plain_iff.1 ha).2.1

end ScimQuery.Attribute
