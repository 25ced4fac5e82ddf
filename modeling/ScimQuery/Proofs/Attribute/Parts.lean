/-
ScimQuery/Proofs/Attribute/Parts.lean

Attribute paths by their parts, said without the reader: a schema URN is the word
`urn`, a namespace identifier, segments and a name with colons between them
(`Urn.Pattern`), and a path is an optional URN with a colon, a name, and an optional
dot with a sub-attribute (`Attribute.Spells`).  The reader cuts at the last colon and
at the first dot after it; colons and dots also stand inside a URN, dots inside a
sub-attribute.

References come from paths, from parts, from JSON, and from putting one reference
under another, which reads nothing (`Attribute.Obtainable`).  All of them are well
formed.

Main result: paths and the references that can be had are in one-to-one
correspondence (`read_path_iff_spells`).
-/
import ScimQuery.Proofs.Attribute.Path
import ScimQuery.Search.Body

namespace ScimQuery

namespace Text

/-! ### Pieces of text -/

/-- A character that passes the first test, then any number that pass the second. -/
def Headed (first others : Char → Bool) (cs : List Char) : Prop :=
  ∃ c ds, cs = c :: ds ∧ first c = true ∧ ∀ d ∈ ds, others d = true

@[simp] theorem not_headed_nil (first others : Char → Bool) : ¬ Headed first others [] := by
  rintro ⟨c, ds, h, -⟩
  cases h

@[simp] theorem headed_cons {first others : Char → Bool} {c : Char} {cs : List Char} :
    Headed first others (c :: cs) ↔ first c = true ∧ ∀ d ∈ cs, others d = true := by
  constructor
  · rintro ⟨c', ds, h, hc, hds⟩
    cases h
    exact ⟨hc, hds⟩
  · rintro ⟨hc, hcs⟩
    exact ⟨c, cs, rfl, hc, hcs⟩

theorem Headed.not_mem {first others : Char → Bool} {cs : List Char} (h : Headed first others cs)
    {d : Char} (hfirst : first d = false) (hothers : others d = false) : d ∉ cs := by
  obtain ⟨c, ds, rfl, hc, hds⟩ := h
  intro hmem
  rcases List.mem_cons.1 hmem with rfl | hmem
  · rw [hc] at hfirst
    cases hfirst
  · rw [hds d hmem] at hothers
    cases hothers

end Text

namespace Urn

/-! ### Schema URNs -/

/-- The pattern of a schema URN. -/
def Pattern (cs : List Char) : Prop :=
  ∃ scheme space middles name,
    cs = Text.join ':' (scheme :: space :: (middles ++ [name])) ∧
      Text.fold scheme = ['u', 'r', 'n'] ∧
      Text.Headed isLetterOrDigit (fun c => isLetterOrDigit c || c == '-') space ∧
      (∀ middle ∈ middles, middle ≠ [] ∧ ∀ c ∈ middle, c ≠ ':' ∧ Text.isBlank c = false) ∧
      Text.Headed isLetter (fun c => isLetterOrDigit c || c == '_' || c == '-') name

theorem isNamespace_iff {cs : List Char} :
    isNamespace cs = true ↔
      Text.Headed isLetterOrDigit (fun c => isLetterOrDigit c || c == '-') cs := by
  cases cs <;> simp [isNamespace]

theorem isName_iff {cs : List Char} :
    isName cs = true ↔
      Text.Headed isLetter (fun c => isLetterOrDigit c || c == '_' || c == '-') cs := by
  cases cs <;> simp [isName]

theorem isTail_iff {pieces : List (List Char)} :
    isTail pieces = true ↔
      ∃ middles name, pieces = middles ++ [name] ∧ (∀ middle ∈ middles, isMiddle middle = true) ∧
        isName name = true := by
  induction pieces with
  | nil =>
    refine iff_of_false nofun ?_
    rintro ⟨middles, name, h, -⟩
    simp at h
  | cons piece rest ih =>
    rcases rest with - | ⟨next, rest⟩
    · constructor
      · intro h
        exact ⟨[], piece, rfl, by simp, h⟩
      · rintro ⟨middles, name, h, -, hname⟩
        rcases middles with - | ⟨middle, middles⟩
        · cases h
          exact hname
        · simp at h
    · rw [show isTail (piece :: next :: rest) = (isMiddle piece && isTail (next :: rest)) from rfl,
        Bool.and_eq_true, ih]
      constructor
      · rintro ⟨hpiece, middles, name, h, hmiddles, hname⟩
        exact ⟨piece :: middles, name, by rw [h]; rfl,
          List.forall_mem_cons.2 ⟨hpiece, hmiddles⟩, hname⟩
      · rintro ⟨middles, name, h, hmiddles, hname⟩
        rcases middles with - | ⟨middle, middles⟩
        · simp at h
        · obtain ⟨rfl, hrest⟩ := List.cons.inj h
          obtain ⟨hpiece, hmiddles⟩ := List.forall_mem_cons.1 hmiddles
          exact ⟨hpiece, middles, name, hrest, hmiddles, hname⟩

theorem isMiddle_iff {cs : List Char} :
    isMiddle cs = true ↔ cs ≠ [] ∧ ∀ c ∈ cs, Text.isBlank c = false := by
  simp [isMiddle]

/-- A text is taken for a schema URN exactly if it has the pattern. -/
theorem isSchema_iff_pattern {cs : List Char} : isSchema cs = true ↔ Pattern cs := by
  constructor
  · intro h
    unfold isSchema at h
    split at h
    · rename_i scheme space rest hsegments
      simp only [Bool.and_eq_true] at h
      obtain ⟨⟨hscheme, hspace⟩, htail⟩ := h
      obtain ⟨middles, name, rfl, hmiddles, hname⟩ := isTail_iff.1 htail
      obtain ⟨-, hjoin, hcolon⟩ := Text.segments_eq_iff.1 hsegments
      refine ⟨scheme, space, middles, name, hjoin.symm, Text.alikeChars_iff_fold_eq.1 hscheme,
        isNamespace_iff.1 hspace, ?_, isName_iff.1 hname⟩
      intro middle hmiddle
      obtain ⟨hne, hblank⟩ := isMiddle_iff.1 (hmiddles middle hmiddle)
      refine ⟨hne, fun c hc => ⟨?_, hblank c hc⟩⟩
      rintro rfl
      exact hcolon middle (by simp [hmiddle]) hc
    · cases h
  · rintro ⟨scheme, space, middles, name, rfl, hscheme, hspace, hmiddles, hname⟩
    have hcolon : ∀ piece ∈ scheme :: space :: (middles ++ [name]), ':' ∉ piece := by
      simp only [List.forall_mem_cons, List.forall_mem_append]
      refine ⟨?_, hspace.not_mem (by decide) (by decide), ?_,
        hname.not_mem (by decide) (by decide), by simp⟩
      · intro hmem
        have hfold : (':').toLower ∈ Text.fold scheme := List.mem_map_of_mem hmem
        rw [hscheme] at hfold
        revert hfold
        decide
      · intro middle hmiddle hmem
        exact ((hmiddles middle hmiddle).2 ':' hmem).1 rfl
    unfold isSchema
    rw [Text.segments_join (List.cons_ne_nil _ _) hcolon]
    have htail : isTail (middles ++ [name]) = true := by
      refine isTail_iff.2 ⟨middles, name, rfl, fun middle hmiddle => ?_, isName_iff.2 hname⟩
      obtain ⟨hne, hchars⟩ := hmiddles middle hmiddle
      exact isMiddle_iff.2 ⟨hne, fun c hc => (hchars c hc).2⟩
    have hscheme' : Text.alikeChars scheme ['u', 'r', 'n'] = true :=
      Text.alikeChars_iff_fold_eq.2 hscheme
    simp only [hscheme', isNamespace_iff.2 hspace, htail, Bool.and_self]

end Urn

namespace Attribute

/-! ### Paths -/

/-- The path is written with these parts. -/
structure Spells (path : String) (a : Attribute) : Prop where
  text : path.toList =
    (a.urn.elim [] fun u => u.toList ++ [':']) ++
      (a.name.toList ++ a.sub.elim [] fun s => '.' :: s.toList)
  urn : ∀ u, a.urn = some u → Urn.Pattern u.toList
  name : ∃ bare, (a.name.toList = bare ∨ a.name.toList = '$' :: bare) ∧
    Text.Headed Char.isAlpha (fun c => c.isAlphanum || c == '-' || c == '_') bare
  sub : ∀ s, a.sub = some s → ':' ∉ s.toList ∧
    ∃ parts, s.toList = Text.join '.' parts ∧ parts ≠ [] ∧ ∀ part ∈ parts, part ≠ [] ∧ '.' ∉ part

theorem isName_dollar {cs : List Char} :
    isName ('$' :: cs) = true ↔
      Text.Headed Char.isAlpha (fun c => c.isAlphanum || c == '-' || c == '_') cs := by
  cases cs <;> simp [isName]

theorem isName_cons_of_ne {c : Char} (hc : c ≠ '$') {cs : List Char} :
    isName (c :: cs) = true ↔
      Text.Headed Char.isAlpha (fun c => c.isAlphanum || c == '-' || c == '_') (c :: cs) := by
  simp [isName, hc]

theorem isName_iff {cs : List Char} :
    isName cs = true ↔ ∃ bare, (cs = bare ∨ cs = '$' :: bare) ∧
      Text.Headed Char.isAlpha (fun c => c.isAlphanum || c == '-' || c == '_') bare := by
  constructor
  · intro h
    rcases cs with - | ⟨c, cs⟩
    · cases h
    · by_cases hc : c = '$'
      · subst hc
        exact ⟨cs, .inr rfl, isName_dollar.1 h⟩
      · exact ⟨c :: cs, .inl rfl, (isName_cons_of_ne hc).1 h⟩
  · rintro ⟨bare, rfl | rfl, hbare⟩
    · obtain ⟨c, ds, rfl, hc, -⟩ := id hbare
      -- a `$` is no letter
      have hne : c ≠ '$' := by
        rintro rfl
        cases hc
      exact (isName_cons_of_ne hne).2 hbare
    · exact isName_dollar.2 hbare

theorem isSub_iff {cs : List Char} :
    isSub cs = true ↔ ∃ parts, cs = Text.join '.' parts ∧ parts ≠ [] ∧
      ∀ part ∈ parts, part ≠ [] ∧ '.' ∉ part := by
  have hall : isSub cs = true ↔ ∀ part ∈ Text.segments '.' cs, part ≠ [] := by
    simp [isSub]
  rw [hall]
  constructor
  · intro h
    obtain ⟨hne, hjoin, hdot⟩ := Text.segments_eq_iff.1 (rfl : Text.segments '.' cs = _)
    exact ⟨_, hjoin.symm, hne, fun part hpart => ⟨h part hpart, hdot part hpart⟩⟩
  · rintro ⟨parts, rfl, hne, hparts⟩
    rw [Text.segments_join hne fun part hpart => (hparts part hpart).2]
    exact fun part hpart => (hparts part hpart).1

theorem spells_iff {p : String} {a : Attribute} : Spells p a ↔ a.path = p ∧ a.WellFormed := by
  rw [← String.toList_inj, toList_path]
  constructor
  · rintro ⟨htext, hurn, hname, hsub⟩
    refine ⟨htext.symm, fun u hu => Urn.isSchema_iff_pattern.2 (hurn u hu), isName_iff.2 hname,
      fun s hs => ?_⟩
    obtain ⟨hcolon, hparts⟩ := hsub s hs
    exact ⟨isSub_iff.2 hparts, hcolon⟩
  · rintro ⟨htext, hurn, hname, hsub⟩
    refine ⟨htext.symm, fun u hu => Urn.isSchema_iff_pattern.1 (hurn u hu), isName_iff.1 hname,
      fun s hs => ?_⟩
    obtain ⟨hparts, hcolon⟩ := hsub s hs
    exact ⟨hcolon, isSub_iff.1 hparts⟩

/-- A path is spelled by one reference at most. -/
theorem Spells.unique {p : String} {a b : Attribute} (ha : Spells p a) (hb : Spells p b) :
    a = b := by
  have hread := ofPath?_eq_some_iff.2 (spells_iff.1 ha)
  rw [ofPath?_eq_some_iff.2 (spells_iff.1 hb)] at hread
  exact (Option.some.inj hread).symm

theorem read_eq_ok_iff {p : String} {a : Attribute} : read p = .ok a ↔ Spells p a := by
  rw [spells_iff, ← ofPath?_eq_some_iff]
  unfold read
  rcases ofPath? p with - | b
  · exact iff_of_false nofun nofun
  · rw [Except.ok.injEq, Option.some.injEq]

theorem read_eq_error_iff {p : String} {fault : Fault} :
    read p = .error fault ↔ (¬ ∃ a, Spells p a) ∧ fault = .ofPath p := by
  constructor
  · intro h
    refine ⟨?_, ?_⟩
    · rintro ⟨a, ha⟩
      rw [read_eq_ok_iff.2 ha] at h
      cases h
    · unfold read at h
      split at h
      · cases h
      · exact (Except.error.inj h).symm
  · rintro ⟨hnone, rfl⟩
    rcases hread : read p with fault | a
    · unfold read at hread
      split at hread
      · cases hread
      · exact hread.symm
    · exact absurd ⟨a, read_eq_ok_iff.1 hread⟩ hnone

/-! ### Where references come from -/

/-- The references that can be had: read from a path, put together from parts, read
from JSON, or put under another one. -/
inductive Obtainable : Attribute → Prop
  | ofPath {p a} : read p = .ok a → Obtainable a
  | ofParts {urn name sub a} : readParts urn name sub = .ok a → Obtainable a
  | ofJson {cs a rest} : Search.attributeReader cs = .ok (a, rest) → Obtainable a
  | under {a p} : Obtainable a → Obtainable p → Obtainable (a.scopedUnder p)

theorem exists_of_textAs {α : Type} {parse : String → Option α} {cs rest : List Char} {a : α}
    (h : Json.textAs parse cs = .ok (a, rest)) : ∃ s, parse s = some a := by
  unfold Json.textAs at h
  rcases htext : Json.text cs with fault | ⟨s, after⟩
  · rw [htext] at h
    cases h
  · rw [htext] at h
    rcases hparse : parse s with - | b
    · simp [bind, Except.bind, hparse] at h
    · simp only [bind, Except.bind, hparse, Except.ok.injEq, Prod.mk.injEq] at h
      exact ⟨s, by rw [hparse, h.1]⟩

/-- Every reference that can be had is well formed. -/
theorem Obtainable.wellFormed {a : Attribute} (h : Obtainable a) : a.WellFormed := by
  induction h with
  | ofPath hread => exact (spells_iff.1 (read_eq_ok_iff.1 hread)).2
  | ofParts hread => exact (spells_iff.1 (read_eq_ok_iff.1 hread)).2
  | ofJson hread =>
    obtain ⟨s, hs⟩ := exists_of_textAs hread
    exact (ofPath?_eq_some_iff.1 hs).2
  | under _ _ ha hp => exact ha.scopedUnder hp

/-- Paths and references are in one-to-one correspondence.  A path is read as the one
reference whose parts spell it, and refused if there is none; what is read is written
back character for character; and every reference that can be had is read again from
its path and from its parts. -/
theorem read_path_iff_spells :
    (∀ p a, read p = .ok a ↔ Spells p a) ∧
      (∀ p fault, read p = .error fault ↔ (¬ ∃ a, Spells p a) ∧ fault = .ofPath p) ∧
      (∀ p a, read p = .ok a → a.path = p) ∧
      (∀ p a b, Spells p a → Spells p b → a = b) ∧
      ∀ a, Obtainable a → read a.path = .ok a ∧ readParts a.urn a.name a.sub = .ok a := by
  refine ⟨fun p a => read_eq_ok_iff, fun p fault => read_eq_error_iff, ?_,
    fun p a b ha hb => ha.unique hb, ?_⟩
  · intro p a hread
    exact (spells_iff.1 (read_eq_ok_iff.1 hread)).1
  · intro a ha
    have hread : read a.path = .ok a := read_eq_ok_iff.2 (spells_iff.2 ⟨rfl, ha.wellFormed⟩)
    exact ⟨hread, hread⟩

/-- A name from JSON, put under a reference with a URN that has dots, and a `$`. -/
theorem read_path_scoped_json :
    let parent : Attribute := ⟨some "urn:ietf:params:scim:schemas:core:2.0:Group", "members", none⟩
    let a : Attribute := ⟨none, "$ref", none⟩
    Obtainable (a.scopedUnder parent) ∧
      read (a.scopedUnder parent).path = .ok (a.scopedUnder parent) ∧
      (a.scopedUnder parent).path = "urn:ietf:params:scim:schemas:core:2.0:Group:members.$ref" := by
  intro parent a
  have hparent : read "urn:ietf:params:scim:schemas:core:2.0:Group:members" = .ok parent := rfl
  have ha : Search.attributeReader "\"$ref\"".toList = .ok (a, []) := rfl
  have hscoped : Obtainable (a.scopedUnder parent) := .under (.ofJson ha) (.ofPath hparent)
  exact ⟨hscoped, (read_path_iff_spells.2.2.2.2 _ hscoped).1, rfl⟩

end Attribute

end ScimQuery
