/-
ScimQuery/Proofs/Attribute/Case.lean

Attribute paths in lower case.  Lowering the letters of a text changes neither
where the text is cut nor which pieces pass the tests of a schema URN, a name and
a sub-attribute: separators are no letters, and every test is case blind.

Main results: the path in lower case stands for the reference in lower case
(`ofPath?_lower`), and references are the same exactly when they have one
lower-case form (`lower_eq_iff_same`).
-/
import ScimQuery.Proofs.Attribute.Path
import ScimQuery.Proofs.Text.Case

namespace ScimQuery

/-! ### Schema URNs -/

namespace Urn

open Text

theorem caseBlind_isLetterOrDigit : CaseBlind isLetterOrDigit := caseBlind_of_capitals (by decide)

theorem isNamespace_fold (cs : List Char) : isNamespace (fold cs) = isNamespace cs := by
  cases cs with
  | nil => rfl
  | cons c cs =>
    exact headed_fold caseBlind_isLetterOrDigit (caseBlind_of_capitals (by decide)) c cs

theorem isName_fold (cs : List Char) : isName (fold cs) = isName cs := by
  cases cs with
  | nil => rfl
  | cons c cs =>
    exact headed_fold (caseBlind_of_capitals (by decide)) (caseBlind_of_capitals (by decide)) c cs

theorem isMiddle_fold (cs : List Char) : isMiddle (fold cs) = isMiddle cs := by
  have hblind : CaseBlind fun c => !isBlank c := caseBlind_of_capitals (by decide)
  rw [isMiddle, isMiddle, all_fold hblind, fold, List.isEmpty_map]

theorem isTail_fold (pieces : List (List Char)) : isTail (pieces.map fold) = isTail pieces := by
  induction pieces with
  | nil => rfl
  | cons piece rest ih =>
    rcases rest with - | ⟨next, rest⟩
    · exact isName_fold piece
    · simp only [List.map_cons, isTail] at ih ⊢
      rw [isMiddle_fold, ih]

/-- Being a schema URN does not depend on the case of letters. -/
theorem isSchema_fold (cs : List Char) : isSchema (fold cs) = isSchema cs := by
  have hscheme : ∀ scheme cs, alikeChars (fold scheme) cs = alikeChars scheme cs := by
    intro scheme cs
    rw [Bool.eq_iff_iff, alikeChars_iff_fold_eq, alikeChars_iff_fold_eq, fold_fold]
  unfold isSchema
  rw [segments_fold rfl]
  rcases segments ':' cs with - | ⟨scheme, - | ⟨space, rest⟩⟩
  · rfl
  · rfl
  · simp only [List.map_cons, hscheme, isNamespace_fold, isTail_fold]

end Urn

/-! ### References -/

namespace Attribute

/-- The reference with its ASCII letters small. -/
def lower (a : Attribute) : Attribute :=
  ⟨a.urn.map Text.lower, Text.lower a.name, a.sub.map Text.lower⟩

/-- References are the same exactly when they have one lower-case form. -/
theorem lower_eq_iff_same {a b : Attribute} : a.lower = b.lower ↔ a.same b = true := by
  simp only [lower, mk.injEq, same, Bool.and_eq_true, Text.lower_eq_iff_alike,
    Text.map_lower_eq_iff_alikePart, and_assoc]

/-- Lowering letters does not change where a bare name belongs. -/
theorem lower_scopedUnder (a parent : Attribute) :
    (a.scopedUnder parent).lower = a.lower.scopedUnder parent.lower := by
  have hurn : a.lower.urn.isSome = a.urn.isSome := Option.isSome_map
  have hsub : a.lower.sub.isSome = a.sub.isSome := Option.isSome_map
  unfold scopedUnder
  rw [hurn, hsub]
  split <;> rfl

theorem isSub_fold (cs : List Char) : isSub (Text.fold cs) = isSub cs := by
  unfold isSub
  rw [Text.segments_fold rfl, List.all_map]
  exact congrArg _ (funext fun part => congrArg Bool.not List.isEmpty_map)

/-- The characters of a path in lower case stand for the reference in lower case. -/
theorem ofChars?_fold (cs : List Char) :
    ofChars? (Text.fold cs) = (ofChars? cs).map lower := by
  unfold ofChars?
  rw [Text.cutLast_fold rfl]
  rcases Text.cutLast ':' cs with ⟨urn, rest⟩
  have hcut := @Text.cutFirst_fold '.' rfl rest
  rcases hname : Text.cutFirst '.' rest with ⟨name, sub⟩
  simp only [hname, Prod.map_apply] at hcut ⊢
  simp only [hcut, Option.all_map, Urn.isSchema_fold, isName_fold, isSub_fold]
  split
  · simp [lower, Text.lower, Function.comp_def]
  · rfl

/-- The path in lower case stands for the reference in lower case. -/
theorem ofPath?_lower (path : String) :
    ofPath? (Text.lower path) = (ofPath? path).map lower := by
  rw [ofPath?, Text.toList_lower, ofChars?_fold, ofPath?]

end Attribute

end ScimQuery
