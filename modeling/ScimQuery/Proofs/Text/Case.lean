/-
ScimQuery/Proofs/Text/Case.lean

What ASCII case cannot change.  A test on characters is *case blind* if a letter
and its small form pass it together; whether it is can be seen from the
twenty-six capital letters alone (`caseBlind_of_capitals`).  A text in lower case
passes the same case-blind tests as before, character by character (`all_fold`).

Texts are alike exactly when they have one lower-case form (`lower_eq_iff_alike`).
No letter is a separator, so a text in lower case is cut where the text is cut
(`segments_fold`, `cutFirst_fold`, `cutLast_fold`).
-/
import ScimQuery.Text.Basic
import ScimQuery.Text.Segments

namespace ScimQuery.Text

/-! ### Case-blind tests -/

/-- The test does not see the case of a letter. -/
def CaseBlind (p : Char → Bool) : Prop := ∀ c : Char, p c.toLower = p c

theorem toLower_of_not_capital {c : Char} (h : ¬ (65 ≤ c.toNat ∧ c.toNat ≤ 90)) :
    c.toLower = c := by
  unfold Char.toLower
  exact dif_neg h

theorem toLower_of_capital {c : Char} (h : 65 ≤ c.toNat ∧ c.toNat ≤ 90) :
    c.toLower = Char.ofNat (c.toNat + 32) := by
  have hall : ∀ n < 91, 65 ≤ n → (Char.ofNat n).toLower = Char.ofNat (n + 32) := by decide
  have hc := hall c.toNat (by omega) h.1
  rwa [Char.ofNat_toNat] at hc

/-- Only the capital letters have to be tried. -/
theorem caseBlind_of_capitals {p : Char → Bool}
    (h : ∀ n < 91, 65 ≤ n → p (Char.ofNat (n + 32)) = p (Char.ofNat n)) : CaseBlind p := by
  intro c
  by_cases hc : 65 ≤ c.toNat ∧ c.toNat ≤ 90
  · have hn := h c.toNat (by omega) hc.1
    rw [toLower_of_capital hc, hn, Char.ofNat_toNat]
  · rw [toLower_of_not_capital hc]

theorem caseBlind_isAlpha : CaseBlind Char.isAlpha := caseBlind_of_capitals (by decide)

/-- A character that is no letter has no other case. -/
theorem caseBlind_beq {d : Char} (h : d.isAlpha = false) : CaseBlind (· == d) := by
  have hd : ∀ n < 91, 65 ≤ n → Char.ofNat (n + 32) ≠ d ∧ Char.ofNat n ≠ d := by
    intro n hn hle
    have hletters : ∀ n < 91, 65 ≤ n →
        (Char.ofNat (n + 32)).isAlpha = true ∧ (Char.ofNat n).isAlpha = true := by decide
    obtain ⟨hsmall, hcapital⟩ := hletters n hn hle
    constructor
    · rintro rfl
      rw [h] at hsmall
      cases hsmall
    · rintro rfl
      rw [h] at hcapital
      cases hcapital
  apply caseBlind_of_capitals
  intro n hn hle
  obtain ⟨h₁, h₂⟩ := hd n hn hle
  rw [beq_eq_false_iff_ne.2 h₁, beq_eq_false_iff_ne.2 h₂]

theorem all_fold {p : Char → Bool} (h : CaseBlind p) (cs : List Char) :
    (fold cs).all p = cs.all p := by
  unfold fold
  rw [List.all_map]
  exact congrArg cs.all (funext h)

/-- A head and a tail pass case-blind tests together with their small forms. -/
theorem headed_fold {first others : Char → Bool} (hfirst : CaseBlind first)
    (hothers : CaseBlind others) (c : Char) (cs : List Char) :
    (first c.toLower && (fold cs).all others) = (first c && cs.all others) := by
  rw [hfirst c, all_fold hothers]

/-! ### Lower-case texts -/

/-- The text with its ASCII letters small. -/
def lower (s : String) : String := String.ofList (fold s.toList)

@[simp] theorem toList_lower (s : String) : (lower s).toList = fold s.toList :=
  String.toList_ofList

/-- Texts are alike exactly when they have one lower-case form. -/
theorem lower_eq_iff_alike {a b : String} : lower a = lower b ↔ alike a b = true := by
  rw [alike_iff_fold_eq, lower, lower, String.ofList_inj]

theorem map_lower_eq_iff_alikePart {a b : Option String} :
    a.map lower = b.map lower ↔ alikePart a b = true :=
  map_eq_iff_alikePart lower_eq_iff_alike

theorem fold_fold (cs : List Char) : fold (fold cs) = fold cs := by
  have hsmall : ∀ n < 91, 65 ≤ n → (Char.ofNat (n + 32)).toLower = Char.ofNat (n + 32) := by
    decide
  rw [fold, fold, List.map_map]
  apply List.map_congr_left
  intro c _
  by_cases hc : 65 ≤ c.toNat ∧ c.toNat ≤ 90
  · rw [Function.comp_apply, toLower_of_capital hc, hsmall c.toNat (by omega) hc.1]
  · rw [Function.comp_apply, toLower_of_not_capital hc, toLower_of_not_capital hc]

@[simp] theorem alike_lower_left (a b : String) : alike (lower a) b = alike a b := by
  rw [Bool.eq_iff_iff, alike_iff_fold_eq, alike_iff_fold_eq, toList_lower, fold_fold]

@[simp] theorem alike_lower_right (a b : String) : alike a (lower b) = alike a b := by
  rw [Bool.eq_iff_iff, alike_iff_fold_eq, alike_iff_fold_eq, toList_lower, fold_fold]

/-! ### Cutting -/

section Cutting

variable {sep : Char}

theorem toLower_eq_iff (hsep : sep.isAlpha = false) {c : Char} : c.toLower = sep ↔ c = sep := by
  have hc : (c.toLower == sep) = (c == sep) := caseBlind_beq hsep c
  rw [← beq_iff_eq, hc, beq_iff_eq]

theorem toLower_bne (hsep : sep.isAlpha = false) :
    (fun c : Char => c != sep) ∘ Char.toLower = fun c => c != sep :=
  funext fun c => congrArg Bool.not (caseBlind_beq hsep c)

theorem segments_fold (hsep : sep.isAlpha = false) (cs : List Char) :
    segments sep (fold cs) = (segments sep cs).map fold := by
  induction cs with
  | nil => rfl
  | cons c cs ih =>
    rw [show fold (c :: cs) = c.toLower :: fold cs from rfl]
    by_cases hc : c = sep
    · rw [(toLower_eq_iff hsep).2 hc, hc, segments_cons_self, segments_cons_self, ih]
      rfl
    · rcases hs : segments sep cs with - | ⟨piece, rest⟩
      · exact absurd hs (segments_ne_nil sep cs)
      · rw [hs] at ih
        rw [segments_cons_of_ne hc hs, segments_cons_of_ne (mt (toLower_eq_iff hsep).1 hc) ih]
        rfl

theorem cutFirst_fold (hsep : sep.isAlpha = false) (cs : List Char) :
    cutFirst sep (fold cs) = ((cutFirst sep cs).map fold (Option.map fold)) := by
  unfold cutFirst fold
  rw [List.dropWhile_map, List.takeWhile_map, toLower_bne hsep]
  cases cs.dropWhile (· != sep) <;> rfl

theorem cutLast_fold (hsep : sep.isAlpha = false) (cs : List Char) :
    cutLast sep (fold cs) = (cutLast sep cs).map (Option.map fold) fold := by
  have hreverse : ∀ cs, (fold cs).reverse = fold cs.reverse := fun cs => List.map_reverse.symm
  unfold cutLast
  rw [hreverse, cutFirst_fold hsep]
  rcases cutFirst sep cs.reverse with ⟨after, - | before⟩
  · rfl
  · simp [hreverse]

end Cutting

end ScimQuery.Text
