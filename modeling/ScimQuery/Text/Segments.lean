/-
ScimQuery/Text/Segments.lean

Cutting a text at a separator and putting the pieces together again.  Paths are
cut at `:` and `.`, attribute lists at `,`, query strings at `&`.

Cutting at every separator never gives an empty list of pieces: the empty text is
one empty piece.  It loses nothing (`join_segments`), and it undoes joining when no
piece has the separator in it (`segments_join`), so the pieces are the only ones that
make up the text and have no separator in them (`segments_eq_iff`).  Cutting once, at
the first or the last separator, gives a piece without separators and the rest
(`cutFirst_spec`, `cutLast_spec`).
-/
namespace ScimQuery.Text

variable {sep : Char}

/-! ### Cutting at every separator -/

/-- The pieces between the separators, empty ones included. -/
def segments (sep : Char) (cs : List Char) : List (List Char) :=
  cs.foldr
    (fun c pieces =>
      if c = sep then [] :: pieces
      else match pieces with
        | [] => [[c]]
        | piece :: rest => (c :: piece) :: rest)
    [[]]

theorem segments_ne_nil (sep : Char) (cs : List Char) : segments sep cs ≠ [] := by
  cases cs with
  | nil => simp [segments]
  | cons c cs =>
    simp only [segments, List.foldr_cons]
    split
    · simp
    · split <;> simp

theorem segments_cons_self (sep : Char) (cs : List Char) :
    segments sep (sep :: cs) = [] :: segments sep cs :=
  if_pos rfl

theorem segments_cons_of_ne {c : Char} (hc : c ≠ sep) {cs piece : List Char}
    {rest : List (List Char)} (hcs : segments sep cs = piece :: rest) :
    segments sep (c :: cs) = (c :: piece) :: rest := by
  simp only [segments, List.foldr_cons] at hcs ⊢
  rw [if_neg hc, hcs]

theorem segments_of_not_mem {cs : List Char} (h : sep ∉ cs) : segments sep cs = [cs] := by
  induction cs with
  | nil => rfl
  | cons c cs ih =>
    obtain ⟨hc, hcs⟩ := not_or.1 (mt List.mem_cons.2 h)
    exact segments_cons_of_ne (Ne.symm hc) (ih hcs)

/-- A separator keeps the pieces before it apart from those after it. -/
theorem segments_append (sep : Char) (as bs : List Char) :
    segments sep (as ++ sep :: bs) = segments sep as ++ segments sep bs := by
  induction as with
  | nil => exact segments_cons_self sep bs
  | cons c as ih =>
    rw [List.cons_append]
    by_cases hc : c = sep
    · subst hc
      rw [segments_cons_self, segments_cons_self, ih, List.cons_append]
    · -- the character goes to the first piece, and there is one before the separator
      rcases hs : segments sep as with - | ⟨piece, rest⟩
      · exact absurd hs (segments_ne_nil sep as)
      · rw [hs, List.cons_append] at ih
        rw [segments_cons_of_ne hc ih, segments_cons_of_ne hc hs, List.cons_append]

theorem not_mem_segments (cs : List Char) :
    ∀ piece ∈ segments sep cs, sep ∉ piece := by
  induction cs with
  | nil => simp [segments]
  | cons c cs ih =>
    by_cases hc : c = sep
    · subst hc
      rw [segments_cons_self]
      exact List.forall_mem_cons.2 ⟨List.not_mem_nil, ih⟩
    · rcases hs : segments sep cs with - | ⟨piece, rest⟩
      · exact absurd hs (segments_ne_nil sep cs)
      · rw [hs] at ih
        obtain ⟨hpiece, hrest⟩ := List.forall_mem_cons.1 ih
        rw [segments_cons_of_ne hc hs]
        refine List.forall_mem_cons.2 ⟨?_, hrest⟩
        rw [List.mem_cons, not_or]
        exact ⟨Ne.symm hc, hpiece⟩

/-! ### Joining -/

/-- The pieces with a separator between each two. -/
def join (sep : Char) (pieces : List (List Char)) : List Char :=
  [sep].intercalate pieces

theorem join_cons_cons (sep : Char) (piece next : List Char) (rest : List (List Char)) :
    join sep (piece :: next :: rest) = piece ++ sep :: join sep (next :: rest) := by
  simp [join, List.intercalate_cons_cons]

theorem join_cons (sep : Char) (piece : List Char) (rest : List (List Char)) :
    join sep (piece :: rest) = piece ++ rest.flatMap (sep :: ·) := by
  induction rest generalizing piece with
  | nil => simp [join]
  | cons next rest ih => rw [join_cons_cons, ih, List.flatMap_cons, List.cons_append]

theorem mem_join {c : Char} {pieces : List (List Char)} (h : c ∈ join sep pieces) :
    c = sep ∨ ∃ piece ∈ pieces, c ∈ piece := by
  rcases pieces with - | ⟨piece, rest⟩
  · cases h
  · rw [join_cons, List.mem_append, List.mem_flatMap] at h
    rcases h with h | ⟨next, hnext, h⟩
    · exact .inr ⟨piece, List.mem_cons_self, h⟩
    · rcases List.mem_cons.1 h with h | h
      · exact .inl h
      · exact .inr ⟨next, List.mem_cons_of_mem _ hnext, h⟩

/-- Cutting loses nothing: the pieces joined again are the text. -/
theorem join_segments (sep : Char) (cs : List Char) : join sep (segments sep cs) = cs := by
  induction cs with
  | nil => rfl
  | cons c cs ih =>
    rcases hs : segments sep cs with - | ⟨piece, rest⟩
    · exact absurd hs (segments_ne_nil sep cs)
    · rw [hs] at ih
      by_cases hc : c = sep
      · rw [hc, segments_cons_self, hs, join_cons_cons, List.nil_append, ih]
      · rw [segments_cons_of_ne hc hs, join_cons, List.cons_append, ← join_cons, ih]

/-- Cutting undoes joining when no piece has the separator in it. -/
theorem segments_join {pieces : List (List Char)} (hne : pieces ≠ [])
    (h : ∀ piece ∈ pieces, sep ∉ piece) : segments sep (join sep pieces) = pieces := by
  induction pieces with
  | nil => exact absurd rfl hne
  | cons piece rest ih =>
    obtain ⟨hpiece, hrest⟩ := List.forall_mem_cons.1 h
    rcases rest with - | ⟨next, rest⟩
    · rw [join, List.intercalate_singleton, segments_of_not_mem hpiece]
    · rw [join_cons_cons, segments_append, segments_of_not_mem hpiece,
        ih (List.cons_ne_nil _ _) hrest]
      rfl

/-- The pieces are those that make up the text and have no separator in them. -/
theorem segments_eq_iff {cs : List Char} {pieces : List (List Char)} :
    segments sep cs = pieces ↔
      pieces ≠ [] ∧ join sep pieces = cs ∧ ∀ piece ∈ pieces, sep ∉ piece := by
  constructor
  · rintro rfl
    exact ⟨segments_ne_nil sep cs, join_segments sep cs, not_mem_segments cs⟩
  · rintro ⟨hne, rfl, h⟩
    exact segments_join hne h

/-! ### Cutting once -/

/-- The text before the first separator, and what follows it if there is one. -/
def cutFirst (sep : Char) (cs : List Char) : List Char × Option (List Char) :=
  match cs.dropWhile (· != sep) with
  | [] => (cs, none)
  | _ :: after => (cs.takeWhile (· != sep), some after)

/-- The text before the last separator if there is one, and the text after it. -/
def cutLast (sep : Char) (cs : List Char) : Option (List Char) × List Char :=
  match cutFirst sep cs.reverse with
  | (_, none) => (none, cs)
  | (after, some before) => (some before.reverse, after.reverse)

theorem bne_of_not_mem {cs : List Char} (h : sep ∉ cs) : ∀ c ∈ cs, (c != sep) = true := by
  intro c hc
  apply bne_iff_ne.2
  rintro rfl
  exact h hc

theorem cutFirst_of_not_mem {cs : List Char} (h : sep ∉ cs) : cutFirst sep cs = (cs, none) := by
  have hdrop : cs.dropWhile (· != sep) = [] := by
    rw [← List.append_nil cs, List.dropWhile_append_of_pos (bne_of_not_mem h)]
    rfl
  unfold cutFirst
  rw [hdrop]

theorem cutFirst_append {as : List Char} (h : sep ∉ as) (bs : List Char) :
    cutFirst sep (as ++ sep :: bs) = (as, some bs) := by
  have hdrop : (as ++ sep :: bs).dropWhile (· != sep) = sep :: bs := by
    rw [List.dropWhile_append_of_pos (bne_of_not_mem h), List.dropWhile_cons_of_neg (by simp)]
  have htake : (as ++ sep :: bs).takeWhile (· != sep) = as := by
    rw [List.takeWhile_append_of_pos (bne_of_not_mem h), List.takeWhile_cons_of_neg (by simp),
      List.append_nil]
  unfold cutFirst
  rw [hdrop, htake]

/-- The first piece has no separator, and the pieces make up the text. -/
theorem cutFirst_spec {cs before : List Char} {after : Option (List Char)}
    (h : cutFirst sep cs = (before, after)) :
    sep ∉ before ∧
      cs = before ++ after.elim [] (sep :: ·) := by
  by_cases hmem : sep ∈ cs
  · obtain ⟨as, bs, rfl, hnot⟩ := List.eq_append_cons_of_mem hmem
    rw [cutFirst_append hnot] at h
    cases h
    exact ⟨hnot, rfl⟩
  · rw [cutFirst_of_not_mem hmem] at h
    cases h
    exact ⟨hmem, (List.append_nil cs).symm⟩

theorem cutLast_of_not_mem {cs : List Char} (h : sep ∉ cs) : cutLast sep cs = (none, cs) := by
  unfold cutLast
  rw [cutFirst_of_not_mem (by simpa using h)]

theorem cutLast_append (as : List Char) {bs : List Char} (h : sep ∉ bs) :
    cutLast sep (as ++ sep :: bs) = (some as, bs) := by
  have hrev : (as ++ sep :: bs).reverse = bs.reverse ++ sep :: as.reverse := by simp
  unfold cutLast
  rw [hrev, cutFirst_append (by simpa using h)]
  simp

/-- The last piece has no separator, and the pieces make up the text. -/
theorem cutLast_spec {cs after : List Char} {before : Option (List Char)}
    (h : cutLast sep cs = (before, after)) :
    sep ∉ after ∧
      cs = before.elim [] (· ++ [sep]) ++ after := by
  by_cases hmem : sep ∈ cs.reverse
  · obtain ⟨as, bs, hrev, hnot⟩ := List.eq_append_cons_of_mem hmem
    have hcs : cs = bs.reverse ++ sep :: as.reverse := by
      rw [← List.reverse_reverse cs, hrev]
      simp
    have has : sep ∉ as.reverse := by simpa using hnot
    rw [hcs, cutLast_append _ has] at h
    cases h
    exact ⟨has, by simpa using hcs⟩
  · have hcs : sep ∉ cs := by simpa using hmem
    rw [cutLast_of_not_mem hcs] at h
    cases h
    exact ⟨hcs, rfl⟩

end ScimQuery.Text
