/-
ScimQuery/Proofs/Search/Paths.lean

Lists of attribute paths with commas between them.  Nothing in a path is escaped
when a list is joined, and a path may have a comma in its schema or in its
sub-attribute and a blank at its end; reading cuts at every comma and trims every
entry.

Characters are never added on the way: those that are read make a sublist of those
that were written, commas left out.  So a list comes back only if no character was
lost, and then every path is as it was.

Main result: a list of paths comes back, element by element and in order, exactly
if none of them has a comma in it or ends in a blank (`readPaths_joinPaths_iff`).
-/
import ScimQuery.Proofs.Attribute.Parts
import ScimQuery.Proofs.Search.Query

namespace ScimQuery

namespace Text

/-! ### Nothing is added -/

/-- The pieces hold the characters that are no separators. -/
theorem flatten_segments (sep : Char) (cs : List Char) :
    (segments sep cs).flatten = cs.filter (· != sep) := by
  induction cs with
  | nil => rfl
  | cons c cs ih =>
    by_cases hc : c = sep
    · subst hc
      rw [segments_cons_self, List.flatten_cons, List.nil_append, ih]
      simp
    · rcases hs : segments sep cs with - | ⟨piece, rest⟩
      · exact absurd hs (segments_ne_nil sep cs)
      · rw [hs] at ih
        rw [segments_cons_of_ne hc hs, List.filter_cons_of_pos (by simpa using hc), ← ih]
        rfl

theorem filter_join (sep : Char) (pieces : List (List Char)) :
    (join sep pieces).filter (· != sep) = pieces.flatten.filter (· != sep) := by
  rcases pieces with - | ⟨piece, rest⟩
  · rfl
  rw [join_cons, List.filter_append, List.flatten_cons, List.filter_append]
  congr 1
  induction rest with
  | nil => rfl
  | cons next rest ih => simp [ih]

theorem trim_sublist (cs : List Char) : (trim cs).Sublist cs := by
  have hfront := List.dropWhile_sublist isBlank (l := cs)
  have hback := List.dropWhile_sublist isBlank (l := (cs.dropWhile isBlank).reverse)
  rw [trim]
  simpa using hback.reverse.trans (by simpa using hfront)

theorem dropWhile_eq_self_iff {p : Char → Bool} {cs : List Char} :
    cs.dropWhile p = cs ↔ ∀ c ∈ cs.head?, p c = false := by
  cases cs with
  | nil => simp
  | cons c cs =>
    cases hc : p c with
    | false => simp [List.dropWhile_cons_of_neg, hc]
    | true =>
      have hlt := (List.dropWhile_sublist p (l := cs)).length_le
      rw [List.dropWhile_cons_of_pos hc]
      refine iff_of_false (fun h => ?_) (by simp [hc])
      rw [h, List.length_cons] at hlt
      omega

/-- A text that starts with no blank is trimmed only at its end. -/
theorem trim_eq_self_iff {cs : List Char} (h : ∀ c ∈ cs.head?, isBlank c = false) :
    trim cs = cs ↔ ∀ c ∈ cs.getLast?, isBlank c = false := by
  rw [trim, dropWhile_eq_self_iff.2 h, List.reverse_eq_iff, dropWhile_eq_self_iff,
    List.head?_reverse]

theorem flatten_trim_sublist (pieces : List (List Char)) :
    (pieces.map trim).flatten.Sublist pieces.flatten := by
  induction pieces with
  | nil => exact List.Sublist.refl _
  | cons piece pieces ih => exact (trim_sublist piece).append ih

/-- If trimming the pieces takes no character, then it takes none from any of them. -/
theorem trim_eq_self_of_flatten {pieces : List (List Char)}
    (h : (pieces.map trim).flatten.length = pieces.flatten.length) :
    ∀ piece ∈ pieces, trim piece = piece := by
  induction pieces with
  | nil => exact nofun
  | cons piece pieces ih =>
    simp only [List.map_cons, List.flatten_cons, List.length_append] at h
    have hpiece := (trim_sublist piece).length_le
    have hpieces := (flatten_trim_sublist pieces).length_le
    refine List.forall_mem_cons.2 ⟨(trim_sublist piece).eq_of_length (by omega), ih (by omega)⟩

end Text

namespace Search

/-! ### What comes back -/

/-- The references that are read spell the entries. -/
theorem paths_of_mapM_read {entries : List (List Char)} {bs : List Attribute}
    (h : entries.mapM (fun entry => Attribute.read (String.ofList entry)) = .ok bs) :
    bs.map (fun b => b.path.toList) = entries := by
  induction entries generalizing bs with
  | nil =>
    cases h
    rfl
  | cons entry entries ih =>
    rw [List.mapM_cons] at h
    rcases hentry : Attribute.read (String.ofList entry) with fault | b
    · rw [hentry] at h
      cases h
    rw [hentry] at h
    obtain ⟨bs', hentries, rfl⟩ := exists_of_bind_eq_ok (f := (b :: ·)) h
    have hpath : b.path = String.ofList entry :=
      (Attribute.spells_iff.1 (Attribute.read_eq_ok_iff.1 hentry)).1
    rw [List.map_cons, ih hentries, hpath, String.toList_ofList]

theorem length_paths_of_sameList {as bs : List Attribute}
    (h : sameList Attribute.same bs as = true) :
    (bs.map fun b => b.path.toList).flatten.length =
      (as.map fun a => a.path.toList).flatten.length := by
  induction bs generalizing as with
  | nil =>
    cases as with
    | nil => rfl
    | cons a as => cases h
  | cons b bs ih =>
    cases as with
    | nil => cases h
    | cons a as =>
      obtain ⟨hhead, htail⟩ := Bool.and_eq_true_iff.1 h
      simp only [List.map_cons, List.flatten_cons, List.length_append, ih htail,
        Attribute.length_path_eq_of_same hhead]

/-- If as many characters are read as were written, then all paths are whole. -/
theorem whole_of_readPaths {as bs : List Attribute} (h : readPaths (joinPaths as) = .ok bs)
    (hlength : (bs.map fun b => b.path.toList).flatten.length =
      (as.map fun a => a.path.toList).flatten.length) :
    ∀ a ∈ as, ',' ∉ a.path.toList ∧ Text.trim a.path.toList = a.path.toList := by
  have hentries := paths_of_mapM_read h
  rw [hentries, List.flatten_filter_not_isEmpty, toList_joinPaths] at hlength
  generalize hpaths : (as.map fun a => a.path.toList) = paths at hlength
  -- the trimmed pieces, the pieces and the paths are each a sublist of the next
  have htrim := (Text.flatten_trim_sublist (Text.segments ',' (Text.join ',' paths))).length_le
  have hcut : (Text.segments ',' (Text.join ',' paths)).flatten =
      paths.flatten.filter (· != ',') := by
    rw [Text.flatten_segments, Text.filter_join]
  have hfilter : (paths.flatten.filter (· != ',')).Sublist paths.flatten := List.filter_sublist
  have hle := hfilter.length_le
  rw [hlength, hcut] at htrim
  have hcomma : ∀ path ∈ paths, ',' ∉ path := by
    intro path hpath hmem
    have hall := List.filter_eq_self.1 (hfilter.eq_of_length (by omega))
    exact absurd (hall ',' (List.mem_flatten.2 ⟨path, hpath, hmem⟩)) (by decide)
  intro a ha
  have hmem : a.path.toList ∈ paths := by
    rw [← hpaths]
    exact List.mem_map_of_mem ha
  rw [Text.segments_join (List.ne_nil_of_mem hmem) hcomma] at hlength
  exact ⟨hcomma _ hmem, Text.trim_eq_self_of_flatten hlength _ hmem⟩

/-- A list of references that were read comes back from its joined form, each element the
same as before and in its place, exactly if no path has a comma in it or ends in a blank;
then it comes back as it was. -/
theorem readPaths_joinPaths_iff {as : List Attribute}
    (h : ∀ a ∈ as, ∃ p, Attribute.read p = .ok a) :
    ((∃ bs, readPaths (joinPaths as) = .ok bs ∧ sameList Attribute.same bs as = true) ↔
        ∀ a ∈ as, ',' ∉ a.path.toList ∧
          ∀ c ∈ a.path.toList.getLast?, Text.isBlank c = false) ∧
      ((∀ a ∈ as, ',' ∉ a.path.toList ∧
          ∀ c ∈ a.path.toList.getLast?, Text.isBlank c = false) →
        readPaths (joinPaths as) = .ok as) := by
  have hwf : ∀ a ∈ as, a.WellFormed := by
    intro a ha
    obtain ⟨p, hp⟩ := h a ha
    exact (Attribute.Obtainable.ofPath hp).wellFormed
  -- a path starts with no blank, so only its end is trimmed
  have htrim : ∀ a ∈ as, Text.trim a.path.toList = a.path.toList ↔
      ∀ c ∈ a.path.toList.getLast?, Text.isBlank c = false := by
    intro a ha
    obtain ⟨c, hc, hdelimiter⟩ := (hwf a ha).head?_path
    apply Text.trim_eq_self_iff
    rw [hc]
    rintro d ⟨⟩
    exact (Scan.bracket?_of_not_isDelimiter hdelimiter).1
  have hback : (∀ a ∈ as, ',' ∉ a.path.toList ∧
      ∀ c ∈ a.path.toList.getLast?, Text.isBlank c = false) → readPaths (joinPaths as) = .ok as :=
    fun hall => readPaths_joinPaths hwf (fun a ha => (hall a ha).1)
      fun a ha => (htrim a ha).2 (hall a ha).2
  refine ⟨⟨?_, fun hall => ⟨as, hback hall, sameList_refl Attribute.same_refl as⟩⟩, hback⟩
  rintro ⟨bs, hread, hsame⟩ a ha
  obtain ⟨hcomma, hwhole⟩ := whole_of_readPaths hread (length_paths_of_sameList hsame) a ha
  exact ⟨hcomma, (htrim a ha).1 hwhole⟩

/-- A comma in a sub-attribute makes two references of one. -/
theorem not_readPaths_joinPaths_comma :
    Attribute.read "a.b,c" = .ok ⟨none, "a", some "b,c"⟩ ∧
      readPaths (joinPaths [⟨none, "a", some "b,c"⟩]) =
        .ok [⟨none, "a", some "b"⟩, ⟨none, "c", none⟩] ∧
      ¬ ∃ bs, readPaths (joinPaths [⟨none, "a", some "b,c"⟩]) = .ok bs ∧
        sameList Attribute.same bs [⟨none, "a", some "b,c"⟩] = true := by
  have hread : Attribute.read "a.b,c" = .ok ⟨none, "a", some "b,c"⟩ := rfl
  have hall : ∀ a ∈ [(⟨none, "a", some "b,c"⟩ : Attribute)], ∃ p, Attribute.read p = .ok a :=
    List.forall_mem_singleton.2 ⟨_, hread⟩
  refine ⟨hread, rfl, fun hback => ?_⟩
  have hcomma := ((readPaths_joinPaths_iff hall).1.1 hback _ (List.mem_singleton_self _)).1
  exact hcomma (by decide)

end Search

end ScimQuery
