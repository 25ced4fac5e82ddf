/-
ScimQuery/Proofs/Filter/RoundTrip.lean

Writing and reading are inverse to each other.

Main results: the text of any tree whose parts can be written is read as that
tree with a group for each pair of added parentheses, and has the same text again
(`parse_render_grouped`); and a tree that was read survives being written and read
exactly when no reference inside a value path is abbreviated to something other
than a name (`exists_parse_render_same_iff`).
-/
import ScimQuery.Proofs.Filter.ReadBack

namespace ScimQuery.Filter

/-- A proper tree is read back from its text if its references survive. -/
theorem exists_parse_render {e : Expr} (hproper : e.Proper none) (htidy : e.Tidy)
    (habbr : e.Abbreviable none) (hlength : e.render.utf8ByteSize ≤ ({} : Limits).length)
    (hdepth : e.nesting ≤ ({} : Limits).depth) (hops : e.operands ≤ ({} : Limits).operands) :
    ∃ e', parse e.render = .ok e' ∧ e'.same e = true ∧ e'.render = e.render := by
  obtain ⟨u, hu, hsame, hwritten⟩ := hproper.exists_reread habbr
  refine ⟨u.resolve, ?_, hsame, ?_⟩
  · exact (parse_render_iff hproper htidy hlength hdepth hops).2 ⟨u, hu, rfl⟩
  · apply String.toList_inj.1
    rw [Expr.toList_render, Expr.toList_render]
    exact hwritten

/-- Writing and reading, for every tree whose parts can be written: the
parentheses that the printer adds come back as groups, and nothing else changes. -/
theorem parse_render_grouped {t : Expr}
    (hread : ∀ a ∈ t.attributes, ∃ path, Attribute.ofPath? path = some a)
    (hplain : ∀ a ∈ t.attributes, ∀ c ∈ a.path.toList, Scan.isDelimiter c = false)
    (hflat : ∀ x ∈ t.valuePaths, x.2.hasValuePath = false)
    (hscope : ∀ x ∈ t.valuePaths, x.2.scopedUnder x.1 = x.2)
    (hsub : ∀ x ∈ t.valuePaths, ∀ a ∈ x.2.attributes, a.isScopedUnder x.1 = true →
      ∃ s, a.sub = some s ∧ Attribute.isName s.toList = true)
    (hfinite : ∀ x, .number x ∈ t.literals → x.isFinite = true)
    (hlength : t.render.utf8ByteSize ≤ ({} : Limits).length)
    (hdepth : t.grouped.nesting ≤ ({} : Limits).depth)
    (hops : t.operands ≤ ({} : Limits).operands) :
    ∃ t', parse t.render = .ok t' ∧ t'.same t.grouped = true ∧ t'.render = t.render := by
  have hattr : ∀ a ∈ t.attributes, a.WellFormed ∧ a.Plain := by
    intro a ha
    obtain ⟨path, hpath⟩ := hread a ha
    exact ⟨(Attribute.ofPath?_eq_some_iff.1 hpath).2, hplain a ha⟩
  have hvalues : ∀ v ∈ t.literals, v.isFinite = true := by
    intro v hv
    cases v with
    | number x => exact hfinite x hv
    | _ => rfl
  have hproper : t.Proper none :=
    Expr.proper_of_parts hattr hvalues fun x hx => ⟨hflat x hx, hscope x hx⟩
  -- the text is that of the grouped tree, which is tidy
  have habbr : t.Abbreviable none := by
    apply hproper.abbreviable_iff.2
    rintro ⟨p, inner⟩ hx a ha q hq
    obtain rfl := Option.some.inj hq
    exact hsub (p, inner) hx a ha
  have hback := exists_parse_render hproper.grouped t.tidy_grouped habbr.grouped
    (by rwa [Expr.render_grouped]) hdepth (by rwa [Expr.operands_grouped])
  rwa [Expr.render_grouped] at hback

/-- An `or` on the left of an `and`, whose right operand is a value path. -/
def sample : Expr :=
  .joined
    (.joined (.present ⟨none, "nickName", none⟩) .or (.present ⟨none, "title", none⟩))
    .and
    (.valuePath ⟨none, "emails", none⟩
      (.comparison ⟨none, "Emails", some "type"⟩ .eq (.text "work")))

/-- The parentheses around the `or` come back as a group. -/
theorem parse_render_sample :
    ∃ t', parse "(nickName pr or title pr) and emails[type eq \"work\"]" = .ok t' ∧
      t'.same sample.grouped = true ∧ t'.render = sample.render := by
  have hpaths : ∀ a ∈ sample.attributes, Attribute.ofPath? a.path = some a := by decide
  have hwords : ∀ a ∈ sample.attributes, Scan.IsWord a.path.toList := by decide
  exact parse_render_grouped (t := sample) (fun a ha => ⟨a.path, hpaths a ha⟩)
    (fun a ha => (hwords a ha).2) (by decide) (by decide)
    (by
      intro x hx a ha _
      obtain rfl := List.mem_singleton.1 hx
      obtain rfl := List.mem_singleton.1 ha
      exact ⟨"type", rfl, by decide⟩)
    (by
      intro x hx
      cases List.mem_singleton.1 hx)
    (by decide) (by decide) (by decide)

/-- Reading, writing and reading: the tree comes back exactly when a name is left
of every reference whose parent the printer drops inside a value path. -/
theorem exists_parse_render_same_iff {f : String} {t : Expr} (h : parse f = .ok t)
    (hlength : t.render.utf8ByteSize ≤ ({} : Limits).length) :
    (∃ t', parse t.render = .ok t' ∧ t'.same t = true) ↔
      ∀ x ∈ t.valuePaths, ∀ a ∈ x.2.attributes, a.isScopedUnder x.1 = true →
        ∃ s, a.sub = some s ∧ Attribute.isName s.toList = true := by
  obtain ⟨hproper, htidy, hdepth, hops⟩ := proper_of_parse h
  have hparts : t.Abbreviable none ↔
      ∀ x ∈ t.valuePaths, ∀ a ∈ x.2.attributes, a.isScopedUnder x.1 = true →
        ∃ s, a.sub = some s ∧ Attribute.isName s.toList = true := by
    rw [hproper.abbreviable_iff]
    simp [Attribute.Abbreviable]
  rw [← hparts]
  constructor
  · rintro ⟨t', ht', hsame⟩
    obtain ⟨u, hu, rfl⟩ := (parse_render_iff hproper htidy hlength hdepth hops).1 ht'
    exact hproper.abbreviable hu hsame
  · intro habbr
    obtain ⟨t', ht', hsame, -⟩ := exists_parse_render hproper htidy habbr hlength hdepth hops
    exact ⟨t', ht', hsame⟩

/-- A sub-attribute with a dot is written without its parent, and is then read as
a reference of its own. -/
theorem not_parse_render_same_dotted :
    ∃ t, parse "emails[emails.a.b pr]" = .ok t ∧ t.render = "emails[a.b pr]" ∧
      ¬ ∃ t', parse t.render = .ok t' ∧ t'.same t = true := by
  have hparse : parse "emails[emails.a.b pr]" =
      .ok (.valuePath ⟨none, "emails", none⟩ (.present ⟨none, "emails", some "a.b"⟩)) := rfl
  refine ⟨_, hparse, by decide, ?_⟩
  rw [exists_parse_render_same_iff hparse (by decide)]
  intro hnames
  obtain ⟨s, hs, hname⟩ := hnames _ List.mem_cons_self _ List.mem_cons_self (by decide)
  obtain rfl := Option.some.inj hs
  revert hname
  decide

end ScimQuery.Filter
