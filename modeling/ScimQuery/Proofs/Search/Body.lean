/-
ScimQuery/Proofs/Search/Body.lean

Requests as JSON.  The members of a request are written in the order of its
fields, and reading them one after the other builds the request up from the
default one (`takes_members`): a field that is left out is one that has its
default.

Main result: a request is read back from its JSON text (`ofBody_body`), whatever
its schemas and the characters of its paths.  Only the filter has to be one that
its own text is read back to.
-/
import ScimQuery.Proofs.Json.Reading
import ScimQuery.Proofs.Search.Fields
import ScimQuery.Search.Body

namespace ScimQuery.Search

open Json

/-! ### Values of the fields -/

theorem reads_listText {α : Type} {read : Reader α} {write : α → String} {as : List α}
    (h : ∀ a ∈ as, Reads read (Quoted.write (write a)).toList a) :
    Reads (list read) (listText (as.map write)).toList as := by
  have hchars : (listText (as.map write)).toList =
      '[' :: (Text.join ',' (as.map fun a => (Quoted.write (write a)).toList) ++ [']']) := by
    simp only [listText, String.toList_append, String.toList_intercalate, List.map_map]
    rfl
  rw [hchars]
  exact Reads.list h

theorem reads_attribute {a : Attribute} (h : a.WellFormed) :
    Reads attributeReader (Quoted.write a.path).toList a :=
  reads_textAs h.ofPath?

theorem reads_filter {e e' : Expr} (h : Filter.parse e.render = .ok e') :
    Reads Filter.reader (Quoted.write e.render).toList e' :=
  reads_textAs (by rw [h]; rfl)

theorem reads_sortOrder (o : SortOrder) :
    Reads sortOrderReader (Quoted.write o.keyword).toList o := by
  have hname : SortOrder.ofKeyword? o.keyword = some o := by cases o <;> rfl
  have hread := reads_textAs hname
  refine ⟨hread.opens, ?_⟩
  intro rest hrest
  have hquoted := hread.reads rest hrest
  rw [Quoted.toList_write, List.cons_append] at hquoted ⊢
  -- a quote opens neither an object nor anything ill-formed
  exact hquoted

theorem reads_index (n : UInt32) : Reads indexReader (toString n.toNat).toList n := by
  have hn : n.toNat ≤ UInt32.size - 1 := Nat.le_sub_one_of_lt n.toNat_lt
  have hread := reads_natural hn (by decide)
  refine ⟨hread.opens, ?_⟩
  intro rest hrest
  rw [indexReader, hread.reads rest hrest]
  simp only [bind, Except.bind, UInt32.ofNat_toNat]

theorem reads_field {α : Type} {read : Reader α} {text : List Char} {v : α} (h : Reads read text v)
    (key : String) (set : α → Search → Search) : Reads (field key read set).read text (set v) := by
  refine ⟨h.opens, ?_⟩
  intro rest hrest
  simp only [field, h.reads rest hrest, bind, Except.bind]

/-! ### The members of a request -/

/-- A field that may be absent: `hnone` says that it was absent before. -/
theorem takes_option {α β : Type} {key : String} {read : Reader β} {write : α → String}
    {o : Option α} (f : α → β) (set : Option β → Search → Search) {r : Search}
    (hfield : fields.find? (·.key == key) = some (field key (nullable read) set))
    (hread : ∀ a, o = some a → Reads read (write a).toList (f a)) (hnone : set none r = r) :
    Takes fields r (o.map fun a => (key, write a)).toList (set (o.map f) r) := by
  cases o with
  | none =>
    show Takes fields r [] (set none r)
    rw [hnone]
    exact .nil r
  | some a => exact .single hfield (reads_field (hread a rfl).nullable key set) r

/-- A list of attributes: `hnil` says that it was empty before. -/
theorem takes_list {key : String} {as : List Attribute} (set : List Attribute → Search → Search)
    {r : Search}
    (hfield : fields.find? (·.key == key) = some (field key (list attributeReader) set))
    (has : ∀ a ∈ as, a.WellFormed) (hnil : set [] r = r) :
    Takes fields r (if as.isEmpty then [] else [(key, listText (as.map Attribute.path))])
      (set as r) := by
  rcases as with - | ⟨a, as⟩
  · rw [hnil]
    exact .nil r
  · have hread := reads_listText fun a ha => reads_attribute (has a ha)
    exact .single hfield (reads_field hread key set) r

/-- The members of a request build it up from the default one. -/
theorem takes_members {r : Search}
    (hfilter : ∀ e, r.filter = some e → Filter.parse e.render = .ok e.readBack)
    (hattributes : ∀ a ∈ r.attributes, a.WellFormed) (hexcluded : ∀ a ∈ r.excluded, a.WellFormed)
    (hsortBy : ∀ a, r.sortBy = some a → a.WellFormed) :
    Takes fields {} r.members { r with filter := r.filter.map Expr.readBack } := by
  -- the requests after each of the eight fields
  let r₁ : Search := { schemas := r.schemas }
  let r₂ : Search := { r₁ with attributes := r.attributes }
  let r₃ : Search := { r₂ with excluded := r.excluded }
  let r₄ : Search := { r₃ with filter := r.filter.map Expr.readBack }
  let r₅ : Search := { r₄ with sortBy := r.sortBy }
  let r₆ : Search := { r₅ with sortOrder := r.sortOrder }
  let r₇ : Search := { r₆ with startIndex := r.startIndex }
  have h₁ : Takes fields {} [("schemas", listText r.schemas)] r₁ := by
    have hread : Reads (list text) (listText (r.schemas.map id)).toList r.schemas :=
      reads_listText fun s _ => reads_text s
    rw [List.map_id] at hread
    exact .single rfl (reads_field hread "schemas" fun v r => { r with schemas := v }) {}
  have h₂ : Takes fields r₁ (if r.attributes.isEmpty then []
      else [("attributes", listText (r.attributes.map Attribute.path))]) r₂ :=
    takes_list (fun v r => { r with attributes := v }) rfl hattributes rfl
  have h₃ : Takes fields r₂ (if r.excluded.isEmpty then []
      else [("excludedAttributes", listText (r.excluded.map Attribute.path))]) r₃ :=
    takes_list (fun v r => { r with excluded := v }) rfl hexcluded rfl
  have h₄ : Takes fields r₃ (r.filter.map fun e => ("filter", Quoted.write e.render)).toList r₄ :=
    takes_option Expr.readBack (fun v r => { r with filter := v }) rfl
      (fun e he => reads_filter (hfilter e he)) rfl
  have h₅ : Takes fields r₄ (r.sortBy.map fun a => ("sortBy", Quoted.write a.path)).toList r₅ := by
    simpa using takes_option id (fun v r => { r with sortBy := v }) rfl
      (fun a ha => reads_attribute (hsortBy a ha)) rfl
  have h₆ : Takes fields r₅
      (r.sortOrder.map fun o => ("sortOrder", Quoted.write o.keyword)).toList r₆ := by
    simpa using takes_option id (fun v r => { r with sortOrder := v }) rfl
      (fun o _ => reads_sortOrder o) rfl
  have h₇ : Takes fields r₆
      (r.startIndex.map fun n => ("startIndex", toString n.toNat)).toList r₇ := by
    simpa using takes_option id (fun v r => { r with startIndex := v }) rfl
      (fun n _ => reads_index n) rfl
  have h₈ : Takes fields r₇ (r.count.map fun n => ("count", toString n.toNat)).toList
      { r with filter := r.filter.map Expr.readBack } := by
    simpa using takes_option id (fun v r => { r with count := v }) rfl
      (fun n _ => reads_index n) rfl
  exact ((((((h₁.append h₂).append h₃).append h₄).append h₅).append h₆).append h₇).append h₈

/-- The members come in a fixed order, each at most once. -/
theorem keys_members (r : Search) : (r.members.map Prod.fst).Sublist
    ["schemas", "attributes", "excludedAttributes", "filter", "sortBy", "sortOrder", "startIndex",
      "count"] := by
  simp only [members, List.map_append]
  exact ((((((((List.Sublist.refl ["schemas"]).append (keys_list ..)).append
    (keys_list ..)).append (keys_option ..)).append (keys_option ..)).append
    (keys_option ..)).append (keys_option ..)).append (keys_option ..))

theorem toList_body (r : Search) :
    r.body.toList = '{' :: (Text.join ',' (r.members.map memberChars) ++ ['}']) := by
  simp only [body, String.toList_append, String.toList_intercalate, List.map_map]
  rfl

/-! ### The round trip -/

/-- A request is read back from its JSON text. -/
theorem ofBody_body {r : Search}
    (hfilter : ∀ e, r.filter = some e → ∃ e', Filter.parse e.render = .ok e' ∧ e'.same e = true)
    (hread : ∀ a ∈ r.attributes ++ r.excluded ++ r.sortBy.toList,
      ∃ p, Attribute.ofPath? p = some a) :
    ∃ s, ofBody r.body = .ok s ∧ s.same r = true := by
  have hwf := wellFormed_of_read hread
  simp only [List.forall_mem_append] at hwf
  have htakes := takes_members (parse_filter hfilter) hwf.1.1 hwf.1.2
    fun a ha => hwf.2 a (Option.mem_toList.2 ha)
  have hkeys : (r.members.map Prod.fst).Nodup := r.keys_members.nodup (by decide)
  refine ⟨_, ?_, r.same_withFilter (sameOption_readBack hfilter)⟩
  rw [ofBody, document, toList_body, htakes.record hkeys]
  rfl

/-- No schemas, a comma and a space in a path, and quotes inside quotes. -/
theorem ofBody_body_quoted :
    let r : Search :=
      { schemas := [], attributes := [⟨none, "a", some "b, c"⟩],
        filter := some (.comparison ⟨none, "a", none⟩ .eq (.text "\"")), count := some 0 }
    r.body = "\x7b\"schemas\":[],\"attributes\":[\"a.b, c\"]," ++
        "\"filter\":\"a eq \\\"\\\\\\\"\\\"\",\"count\":0\x7d" ∧
      ∃ s, ofBody r.body = .ok s ∧ s.same r = true := by
  intro r
  have hpaths : ∀ a ∈ r.attributes ++ r.excluded ++ r.sortBy.toList,
      Attribute.ofPath? a.path = some a := by decide
  refine ⟨by decide, ofBody_body ?_ fun a ha => ⟨a.path, hpaths a ha⟩⟩
  rintro e he
  obtain rfl := Option.some.inj he
  exact ⟨_, rfl, by decide⟩

end ScimQuery.Search
