/-
ScimQuery/Proofs/Search/Query.lean

Requests in query strings.  A query string is cut into parameters, which are
taken over one after the other (`setParameters`), so parameters that are put
after others change only the fields that they name.

Main results: a query string followed by `&` and another has the parameters of
both (`pairs_append`), the parameters that a request is written as are those that
are read (`pairs_join`), and taking them over onto another request replaces
exactly the fields that are set (`setParameters_parameters`).  The query of a URL
that a request is applied to is the one that was there with the request after it
(`urlQuery_applyTo`).  Together: a request put after any query string that can be
read is read back on top of what that query string says (`ofQuery_appendTo`).
-/
import ScimQuery.Proofs.Search.Fields
import ScimQuery.Proofs.Text.Percent
import ScimQuery.Search.Query

namespace ScimQuery.Search

/-! ### Cutting a query string -/

theorem decodeForm_encode (s : String) : decodeForm (Text.Percent.encode s.toList) = s := by
  rw [decodeForm, Text.Percent.decodeLossy_encode, String.ofList_toList]

/-- A name that travels as it is. -/
def IsKey (key : String) : Prop := ∀ c ∈ key.toList, Text.Percent.isUnreserved c = true

theorem decodeForm_key {key : String} (h : IsKey key) : decodeForm key.toList = key := by
  have hdecode := decodeForm_encode key
  rwa [Text.Percent.encode_of_unreserved h] at hdecode

/-- A parameter as it stands in a query string. -/
def piece (p : String × String) : List Char := p.1.toList ++ '=' :: Text.Percent.encode p.2.toList

theorem pairs_append (as bs : List Char) : pairs (as ++ '&' :: bs) = pairs as ++ pairs bs := by
  simp only [pairs, Text.segments_append, List.filter_append, List.map_append]

/-- A key, an equals sign and a value without `&` are one parameter. -/
theorem pairs_single {key : String} (hkey : IsKey key) {value : List Char} (hvalue : '&' ∉ value) :
    pairs (key.toList ++ '=' :: value) = [(key, decodeForm value)] := by
  have hfree : ∀ d, Text.Percent.isUnreserved d = false → d ∉ key.toList := by
    intro d hd hmem
    rw [hkey d hmem] at hd
    cases hd
  have hmem : '&' ∉ key.toList ++ '=' :: value := by
    simp [hfree '&' rfl, hvalue]
  have hne : (key.toList ++ '=' :: value).isEmpty = false := by simp
  simp [pairs, Text.segments_of_not_mem hmem, hne, Text.cutFirst_append (hfree '=' rfl),
    decodeForm_key hkey]

/-- Parameters are read as they are written. -/
theorem pairs_join {ps : List (String × String)} (h : ∀ p ∈ ps, IsKey p.1) :
    pairs (Text.join '&' (ps.map piece)) = ps := by
  have hsingle : ∀ p, IsKey p.1 → pairs (piece p) = [p] := by
    intro p hp
    rw [piece, pairs_single hp (Text.Percent.not_mem_encode rfl (by decide) _), decodeForm_encode]
  induction ps with
  | nil => rfl
  | cons p ps ih =>
    obtain ⟨hp, hps⟩ := List.forall_mem_cons.1 h
    rcases ps with - | ⟨q, ps⟩
    · simpa [Text.join] using hsingle p hp
    · rw [List.map_cons, List.map_cons, Text.join_cons_cons, pairs_append, hsingle p hp,
        ← List.map_cons, ih hps, List.singleton_append]

theorem toList_query (r : Search) :
    r.query.toList = Text.join '&' (r.parameters.map piece) := by
  have hpiece : String.toList ∘ (fun p : String × String => p.1 ++ "=" ++ Filter.encode p.2) =
      piece := by
    funext p
    simp [piece, Filter.encode, String.toList_append]
  rw [query, String.toList_intercalate, List.map_map, hpiece]
  rfl

/-- The parameters of a request come in a fixed order, each at most once. -/
theorem keys_parameters (r : Search) : (r.parameters.map Prod.fst).Sublist
    ["filter", "attributes", "excludedAttributes", "sortBy", "sortOrder", "startIndex",
      "count"] := by
  simp only [parameters, List.map_append]
  exact (((((((keys_option ..).append (keys_list ..)).append (keys_list ..)).append
    (keys_option ..)).append (keys_option ..)).append (keys_option ..)).append (keys_option ..))

theorem isKey_of_mem_parameters {r : Search} {p : String × String} (h : p ∈ r.parameters) :
    IsKey p.1 := by
  have hkeys : ["filter", "attributes", "excludedAttributes", "sortBy", "sortOrder", "startIndex",
      "count"].all (·.toList.all Text.Percent.isUnreserved) = true := by decide
  exact List.all_eq_true.1
    (List.all_eq_true.1 hkeys p.1 (r.keys_parameters.subset (List.mem_map_of_mem h)))

theorem read_path {a : Attribute} (h : a.WellFormed) : Attribute.read a.path = .ok a := by
  rw [Attribute.read, h.ofPath?]

theorem mapM_read_paths {as : List Attribute} (h : ∀ a ∈ as, a.WellFormed) :
    (as.map fun a => a.path.toList).mapM (fun entry => Attribute.read (String.ofList entry)) =
      .ok as := by
  induction as with
  | nil => rfl
  | cons a as ih =>
    obtain ⟨ha, has⟩ := List.forall_mem_cons.1 h
    rw [List.map_cons, List.mapM_cons, String.ofList_toList, read_path ha, ih has]
    rfl

theorem toList_joinPaths (as : List Attribute) :
    (joinPaths as).toList = Text.join ',' (as.map fun a => a.path.toList) := by
  rw [joinPaths, String.toList_intercalate, List.map_map]
  rfl

/-- A list of paths without commas and outer blanks is read back. -/
theorem readPaths_joinPaths {as : List Attribute} (hwf : ∀ a ∈ as, a.WellFormed)
    (hcomma : ∀ a ∈ as, ',' ∉ a.path.toList)
    (htrim : ∀ a ∈ as, Text.trim a.path.toList = a.path.toList) :
    readPaths (joinPaths as) = .ok as := by
  by_cases hnil : as = []
  · subst hnil
    rfl
  have hcut : Text.segments ',' (joinPaths as).toList = as.map fun a => a.path.toList := by
    rw [toList_joinPaths]
    exact Text.segments_join (by simpa using hnil) (by simpa using hcomma)
  have hentries : (as.map fun a => a.path.toList).map Text.trim =
      as.map fun a => a.path.toList := by
    rw [List.map_map]
    exact List.map_congr_left htrim
  have hfull : (as.map fun a => a.path.toList).filter (fun entry => !entry.isEmpty) =
      as.map fun a => a.path.toList := by
    rw [List.filter_eq_self]
    intro entry hentry
    obtain ⟨a, ha, rfl⟩ := List.mem_map.1 hentry
    obtain ⟨c, hc, -⟩ := (hwf a ha).head?_path
    rcases hpath : a.path.toList with - | ⟨d, ds⟩
    · rw [hpath] at hc
      cases hc
    · rfl
  rw [readPaths, hcut, hentries, hfull]
  exact mapM_read_paths hwf

/-- Digits are read as the number that they spell, if it is below the bound. -/
theorem readNumber_of_digits {key value : String} {ds : List Char} (hvalue : value.toList = ds)
    (hne : ds ≠ []) (hdigits : ∀ c ∈ ds, c.isDigit = true)
    (hlt : Nat.ofDigitChars 10 ds 0 < UInt32.size) :
    readNumber key value = .ok (UInt32.ofNat (Nat.ofDigitChars 10 ds 0)) := by
  rcases ds with - | ⟨d, ds⟩
  · exact absurd rfl hne
  · -- a digit is no sign
    have hplus : d ≠ '+' := by
      rintro rfl
      cases hdigits '+' List.mem_cons_self
    obtain ⟨hd, hds⟩ := List.forall_mem_cons.1 hdigits
    simpa [readNumber, hvalue, hplus, Nat.not_le.2 hlt, hd] using hds

theorem readNumber_toString (key : String) (n : UInt32) :
    readNumber key (toString n.toNat) = .ok n := by
  have hchars : (toString n.toNat).toList = Nat.toDigits 10 n.toNat := by
    rw [Nat.toString_eq_ofList_toDigits, String.toList_ofList]
  have hvalue : Nat.ofDigitChars 10 (Nat.toDigits 10 n.toNat) 0 = n.toNat :=
    Nat.ofDigitChars_ten_toDigits
  have hlt : Nat.ofDigitChars 10 (Nat.toDigits 10 n.toNat) 0 < UInt32.size := by
    rw [hvalue]
    exact n.toNat_lt
  rw [readNumber_of_digits hchars Nat.toDigits_ne_nil (Decimal.isDigit_toDigits _) hlt, hvalue,
    UInt32.ofNat_toNat]

theorem read_keyword (o : SortOrder) : SortOrder.read o.keyword = .ok o := by
  cases o <;> rfl

/-! ### Taking parameters over -/

/-- Take parameters over one after the other. -/
def setParameters (r : Search) (ps : List (String × String)) : Except Fault Search :=
  ps.foldlM (fun r (key, value) => r.setParameter key value) r

theorem setParameters_cons (r : Search) (key value : String) (ps : List (String × String)) :
    r.setParameters ((key, value) :: ps) = r.setParameter key value >>= (·.setParameters ps) :=
  List.foldlM_cons

theorem setParameters_append {r s : Search} {ps : List (String × String)}
    (qs : List (String × String)) (h : r.setParameters ps = .ok s) :
    r.setParameters (ps ++ qs) = s.setParameters qs := by
  unfold setParameters at h ⊢
  rw [List.foldlM_append, h]
  rfl

theorem setParameters_append_ok {r s t : Search} {ps qs : List (String × String)}
    (hps : r.setParameters ps = .ok s) (hqs : s.setParameters qs = .ok t) :
    r.setParameters (ps ++ qs) = .ok t :=
  (setParameters_append qs hps).trans hqs

theorem setParameters_single (r : Search) (key value : String) :
    r.setParameters [(key, value)] = r.setParameter key value :=
  bind_pure _

/-- A field that may be absent: `set` gives the request for each of its values. -/
theorem setParameters_option {α : Type} {r : Search} {key : String} {write : α → String}
    {o : Option α} (set : Option α → Search) (hnone : set none = r)
    (hsome : ∀ a, o = some a → r.setParameter key (write a) = .ok (set (some a))) :
    r.setParameters (o.map fun a => (key, write a)).toList = .ok (set o) := by
  cases o with
  | none => exact congrArg Except.ok hnone.symm
  | some a => exact (setParameters_single ..).trans (hsome a rfl)

/-- A list of attributes: it replaces the one that is there unless it is empty. -/
theorem setParameters_list {r : Search} {key : String} {as old : List Attribute}
    (set : List Attribute → Search) (hold : set old = r)
    (h : r.setParameter key (joinPaths as) = .ok (set as)) :
    r.setParameters (if as.isEmpty then [] else [(key, joinPaths as)]) =
      .ok (set (if as.isEmpty then old else as)) := by
  cases as with
  | nil => exact congrArg Except.ok hold.symm
  | cons a as => exact (setParameters_single ..).trans h

/-- The fields that `s` sets, and those of `r` for the others.  The schemas are
always set. -/
def overlay (r s : Search) : Search where
  schemas := s.schemas
  attributes := if s.attributes.isEmpty then r.attributes else s.attributes
  excluded := if s.excluded.isEmpty then r.excluded else s.excluded
  filter := s.filter.or r.filter
  sortBy := s.sortBy.or r.sortBy
  sortOrder := s.sortOrder.or r.sortOrder
  startIndex := s.startIndex.or r.startIndex
  count := s.count.or r.count

/-- The parameters of a request replace the fields that it sets. -/
theorem setParameters_parameters {r : Search} (r₀ : Search)
    (hfilter : ∀ e, r.filter = some e → Filter.parse e.render = .ok e.readBack)
    (hattributes : readPaths (joinPaths r.attributes) = .ok r.attributes)
    (hexcluded : readPaths (joinPaths r.excluded) = .ok r.excluded)
    (hsortBy : ∀ a, r.sortBy = some a → a.WellFormed) :
    r₀.setParameters r.parameters =
      .ok (r₀.overlay { r with schemas := r₀.schemas, filter := r.filter.map Expr.readBack }) := by
  -- the requests after each of the seven fields
  let r₁ : Search := { r₀ with filter := (r.filter.map Expr.readBack).or r₀.filter }
  let r₂ : Search :=
    { r₁ with attributes := if r.attributes.isEmpty then r₁.attributes else r.attributes }
  let r₃ : Search := { r₂ with excluded := if r.excluded.isEmpty then r₂.excluded else r.excluded }
  let r₄ : Search := { r₃ with sortBy := r.sortBy.or r₃.sortBy }
  let r₅ : Search := { r₄ with sortOrder := r.sortOrder.or r₄.sortOrder }
  let r₆ : Search := { r₅ with startIndex := r.startIndex.or r₅.startIndex }
  let r₇ : Search := { r₆ with count := r.count.or r₆.count }
  have h₁ : r₀.setParameters (r.filter.map fun e => ("filter", e.render)).toList = .ok r₁ := by
    refine setParameters_option
      (fun o => { r₀ with filter := (o.map Expr.readBack).or r₀.filter }) rfl ?_
    intro e he
    simp [setParameter, hfilter e he, bind, Except.bind]
  have h₂ : r₁.setParameters
      (if r.attributes.isEmpty then [] else [("attributes", joinPaths r.attributes)]) = .ok r₂ := by
    refine setParameters_list (fun as => { r₁ with attributes := as }) rfl ?_
    simp [setParameter, hattributes, bind, Except.bind]
  have h₃ : r₂.setParameters
      (if r.excluded.isEmpty then [] else [("excludedAttributes", joinPaths r.excluded)]) =
        .ok r₃ := by
    refine setParameters_list (fun as => { r₂ with excluded := as }) rfl ?_
    simp [setParameter, hexcluded, bind, Except.bind]
  have h₄ : r₃.setParameters (r.sortBy.map fun a => ("sortBy", a.path)).toList = .ok r₄ := by
    refine setParameters_option (fun o => { r₃ with sortBy := o.or r₃.sortBy }) rfl ?_
    intro a ha
    simp [setParameter, setSortBy, read_path (hsortBy a ha), bind, Except.bind]
  have h₅ : r₄.setParameters (r.sortOrder.map fun o => ("sortOrder", o.keyword)).toList =
      .ok r₅ := by
    refine setParameters_option (fun o => { r₄ with sortOrder := o.or r₄.sortOrder }) rfl ?_
    intro o _
    simp [setParameter, setSortOrder, read_keyword, bind, Except.bind]
  have h₆ : r₅.setParameters (r.startIndex.map fun n => ("startIndex", toString n.toNat)).toList =
      .ok r₆ := by
    refine setParameters_option (fun o => { r₅ with startIndex := o.or r₅.startIndex }) rfl ?_
    intro n _
    simp only [setParameter, readNumber_toString, bind, Except.bind]
    rfl
  have h₇ : r₆.setParameters (r.count.map fun n => ("count", toString n.toNat)).toList =
      .ok r₇ := by
    refine setParameters_option (fun o => { r₆ with count := o.or r₆.count }) rfl ?_
    intro n _
    simp only [setParameter, readNumber_toString, bind, Except.bind]
    rfl
  exact setParameters_append_ok (setParameters_append_ok (setParameters_append_ok
    (setParameters_append_ok (setParameters_append_ok (setParameters_append_ok h₁ h₂) h₃) h₄) h₅)
    h₆) h₇

/-! ### What a query string can give -/

/-- The default schemas, and no filter that was not read from a text. -/
structure Received (r : Search) : Prop where
  schemas : r.schemas = ({} : Search).schemas
  filter : ∀ e, r.filter = some e → ∃ text, Filter.parse text = .ok e

theorem exists_of_bind_eq_ok {ε α β : Type} {x : Except ε α} {f : α → β} {b : β}
    (h : (x >>= fun a => .ok (f a)) = .ok b) : ∃ a, x = .ok a ∧ b = f a := by
  cases x with
  | error fault => cases h
  | ok a => exact ⟨a, rfl, (Except.ok.inj h).symm⟩

theorem Received.setParameter {r s : Search} {key value : String} (hr : r.Received)
    (h : r.setParameter key value = .ok s) : s.Received := by
  unfold Search.setParameter at h
  split at h
  · obtain ⟨e, he, rfl⟩ := exists_of_bind_eq_ok h
    refine ⟨hr.schemas, ?_⟩
    rintro e' he'
    obtain rfl := Option.some.inj he'
    exact ⟨value, he⟩
  -- no other parameter touches the schemas or the filter
  repeat' split at h
  any_goals
    obtain ⟨a, -, rfl⟩ := exists_of_bind_eq_ok h
    exact ⟨hr.schemas, hr.filter⟩
  obtain rfl := Except.ok.inj h
  exact hr

theorem Received.setParameters {r s : Search} {ps : List (String × String)} (hr : r.Received)
    (h : r.setParameters ps = .ok s) : s.Received := by
  induction ps generalizing r with
  | nil =>
    obtain rfl := Except.ok.inj h
    exact hr
  | cons p ps ih =>
    obtain ⟨key, value⟩ := p
    rw [setParameters_cons] at h
    rcases hp : r.setParameter key value with fault | r'
    · rw [hp] at h
      cases h
    · rw [hp] at h
      exact ih (hr.setParameter hp) h

theorem received_of_ofQuery {q : String} {r : Search} (h : ofQuery q = .ok r) : r.Received :=
  Received.setParameters (r := {}) ⟨rfl, nofun⟩ h

/-! ### A request after a query string -/

/-- Nothing is written but keys, equals signs, ampersands and encoded values. -/
theorem not_mem_query {c : Char} (hc : Text.Percent.isUnreserved c = false) (hpercent : c ≠ '%')
    (hmarks : c ≠ '&' ∧ c ≠ '=') (r : Search) : c ∉ r.query.toList := by
  intro hmem
  rw [toList_query] at hmem
  rcases Text.mem_join hmem with h | ⟨text, htext, h⟩
  · exact hmarks.1 h
  · obtain ⟨p, hp, rfl⟩ := List.mem_map.1 htext
    rw [piece, List.mem_append, List.mem_cons] at h
    rcases h with h | h | h
    · rw [isKey_of_mem_parameters hp c h] at hc
      cases hc
    · exact hmarks.2 h
    · exact Text.Percent.not_mem_encode hc hpercent _ h

theorem pairs_query (r : Search) : pairs r.query.toList = r.parameters := by
  rw [toList_query]
  exact pairs_join fun p hp => isKey_of_mem_parameters hp

/-- The written parameters start with no question mark. -/
theorem dropWhile_query (r : Search) :
    r.query.toList.dropWhile (· == '?') = r.query.toList := by
  have hmark : '?' ∉ r.query.toList := r.not_mem_query rfl (by decide) (by decide)
  rcases hquery : r.query.toList with - | ⟨c, cs⟩
  · rfl
  · rw [hquery] at hmark
    have hc : c ≠ '?' := fun h => hmark (h ▸ List.mem_cons_self)
    exact List.dropWhile_cons_of_neg (by simpa using hc)

theorem toList_appendTo {r : Search} {q : String} (hr : r.query.isEmpty = false)
    (hq : q.isEmpty = false) : (r.appendTo q).toList = q.toList ++ '&' :: r.query.toList := by
  simp [appendTo, hr, hq, String.toList_append]

/-- The request's parameters come after those that are there. -/
theorem pairs_appendTo (r : Search) (q : String) :
    pairs ((r.appendTo q).toList.dropWhile (· == '?')) =
      pairs (q.toList.dropWhile (· == '?')) ++ r.parameters := by
  rcases hr : r.query.isEmpty with - | -
  · rcases hq : q.isEmpty with - | -
    · -- the question marks that do not count are all in front of the `&`
      have hmark : (q.toList ++ '&' :: r.query.toList).dropWhile (· == '?') =
          q.toList.dropWhile (· == '?') ++ '&' :: r.query.toList := by
        rw [List.dropWhile_append]
        split
        · rename_i hall
          rw [List.isEmpty_iff.1 hall]
          rfl
        · rfl
      rw [toList_appendTo hr hq, hmark, pairs_append, pairs_query]
    · have hempty : q.toList = [] := by simpa using hq
      simp only [appendTo, hr, hq, Bool.false_eq_true, if_false, if_true, dropWhile_query,
        pairs_query, hempty]
      rfl
  · have hquery : r.query.toList = [] := by simpa using hr
    have hparameters : r.parameters = [] := by
      rw [← pairs_query, hquery]
      rfl
    simp only [appendTo, hr, if_true, hparameters, List.append_nil]

/-- The query of a URL: what stands between the first `?` and the fragment. -/
def urlQuery (url : String) : String :=
  String.ofList ((Text.cutFirst '?' (Text.cutFirst '#' url.toList).1).2.getD [])

theorem urlQuery_eq {address q : List Char} (hmark : '?' ∉ address) (hhash : '#' ∉ address)
    (hq : '#' ∉ q) (fragment : Option (List Char)) :
    urlQuery (String.ofList (address ++ '?' :: q ++ fragment.elim [] ('#' :: ·))) =
      String.ofList q := by
  have hfront : '#' ∉ address ++ '?' :: q := by simp [hhash, hq]
  have hcut : (Text.cutFirst '#' (address ++ '?' :: q ++ fragment.elim [] ('#' :: ·))).1 =
      address ++ '?' :: q := by
    cases fragment with
    | none => rw [Option.elim_none, List.append_nil, Text.cutFirst_of_not_mem hfront]
    | some cs => rw [Option.elim_some, Text.cutFirst_append hfront]
  rw [urlQuery, String.toList_ofList, hcut, Text.cutFirst_append hmark, Option.getD_some]

/-- A request is put after the query of a URL, whatever the URL. -/
theorem urlQuery_applyTo (r : Search) (url : String) :
    urlQuery (r.applyTo url) = r.appendTo (urlQuery url) := by
  rcases hr : r.query.isEmpty with - | -
  · rcases hfragment : Text.cutFirst '#' url.toList with ⟨front, fragment⟩
    rcases hexisting : Text.cutFirst '?' front with ⟨address, existing⟩
    obtain ⟨hhash, -⟩ := Text.cutFirst_spec hfragment
    obtain ⟨hmark, hfront⟩ := Text.cutFirst_spec hexisting
    have hold : urlQuery url = String.ofList (existing.getD []) := by
      rw [urlQuery, hfragment, hexisting]
    rw [hfront, List.mem_append, not_or] at hhash
    have hours : '#' ∉ r.query.toList := r.not_mem_query rfl (by decide) (by decide)
    have hnew : '#' ∉ (r.appendTo (urlQuery url)).toList := by
      have hq : '#' ∉ (urlQuery url).toList := by
        rw [hold, String.toList_ofList]
        cases existing with
        | none => exact List.not_mem_nil
        | some cs => exact fun h => hhash.2 (List.mem_cons_of_mem _ h)
      rcases hempty : (urlQuery url).isEmpty with - | -
      · rw [toList_appendTo hr hempty]
        simp [hq, hours]
      · simpa [appendTo, hr, hempty] using hours
    have happly : r.applyTo url = String.ofList (address ++ '?' ::
        (r.appendTo (urlQuery url)).toList ++ fragment.elim [] ('#' :: ·)) := by
      apply String.toList_inj.1
      cases fragment <;>
        simp [applyTo, hr, hfragment, hexisting, hold, String.toList_append]
    rw [happly, urlQuery_eq hmark hhash.1 hnew, String.ofList_toList]
  · simp only [applyTo, appendTo, hr, if_true]

/-! ### The round trip -/

theorem appendTo_empty (r : Search) : r.appendTo "" = r.query := by
  by_cases hr : r.query = ""
  · rw [appendTo, hr]
    rfl
  · simp [appendTo, hr]

theorem overlay_default (r : Search) : ({} : Search).overlay r = r := by
  have hlist : ∀ as : List Attribute, (if as.isEmpty then [] else as) = as := by
    rintro (- | ⟨a, as⟩) <;> rfl
  simp only [overlay, hlist, Option.or_none]

theorem ofQuery_eq (q : String) :
    ofQuery q = ({} : Search).setParameters (pairs (q.toList.dropWhile (· == '?'))) := rfl

theorem same_overlay {r₀ r : Search} (h₀ : r₀.Received)
    (hfilter : ∀ e, r.filter = some e → ∃ e', Filter.parse e.render = .ok e' ∧ e'.same e = true) :
    (r₀.overlay { r with filter := r.filter.map Expr.readBack }).same (r₀.overlay r) = true := by
  refine same_withFilter (r₀.overlay r) ?_
  show sameOption Expr.same ((r.filter.map Expr.readBack).or r₀.filter)
    (r.filter.or r₀.filter) = true
  rcases hf : r.filter with - | e
  · -- the filter that was there came from a text, so it is the same as itself
    refine sameOption_refl fun e he => ?_
    obtain ⟨text, htext⟩ := h₀.filter e he
    exact (Filter.proper_of_parse htext).1.same_refl
  · rw [← hf]
    simpa [hf] using sameOption_readBack hfilter

/-- A request that is put after a query string is read back on top of what that
query string says.  Listed paths must survive being joined with commas and
trimmed. -/
theorem ofQuery_appendTo {r : Search} (hschemas : r.schemas = ({} : Search).schemas)
    (hfilter : ∀ e, r.filter = some e → ∃ e', Filter.parse e.render = .ok e' ∧ e'.same e = true)
    (hread : ∀ a ∈ r.attributes ++ r.excluded ++ r.sortBy.toList,
      ∃ p, Attribute.ofPath? p = some a)
    (hcomma : ∀ a ∈ r.attributes ++ r.excluded, ',' ∉ a.path.toList)
    (htrim : ∀ a ∈ r.attributes ++ r.excluded, Text.trim a.path.toList = a.path.toList) :
    (∀ q r₀, ofQuery q = .ok r₀ →
        ∃ s, ofQuery (r.appendTo q) = .ok s ∧ s.same (r₀.overlay r) = true) ∧
      (∀ url, urlQuery (r.applyTo url) = r.appendTo (urlQuery url)) ∧
      ∃ s, ofQuery r.query = .ok s ∧ s.same r = true := by
  have hwf := wellFormed_of_read hread
  simp only [List.forall_mem_append] at hwf hcomma htrim
  have hset : ∀ r₀ : Search, r₀.Received → r₀.setParameters r.parameters =
      .ok (r₀.overlay { r with filter := r.filter.map Expr.readBack }) := by
    intro r₀ h₀
    rw [setParameters_parameters r₀ (parse_filter hfilter)
      (readPaths_joinPaths hwf.1.1 hcomma.1 htrim.1) (readPaths_joinPaths hwf.1.2 hcomma.2 htrim.2)
      (fun a ha => hwf.2 a (Option.mem_toList.2 ha)), h₀.schemas, hschemas]
  have hafter : ∀ q r₀, ofQuery q = .ok r₀ →
      ∃ s, ofQuery (r.appendTo q) = .ok s ∧ s.same (r₀.overlay r) = true := by
    intro q r₀ h
    have h₀ : r₀.Received := received_of_ofQuery h
    refine ⟨_, ?_, same_overlay h₀ hfilter⟩
    rw [ofQuery_eq, pairs_appendTo]
    exact setParameters_append_ok h (hset r₀ h₀)
  refine ⟨hafter, r.urlQuery_applyTo, ?_⟩
  simpa only [appendTo_empty, overlay_default] using hafter "" {} rfl

/-- A request for the second page, put after a query string with a filter and a page
size: its filter replaces the one that is there, the page size stays. -/
theorem ofQuery_appendTo_page :
    let r : Search :=
      { filter := some (.comparison ⟨none, "a", none⟩ .eq (.text "b&c")),
        attributes := [⟨none, "a", none⟩, ⟨none, "b", some "c"⟩], startIndex := some 2 }
    r.appendTo "?filter=x+pr&count=10" = "?filter=x+pr&count=10&filter=a%20eq%20%22b%26c%22&" ++
        "attributes=a%2Cb.c&startIndex=2" ∧
      ∃ s, ofQuery (r.appendTo "?filter=x+pr&count=10") = .ok s ∧
        s.same { r with count := some 10 } = true := by
  intro r
  let r₀ : Search := { filter := some (.present ⟨none, "x", none⟩), count := some 10 }
  have hread : ofQuery "?filter=x+pr&count=10" = .ok r₀ := rfl
  have hpaths : ∀ a ∈ r.attributes ++ r.excluded ++ r.sortBy.toList,
      Attribute.ofPath? a.path = some a := by decide
  refine ⟨by decide, ?_⟩
  refine (ofQuery_appendTo (r := r) rfl ?_ (fun a ha => ⟨a.path, hpaths a ha⟩) (by decide)
    (by decide)).1 _ r₀ hread
  rintro e he
  obtain rfl := Option.some.inj he
  exact ⟨_, rfl, by decide⟩

end ScimQuery.Search
