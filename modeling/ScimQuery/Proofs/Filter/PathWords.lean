/-
ScimQuery/Proofs/Filter/PathWords.lean

The attributes of a filter in the order of its text.  Any word can be an attribute
path, a keyword or a value; which one it is follows from where it stands.  `roles`
goes over the tokens once, from left to right, and tells for each of them what it is
there for.  It knows no tree and counts no brackets: of what came before it keeps only
the last kind of token and the path in front of the brackets that are open.

The tree, on the other hand, is told from its leaves, a value path after what is in its
brackets, and names in brackets are changed when the brackets close.

Main results: every rule of the grammar gives its tokens their roles, and the path
words among them are the attributes of its tree (`exists_marks_of_derives`); so the
attributes of a filter that is read are its path words, one for one and in the order of
the text (`attributes_eq_pathWords`).
-/
import ScimQuery.Proofs.Expr.Scope
import ScimQuery.Proofs.Filter.ReadBack
import ScimQuery.Proofs.Lexeme.Layout

namespace ScimQuery

namespace Reading

/-! ### Roles -/

/-- What a token of a filter is there for. -/
inductive Role where
  /-- An attribute path; `scope` is the path in front of the brackets it stands in. -/
  | path (scope : Option String)
  /-- The word `not` in front of a parenthesis. -/
  | negation
  /-- A comparison operator, or `pr`. -/
  | operator
  /-- A value. -/
  | value
  /-- A connective. -/
  | connective
  /-- Anything that is no word. -/
  | mark
  deriving DecidableEq, Repr

/-- Where a token stands. -/
inductive Site where
  /-- Before an operand. -/
  | before
  /-- After the path of an operand. -/
  | path (word : String)
  /-- Before a value. -/
  | value
  /-- After an operand. -/
  | after
  deriving DecidableEq, Repr

/-- The roles of tokens, the first of which stands at the site and in the brackets of
the path `scope`. -/
def roles : Option String → Site → List Token → List Role
  | _, _, [] => []
  | scope, .before, .word w :: ts =>
    -- a path is never followed by a parenthesis
    if ts.head? = some .openParen then .negation :: roles scope .before ts
    else .path scope :: roles scope (.path w) ts
  | scope, .before, _ :: ts => .mark :: roles scope .before ts
  | _, .path w, .openBracket :: ts => .mark :: roles (some w) .before ts
  | scope, .path _, .word p :: ts =>
    .operator :: roles scope (if Text.alike p "pr" then .after else .value) ts
  | scope, .path w, _ :: ts => .mark :: roles scope (.path w) ts
  | scope, .value, _ :: ts => .value :: roles scope .after ts
  | scope, .after, .word _ :: ts => .connective :: roles scope .before ts
  | _, .after, .closeBracket :: ts => .mark :: roles none .after ts
  | scope, .after, _ :: ts => .mark :: roles scope .after ts

/-- The paths among things with roles, each with the path in front of its brackets. -/
def paths {α : Type} (xs : List (α × Role)) : List (α × Option String) :=
  xs.filterMap fun
    | (x, .path scope) => some (x, scope)
    | _ => none

/-- What a path word refers to: the reference that the word is, put under the one in
front of the brackets. -/
def reference? (scope : Option String) : Token → Option Attribute
  | .word w =>
    match scope with
    | none => Attribute.ofPath? w
    | some p => do
      let parent ← Attribute.ofPath? p
      let a ← Attribute.ofPath? w
      some (a.scopedUnder parent)
  | _ => none

theorem paths_append {α : Type} (xs ys : List (α × Role)) :
    paths (xs ++ ys) = paths xs ++ paths ys :=
  List.filterMap_append

theorem paths_map {α β : Type} (f : α → β) (xs : List (α × Role)) :
    paths (xs.map (Prod.map f id)) = (paths xs).map (Prod.map f id) := by
  rw [paths, paths, List.map_filterMap, List.filterMap_map]
  congr 1
  funext x
  rcases x with ⟨x, (scope | - | - | - | - | -)⟩ <;> rfl

theorem paths_sublist {α : Type} (xs : List (α × Role)) :
    ((paths xs).map Prod.fst).Sublist (xs.map Prod.fst) := by
  induction xs with
  | nil => exact .slnil
  | cons x xs ih =>
    obtain ⟨x, r⟩ := x
    cases r with
    | path scope => exact ih.cons_cons x
    | _ => exact ih.cons x

/-- Every token has one role. -/
theorem length_roles (scope : Option String) (site : Site) (ts : List Token) :
    (roles scope site ts).length = ts.length := by
  fun_induction roles scope site ts <;> simp [*]

/-- The lexemes of a filter with what they are there for. -/
def withRoles (ls : List Lexeme) : List (Lexeme × Role) :=
  ls.zip (roles none .before (ls.map Lexeme.token))

/-- The attribute-path words of a filter, each with the path in front of the brackets it
stands in. -/
def pathWords (ls : List Lexeme) : List (Lexeme × Option String) := paths (withRoles ls)

theorem length_roles_tokens (ls : List Lexeme) :
    (roles none .before (ls.map Lexeme.token)).length = ls.length := by
  rw [length_roles, List.length_map]

theorem map_fst_withRoles (ls : List Lexeme) : (withRoles ls).map Prod.fst = ls :=
  List.map_fst_zip (Nat.le_of_eq (length_roles_tokens ls).symm)

theorem map_snd_withRoles (ls : List Lexeme) :
    (withRoles ls).map Prod.snd = roles none .before (ls.map Lexeme.token) :=
  List.map_snd_zip (Nat.le_of_eq (length_roles_tokens ls))

/-- The path words stand in the text in their order. -/
theorem pathWords_sublist (ls : List Lexeme) : ((pathWords ls).map Prod.fst).Sublist ls := by
  have hsub := paths_sublist (withRoles ls)
  rwa [map_fst_withRoles] at hsub

/-! ### Rules of the grammar -/

/-- The path in front of the open brackets, as it is written and as it is read. -/
inductive Bracketed : Bool → Option String → Option Attribute → Prop
  | outside : Bracketed false none none
  | inside {p parent} : Attribute.ofPath? p = some parent → Bracketed true (some p) (some parent)

theorem Bracketed.reference? {inside : Bool} {scope : Option String} {parent : Option Attribute}
    (h : Bracketed inside scope parent) {w : String} {a : Attribute}
    (ha : Attribute.ofPath? w = some a) :
    reference? scope (.word w) = some (a.inScope parent) := by
  cases h with
  | outside => exact ha
  | inside hp => simp [Reading.reference?, hp, ha, Attribute.inScope]

/-- From one place to another the tokens have the roles, whatever comes after them. -/
def Leads (scope : Option String) (site : Site) (ms : List (Token × Role))
    (scope' : Option String) (site' : Site) : Prop :=
  ∀ rest, roles scope site (ms.map Prod.fst ++ rest) = ms.map Prod.snd ++ roles scope' site' rest

theorem Leads.append {scope scope₁ scope₂ : Option String} {site site₁ site₂ : Site}
    {ms ns : List (Token × Role)} (h : Leads scope site ms scope₁ site₁)
    (h' : Leads scope₁ site₁ ns scope₂ site₂) : Leads scope site (ms ++ ns) scope₂ site₂ := by
  intro rest
  rw [List.map_append, List.map_append, List.append_assoc, List.append_assoc, h, h']

/-- What the path words refer to. -/
def references (ms : List (Token × Role)) : List (Option Attribute) :=
  (paths ms).map fun x => reference? x.2 x.1

/-- The number of path words, connectives and groups. -/
def nodes (ms : List (Token × Role)) : Nat :=
  (paths ms).length + (ms.map Prod.snd).count .connective + (ms.map Prod.fst).count .openParen

theorem references_append (ms ns : List (Token × Role)) :
    references (ms ++ ns) = references ms ++ references ns := by
  rw [references, paths_append, List.map_append]
  rfl

theorem nodes_append (ms ns : List (Token × Role)) : nodes (ms ++ ns) = nodes ms + nodes ns := by
  simp only [nodes, paths_append, List.length_append, List.map_append, List.count_append]
  omega

/-- The tokens lead over an operand, and their roles tell the attributes and the size of
the tree. -/
structure Marks (scope : Option String) (parent : Option Attribute) (ms : List (Token × Role))
    (u : Expr) : Prop where
  leads : Leads scope .before ms scope .after
  references : references ms = (u.resolve.inScope parent).attributes.map some
  nodes : nodes ms = u.size

section Rules

variable {inside : Bool} {scope : Option String} {parent : Option Attribute}
variable {ms ns : List (Token × Role)} {l r u : Expr} {w : String} {a : Attribute}

theorem Marks.joined (hl : Marks scope parent ms l) (hr : Marks scope parent ns r) (w : String)
    (c : Connective) :
    Marks scope parent (ms ++ ([(.word w, .connective)] ++ ns)) (.joined l c r) := by
  refine ⟨hl.leads.append (Leads.append (fun _ => rfl) hr.leads), ?_, ?_⟩
  · rw [references_append, references_append, hl.references, hr.references, Expr.resolve,
      Expr.inScope_joined, Expr.attributes_joined, List.map_append]
    rfl
  · rw [nodes_append, nodes_append, hl.nodes, hr.nodes, Expr.size]
    show l.size + (1 + r.size) = _
    omega

/-- A group, negated or not, after the tokens that open it. -/
theorem Marks.group (h : Marks scope parent ms u) (n : Bool) (opening : List (Token × Role))
    (hleads : Leads scope .before opening scope .before) (hnone : Reading.references opening = [])
    (hone : Reading.nodes opening = 1) :
    Marks scope parent (opening ++ (ms ++ [(.closeParen, .mark)])) (.group n u) := by
  refine ⟨hleads.append (h.leads.append fun _ => rfl), ?_, ?_⟩
  · rw [references_append, references_append, hnone, h.references, Expr.resolve,
      Expr.inScope_group, Expr.attributes_group]
    exact List.append_nil _
  · rw [nodes_append, nodes_append, hone, h.nodes]
    rfl

theorem Marks.valuePath (ha : Attribute.ofPath? w = some a) (h : Marks (some w) (some a) ms u) :
    Marks none none
      ([(.word w, .path none), (.openBracket, .mark)] ++ (ms ++ [(.closeBracket, .mark)]))
      (.valuePath a u) := by
  refine ⟨Leads.append (fun _ => rfl) (h.leads.append fun _ => rfl), ?_, ?_⟩
  · rw [references_append, references_append, h.references]
    show reference? none (.word w) :: (_ ++ []) = some a :: _
    rw [Bracketed.outside.reference? ha, List.append_nil]
    rfl
  · rw [nodes_append, nodes_append, h.nodes]
    rfl

theorem Marks.present (hs : Bracketed inside scope parent) (ha : Attribute.ofPath? w = some a)
    {p : String} (hp : Text.alike p "pr" = true) :
    Marks scope parent [(.word w, .path scope), (.word p, .operator)] (.present a) := by
  refine ⟨fun rest => ?_, ?_, rfl⟩
  · show Role.path scope :: .operator ::
      roles scope (if Text.alike p "pr" then .after else .value) rest = _
    rw [if_pos hp]
    rfl
  · rw [Expr.resolve, Expr.inScope_present]
    show [reference? scope (.word w)] = _
    rw [hs.reference? ha]
    rfl

theorem Marks.comparison (hs : Bracketed inside scope parent) (ha : Attribute.ofPath? w = some a)
    {o raw : String} {op : CompareOp} {value : Token} {v : Literal}
    (ho : CompareOp.ofWord? o = some op) (hv : Spells value raw) :
    Marks scope parent [(.word w, .path scope), (.word o, .operator), (value, .value)]
      (.comparison a op v) := by
  refine ⟨fun rest => ?_, ?_, ?_⟩
  · show Role.path scope :: .operator ::
      roles scope (if Text.alike o "pr" then .after else .value) (value :: rest) = _
    rw [State.not_alike_pr ho]
    cases hv <;> rfl
  · rw [Expr.resolve, Expr.inScope_comparison]
    show [reference? scope (.word w)] = _
    rw [hs.reference? ha]
    rfl
  · cases hv <;> rfl

end Rules

/-- The tokens of a tree have roles that tell its attributes and its size. -/
theorem exists_marks_of_derives {layer : Layer} {inside : Bool} {ts : List Token} {u : Expr}
    (h : Derives layer inside ts u) {scope : Option String} {parent : Option Attribute}
    (hs : Bracketed inside scope parent) :
    ∃ ms, ms.map Prod.fst = ts ∧ Marks scope parent ms u := by
  induction h generalizing scope parent with
  | conjunction _ ih => exact ih hs
  | operand _ ih => exact ih hs
  | @or _ _ _ _ _ w _ _ _ ihl ihr =>
    obtain ⟨ms, rfl, hl⟩ := ihl hs
    obtain ⟨ns, rfl, hr⟩ := ihr hs
    exact ⟨_, List.map_append, hl.joined hr w .or⟩
  | @and _ _ _ _ _ w _ _ _ ihl ihr =>
    obtain ⟨ms, rfl, hl⟩ := ihl hs
    obtain ⟨ns, rfl, hr⟩ := ihr hs
    exact ⟨_, List.map_append, hl.joined hr w .and⟩
  | group _ ih =>
    obtain ⟨ms, rfl, h⟩ := ih hs
    exact ⟨_, by simp, h.group false [(.openParen, .mark)] (fun _ => rfl) rfl rfl⟩
  | @negated _ _ _ w _ _ ih =>
    obtain ⟨ms, rfl, h⟩ := ih hs
    exact ⟨_, by simp,
      h.group true [(.word w, .negation), (.openParen, .mark)] (fun _ => rfl) rfl rfl⟩
  | valuePath ha _ ih =>
    obtain ⟨ms, rfl, h⟩ := ih (.inside ha)
    -- brackets do not stand in brackets, so the path in front has no scope
    cases hs with
    | outside => exact ⟨_, by simp, .valuePath ha h⟩
  | present ha hp => exact ⟨_, rfl, .present hs ha hp⟩
  | comparison ha ho hv _ => exact ⟨_, rfl, .comparison hs ha ho hv⟩

/-- The roles of a whole text, with the mark for its end. -/
theorem Marks.lexemes {ms : List (Token × Role)} {u : Expr} {ls : List Lexeme}
    (h : Marks none none ms u) (htokens : ls.map Lexeme.token = ms.map Prod.fst ++ [.eof]) :
    u.resolve.attributes.map some = (pathWords ls).map (fun x => reference? x.2 x.1.token) ∧
      u.size = (pathWords ls).length + ((withRoles ls).map Prod.snd).count .connective +
        (ls.map Lexeme.token).count .openParen := by
  have hfst : (ms ++ [(Token.eof, Role.mark)]).map Prod.fst = ls.map Lexeme.token := by
    rw [htokens, List.map_append]
    rfl
  have hsnd : (ms ++ [(Token.eof, Role.mark)]).map Prod.snd = (withRoles ls).map Prod.snd := by
    rw [map_snd_withRoles, htokens, h.leads, List.map_append]
    rfl
  have hmarks : ms ++ [(.eof, .mark)] = (withRoles ls).map (Prod.map Lexeme.token id) := by
    rw [withRoles, ← List.zip_map_left, ← map_snd_withRoles]
    exact List.zip_of_prod hfst hsnd
  have hpaths : paths (ms ++ [(.eof, .mark)]) = (pathWords ls).map (Prod.map Lexeme.token id) := by
    rw [hmarks, paths_map, pathWords]
  constructor
  · calc u.resolve.attributes.map some
      _ = Reading.references ms := h.references.symm
      _ = Reading.references (ms ++ [(.eof, .mark)]) := by
        rw [references_append]
        exact (List.append_nil _).symm
      _ = (pathWords ls).map (fun x => reference? x.2 x.1.token) := by
        rw [Reading.references, hpaths, List.map_map]
        rfl
  · calc u.size
      _ = Reading.nodes (ms ++ [(.eof, .mark)]) := by
        rw [nodes_append, h.nodes]
        rfl
      _ = _ := by rw [Reading.nodes, hpaths, List.length_map, hfst, hsnd]

end Reading

theorem Expr.size_resolve (e : Expr) : e.resolve.size = e.size := by
  induction e with
  | comparison a op v => rfl
  | present a => rfl
  | joined l c r ihl ihr => rw [resolve, size, size, ihl, ihr]
  | group n e ih => rw [resolve, size, size, ih]
  | valuePath a e ih =>
    rw [resolve, under, size, size, (sameUpTo_scopedUnder e.resolve a).size_eq, ih]

namespace Filter

open Reading Scan

/-- The attributes of a filter that is read are its path words, one for one and in the
order of the text, each read as a reference and put under the path in front of the
brackets it stands in.  Every node is a path word, a connective or a parenthesis. -/
theorem attributes_eq_pathWords {limits : Limits} {input : String} {t : Expr}
    (h : parseWith limits input = .ok t) :
    ∃ ls, lexemes input = .ok ls ∧
      t.attributes.map some = (pathWords ls).map (fun x => reference? x.2 x.1.token) ∧
      ((pathWords ls).map Prod.fst).Pairwise (fun l k => l.position < k.position) ∧
      t.size = (pathWords ls).length + ((withRoles ls).map Prod.snd).count .connective +
        (ls.map Lexeme.token).count .openParen := by
  obtain ⟨-, ts, u, hscans, hu, rfl, -, -⟩ :=
    (parseWith_eq_ok_iff (validate_of_parseWith h)).1 h
  obtain ⟨ls, hls, htokens⟩ := lexemes_of_scans hscans
  obtain ⟨ms, rfl, hms⟩ := exists_marks_of_derives hu .outside
  obtain ⟨hreferences, hnodes⟩ := hms.lexemes htokens
  have hincreasing := (lexemes_eq_ok_iff.1 hls).increasing
  refine ⟨ls, ?_, hreferences, hincreasing.sublist (pathWords_sublist ls), ?_⟩
  · rw [lexemes, hls]
  · rw [Expr.size_resolve, hnodes]

/-- Keywords are names where a path stands: two of the attributes are `and` and `not`. -/
theorem attributes_eq_pathWords_keywords :
    let t : Expr := .joined (.group true (.present ⟨none, "and", none⟩)) .or
      (.valuePath ⟨none, "emails", none⟩
        (.joined (.comparison ⟨none, "emails", some "type"⟩ .ne (.text "or")) .and
          (.present ⟨none, "emails", some "not"⟩)))
    parse "not (and pr) or emails[type ne \"or\" and not pr]" = .ok t ∧
      ∃ ls, lexemes "not (and pr) or emails[type ne \"or\" and not pr]" = .ok ls ∧
        (pathWords ls).map (fun x => (x.1.token, x.2)) =
          [(.word "and", none), (.word "emails", none), (.word "type", some "emails"),
            (.word "not", some "emails")] ∧
        t.attributes.map some = (pathWords ls).map (fun x => reference? x.2 x.1.token) ∧
        t.size = 4 + 2 + 1 := by
  intro t
  have hparse : parse "not (and pr) or emails[type ne \"or\" and not pr]" = .ok t := rfl
  obtain ⟨ls, hls, hattributes, -, hsize⟩ := attributes_eq_pathWords hparse
  refine ⟨hparse, ls, hls, ?_, hattributes, ?_⟩
  · obtain rfl := Except.ok.inj hls
    rfl
  · rw [hsize]
    obtain rfl := Except.ok.inj hls
    rfl

end Filter

end ScimQuery
