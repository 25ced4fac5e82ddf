/-
ScimQuery/Proofs/Session/Chain.lean

Flat sessions: operands with a single connective between each two of them.  The
session grows its tree on the right edge, the reader has two layers of the
grammar; both make the same tree of the same row.

`Mirrored root` says that a tree is spelled by its text and can be read.  One
connective and one operand keep it (`Mirrored.extend`), so a whole session does.

Main result: a flat session whose operands are read back from their own texts
succeeds, its filter has the joined texts for its text, and that text is read as
the filter (`calls_chain`).
-/
import ScimQuery.Proofs.Session.Spelling

namespace ScimQuery

/-! ### Trees and their texts -/

open Reading Scan

/-- The text of the tree derives a tree that is equal to it once it is resolved, and
that is not nested too deep. -/
def Mirrored (root : Expr) : Prop :=
  ∃ ts u, Scans root.render.toList ts ∧ Derives .filter false ts u ∧
    u.resolve.same root = true ∧ u.nesting ≤ ({} : Limits).depth

theorem mirrored_iff {root : Expr} :
    Mirrored root ↔ root.Spelled ∧ root.nesting ≤ ({} : Limits).depth := by
  have hnesting : ∀ {u : Expr}, u.resolve.same root = true → u.nesting = root.nesting :=
    fun h => (Expr.nesting_resolve _).symm.trans (Expr.shape_eq_of_same h).1
  constructor
  · rintro ⟨ts, u, hscans, hu, hsame, hdepth⟩
    exact ⟨⟨ts, u, hscans, hu, hsame⟩, hnesting hsame ▸ hdepth⟩
  · rintro ⟨⟨ts, u, hscans, hu, hsame⟩, hdepth⟩
    exact ⟨ts, u, hscans, hu, hsame, hnesting hsame ▸ hdepth⟩

theorem Mirrored.parse {root : Expr} (h : Mirrored root)
    (hlength : root.render.utf8ByteSize ≤ ({} : Limits).length)
    (hops : root.operands ≤ ({} : Limits).operands) :
    ∃ e, Filter.parse root.render = .ok e ∧ e.same root = true := by
  obtain ⟨hspelled, hdepth⟩ := mirrored_iff.1 h
  exact hspelled.parse hlength hdepth hops

/-- A connective and an operand keep the tree mirrored. -/
theorem Mirrored.extend {root operand : Expr} (hroot : Mirrored root)
    (hoperand : Mirrored operand) (hleaf : operand.connective? = none) (c : Connective) :
    Mirrored (Expr.extend c root operand) := by
  obtain ⟨hroot, hdepth⟩ := mirrored_iff.1 hroot
  obtain ⟨hoperand, hdepth'⟩ := mirrored_iff.1 hoperand
  refine mirrored_iff.2 ⟨hroot.extend hoperand (Expr.parensRight_of_connective? hleaf c), ?_⟩
  rw [Expr.nesting_extend]
  exact Nat.max_le.2 ⟨hdepth, hdepth'⟩

namespace Session

/-! ### Flat sessions -/

/-- The call places the operand, and the operand is read back from its own text. -/
structure ReadsBack (call : Call) (operand : Expr) : Prop where
  alone : call.connective? = none
  placed : empty.call call = .ok (complete operand)
  parsed : ∃ e, Filter.parse operand.render = .ok e ∧ e.same operand = true

/-- A connective, and the call that places the operand after it. -/
structure Link where
  connective : Connective
  call : Call
  operand : Expr

/-- The calls of a flat session. -/
def chainCalls (first : Call) (rest : List Link) : List Call :=
  first :: rest.flatMap fun link => [.connect link.connective, link.call]

/-- The texts of the operands with the connectives between them. -/
def chainText (first : Expr) (rest : List Link) : String :=
  rest.foldl
    (fun text link => text ++ " " ++ link.connective.keyword ++ " " ++ link.operand.render)
    first.render

/-- The number of operands that the reader counts in the text. -/
def chainOperands (first : Expr) (rest : List Link) : Nat :=
  rest.foldl (fun n link => n + link.operand.operands) first.operands

theorem ReadsBack.leaf? {call : Call} {operand : Expr} (h : ReadsBack call operand) :
    call.leaf? = some operand :=
  leaf?_of_call_empty h.alone h.placed

theorem ReadsBack.mirrored {call : Call} {operand : Expr} (h : ReadsBack call operand) :
    Mirrored operand := by
  obtain ⟨e, he, hsame⟩ := h.parsed
  obtain ⟨-, ts, u, hscans, hu, rfl, hdepth, -⟩ := Filter.parse_eq_ok_iff.1 he
  exact ⟨ts, u, hscans, hu, hsame, hdepth⟩

/-- The calls after the first one: the tree stays mirrored while its text grows. -/
theorem calls_links {root : Expr} {rest : List Link} (hroot : Mirrored root)
    (hrest : ∀ link ∈ rest, ReadsBack link.call link.operand) :
    ∃ root', (complete root).calls (rest.flatMap fun link =>
        [.connect link.connective, link.call]) = .ok (complete root') ∧
      Mirrored root' ∧ root'.render = chainText root rest ∧
      root'.operands = chainOperands root rest := by
  induction rest generalizing root with
  | nil => exact ⟨root, rfl, hroot, rfl, rfl⟩
  | cons link rest ih =>
    have hlink := hrest link List.mem_cons_self
    have hleaf := Call.connective?_of_leaf? hlink.leaf?
    let grown := Expr.extend link.connective root link.operand
    have hgrown : Mirrored grown := hroot.extend hlink.mirrored hleaf link.connective
    have hright := Expr.parensRight_of_connective? hleaf link.connective
    -- the connective and the call after it
    have hstep : ∀ cs, (complete root).calls (.connect link.connective :: link.call :: cs) =
        (complete grown).calls cs := by
      intro cs
      obtain ⟨p, hp⟩ := exists_connect link.connective root
      have hplace := place_of_connect hp link.operand
      rw [wrapRight_of_parensRight hright] at hplace
      have hcall : (complete root).call (.connect link.connective) = .ok (pending p) := hp
      rw [calls_cons _ hcall, calls_cons _ ((call_of_leaf? hlink.leaf? _).trans hplace)]
    obtain ⟨root', hroot', hmirrored, hrender, hops⟩ :=
      ih hgrown fun link hlink => hrest link (List.mem_cons_of_mem _ hlink)
    refine ⟨root', ?_, hmirrored, ?_, ?_⟩
    · rw [List.flatMap_cons]
      exact (hstep _).trans hroot'
    · rw [hrender, chainText, chainText, List.foldl_cons,
        Expr.render_extend (mirrored_iff.1 hroot).1.tidy hright]
    · rw [hops, chainOperands, chainOperands, List.foldl_cons, Expr.operands_extend]

/-- A flat session succeeds, its filter has the joined texts for its text, and
this text is read as the filter. -/
theorem calls_chain {first : Call} {operand : Expr} {rest : List Link}
    (hfirst : ReadsBack first operand)
    (hrest : ∀ link ∈ rest, ReadsBack link.call link.operand)
    (hlength : (chainText operand rest).utf8ByteSize ≤ ({} : Limits).length)
    (hops : chainOperands operand rest ≤ ({} : Limits).operands) :
    ∃ s e, empty.calls (chainCalls first rest) = .ok s ∧ s.build = .ok e ∧
      e.render = chainText operand rest ∧
      ∃ e', Filter.parse (chainText operand rest) = .ok e' ∧ e'.same e = true := by
  obtain ⟨root, hcalls, hmirrored, hrender, hcount⟩ := calls_links hfirst.mirrored hrest
  rw [← hrender] at hlength ⊢
  rw [← hcount] at hops
  refine ⟨complete root, root, ?_, rfl, rfl, hmirrored.parse hlength hops⟩
  rw [chainCalls, calls_cons _ hfirst.placed]
  exact hcalls

/-- Three operands, of which the last two are joined first. -/
theorem calls_chain_three :
    ∃ s e, empty.calls [.present "title", .connect .or, .compare "userName" .eq (.text "bj"),
        .connect .and, .negate (.present ⟨none, "active", none⟩)] = .ok s ∧ s.build = .ok e ∧
      e.render = "title pr or userName eq \"bj\" and not (active pr)" ∧
      ∃ e', Filter.parse "title pr or userName eq \"bj\" and not (active pr)" = .ok e' ∧
        e'.same e = true := by
  have hfirst : ReadsBack (.present "title") (.present ⟨none, "title", none⟩) :=
    ⟨rfl, rfl, .present ⟨none, "title", none⟩, rfl, by decide⟩
  have hsecond : ReadsBack (.compare "userName" .eq (.text "bj"))
      (.comparison ⟨none, "userName", none⟩ .eq (.text "bj")) :=
    ⟨rfl, rfl, .comparison ⟨none, "userName", none⟩ .eq (.text "bj"), rfl, by decide⟩
  have hthird : ReadsBack (.negate (.present ⟨none, "active", none⟩))
      (.group true (.present ⟨none, "active", none⟩)) :=
    ⟨rfl, rfl, .group true (.present ⟨none, "active", none⟩), rfl, by decide⟩
  have hrest : ∀ link ∈ [(⟨.or, _, _⟩ : Link), ⟨.and, _, _⟩], ReadsBack link.call link.operand :=
    List.forall_mem_cons.2 ⟨hsecond, List.forall_mem_singleton.2 hthird⟩
  exact calls_chain hfirst hrest (by decide) (by decide)

end Session

end ScimQuery
