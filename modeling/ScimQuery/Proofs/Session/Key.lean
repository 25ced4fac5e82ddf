/-
ScimQuery/Proofs/Session/Key.lean

Keys on the wire.  A presence test or a comparison is written as its key followed
by a blank, so what the reader takes for the attribute is the part of the key
before its first delimiter.  Paths may hold delimiters in their sub-attribute and
in the middle of their URN.

Main result: the leaf that a call with a key places is read back from its text
exactly when the key holds no delimiter (`parse_placed_same_iff`).  A key that
holds one is cut there, and what follows it in the key becomes part of the filter.
-/
import ScimQuery.Proofs.Filter.RoundTrip
import ScimQuery.Proofs.Session.Calls

namespace ScimQuery

/-- A presence test of the attribute, or a comparison of it with a value that has a
spelling. -/
inductive Expr.Tests (a : Attribute) : Expr → Prop
  | present : Tests a (.present a)
  | comparison (op : CompareOp) {v : Literal} : v.isFinite = true → Tests a (.comparison a op v)

/-- A call that tests the attribute of the key. -/
inductive Call.Tests (key : String) : Call → Prop
  | present : Tests key (.present key)
  | compare (op : CompareOp) {v : Literal} : v.isFinite = true → Tests key (.compare key op v)

namespace Expr

/-- The text of a test starts with the whole path and a blank. -/
theorem Tests.written_eq {a : Attribute} {e : Expr} (h : e.Tests a) :
    ∃ rest, e.written none = a.path.toList ++ ' ' :: rest := by
  cases h with
  | present => exact ⟨_, rfl⟩
  | comparison op _ => exact ⟨_, rfl⟩

theorem Tests.proper {a : Attribute} {e : Expr} (h : e.Tests a) (hwf : a.WellFormed)
    (hplain : a.Plain) : e.Proper none := by
  cases h with
  | present => exact ⟨hwf, hplain, rfl⟩
  | comparison op hv => exact ⟨⟨hwf, hplain, rfl⟩, hv⟩

/-- Tokens that derive a test of the attribute start with a path of the same
length. -/
theorem Tests.head_of_derives {a : Attribute} {e u : Expr} {ts : List Token} (h : e.Tests a)
    (hu : Reading.Derives .filter false ts u) (hsame : u.resolve.same e = true) :
    ∃ w us, ts = .word w :: us ∧ w.toList.length = a.path.toList.length := by
  have hlength : ∀ {w : String} {b : Attribute}, Attribute.ofPath? w = some b →
      b.same a = true → w.toList.length = a.path.toList.length := by
    intro w b hb hba
    obtain ⟨rfl, -⟩ := Attribute.ofPath?_eq_some_iff.1 hb
    exact Attribute.length_path_eq_of_same hba
  cases h with
  | present =>
    cases u with
    | present b =>
      cases hu.operand_of_filter rfl with
      | present hb _ => exact ⟨_, _, rfl, hlength hb hsame⟩
    | _ => cases hsame
  | comparison op hv =>
    cases u with
    | comparison b op' v' =>
      simp only [resolve, same, Bool.and_eq_true] at hsame
      cases hu.operand_of_filter rfl with
      | comparison hb _ _ _ => exact ⟨_, _, rfl, hlength hb hsame.1.1⟩
    | _ => cases hsame

end Expr

/-- A path with a delimiter in it starts with a word, which the first delimiter
ends. -/
theorem Attribute.WellFormed.exists_word {a : Attribute} {c : Char} (h : a.WellFormed)
    (hc : c ∈ a.path.toList) (hdelim : Scan.isDelimiter c = true) :
    ∃ w d rest, a.path.toList = w ++ d :: rest ∧ Scan.IsWord w ∧ Scan.isDelimiter d = true := by
  have hany : (a.path.toList.find? Scan.isDelimiter).isSome = true :=
    List.find?_isSome.2 ⟨c, hc, hdelim⟩
  obtain ⟨d, hfirst⟩ := Option.isSome_iff_exists.1 hany
  obtain ⟨hd, w, rest, hpath, hw⟩ := List.find?_eq_some_iff_append.1 hfirst
  refine ⟨w, d, rest, hpath, ⟨?_, fun x hx => by simpa using hw x hx⟩, hd⟩
  rintro rfl
  obtain ⟨x, hx, hx'⟩ := h.head?_path
  rw [hpath] at hx
  obtain rfl := Option.some.inj hx
  rw [hd] at hx'
  cases hx'

namespace Filter

theorem plain_of_parse_tests {a : Attribute} {e e' : Expr} (htests : e.Tests a)
    (hwf : a.WellFormed) (h : parse e.render = .ok e') (hsame : e'.same e = true) : a.Plain := by
  obtain ⟨-, ts, u, hscans, hu, rfl, -⟩ := parse_eq_ok_iff.1 h
  obtain ⟨v, us, rfl, hlength⟩ := htests.head_of_derives hu hsame
  intro c hc
  apply Bool.eq_false_iff.2
  intro hdelim
  -- the first delimiter ends the first word, which is then shorter than the path
  obtain ⟨w, d, after, hpath, hword, hd⟩ := hwf.exists_word hc hdelim
  obtain ⟨rest, hwritten⟩ := htests.written_eq
  rw [Expr.toList_render, hwritten, hpath, List.append_assoc, List.cons_append] at hscans
  obtain ⟨us', hus'⟩ := hscans.head_word hword hd
  obtain rfl := Token.word.inj (List.cons.inj hus').1
  rw [hpath, String.toList_ofList, List.length_append, List.length_cons] at hlength
  omega

/-- A test is read back from its text exactly when its path is a single word. -/
theorem exists_parse_tests_iff {a : Attribute} {e : Expr} (htests : e.Tests a)
    (hwf : a.WellFormed) (hlength : e.render.utf8ByteSize ≤ ({} : Limits).length) :
    (∃ e', parse e.render = .ok e' ∧ e'.same e = true) ↔ a.Plain := by
  constructor
  · rintro ⟨e', he', hsame⟩
    exact plain_of_parse_tests htests hwf he' hsame
  · intro hplain
    have htidy : e.Tidy := by cases htests <;> trivial
    have habbr : e.Abbreviable none := by cases htests <;> exact a.abbreviable_none
    have hdepth : e.nesting ≤ ({} : Limits).depth := by cases htests <;> exact Nat.zero_le _
    have hops : e.operands ≤ ({} : Limits).operands := by
      cases htests <;> exact Nat.succ_le_succ (Nat.zero_le _)
    obtain ⟨e', he', hsame, -⟩ :=
      exists_parse_render (htests.proper hwf hplain) htidy habbr hlength hdepth hops
    exact ⟨e', he', hsame⟩

end Filter

namespace Session

/-- The leaf of a key is read back from its text exactly when no character of the
key is a delimiter. -/
theorem parse_placed_same_iff {call : Call} {key : String} {leaf : Expr}
    (hcall : call.Tests key) (hplaced : empty.call call = .ok (complete leaf))
    (hlength : leaf.render.utf8ByteSize ≤ ({} : Limits).length) :
    (∃ e, Filter.parse leaf.render = .ok e ∧ e.same leaf = true) ↔
      ∀ c ∈ key.toList, Scan.isDelimiter c = false := by
  obtain ⟨a, ha, htests⟩ : ∃ a, Attribute.ofPath? key = some a ∧ leaf.Tests a := by
    cases hcall with
    | present =>
      obtain ⟨a, ha, rfl⟩ := Option.map_eq_some_iff.1 (leaf?_of_call_empty rfl hplaced)
      exact ⟨a, ha, .present⟩
    | compare op hv =>
      obtain ⟨a, ha, rfl⟩ := Option.map_eq_some_iff.1 (leaf?_of_call_empty rfl hplaced)
      exact ⟨a, ha, .comparison op hv⟩
  obtain ⟨rfl, hwf⟩ := Attribute.ofPath?_eq_some_iff.1 ha
  exact Filter.exists_parse_tests_iff htests hwf hlength

/-- A key with an `or` in its sub-attribute is accepted, and its one leaf is read
as two. -/
theorem not_parse_placed_same_or :
    ∃ leaf, empty.call (.present "a.b pr or c") = .ok (complete leaf) ∧
      Filter.parse leaf.render =
        .ok (.joined (.present ⟨none, "a", some "b"⟩) .or (.present ⟨none, "c", none⟩)) ∧
      ¬ ∃ e, Filter.parse leaf.render = .ok e ∧ e.same leaf = true := by
  have hplaced : empty.call (.present "a.b pr or c") =
      .ok (complete (.present ⟨none, "a", some "b pr or c"⟩)) := rfl
  refine ⟨_, hplaced, rfl, ?_⟩
  rw [parse_placed_same_iff .present hplaced (by decide)]
  intro hplain
  have hblank := hplain ' ' (by decide)
  revert hblank
  decide

end Session

end ScimQuery
