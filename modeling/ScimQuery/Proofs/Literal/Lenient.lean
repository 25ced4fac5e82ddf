/-
ScimQuery/Proofs/Literal/Lenient.lean

Quoted values in one pass.  A quoted value is read in two: its characters are
brought to JSON's form first, which rewrites escaped apostrophes and control
characters, and are decoded strictly then.  Here this is compared with reading the
characters as they came by the lenient forms, `Denotes false`.

The rewriting sees one or two characters at a time (`Normalized`), a form has up
to twelve.  That the two fit is because hexadecimal digits are left alone, and
because an escape which the rewriting puts in is never half of a surrogate pair.

Main results: a text denotes strictly after the rewriting what it denotes leniently
before it (`denotes_normalize_iff`), and a value in quotes is read exactly as its
lenient text (`read_quoted_iff_denotes`).
-/
import ScimQuery.Proofs.Json.Forms
import ScimQuery.Proofs.Literal.ReadBack
import ScimQuery.Fault

namespace ScimQuery.Literal

open ScimQuery.Text ScimQuery.Json

/-! ### The rewriting, clause by clause -/

/-- The source and its form in JSON. -/
inductive Normalized : List Char → List Char → Prop
  | nil : Normalized [] []
  /-- A backslash at the end takes nothing along. -/
  | backslash : Normalized ['\\'] ['\\']
  | apostrophe {cs out} : Normalized cs out →
      Normalized ('\\' :: apostrophe :: cs) (apostrophe :: out)
  | escape {c cs out} : c ≠ Literal.apostrophe → Normalized cs out →
      Normalized ('\\' :: c :: cs) ('\\' :: c :: out)
  | control {c cs out} : c.toNat < 0x20 → Normalized cs out →
      Normalized (c :: cs) (Quoted.escapeControl c ++ out)
  | plain {c cs out} : c ≠ '\\' → ¬ c.toNat < 0x20 → Normalized cs out →
      Normalized (c :: cs) (c :: out)

theorem normalizeFrom_control {c : Char} (h : c.toNat < 0x20) (acc cs : List Char) :
    normalizeFrom acc (c :: cs) = normalizeFrom ((Quoted.escapeControl c).reverse ++ acc) cs := by
  rw [normalizeFrom, if_pos h]
  rintro d rest rfl
  exact absurd h (by decide)

theorem Normalized.normalizeFrom {cs out : List Char} (h : Normalized cs out) (acc : List Char) :
    normalizeFrom acc cs = acc.reverse ++ out := by
  induction h generalizing acc with
  | nil => simp [Literal.normalizeFrom]
  | backslash => simp [Literal.normalizeFrom]
  | apostrophe _ ih => simp [Literal.normalizeFrom, ih]
  | escape hc _ ih => simp [normalizeFrom_escape hc, ih]
  | control hc _ ih => simp [normalizeFrom_control hc, ih]
  | plain hb hc _ ih => simp [normalizeFrom_plain hb hc, ih]

theorem exists_normalized (cs : List Char) : ∃ out, Normalized cs out := by
  fun_induction normalizeFrom [] cs with
  | case1 => exact ⟨[], .nil⟩
  | case2 _ rest ih => exact ⟨_, .apostrophe ih.choose_spec⟩
  | case3 _ c rest hc ih => exact ⟨_, .escape hc ih.choose_spec⟩
  | case4 _ c rest _ hc ih => exact ⟨_, .control hc ih.choose_spec⟩
  | case5 _ c rest hne hc ih =>
    by_cases hb : c = '\\'
    · rcases rest with - | ⟨d, rest⟩
      · subst hb
        exact ⟨_, .backslash⟩
      · exact absurd rfl (hne d rest hb)
    · exact ⟨_, .plain hb hc ih.choose_spec⟩

theorem normalize_eq_iff {cs out : List Char} : normalize cs = out ↔ Normalized cs out := by
  have heq : ∀ {out}, Normalized cs out → normalize cs = out := fun h => h.normalizeFrom []
  constructor
  · rintro rfl
    obtain ⟨out, h⟩ := exists_normalized cs
    rwa [heq h]
  · exact heq

/-! ### What the source was -/

/-- A character other than a backslash stood in the source, or is an apostrophe that was
escaped there. -/
theorem Normalized.exists_plain {c : Char} {cs out : List Char} (hb : c ≠ '\\')
    (h : Normalized cs (c :: out)) :
    (∃ rest, cs = c :: rest ∧ Normalized rest out) ∨
      c = Literal.apostrophe ∧
        ∃ rest, cs = '\\' :: Literal.apostrophe :: rest ∧ Normalized rest out := by
  generalize hout : c :: out = out' at h
  cases h with
  | nil => cases hout
  | backslash => exact absurd (List.cons.inj hout).1 hb
  | @apostrophe cs _ hcs =>
    obtain ⟨hc, rfl⟩ := List.cons.inj hout
    exact .inr ⟨hc, cs, rfl, hcs⟩
  | escape _ _ => exact absurd (List.cons.inj hout).1 hb
  | control _ _ => exact absurd (List.cons.inj hout).1 hb
  | @plain d cs _ _ _ hcs =>
    obtain ⟨rfl, rfl⟩ := List.cons.inj hout
    exact .inl ⟨cs, rfl, hcs⟩

/-- An escape stood in the source, or was put in for a control character. -/
theorem Normalized.exists_escape {d : Char} {cs out : List Char}
    (h : Normalized cs ('\\' :: d :: out)) :
    (∃ rest, cs = '\\' :: d :: rest ∧ Normalized rest out) ∨
      ∃ c rest out', cs = c :: rest ∧ c.toNat < 0x20 ∧
        '\\' :: d :: out = Quoted.escapeControl c ++ out' ∧ Normalized rest out' := by
  generalize hout : '\\' :: d :: out = out' at h
  cases h with
  | nil => cases hout
  | backslash => cases hout
  | apostrophe _ => exact absurd (List.cons.inj hout).1 (by decide)
  | @escape e cs _ _ hcs =>
    obtain ⟨rfl, rfl⟩ := List.cons.inj (List.cons.inj hout).2
    exact .inl ⟨cs, rfl, hcs⟩
  | @control c cs out' hc hcs => exact .inr ⟨c, cs, out', rfl, hc, rfl, hcs⟩
  | plain hb _ _ => exact absurd (List.cons.inj hout).1.symm hb

/-! ### Digits are left alone -/

theorem plain_of_value? {d : Char} {v : Nat} (h : Hex.value? d = some v) :
    d ≠ '\\' ∧ d ≠ apostrophe ∧ ¬ d.toNat < 0x20 := by
  have hrange := Hex.toNat_of_value? h
  refine ⟨?_, ?_, by omega⟩
  · rintro rfl
    exact absurd hrange (by decide)
  · rintro rfl
    exact absurd hrange (by decide)

theorem Normalized.digits {ds cs out : List Char} (hds : ∀ d ∈ ds, ∃ v, Hex.value? d = some v)
    (h : Normalized cs out) : Normalized (ds ++ cs) (ds ++ out) := by
  induction ds with
  | nil => exact h
  | cons d ds ih =>
    obtain ⟨⟨v, hv⟩, hrest⟩ := List.forall_mem_cons.1 hds
    obtain ⟨hb, -, hc⟩ := plain_of_value? hv
    exact .plain hb hc (ih hrest)

theorem Normalized.exists_digits {ds cs out : List Char}
    (hds : ∀ d ∈ ds, ∃ v, Hex.value? d = some v) (h : Normalized cs (ds ++ out)) :
    ∃ rest, cs = ds ++ rest ∧ Normalized rest out := by
  induction ds generalizing cs with
  | nil => exact ⟨cs, rfl, h⟩
  | cons d ds ih =>
    obtain ⟨⟨v, hv⟩, hlater⟩ := List.forall_mem_cons.1 hds
    obtain ⟨hb, ha, -⟩ := plain_of_value? hv
    rcases h.exists_plain hb with ⟨cs', rfl, hcs'⟩ | ⟨hd, -⟩
    · obtain ⟨rest, rfl, hrest⟩ := ih hlater hcs'
      exact ⟨rest, rfl, hrest⟩
    · exact absurd hd ha

/-! ### From the source to JSON -/

/-- A lenient form becomes a strict one of the same character, whatever follows. -/
theorem exists_strict_form {source : List Char} {c : Char} (h : Quoted.Form false source c) :
    ∃ source', Quoted.Form true source' c ∧
      ∀ cs out, Normalized cs out → Normalized (source ++ cs) (source' ++ out) := by
  cases h with
  | plain hq hb hc =>
    by_cases hcontrol : c.toNat < 0x20
    · exact ⟨_, Quoted.form_escapeControl hcontrol, fun cs out h => .control hcontrol h⟩
    · exact ⟨[c], .plain hq hb fun _ => Nat.not_lt.1 hcontrol, fun cs out h => .plain hb hcontrol h⟩
  | apostrophe =>
    exact ⟨['\x27'], .plain (by decide) (by decide) (by decide), fun cs out h => .apostrophe h⟩
  | @short d _ hd =>
    have ha : ∀ p ∈ Quoted.shortForms, p.1 ≠ apostrophe := by decide
    exact ⟨['\\', d], .short hd, fun cs out h => .escape (ha _ hd) h⟩
  | unit hcode hn =>
    exact ⟨_, .unit hcode hn, fun cs out h => .escape (by decide) (h.digits hcode.digits)⟩
  | pair hcode hcode' hhigh hlow =>
    refine ⟨_, .pair hcode hcode' hhigh hlow, fun cs out h => ?_⟩
    have hlater := Normalized.escape (c := 'u') (by decide) (h.digits hcode'.digits)
    simpa using Normalized.escape (c := 'u') (by decide) (hlater.digits hcode.digits)

theorem Normalized.of_denotes {source text : List Char} (h : Quoted.Denotes false source text) :
    ∃ out, Normalized source out ∧ Quoted.Denotes true out text := by
  induction h with
  | nil => exact ⟨[], .nil, .nil⟩
  | cons hform _ ih =>
    obtain ⟨out, hout, hdenotes⟩ := ih
    obtain ⟨source', hform', hsource'⟩ := exists_strict_form hform
    exact ⟨source' ++ out, hsource' _ _ hout, .cons hform' hdenotes⟩

/-! ### From JSON back to the source -/

/-- An escape with a code stood in the source, or a control character did. -/
theorem Normalized.exists_code {ds cs out : List Char} {n : Nat} (hcode : Quoted.Code ds n)
    (h : Normalized cs ('\\' :: 'u' :: (ds ++ out))) :
    (∃ rest, cs = '\\' :: 'u' :: (ds ++ rest) ∧ Normalized rest out) ∨
      ∃ c rest, cs = c :: rest ∧ c.toNat < 0x20 ∧ n = c.toNat ∧ Normalized rest out := by
  rcases h.exists_escape with ⟨cs', rfl, hcs'⟩ | ⟨c, rest, out', rfl, hc, hout, hrest⟩
  · obtain ⟨rest, rfl, hrest⟩ := hcs'.exists_digits hcode.digits
    exact .inl ⟨rest, rfl, hrest⟩
  · -- the four digits are those of the control character
    have hcode' := Quoted.code_escapeControl hc
    obtain ⟨rfl, rfl⟩ := List.append_inj (List.cons.inj (List.cons.inj hout).2).2
      (hcode.length.trans hcode'.length.symm)
    exact .inr ⟨c, rest, rfl, hc, Option.some.inj (hcode.number.symm.trans hcode'.number), hrest⟩

/-- A strict form in the result comes from a lenient one of the same character. -/
theorem Normalized.exists_form {source cs out : List Char} {c : Char}
    (hform : Quoted.Form true source c) (h : Normalized cs (source ++ out)) :
    ∃ source' rest, cs = source' ++ rest ∧ Quoted.Form false source' c ∧ Normalized rest out := by
  cases hform with
  | plain hq hb hc =>
    rcases h.exists_plain hb with ⟨rest, rfl, hrest⟩ | ⟨rfl, rest, rfl, hrest⟩
    · exact ⟨[c], rest, rfl, .plain hq hb nofun, hrest⟩
    · exact ⟨['\\', Literal.apostrophe], rest, rfl, .apostrophe rfl, hrest⟩
  | apostrophe hstrict => cases hstrict
  | @short d _ hd =>
    rcases h.exists_escape with ⟨rest, rfl, hrest⟩ | ⟨e, rest, out', rfl, -, hout, -⟩
    · exact ⟨['\\', d], rest, rfl, .short hd, hrest⟩
    · -- the rewriting puts in no short escapes
      exact absurd (List.cons.inj (List.cons.inj hout).2).1 (Quoted.ne_u_of_mem_shortForms hd)
  | @unit ds n hcode hn =>
    rcases h.exists_code hcode with ⟨rest, rfl, hrest⟩ | ⟨e, rest, rfl, he, rfl, hrest⟩
    · exact ⟨_, rest, rfl, .unit hcode hn, hrest⟩
    · refine ⟨[e], rest, rfl, ?_, hrest⟩
      rw [Char.ofNat_toNat]
      refine .plain ?_ ?_ nofun
      · rintro rfl
        exact absurd he (by decide)
      · rintro rfl
        exact absurd he (by decide)
  | @pair ds es high low hcode hcode' hhigh hlow =>
    -- neither half is a control character
    rw [List.cons_append, List.cons_append, List.append_assoc] at h
    rcases h.exists_code hcode with ⟨rest, rfl, hrest⟩ | ⟨e, rest, rfl, he, rfl, hrest⟩
    · rcases hrest.exists_code hcode' with ⟨rest', rfl, hrest'⟩ | ⟨e, rest, rfl, he, rfl, hrest⟩
      · exact ⟨_, rest', by simp, .pair hcode hcode' hhigh hlow, hrest'⟩
      · omega
    · omega

theorem Normalized.denotes {cs out text : List Char} (h : Normalized cs out)
    (hout : Quoted.Denotes true out text) : Quoted.Denotes false cs text := by
  induction hout generalizing cs with
  | nil =>
    cases h with
    | nil => exact .nil
  | cons hform _ ih =>
    obtain ⟨source', rest, rfl, hform', hrest⟩ := h.exists_form hform
    exact .cons hform' (ih hrest)

/-- The rewriting makes a strict text of exactly the lenient ones, and keeps what they
denote. -/
theorem denotes_normalize_iff {cs text : List Char} :
    Quoted.Denotes true (normalize cs) text ↔ Quoted.Denotes false cs text := by
  constructor
  · exact (normalize_eq_iff.1 rfl).denotes
  · intro h
    obtain ⟨out, hout, hdenotes⟩ := Normalized.of_denotes h
    rwa [normalize_eq_iff.2 hout]

theorem decode?_normalize_iff {cs chars : List Char} :
    Quoted.decode? (normalize cs) = some chars ↔ Quoted.Denotes false cs chars :=
  Quoted.decode?_eq_some_iff.trans denotes_normalize_iff

/-! ### Values in quotes -/

theorem ofQuoted?_eq_some_iff {cs : List Char} {v : Literal} :
    ofQuoted? cs = some v ↔
      ∃ inner chars, cs = inner ++ ['"'] ∧ Quoted.Denotes false inner chars ∧
        v = text (String.ofList chars) := by
  unfold ofQuoted?
  split
  · rename_i inner hcs
    obtain rfl : cs = inner.reverse ++ ['"'] := by simpa using congrArg List.reverse hcs
    rw [Option.map_eq_some_iff]
    constructor
    · rintro ⟨chars, hchars, rfl⟩
      exact ⟨inner.reverse, chars, rfl, decode?_normalize_iff.1 hchars, rfl⟩
    · rintro ⟨inner', chars, hinner, hdenotes, rfl⟩
      rw [List.append_cancel_right hinner]
      exact ⟨chars, decode?_normalize_iff.2 hdenotes, rfl⟩
  · -- the last character is no quote
    rename_i hne
    refine iff_of_false nofun ?_
    rintro ⟨inner, chars, rfl, -⟩
    exact hne inner.reverse (by simp)

theorem ofRaw?_quoted {raw : String} {cs : List Char} (h : raw.toList = '"' :: cs) :
    ofRaw? raw = ofQuoted? cs := by
  rw [ofRaw?, h]
  rfl

/-- A value that starts with a quote is read as a text exactly if a quote ends it and what
stands between the two denotes that text, leniently and from left to right; otherwise it
is refused.  The rewriting on the way makes no other text valid, and decodes as before
what was valid already. -/
theorem read_quoted_iff_denotes :
    (∀ raw : String, raw.toList.head? = some '"' →
      (∀ x : String, read raw = .ok (text x) ↔
        ∃ inner, raw.toList = '"' :: (inner ++ ['"']) ∧ Quoted.Denotes false inner x.toList) ∧
      ((∀ x, read raw ≠ .ok (text x)) → read raw = .error (.refused raw none (.literal raw)))) ∧
    ∀ inner chars,
      (Quoted.decode? (normalize inner) = some chars ↔ Quoted.Denotes false inner chars) ∧
      (Quoted.decode? inner = some chars → Quoted.decode? (normalize inner) = some chars) := by
  refine ⟨fun raw hraw => ?_, fun inner chars => ⟨decode?_normalize_iff, fun h => ?_⟩⟩
  · obtain ⟨cs, hcs⟩ : ∃ cs, raw.toList = '"' :: cs := List.head?_eq_some_iff.1 hraw
    have hread : ∀ v, read raw = .ok v ↔ ofQuoted? cs = some v := by
      intro v
      rw [read, ofRaw?_quoted hcs]
      cases ofQuoted? cs <;> simp
    refine ⟨fun x => ?_, fun hnone => ?_⟩
    · rw [hread, ofQuoted?_eq_some_iff, hcs]
      constructor
      · rintro ⟨inner, chars, rfl, hdenotes, hx⟩
        refine ⟨inner, rfl, ?_⟩
        rwa [text.inj hx, String.toList_ofList]
      · rintro ⟨inner, hinner, hdenotes⟩
        exact ⟨inner, x.toList, (List.cons.inj hinner).2, hdenotes, by rw [String.ofList_toList]⟩
    · rcases hquoted : ofQuoted? cs with - | v
      · rw [read, ofRaw?_quoted hcs, hquoted]
        rfl
      · obtain ⟨inner, chars, -, -, rfl⟩ := ofQuoted?_eq_some_iff.1 hquoted
        exact absurd ((hread _).2 hquoted) (hnone _)
  · exact decode?_normalize_iff.2 (Quoted.decode?_eq_some_iff.1 h).lenient

/-- An escaped apostrophe, a raw tab, a surrogate pair and a backslash before the quote. -/
theorem read_quoted_mixed :
    read "\"O\\'B\t\\uD83D\\ude00\\\\\"" = .ok (text "O'B\t😀\\") ∧
      (∃ inner, "\"O\\'B\t\\uD83D\\ude00\\\\\"".toList = '"' :: (inner ++ ['"']) ∧
        Quoted.Denotes false inner "O'B\t😀\\".toList) ∧
      read "\"\\uD83D\t\"" = .error (.ofLiteral "\"\\uD83D\t\"") := by
  have hread : read "\"O\\'B\t\\uD83D\\ude00\\\\\"" = .ok (text "O'B\t😀\\") := rfl
  refine ⟨hread, ((read_quoted_iff_denotes.1 _ rfl).1 _).1 hread, ?_⟩
  exact (read_quoted_iff_denotes.1 _ rfl).2 nofun

end ScimQuery.Literal
