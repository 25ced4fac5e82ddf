/-
ScimQuery/Proofs/Literal/ReadBack.lean

Comparison values survive being written and read.  Written text is escaped so
that between its quotes there is no bare quote, no control character and no
escaped apostrophe; normalizing leaves it alone and reading undoes the escapes.
A finite number is written in digits that read back to it.

Main results: a value that has a spelling is read back from it
(`ofRaw?_render`), and its spelling is a single token (`scans_render`).
-/
import ScimQuery.Literal.Basic
import ScimQuery.Proofs.Attribute.Path

namespace ScimQuery

namespace Json.Quoted

open ScimQuery.Text

/-! ### Escapes of single characters -/

/-- A character stands for itself, or a backslash and a letter stand for it, or
an escape with its code. -/
theorem encodeChar_cases (c : Char) :
    (encodeChar c = [c] ∧ c ≠ '"' ∧ c ≠ '\\' ∧ ¬ c.toNat < 0x20) ∨
      (∃ d, encodeChar c = ['\\', d] ∧ shortEscape? d = some c ∧ d ≠ Literal.apostrophe ∧ d ≠ 'u') ∨
      (encodeChar c = escapeControl c ∧ c.toNat < 0x20) := by
  unfold encodeChar
  by_cases h₁ : c = '"'
  · subst h₁
    exact .inr (.inl ⟨'"', by decide⟩)
  by_cases h₂ : c = '\\'
  · subst h₂
    exact .inr (.inl ⟨'\\', by decide⟩)
  by_cases h₃ : c = '\n'
  · subst h₃
    exact .inr (.inl ⟨'n', by decide⟩)
  by_cases h₄ : c = '\r'
  · subst h₄
    exact .inr (.inl ⟨'r', by decide⟩)
  by_cases h₅ : c = '\t'
  · subst h₅
    exact .inr (.inl ⟨'t', by decide⟩)
  by_cases h₆ : c = '\x08'
  · subst h₆
    exact .inr (.inl ⟨'b', by decide⟩)
  by_cases h₇ : c = '\x0c'
  · subst h₇
    exact .inr (.inl ⟨'f', by decide⟩)
  simp only [h₁, h₂, h₃, h₄, h₅, h₆, h₇, if_false]
  by_cases h : c.toNat < 0x20
  · exact .inr (.inr ⟨if_pos h, h⟩)
  · exact .inl ⟨if_neg h, h₁, h₂, h⟩

/-- Reading an escape with a character's code. -/
theorem readFrom_escapeControl {c : Char} (h : c.toNat < 0x20) (acc rest : List Char) :
    readFrom true .plain acc (escapeControl c ++ rest) = readFrom true .plain (c :: acc) rest := by
  -- thirty-two codes, each of four digits that are no surrogate
  have hall : ∀ n < 0x20,
      (Hex.lower (n / 16 % 16)).utf8Size = 1 ∧ (Hex.lower (n % 16)).utf8Size = 1 ∧
      Hex.number? ['0', '0', Hex.lower (n / 16 % 16), Hex.lower (n % 16)] = some n ∧
      isHigh n = false ∧ isLow n = false := by decide
  obtain ⟨h₁, h₂, h₃, h₄, h₅⟩ := hall c.toNat h
  have h0 : ('0' : Char).utf8Size = 1 := rfl
  simp [escapeControl, readFrom, Stage.move, unitMove, h0, h₁, h₂, h₃, h₄, h₅, Char.ofNat_toNat]

/-- Reading an encoded character gives the character. -/
theorem readFrom_encodeChar (c : Char) (acc rest : List Char) :
    readFrom true .plain acc (encodeChar c ++ rest) = readFrom true .plain (c :: acc) rest := by
  rcases encodeChar_cases c with ⟨he, hq, hb, hc⟩ | ⟨d, he, hd, -, hu⟩ | ⟨he, hc⟩
  · simp [he, readFrom, Stage.move, hq, hb, hc]
  · simp [he, readFrom, Stage.move, hd, hu]
  · rw [he, readFrom_escapeControl hc]

theorem readFrom_encode (cs acc rest : List Char) :
    readFrom true .plain acc (encode cs ++ rest) =
      readFrom true .plain (cs.reverse ++ acc) rest := by
  induction cs generalizing acc with
  | nil => rfl
  | cons c cs ih =>
    have hcons : encode (c :: cs) = encodeChar c ++ encode cs := rfl
    rw [hcons, List.append_assoc, readFrom_encodeChar, ih]
    simp

/-- Encoded text is decoded to itself. -/
theorem decode?_encode (cs : List Char) : decode? (encode cs) = some cs := by
  have hread : read (encode cs ++ ['"']) = .ok (cs, []) := by
    rw [read, readFrom_encode]
    simp [readFrom, Stage.move]
  unfold decode?
  rw [hread]

/-! ### Between the quotes -/

theorem body_encodeChar (c : Char) : Scan.Body (encodeChar c) := by
  have hhex : ∀ n < 0x20, (Hex.lower (n / 16 % 16) ≠ '"' ∧ Hex.lower (n / 16 % 16) ≠ '\\') ∧
      Hex.lower (n % 16) ≠ '"' ∧ Hex.lower (n % 16) ≠ '\\' := by decide
  rcases encodeChar_cases c with ⟨he, hq, hb, -⟩ | ⟨d, he, -⟩ | ⟨he, hc⟩
  · rw [he]
    exact .plain hq hb .nil
  · rw [he]
    exact .escape .nil
  · -- the backslash takes the `u` along, and the digits are plain
    obtain ⟨⟨h₁, h₂⟩, h₃, h₄⟩ := hhex c.toNat hc
    rw [he]
    exact .escape (.plain (by decide) (by decide) (.plain (by decide) (by decide)
      (.plain h₁ h₂ (.plain h₃ h₄ .nil))))

theorem body_encode (cs : List Char) : Scan.Body (encode cs) := by
  induction cs with
  | nil => exact .nil
  | cons c cs ih => exact (body_encodeChar c).append ih

end Json.Quoted

namespace Literal

open ScimQuery.Json

theorem normalizeFrom_escape {c : Char} (h : c ≠ apostrophe) (acc rest : List Char) :
    normalizeFrom acc ('\\' :: c :: rest) = normalizeFrom (c :: '\\' :: acc) rest := by
  rw [normalizeFrom, if_neg h]

theorem normalizeFrom_plain {c : Char} (hb : c ≠ '\\') (hc : ¬ c.toNat < 0x20)
    (acc rest : List Char) : normalizeFrom acc (c :: rest) = normalizeFrom (c :: acc) rest := by
  rw [normalizeFrom, if_neg hc]
  intro d rest' h
  exact absurd h hb

theorem normalizeFrom_encodeChar (c : Char) (acc rest : List Char) :
    normalizeFrom acc (Quoted.encodeChar c ++ rest) =
      normalizeFrom ((Quoted.encodeChar c).reverse ++ acc) rest := by
  rcases Quoted.encodeChar_cases c with ⟨he, -, hb, hc⟩ | ⟨d, he, -, hd, -⟩ | ⟨he, hc⟩
  · rw [he]
    exact normalizeFrom_plain hb hc acc rest
  · rw [he]
    exact normalizeFrom_escape hd acc rest
  · have hhex : ∀ n < 0x20,
        (Text.Hex.lower (n / 16 % 16) ≠ '\\' ∧ ¬ (Text.Hex.lower (n / 16 % 16)).toNat < 0x20) ∧
        Text.Hex.lower (n % 16) ≠ '\\' ∧ ¬ (Text.Hex.lower (n % 16)).toNat < 0x20 := by decide
    obtain ⟨⟨h₁, h₂⟩, h₃, h₄⟩ := hhex c.toNat hc
    rw [he]
    simp only [Quoted.escapeControl, List.cons_append, List.nil_append]
    rw [normalizeFrom_escape (by decide), normalizeFrom_plain (by decide) (by decide),
      normalizeFrom_plain (by decide) (by decide), normalizeFrom_plain h₁ h₂,
      normalizeFrom_plain h₃ h₄]
    rfl

theorem normalizeFrom_encode (cs acc : List Char) :
    normalizeFrom acc (Quoted.encode cs) = acc.reverse ++ Quoted.encode cs := by
  induction cs generalizing acc with
  | nil => simp [Quoted.encode, normalizeFrom]
  | cons c cs ih =>
    have hcons : Quoted.encode (c :: cs) = Quoted.encodeChar c ++ Quoted.encode cs := rfl
    rw [hcons, normalizeFrom_encodeChar, ih]
    simp

/-- Encoded text is in JSON's form already. -/
theorem normalize_encode (cs : List Char) : normalize (Quoted.encode cs) = Quoted.encode cs :=
  normalizeFrom_encode cs []

theorem ofRaw?_write (s : String) : ofRaw? (Quoted.write s) = some (text s) := by
  have hchars : (Quoted.write s).toList = '"' :: (Quoted.encode s.toList ++ ['"']) := by
    simp [Quoted.write, String.toList_append]
  have hread : ofQuoted? (Quoted.encode s.toList ++ ['"']) = some (text s) := by
    simp [ofQuoted?, normalize_encode, Quoted.decode?_encode, String.ofList_toList]
  rw [ofRaw?, hchars]
  exact hread

end Literal

namespace Decimal

/-! ### Digits -/

theorem isDigit_toDigits (n : Nat) : ∀ c ∈ Nat.toDigits 10 n, c.isDigit = true :=
  fun _ hc => Nat.isDigit_of_mem_toDigits (by decide) (by decide) hc

theorem isDigit_padded (places n : Nat) : ∀ c ∈ padded places n, c.isDigit = true := by
  intro c hc
  rcases List.mem_append.1 hc with hc | hc
  · rw [(List.mem_replicate.1 hc).2]
    rfl
  · exact isDigit_toDigits n c hc

theorem length_padded {places n : Nat} (h : n < Nat.pow 10 (places + 1)) :
    (padded (places + 1) n).length = places + 1 := by
  have hlen : (Nat.toDigits 10 n).length ≤ places + 1 :=
    (Nat.length_toDigits_le_iff (by decide) (Nat.succ_pos places)).2 h
  simp only [padded, List.length_append, List.length_replicate]
  omega

theorem ofDigitChars_padded (places n init : Nat) :
    Nat.ofDigitChars 10 (padded places n) init =
      Nat.pow 10 (padded places n).length * init + n := by
  rw [Nat.ofDigitChars_eq_ofDigitChars_zero]
  simp [padded, Nat.ofDigitChars_append]

theorem span_digits {ds rest : List Char} (hds : ∀ c ∈ ds, c.isDigit = true)
    (hrest : ∀ c, rest.head? = some c → c.isDigit = false) :
    (ds ++ rest).takeWhile Char.isDigit = ds ∧ (ds ++ rest).dropWhile Char.isDigit = rest := by
  rw [List.takeWhile_append_of_pos hds, List.dropWhile_append_of_pos hds]
  rcases rest with - | ⟨c, rest⟩
  · simp
  · have hc : ¬ c.isDigit = true := by simpa using hrest c rfl
    rw [List.takeWhile_cons_of_neg hc, List.dropWhile_cons_of_neg hc]
    simp

theorem span_all_digits {ds : List Char} (hds : ∀ c ∈ ds, c.isDigit = true) :
    ds.takeWhile Char.isDigit = ds ∧ ds.dropWhile Char.isDigit = [] := by
  have hnil : ∀ c, ([] : List Char).head? = some c → c.isDigit = false := nofun
  simpa using span_digits hds hnil

theorem read?_toDigits (n : Nat) : read? (Nat.toDigits 10 n) = some ⟨n, 0⟩ := by
  obtain ⟨htake, hdrop⟩ := span_all_digits (isDigit_toDigits n)
  simp [read?, htake, hdrop, cutFraction]

theorem read?_point (q : Nat) {r k : Nat} (h : r < Nat.pow 10 (k + 1)) :
    read? (Nat.toDigits 10 q ++ '.' :: padded (k + 1) r) =
      some ⟨Nat.pow 10 (k + 1) * q + r, .negSucc k⟩ := by
  have hpoint : ∀ c, ('.' :: padded (k + 1) r).head? = some c → c.isDigit = false := by
    intro c hc
    obtain rfl := Option.some.inj hc
    rfl
  obtain ⟨htake, hdrop⟩ := span_digits (isDigit_toDigits q) hpoint
  obtain ⟨htake', hdrop'⟩ := span_all_digits (isDigit_padded (k + 1) r)
  have hvalue : Nat.ofDigitChars 10 (Nat.toDigits 10 q ++ padded (k + 1) r) 0 =
      Nat.pow 10 (k + 1) * q + r := by
    rw [Nat.ofDigitChars_append, ofDigitChars_padded, length_padded h,
      Nat.ofDigitChars_ten_toDigits]
  have hwhole : (Nat.toDigits 10 q).isEmpty = false :=
    List.isEmpty_eq_false_iff.2 Nat.toDigits_ne_nil
  have hexponent : (0 : Int) - ((k + 1 : Nat) : Int) = .negSucc k := by omega
  simp only [read?, htake, hdrop, cutFraction, htake', hdrop', hvalue, length_padded h, hwhole,
    Bool.false_and, Bool.false_eq_true, if_false, Option.map_some, hexponent]

theorem text_negSucc (coefficient k : Nat) :
    (⟨coefficient, .negSucc k⟩ : Decimal).text =
      Nat.toDigits 10 (coefficient / Nat.pow 10 (k + 1)) ++
        '.' :: padded (k + 1) (coefficient % Nat.pow 10 (k + 1)) := rfl

/-- Positional notation is read as a decimal of the same value. -/
theorem read?_text (d : Decimal) : ∃ d', read? d.text = some d' ∧ d'.ratio = d.ratio := by
  obtain ⟨coefficient, exponent⟩ := d
  cases exponent with
  | ofNat k =>
    -- the zeros at the end are read as part of the coefficient
    refine ⟨⟨coefficient * Nat.pow 10 k, 0⟩, read?_toDigits _, ?_⟩
    simp [ratio]
  | negSucc k =>
    have hpos : 0 < Nat.pow 10 (k + 1) := Nat.pow_pos (by decide)
    refine ⟨⟨coefficient, .negSucc k⟩, ?_, rfl⟩
    rw [text_negSucc, read?_point _ (Nat.mod_lt coefficient hpos), Nat.div_add_mod]

theorem text_eq_cons (d : Decimal) : ∃ c rest, d.text = c :: rest ∧ c.isDigit = true := by
  have hne : ∀ n, ∃ c rest, Nat.toDigits 10 n = c :: rest ∧ c.isDigit = true := by
    intro n
    rcases hn : Nat.toDigits 10 n with - | ⟨c, rest⟩
    · exact absurd hn Nat.toDigits_ne_nil
    · exact ⟨c, rest, rfl, isDigit_toDigits n c (by rw [hn]; exact List.mem_cons_self)⟩
  obtain ⟨coefficient, exponent⟩ := d
  cases exponent with
  | ofNat k => exact hne _
  | negSucc k =>
    obtain ⟨c, rest, hc, hdigit⟩ := hne (coefficient / Nat.pow 10 (k + 1))
    refine ⟨c, rest ++ '.' :: padded (k + 1) (coefficient % Nat.pow 10 (k + 1)), ?_, hdigit⟩
    rw [text_negSucc, hc]
    rfl

/-- The characters of positional notation. -/
theorem mem_text {d : Decimal} {c : Char} (h : c ∈ d.text) : c.isDigit = true ∨ c = '.' := by
  obtain ⟨coefficient, exponent⟩ := d
  cases exponent with
  | ofNat k => exact .inl (isDigit_toDigits _ c h)
  | negSucc k =>
    rcases List.mem_append.1 h with h | h
    · exact .inl (isDigit_toDigits _ c h)
    · rcases List.mem_cons.1 h with h | h
      · exact .inr h
      · exact .inl (isDigit_padded _ _ c h)

end Decimal

namespace Literal

/-! ### Numbers -/

/-- The value has a spelling of its own: it is no number, or a finite one. -/
def isFinite : Literal → Bool
  | number x => x.isFinite
  | _ => true

/-- What is made of a decimal after its sign. -/
theorem ofNumber?_minus {cs : List Char} {d : Decimal} {x : Binary64}
    (hd : Decimal.read? cs = some d) (hx : Binary64.ofDecimal true d = x)
    (h : x.isFinite = true) : ofNumber? ('-' :: cs) = some (number x) := by
  show ((Decimal.read? cs).bind fun d =>
    if (Binary64.ofDecimal true d).isFinite then some (number (Binary64.ofDecimal true d))
    else none) = _
  rw [hd, Option.bind_some, hx, if_pos h]

theorem ofNumber?_digit {c : Char} {cs : List Char} {d : Decimal} {x : Binary64}
    (hc : c.isDigit = true) (hd : Decimal.read? (c :: cs) = some d)
    (hx : Binary64.ofDecimal false d = x) (h : x.isFinite = true) :
    ofNumber? (c :: cs) = some (number x) := by
  unfold ofNumber?
  split
  · rename_i negative digits hsign
    split at hsign
    · rename_i hcs
      obtain ⟨rfl, -⟩ := List.cons.inj hcs
      cases hc
    · rename_i hcs
      obtain ⟨rfl, -⟩ := List.cons.inj hcs
      cases hc
    · obtain ⟨rfl, rfl⟩ := Prod.mk.inj hsign
      rw [hd, Option.bind_some, hx]
      exact if_pos h

/-- A sign and digits are read as the number nearest to them. -/
theorem ofNumber?_text (negative : Bool) (d : Decimal) {x : Binary64}
    (hx : Binary64.ofDecimal negative d = x) (h : x.isFinite = true) :
    ofNumber? ((if negative then ['-'] else []) ++ d.text) = some (number x) := by
  obtain ⟨d', hread, hratio⟩ := d.read?_text
  -- rounding sees the ratio only
  have hx' : Binary64.ofDecimal negative d' = x := by
    rw [Binary64.ofDecimal, hratio]
    exact hx
  cases negative with
  | true => exact ofNumber?_minus hread hx' h
  | false =>
    obtain ⟨c, rest, htext, hdigit⟩ := d.text_eq_cons
    rw [htext] at hread
    show ofNumber? d.text = _
    rw [htext]
    exact ofNumber?_digit hdigit hread hx' h

/-- The digits of a finite number are read as that number. -/
theorem ofNumber?_numberChars {x : Binary64} (h : x.isFinite = true) :
    ofNumber? (numberChars x) = some (number x) := by
  have hle : x.magnitude ≤ Binary64.infinity := Nat.le_of_lt (of_decide_eq_true h)
  exact ofNumber?_text x.negative _ (Binary64.ofDecimal_shortest hle) h

theorem numberChars_eq_cons (x : Binary64) :
    ∃ c rest, numberChars x = c :: rest ∧ (c = '-' ∨ c.isDigit = true) := by
  obtain ⟨c, rest, htext, hdigit⟩ := (Binary64.shortest x.magnitude).text_eq_cons
  unfold numberChars
  rw [htext]
  cases x.negative with
  | false => exact ⟨c, rest, rfl, .inr hdigit⟩
  | true => exact ⟨'-', c :: rest, rfl, .inl rfl⟩

theorem mem_numberChars {x : Binary64} {c : Char} (h : c ∈ numberChars x) :
    c.isDigit = true ∨ c = '.' ∨ c = '-' := by
  rcases List.mem_append.1 h with h | h
  · split at h
    · exact .inr (.inr (List.mem_singleton.1 h))
    · cases h
  · rcases Decimal.mem_text h with h | h
    · exact .inl h
    · exact .inr (.inl h)

/-! ### All values -/

/-- A value with a spelling is read back from it. -/
theorem ofRaw?_render {v : Literal} (h : v.isFinite = true) : ofRaw? v.render = some v := by
  cases v with
  | null => decide
  | bool b => cases b <;> decide
  | text s => exact ofRaw?_write s
  | number x =>
    have hfinite : x.isFinite = true := h
    obtain ⟨c, rest, hchars, hc⟩ := numberChars_eq_cons x
    -- a sign or a digit opens neither a string nor one of the three names
    have hne : ∀ d, d.isDigit = false → d ≠ '-' → c ≠ d := by
      rintro d hd hminus rfl
      rcases hc with hc | hc
      · exact hminus hc
      · rw [hd] at hc
        cases hc
    have hq := hne '"' rfl (by decide)
    have hn := hne 'n' rfl (by decide)
    have ht := hne 't' rfl (by decide)
    have hf := hne 'f' rfl (by decide)
    have hread := ofNumber?_numberChars hfinite
    rw [hchars] at hread
    simp only [ofRaw?, render, hfinite, if_true, String.toList_ofList, hchars]
    unfold ofChars?
    split
    · rename_i heq
      exact absurd (List.cons.inj heq).1 hq
    · rw [if_neg fun heq => hn (List.cons.inj heq).1, if_neg fun heq => ht (List.cons.inj heq).1,
        if_neg fun heq => hf (List.cons.inj heq).1]
      exact hread

/-- The token that a written value makes. -/
def token (v : Literal) : Token :=
  match v with
  | text _ => .quoted v.render
  | _ => .word v.render

open Scan in
theorem isWord_numberChars (x : Binary64) : IsWord (numberChars x) := by
  obtain ⟨c, rest, hchars, -⟩ := numberChars_eq_cons x
  refine ⟨by rw [hchars]; exact List.cons_ne_nil c rest, ?_⟩
  intro d hd
  rcases mem_numberChars hd with hd | rfl | rfl
  · exact Attribute.not_isDelimiter_of_isNameChar (by
      simp [Attribute.isNameChar, Char.isAlphanum, hd])
  · decide
  · decide

/-- A written value is a single token, whether it can be read back or not. -/
theorem scans_render (v : Literal) : Scan.Scans v.render.toList [v.token] := by
  have hnull : Scan.Scans "null".toList [.word "null"] := Scan.scans_word (by decide)
  cases v with
  | null => exact hnull
  | bool b =>
    cases b with
    | false => exact Scan.scans_word (w := "false") (by decide)
    | true => exact Scan.scans_word (w := "true") (by decide)
  | number x =>
    unfold token
    simp only [render]
    split
    · apply Scan.scans_word
      rw [String.toList_ofList]
      exact isWord_numberChars x
    · exact hnull
  | text s =>
    have hchars : (text s).render = String.ofList ('"' :: (Json.Quoted.encode s.toList ++ ['"'])) := by
      apply String.toList_inj.1
      simp [render, Json.Quoted.write, String.toList_append]
    unfold token
    rw [hchars, String.toList_ofList]
    exact Scan.scans_quoted (Json.Quoted.body_encode s.toList)

end Literal

end ScimQuery
