/-
ScimQuery/Proofs/Filter/Encoding.lean

Filter text as a query value.  What is sent is a row of unreserved characters and
escaped octets (`Escaped`), so nothing in it has a meaning in a query string.  Forms
also write a blank as `+`; `Respaced` says that some of the escaped blanks are
written so.  A plus sign of the text itself is escaped, so both spellings of a blank
can be mixed and the text is still read back.

Main result: `decode_encode_respaced`.
-/
import ScimQuery.Filter
import ScimQuery.Proofs.Text.Percent

namespace ScimQuery

namespace Text.Percent

/-! ### Escaped text -/

/-- The digits of escapes. -/
def escapeDigits : List Char := "0123456789ABCDEF".toList

/-- Every character is unreserved or belongs to an escape. -/
inductive Escaped : List Char → Prop
  | nil : Escaped []
  | plain {c cs} : isUnreserved c = true → Escaped cs → Escaped (c :: cs)
  | octet {a b cs} :
      a ∈ escapeDigits → b ∈ escapeDigits → Escaped cs → Escaped ('%' :: a :: b :: cs)

theorem upper_mem_escapeDigits : ∀ n < 16, Hex.upper n ∈ escapeDigits := by decide

theorem value?_escapeDigits : ∀ c ∈ escapeDigits, ∃ n, Hex.value? c = some n := by
  intro c hc
  have hsome : ∀ c ∈ escapeDigits, (Hex.value? c).isSome = true :=
    List.all_eq_true.1 (by decide)
  exact Option.isSome_iff_exists.1 (hsome c hc)

theorem ne_of_mem_escapeDigits {c : Char} (h : c ∈ escapeDigits) : c ≠ '%' ∧ c ≠ '+' := by
  constructor
  · rintro rfl
    exact absurd h (by decide)
  · rintro rfl
    exact absurd h (by decide)

theorem Escaped.append {cs ds : List Char} (hcs : Escaped cs) (hds : Escaped ds) :
    Escaped (cs ++ ds) := by
  induction hcs with
  | nil => exact hds
  | plain hc _ ih => exact .plain hc ih
  | octet ha hb _ ih => exact .octet ha hb ih

theorem escaped_escapes (os : List UInt8) : Escaped (os.flatMap escape) := by
  induction os with
  | nil => exact .nil
  | cons o os ih =>
    have ho : o.toNat < 256 := o.toNat_lt
    rw [List.flatMap_cons]
    exact .octet (upper_mem_escapeDigits _ (by omega)) (upper_mem_escapeDigits _ (by omega)) ih

theorem escaped_encodeChar (c : Char) : Escaped (encodeChar c) := by
  unfold encodeChar
  split
  · rename_i hc
    exact .plain hc .nil
  · exact escaped_escapes _

theorem escaped_encode (cs : List Char) : Escaped (encode cs) := by
  induction cs with
  | nil => exact .nil
  | cons c cs ih => exact (escaped_encodeChar c).append ih

/-! ### The two spellings of a blank -/

/-- The second text is the first one with `+` for some of its escaped blanks. -/
inductive Respaced : List Char → List Char → Prop
  | nil : Respaced [] []
  | keep {c cs ds} : Respaced cs ds → Respaced (c :: cs) (c :: ds)
  | plus {cs ds} : Respaced cs ds → Respaced ('%' :: '2' :: '0' :: cs) ('+' :: ds)

theorem respaced_refl (cs : List Char) : Respaced cs cs := by
  induction cs with
  | nil => exact .nil
  | cons c cs ih => exact .keep ih

theorem plusToSpace_cons {c : Char} (h : c ≠ '+') (cs : List Char) :
    plusToSpace (c :: cs) = c :: plusToSpace cs := by
  rw [plusToSpace, List.map_cons, if_neg h]
  rfl

theorem octetsFrom_octet {a b : Char} (ha : a ∈ escapeDigits) (hb : b ∈ escapeDigits) :
    ∃ o : UInt8, ∀ acc rest, octetsFrom acc ('%' :: a :: b :: rest) = octetsFrom (o :: acc) rest := by
  obtain ⟨x, hx⟩ := value?_escapeDigits a ha
  obtain ⟨y, hy⟩ := value?_escapeDigits b hb
  refine ⟨(16 * x + y).toUInt8, fun acc rest => ?_⟩
  rw [octetsFrom, hx, hy]

/-- The octets do not depend on how the blanks are spelled. -/
theorem octetsFrom_respaced {cs ds : List Char} (h : Escaped cs) (hspaced : Respaced cs ds)
    (acc : List UInt8) : octetsFrom acc (plusToSpace ds) = octetsFrom acc cs := by
  induction h generalizing ds acc with
  | nil =>
    cases hspaced
    rfl
  | @plain c cs hc _ ih =>
    have hpercent : c ≠ '%' := by
      rintro rfl
      cases hc
    have hplus : c ≠ '+' := by
      rintro rfl
      cases hc
    cases hspaced with
    | keep hrest =>
      rw [plusToSpace_cons hplus, octetsFrom_plain hpercent, octetsFrom_plain hpercent, ih hrest]
    | plus _ => exact absurd rfl hpercent
  | @octet a b cs ha hb _ ih =>
    cases hspaced with
    | plus hrest =>
      -- the blank itself, and its escape
      show octetsFrom acc (' ' :: plusToSpace _) = _
      rw [octetsFrom_plain (by decide), ih hrest]
      rfl
    | keep htail =>
      cases htail with
      | plus _ => exact absurd rfl (ne_of_mem_escapeDigits ha).1
      | keep htail =>
        cases htail with
        | plus _ => exact absurd rfl (ne_of_mem_escapeDigits hb).1
        | keep hrest =>
          obtain ⟨o, ho⟩ := octetsFrom_octet ha hb
          have hkept := plusToSpace_cons (ne_of_mem_escapeDigits ha).2
          have hkept' := plusToSpace_cons (ne_of_mem_escapeDigits hb).2
          rw [plusToSpace_cons (by decide), hkept, hkept', ho, ho, ih hrest]

end Text.Percent

namespace Filter

open Text Text.Percent

theorem toList_encode (s : String) : (encode s).toList = Percent.encode s.toList :=
  String.toList_ofList

theorem decode_of_respaced {s t : String} (h : Respaced (encode s).toList t.toList) :
    decode t = .ok s := by
  rw [toList_encode] at h
  have hoctets : octets t.toList = Utf8.encode s.toList := by
    rw [octets, octetsFrom_respaced (escaped_encode _) h, octetsFrom_encode]
    rfl
  have hread : Percent.decode t.toList = .ok s.toList := by
    rw [Percent.decode, hoctets]
    exact Utf8.decode_eq_ok_iff.2 rfl
  rw [decode, hread]
  exact congrArg Except.ok String.ofList_toList

/-- A text is sent as unreserved characters and escapes, without any character that
separates the parts of a query string or means a blank there.  It is read back, also
when some of its escaped blanks arrive as `+`. -/
theorem decode_encode_respaced (s : String) :
    Escaped (encode s).toList ∧
      (∀ c ∈ [' ', '+', '&', '=', '#', '?'], c ∉ (encode s).toList) ∧
      decode (encode s) = .ok s ∧
      ∀ t : String, Respaced (encode s).toList t.toList → decode t = .ok s := by
  refine ⟨?_, ?_, decode_of_respaced (respaced_refl _), fun t ht => decode_of_respaced ht⟩
  · rw [toList_encode]
    exact escaped_encode s.toList
  · have hreserved : ∀ c ∈ [' ', '+', '&', '=', '#', '?'],
        (!isUnreserved c && c != '%') = true := List.all_eq_true.1 (by decide)
    intro c hc
    obtain ⟨hc, hpercent⟩ := Bool.and_eq_true_iff.1 (hreserved c hc)
    rw [toList_encode]
    exact not_mem_encode (by simpa using hc) (bne_iff_ne.1 hpercent) s.toList

/-- A plus sign and a percent sign of the text, and blanks in both spellings. -/
theorem decode_mixed_blanks :
    Respaced (encode "a+ 100% ü").toList "a%2B+100%25%20%C3%BC".toList ∧
      decode "a%2B+100%25%20%C3%BC" = .ok "a+ 100% ü" := by
  have hsent : encode "a+ 100% ü" = "a%2B%20100%25%20%C3%BC" := by decide
  have hspaced : Respaced (encode "a+ 100% ü").toList "a%2B+100%25%20%C3%BC".toList := by
    rw [hsent]
    exact .keep (.keep (.keep (.keep (.plus (respaced_refl _)))))
  exact ⟨hspaced, (decode_encode_respaced "a+ 100% ü").2.2.2 _ hspaced⟩

end Filter

end ScimQuery
