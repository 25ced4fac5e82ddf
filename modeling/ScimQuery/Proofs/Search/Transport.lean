/-
ScimQuery/Proofs/Search/Transport.lean

A filter as the only parameter of a query string.  There are two readers of it:
`Filter.parseEncoded` takes the value by itself and refuses octets that are not
UTF-8, `Search.ofQuery` takes the whole query string and decodes its parameters
as a form does.

Main results: on a value whose octets are UTF-8 the two readers give the same
answer, faults included (`ofQuery_filter_of_utf8`), and on any other value the
first refuses and the second reads the text with replacement characters in it
(`ofQuery_filter`, `parseEncoded_of_not_utf8`).  So the readers agree on a value
exactly when it is UTF-8 or its replaced text is no filter
(`ofQuery_filter_agrees_iff`).
-/
import ScimQuery.Proofs.Search.Query

namespace ScimQuery

/-- The octets that a query value stands for are UTF-8. -/
def Text.Percent.IsUtf8 (cs : List Char) : Prop := ∃ text, octets cs = Utf8.encode text

namespace Search

/-- A request with nothing but a filter. -/
def ofFilter (e : Expr) : Search := { filter := some e }

/-! ### The two readers -/

/-- The value of the only parameter is read after form decoding. -/
theorem ofQuery_filter {v : String} (h : '&' ∉ v.toList) :
    ofQuery ("filter=" ++ v) = ofFilter <$> Filter.parse (decodeForm v.toList) := by
  have hkey : IsKey "filter" := List.all_eq_true.1 (by decide)
  have hchars : ("filter=" ++ v).toList.dropWhile (· == '?') =
      "filter".toList ++ '=' :: v.toList := by
    rw [String.toList_append]
    rfl
  rw [ofQuery_eq, hchars, pairs_single hkey h, setParameters_single, setParameter, if_pos rfl]
  cases Filter.parse (decodeForm v.toList) <;> rfl

theorem parseEncoded_of_utf8 {v : String} (h : Text.Percent.IsUtf8 v.toList) :
    Filter.parseEncoded v = Filter.parse (decodeForm v.toList) := by
  obtain ⟨text, htext⟩ := h
  have hstrict : Text.Percent.decode v.toList = .ok text := Text.Utf8.decode_eq_ok_iff.2 htext
  have hlossy : Text.Percent.decodeLossy v.toList = text := by
    rw [Text.Percent.decodeLossy, htext, Text.Utf8.decodeLossy_encode]
  rw [Filter.parseEncoded, Filter.decode, hstrict, decodeForm, hlossy]
  rfl

/-- Octets that are not UTF-8 are the fault, whatever filter they could stand for. -/
theorem parseEncoded_of_not_utf8 {v : String} (h : ¬ Text.Percent.IsUtf8 v.toList) :
    ∃ fault, Filter.parseEncoded v = .error (.encoding (.octets v fault)) := by
  rcases hdecode : Text.Percent.decode v.toList with fault | text
  · refine ⟨fault, ?_⟩
    rw [Filter.parseEncoded, Filter.decode, hdecode]
    rfl
  · exact absurd ⟨text, Text.Utf8.decode_eq_ok_iff.1 hdecode⟩ h

/-- The same answer, faults included. -/
theorem ofQuery_filter_of_utf8 {v : String} (hamp : '&' ∉ v.toList)
    (hutf8 : Text.Percent.IsUtf8 v.toList) :
    ofQuery ("filter=" ++ v) = ofFilter <$> Filter.parseEncoded v := by
  rw [ofQuery_filter hamp, parseEncoded_of_utf8 hutf8]

theorem map_eq_ok_iff {ε α β : Type} {f : α → β} {x : Except ε α} {b : β} :
    f <$> x = .ok b ↔ ∃ a, x = .ok a ∧ b = f a := by
  constructor
  · intro h
    cases x with
    | error fault => cases h
    | ok a => exact ⟨a, rfl, (Except.ok.inj h).symm⟩
  · rintro ⟨a, rfl, rfl⟩
    rfl

/-! ### Where they agree -/

/-- The two readers agree on a value without `&` exactly when its octets are UTF-8 or
the text with replacement characters is no filter.  Where they are UTF-8, the faults
agree too; where they are not, only one reader says so. -/
theorem ofQuery_filter_agrees_iff {v : String} (h : '&' ∉ v.toList) :
    ((∀ r, ofQuery ("filter=" ++ v) = .ok r ↔
          ∃ e, Filter.parseEncoded v = .ok e ∧ r = ofFilter e) ↔
        Text.Percent.IsUtf8 v.toList ∨ ∀ e, Filter.parse (decodeForm v.toList) ≠ .ok e) ∧
      (Text.Percent.IsUtf8 v.toList →
        ofQuery ("filter=" ++ v) = ofFilter <$> Filter.parseEncoded v) ∧
      (¬ Text.Percent.IsUtf8 v.toList →
        (∃ fault, Filter.parseEncoded v = .error (.encoding (.octets v fault))) ∧
          ofQuery ("filter=" ++ v) = ofFilter <$> Filter.parse (decodeForm v.toList)) := by
  refine ⟨?_, ofQuery_filter_of_utf8 h, fun hnot =>
    ⟨parseEncoded_of_not_utf8 hnot, ofQuery_filter h⟩⟩
  by_cases hutf8 : Text.Percent.IsUtf8 v.toList
  · refine iff_of_true ?_ (.inl hutf8)
    intro r
    rw [ofQuery_filter_of_utf8 h hutf8]
    exact map_eq_ok_iff
  · -- the first reader gives no filter, so the second must give none either
    obtain ⟨fault, hfault⟩ := parseEncoded_of_not_utf8 hutf8
    rw [ofQuery_filter h, hfault]
    constructor
    · intro hagree
      refine .inr fun e he => ?_
      obtain ⟨e', he', -⟩ := (hagree (ofFilter e)).1 (map_eq_ok_iff.2 ⟨e, he, rfl⟩)
      cases he'
    · rintro (hyes | hnone) r
      · exact absurd hyes hutf8
      · constructor
        · intro hr
          obtain ⟨e, he, -⟩ := map_eq_ok_iff.1 hr
          exact absurd he (hnone e)
        · rintro ⟨e, he, -⟩
          cases he

/-- An octet that starts no character: one reader refuses it, the other reads a filter
with a replacement character in it. -/
theorem not_ofQuery_filter_agrees_replaced :
    Filter.parseEncoded "title%20eq%20%22%FF%22" =
        .error (.encoding (.octets "title%20eq%20%22%FF%22" (.invalid 1 10))) ∧
      ofQuery ("filter=" ++ "title%20eq%20%22%FF%22") =
        .ok (ofFilter (.comparison ⟨none, "title", none⟩ .eq (.text "\ufffd"))) ∧
      ¬ ∀ r, ofQuery ("filter=" ++ "title%20eq%20%22%FF%22") = .ok r ↔
        ∃ e, Filter.parseEncoded "title%20eq%20%22%FF%22" = .ok e ∧ r = ofFilter e := by
  have hfault : Filter.parseEncoded "title%20eq%20%22%FF%22" =
      .error (.encoding (.octets "title%20eq%20%22%FF%22" (.invalid 1 10))) := rfl
  have hread : Filter.parse (decodeForm "title%20eq%20%22%FF%22".toList) =
      .ok (.comparison ⟨none, "title", none⟩ .eq (.text "\ufffd")) := rfl
  have hutf8 : ¬ Text.Percent.IsUtf8 "title%20eq%20%22%FF%22".toList := by
    intro hutf8
    rw [parseEncoded_of_utf8 hutf8, hread] at hfault
    cases hfault
  obtain ⟨hiff, -, hnot⟩ := ofQuery_filter_agrees_iff (v := "title%20eq%20%22%FF%22") (by decide)
  refine ⟨hfault, ?_, ?_⟩
  · rw [(hnot hutf8).2, hread]
    rfl
  · rw [hiff]
    rintro (hyes | hnone)
    · exact hutf8 hyes
    · exact hnone _ hread

end Search

end ScimQuery
