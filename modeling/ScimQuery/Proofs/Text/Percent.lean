/-
ScimQuery/Proofs/Text/Percent.lean

Percent-encoded text.  Every octet that is escaped comes back as itself, and
no escape is mistaken for a `+`, so reading undoes writing octet by octet.

Main results: the octets of an encoded text are the text's UTF-8 form
(`octets_encode`), both readers give the text back (`decodeLossy_encode`), and
an encoded text has only unreserved characters and percent signs
(`mem_encode`), so nothing that separates parameters is in it.
-/
import ScimQuery.Proofs.Text.Utf8
import ScimQuery.Text.Octets

namespace ScimQuery.Text.Percent

/-! ### Characters of encoded text -/

theorem isUnreserved_upper : ∀ n < 16, isUnreserved (Hex.upper n) = true := by decide

theorem mem_escape {o : UInt8} {c : Char} (h : c ∈ escape o) : isUnreserved c = true ∨ c = '%' := by
  have ho : o.toNat < 256 := o.toNat_lt
  simp only [escape, List.mem_cons, List.not_mem_nil, or_false] at h
  rcases h with rfl | rfl | rfl
  · exact .inr rfl
  · exact .inl (isUnreserved_upper _ (by omega))
  · exact .inl (isUnreserved_upper _ (by omega))

theorem mem_encodeChar {c d : Char} (h : d ∈ encodeChar c) : isUnreserved d = true ∨ d = '%' := by
  unfold encodeChar at h
  split at h
  · rename_i hc
    obtain rfl := List.mem_singleton.1 h
    exact .inl hc
  · obtain ⟨o, -, ho⟩ := List.mem_flatMap.1 h
    exact mem_escape ho

/-- Encoded text is made of unreserved characters and percent signs. -/
theorem mem_encode {cs : List Char} {d : Char} (h : d ∈ encode cs) :
    isUnreserved d = true ∨ d = '%' := by
  obtain ⟨c, -, hc⟩ := List.mem_flatMap.1 h
  exact mem_encodeChar hc

theorem not_mem_encode {d : Char} (hd : isUnreserved d = false) (hpercent : d ≠ '%')
    (cs : List Char) : d ∉ encode cs := by
  intro hmem
  rcases mem_encode hmem with h | h
  · rw [hd] at h
    cases h
  · exact hpercent h

/-- Unreserved text travels as it is. -/
theorem encode_of_unreserved {cs : List Char} (h : ∀ c ∈ cs, isUnreserved c = true) :
    encode cs = cs := by
  induction cs with
  | nil => rfl
  | cons c cs ih =>
    obtain ⟨hc, hcs⟩ := List.forall_mem_cons.1 h
    have hcons : encode (c :: cs) = encodeChar c ++ encode cs := rfl
    rw [hcons, ih hcs, encodeChar, if_pos hc, List.singleton_append]

/-! ### Reading encoded text -/

theorem plusToSpace_encode (cs : List Char) : plusToSpace (encode cs) = encode cs := by
  have hplus : ∀ c ∈ encode cs, (if c = '+' then ' ' else c) = c := by
    intro c hc
    apply if_neg
    rintro rfl
    exact not_mem_encode rfl (by decide) cs hc
  rw [plusToSpace, List.map_congr_left hplus, List.map_id']

theorem octetsFrom_escape (o : UInt8) (acc : List UInt8) (rest : List Char) :
    octetsFrom acc (escape o ++ rest) = octetsFrom (o :: acc) rest := by
  have ho : o.toNat < 256 := o.toNat_lt
  have hhigh := Hex.value?_upper (o.toNat / 16) (by omega)
  have hlow := Hex.value?_upper (o.toNat % 16) (by omega)
  have hoctet : (16 * (o.toNat / 16) + o.toNat % 16).toUInt8 = o := Utf8.toUInt8_eq (by omega)
  rw [escape, List.cons_append, List.cons_append, List.singleton_append, octetsFrom, hhigh, hlow]
  simp only [hoctet]

theorem octetsFrom_escapes (os acc : List UInt8) (rest : List Char) :
    octetsFrom acc (os.flatMap escape ++ rest) = octetsFrom (os.reverse ++ acc) rest := by
  induction os generalizing acc with
  | nil => rfl
  | cons o os ih =>
    rw [List.flatMap_cons, List.append_assoc, octetsFrom_escape, ih]
    simp

theorem octetsFrom_plain {c : Char} (h : c ≠ '%') (acc : List UInt8) (rest : List Char) :
    octetsFrom acc (c :: rest) = octetsFrom ((Utf8.encodeChar c).reverse ++ acc) rest := by
  rw [octetsFrom]
  intro a b rest' hc
  exact absurd hc h

theorem octetsFrom_encodeChar (c : Char) (acc : List UInt8) (rest : List Char) :
    octetsFrom acc (encodeChar c ++ rest) =
      octetsFrom ((Utf8.encodeChar c).reverse ++ acc) rest := by
  unfold encodeChar
  split
  · rename_i hc
    have hne : c ≠ '%' := by
      rintro rfl
      cases hc
    exact octetsFrom_plain hne acc rest
  · exact octetsFrom_escapes _ acc rest

theorem octetsFrom_encode (cs : List Char) (acc : List UInt8) :
    octetsFrom acc (encode cs) = acc.reverse ++ Utf8.encode cs := by
  induction cs generalizing acc with
  | nil => simp [encode, Utf8.encode, octetsFrom]
  | cons c cs ih =>
    have hcons : encode (c :: cs) = encodeChar c ++ encode cs := rfl
    rw [hcons, octetsFrom_encodeChar, ih]
    simp [Utf8.encode]

/-- The octets of an encoded text are the UTF-8 form of the text. -/
theorem octets_encode (cs : List Char) : octets (encode cs) = Utf8.encode cs := by
  rw [octets, plusToSpace_encode]
  exact octetsFrom_encode cs []

/-- Encoded text is read back. -/
theorem decodeLossy_encode (cs : List Char) : decodeLossy (encode cs) = cs := by
  rw [decodeLossy, octets_encode, Utf8.decodeLossy_encode]

end ScimQuery.Text.Percent
