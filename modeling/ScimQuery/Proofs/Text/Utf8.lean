/-
ScimQuery/Proofs/Text/Utf8.lean

Octets and the texts they spell.  The reading machine takes the octets of a
character back to that character (`nextChar?_encodeChar`), and finds a character
in no other octets (`eq_encodeChar_of_nextChar?`): overlong forms, surrogates and
code points above the last one are refused on the way.

Main results: octets are read as a text exactly when they are its UTF-8 form
(`decode_eq_ok_iff`), and the reader that replaces refused octets gives the same
text for them (`decodeLossy_encode`).
-/
import ScimQuery.Text.Octets

namespace ScimQuery.Text.Utf8

/-! ### One character -/

/-- The character that the octets go on with, and the octets after it. -/
def nextChar? : Option Begun → List UInt8 → Option (Char × List UInt8)
  | _, [] => none
  | state, o :: os =>
    match feed state o.toNat with
    | .char c => some (c, os)
    | .more b => nextChar? (some b) os
    | .refused => none

/-- The last octet of a character. -/
theorem nextChar?_last_iff {low high taken value : Nat} {os rest : List UInt8} {c : Char} :
    nextChar? (some ⟨1, low, high, taken, value⟩) os = some (c, rest) ↔
      ∃ o, os = o :: rest ∧ (low ≤ o.toNat ∧ o.toNat ≤ high) ∧
        c = Char.ofNat (value * 64 + (o.toNat - 0x80)) := by
  rcases os with - | ⟨o, os⟩
  · simp [nextChar?]
  · by_cases h : o.toNat < low ∨ high < o.toNat
    · simp only [nextChar?, feed, Begun.feed, if_pos h]
      constructor
      · intro hnone
        cases hnone
      · rintro ⟨o', hos, hin, -⟩
        obtain ⟨rfl, -⟩ := List.cons.inj hos
        omega
    · have hin : low ≤ o.toNat ∧ o.toNat ≤ high := by omega
      simp only [nextChar?, feed, Begun.feed, if_neg h, if_true, Option.some.injEq, Prod.mk.injEq,
        List.cons.injEq]
      constructor
      · rintro ⟨hc, rfl⟩
        exact ⟨o, ⟨rfl, rfl⟩, hin, hc.symm⟩
      · rintro ⟨_, ⟨rfl, rfl⟩, -, hc⟩
        exact ⟨hc.symm, rfl⟩

/-- An octet of a character that others follow. -/
theorem nextChar?_more_iff {owed low high taken value : Nat} {os rest : List UInt8} {c : Char} :
    nextChar? (some ⟨owed + 2, low, high, taken, value⟩) os = some (c, rest) ↔
      ∃ o os', os = o :: os' ∧ (low ≤ o.toNat ∧ o.toNat ≤ high) ∧
        nextChar? (some ⟨owed + 1, 0x80, 0xBF, taken + 1, value * 64 + (o.toNat - 0x80)⟩) os' =
          some (c, rest) := by
  have howed : ¬ owed + 2 = 1 := by omega
  rcases os with - | ⟨o, os⟩
  · simp [nextChar?]
  · by_cases h : o.toNat < low ∨ high < o.toNat
    · simp only [nextChar?, feed, Begun.feed, if_pos h]
      constructor
      · intro hnone
        cases hnone
      · rintro ⟨o', os', hos, hin, -⟩
        obtain ⟨rfl, -⟩ := List.cons.inj hos
        omega
    · simp only [nextChar?, feed, Begun.feed, if_neg h, if_neg howed]
      constructor
      · intro hc
        exact ⟨o, os, rfl, by omega, hc⟩
      · rintro ⟨_, _, hos, -, hc⟩
        obtain ⟨rfl, rfl⟩ := List.cons.inj hos
        exact hc

theorem lead_one {n : Nat} (h : n < 0x80) : lead n = .char (Char.ofNat n) := by
  unfold lead
  rw [if_pos h]

theorem lead_two {n : Nat} (hlow : 0xC2 ≤ n) (hhigh : n < 0xE0) :
    lead n = .more ⟨1, 0x80, 0xBF, 1, n - 0xC0⟩ := by
  unfold lead
  rw [if_neg (by omega), if_neg (by omega), if_pos hhigh]

theorem lead_three {n : Nat} (hlow : 0xE0 ≤ n) (hhigh : n < 0xF0) :
    lead n = .more ⟨2, if n = 0xE0 then 0xA0 else 0x80, if n = 0xED then 0x9F else 0xBF, 1,
      n - 0xE0⟩ := by
  unfold lead
  rw [if_neg (by omega), if_neg (by omega), if_neg (by omega), if_pos hhigh]

theorem lead_four {n : Nat} (hlow : 0xF0 ≤ n) (hhigh : n < 0xF5) :
    lead n = .more ⟨3, if n = 0xF0 then 0x90 else 0x80, if n = 0xF4 then 0x8F else 0xBF, 1,
      n - 0xF0⟩ := by
  unfold lead
  rw [if_neg (by omega), if_neg (by omega), if_neg (by omega), if_neg (by omega), if_pos hhigh]

theorem lead_of_gap {n : Nat} (h : 0x80 ≤ n ∧ n < 0xC2 ∨ 0xF5 ≤ n) : lead n = .refused := by
  unfold lead
  split
  · omega
  split
  · rfl
  rw [if_neg (by omega), if_neg (by omega), if_neg (by omega)]

theorem toNat_ofNat {n : Nat} (h : n.isValidChar) : (Char.ofNat n).toNat = n := by
  have hchar : Char.ofNat n = Char.ofNatAux n h := dif_pos h
  rw [hchar]
  rfl

theorem toNat_toUInt8 {n : Nat} (h : n < 256) : n.toUInt8.toNat = n :=
  UInt8.toNat_ofNat_of_lt' h

theorem toUInt8_eq {n : Nat} {o : UInt8} (h : n = o.toNat) : n.toUInt8 = o := by
  subst h
  exact UInt8.ofNat_toNat

/-- The octets of a character are read as that character. -/
theorem nextChar?_encodeChar (c : Char) (os : List UInt8) :
    nextChar? none (encodeChar c ++ os) = some (c, os) := by
  have hvalid : c.toNat < 0xD800 ∨ 0xDFFF < c.toNat ∧ c.toNat < 0x110000 := c.valid
  unfold encodeChar
  generalize hn : c.toNat = n at hvalid
  have hchar : ∀ {m : Nat}, m = n → c = Char.ofNat m := by
    rintro m rfl
    rw [← hn, Char.ofNat_toNat]
  simp only
  split
  · rename_i hlt
    have ho : n.toUInt8.toNat = n := toNat_toUInt8 (by omega)
    rw [List.singleton_append, nextChar?, feed, ho, lead_one hlt, ← hchar rfl]
  split
  · have h₁ : (0xC0 + n / 64).toUInt8.toNat = 0xC0 + n / 64 := toNat_toUInt8 (by omega)
    have h₂ : (0x80 + n % 64).toUInt8.toNat = 0x80 + n % 64 := toNat_toUInt8 (by omega)
    rw [List.cons_append, nextChar?, feed, h₁, lead_two (by omega) (by omega)]
    exact nextChar?_last_iff.2 ⟨_, rfl, by omega, hchar (by omega)⟩
  split
  · have h₁ : (0xE0 + n / 4096).toUInt8.toNat = 0xE0 + n / 4096 := toNat_toUInt8 (by omega)
    have h₂ : (0x80 + n / 64 % 64).toUInt8.toNat = 0x80 + n / 64 % 64 :=
      toNat_toUInt8 (by omega)
    have h₃ : (0x80 + n % 64).toUInt8.toNat = 0x80 + n % 64 := toNat_toUInt8 (by omega)
    rw [List.cons_append, nextChar?, feed, h₁, lead_three (by omega) (by omega)]
    refine nextChar?_more_iff.2 ⟨_, _, rfl, ?_, ?_⟩
    · rw [h₂]
      constructor <;> split <;> omega
    · exact nextChar?_last_iff.2 ⟨_, rfl, by omega, hchar (by omega)⟩
  · have h₁ : (0xF0 + n / 262144).toUInt8.toNat = 0xF0 + n / 262144 := toNat_toUInt8 (by omega)
    have h₂ : (0x80 + n / 4096 % 64).toUInt8.toNat = 0x80 + n / 4096 % 64 :=
      toNat_toUInt8 (by omega)
    have h₃ : (0x80 + n / 64 % 64).toUInt8.toNat = 0x80 + n / 64 % 64 :=
      toNat_toUInt8 (by omega)
    have h₄ : (0x80 + n % 64).toUInt8.toNat = 0x80 + n % 64 := toNat_toUInt8 (by omega)
    rw [List.cons_append, nextChar?, feed, h₁, lead_four (by omega) (by omega)]
    refine nextChar?_more_iff.2 ⟨_, _, rfl, ?_, nextChar?_more_iff.2 ⟨_, _, rfl, by omega, ?_⟩⟩
    · rw [h₂]
      constructor <;> split <;> omega
    · exact nextChar?_last_iff.2 ⟨_, rfl, by omega, hchar (by omega)⟩

/-- No other octets are read as a character. -/
theorem eq_encodeChar_of_nextChar? {os rest : List UInt8} {c : Char}
    (h : nextChar? none os = some (c, rest)) : os = encodeChar c ++ rest := by
  rcases os with - | ⟨o, os⟩
  · cases h
  have ho : o.toNat < 256 := o.toNat_lt
  rw [nextChar?, feed] at h
  by_cases h₁ : o.toNat < 0x80
  · rw [lead_one h₁] at h
    simp only [Option.some.injEq, Prod.mk.injEq] at h
    obtain ⟨rfl, rfl⟩ := h
    rw [encodeChar, toNat_ofNat (.inl (by omega)), if_pos h₁, toUInt8_eq rfl, List.singleton_append]
  by_cases hgap : o.toNat < 0xC2 ∨ 0xF5 ≤ o.toNat
  · rw [lead_of_gap (by omega)] at h
    cases h
  by_cases h₂ : o.toNat < 0xE0
  · have hlow : 0xC2 ≤ o.toNat := by omega
    rw [lead_two hlow h₂] at h
    obtain ⟨p, rfl, hp, hc⟩ := nextChar?_last_iff.1 h
    rw [hc, encodeChar, toNat_ofNat (.inl (by omega)), if_neg (by omega), if_pos (by omega),
      toUInt8_eq (o := o) (by omega), toUInt8_eq (o := p) (by omega)]
    rfl
  by_cases h₃ : o.toNat < 0xF0
  · have hlow : 0xE0 ≤ o.toNat := by omega
    rw [lead_three hlow h₃] at h
    obtain ⟨p, os, rfl, hp, h⟩ := nextChar?_more_iff.1 h
    obtain ⟨q, rfl, hq, hc⟩ := nextChar?_last_iff.1 h
    -- no overlong form and no surrogate
    have hlow' : o.toNat = 0xE0 → 0xA0 ≤ p.toNat := by
      intro heq
      simpa [heq] using hp.1
    have hhigh' : o.toNat = 0xED → p.toNat ≤ 0x9F := by
      intro heq
      simpa [heq] using hp.2
    have hp' : 0x80 ≤ p.toNat ∧ p.toNat ≤ 0xBF := by
      split at hp <;> split at hp <;> omega
    have hvalid : Nat.isValidChar (((o.toNat - 0xE0) * 64 + (p.toNat - 0x80)) * 64 +
        (q.toNat - 0x80)) := by
      unfold Nat.isValidChar
      omega
    rw [hc, encodeChar, toNat_ofNat hvalid, if_neg (by omega), if_neg (by omega),
      if_pos (by omega), toUInt8_eq (o := o) (by omega), toUInt8_eq (o := p) (by omega),
      toUInt8_eq (o := q) (by omega)]
    rfl
  · have hlow : 0xF0 ≤ o.toNat := by omega
    rw [lead_four hlow (by omega)] at h
    obtain ⟨p, os, rfl, hp, h⟩ := nextChar?_more_iff.1 h
    obtain ⟨q, os, rfl, hq, h⟩ := nextChar?_more_iff.1 h
    obtain ⟨r, rfl, hr, hc⟩ := nextChar?_last_iff.1 h
    have hlow' : o.toNat = 0xF0 → 0x90 ≤ p.toNat := by
      intro heq
      simpa [heq] using hp.1
    have hhigh' : o.toNat = 0xF4 → p.toNat ≤ 0x8F := by
      intro heq
      simpa [heq] using hp.2
    have hp' : 0x80 ≤ p.toNat ∧ p.toNat ≤ 0xBF := by
      split at hp <;> split at hp <;> omega
    have hvalid : Nat.isValidChar ((((o.toNat - 0xF0) * 64 + (p.toNat - 0x80)) * 64 +
        (q.toNat - 0x80)) * 64 + (r.toNat - 0x80)) := by
      unfold Nat.isValidChar
      omega
    rw [hc, encodeChar, toNat_ofNat hvalid, if_neg (by omega), if_neg (by omega),
      if_neg (by omega), toUInt8_eq (o := o) (by omega), toUInt8_eq (o := p) (by omega),
      toUInt8_eq (o := q) (by omega), toUInt8_eq (o := r) (by omega)]
    rfl

/-! ### Texts -/

theorem decodeFrom_of_nextChar? {state : Option Begun} {os rest : List UInt8} {c : Char}
    (h : nextChar? state os = some (c, rest)) (index : Nat) (acc : List Char) :
    ∃ index', decodeFrom index acc state os = decodeFrom index' (c :: acc) none rest := by
  induction os generalizing state index with
  | nil => cases h
  | cons o os ih =>
    rw [nextChar?] at h
    rw [decodeFrom]
    rcases hfeed : feed state o.toNat with d | b | -
    · rw [hfeed] at h
      obtain ⟨rfl, rfl⟩ := Prod.mk.inj (Option.some.inj h)
      exact ⟨index + 1, rfl⟩
    · rw [hfeed] at h
      exact ih h (index + 1)
    · rw [hfeed] at h
      cases h

/-- Octets that are read as a text go on with a character. -/
theorem exists_nextChar? {state : Option Begun} {o : UInt8} {os : List UInt8} {index : Nat}
    {acc cs : List Char} (h : decodeFrom index acc state (o :: os) = .ok cs) :
    ∃ c rest, nextChar? state (o :: os) = some (c, rest) := by
  induction os generalizing state o index with
  | nil =>
    rw [decodeFrom] at h
    rw [nextChar?]
    rcases hfeed : feed state o.toNat with d | b | -
    · exact ⟨d, [], rfl⟩
    · rw [hfeed] at h
      cases h
    · rw [hfeed] at h
      cases h
  | cons o' os ih =>
    rw [decodeFrom] at h
    rw [nextChar?]
    rcases hfeed : feed state o.toNat with d | b | -
    · exact ⟨d, o' :: os, rfl⟩
    · rw [hfeed] at h
      exact ih h
    · rw [hfeed] at h
      cases h

theorem decodeFrom_encode (cs : List Char) (index : Nat) (acc : List Char) :
    decodeFrom index acc none (encode cs) = .ok (acc.reverse ++ cs) := by
  induction cs generalizing index acc with
  | nil => simp [encode, decodeFrom]
  | cons c cs ih =>
    have hcons : encode (c :: cs) = encodeChar c ++ encode cs := rfl
    obtain ⟨index', hindex⟩ :=
      decodeFrom_of_nextChar? (nextChar?_encodeChar c (encode cs)) index acc
    rw [hcons, hindex, ih]
    simp

theorem encodeChar_ne_nil (c : Char) : encodeChar c ≠ [] := by
  unfold encodeChar
  simp only
  repeat' split
  all_goals exact List.cons_ne_nil _ _

theorem exists_encode_of_decodeFrom {os : List UInt8} {index : Nat} {acc cs : List Char}
    (h : decodeFrom index acc none os = .ok cs) :
    ∃ ds, os = encode ds ∧ cs = acc.reverse ++ ds := by
  -- each character takes at least one octet
  induction hlen : os.length using Nat.strongRecOn generalizing os index acc with
  | ind n ih =>
    rcases os with - | ⟨o, os⟩
    · obtain rfl := Except.ok.inj h
      exact ⟨[], rfl, (List.append_nil _).symm⟩
    · obtain ⟨c, rest, hnext⟩ := exists_nextChar? h
      have hos := eq_encodeChar_of_nextChar? hnext
      obtain ⟨index', hindex⟩ := decodeFrom_of_nextChar? hnext index acc
      have hpos := List.length_pos_iff.2 (encodeChar_ne_nil c)
      have hlt : rest.length < n := by
        rw [← hlen, hos, List.length_append]
        omega
      obtain ⟨ds, rfl, rfl⟩ := ih rest.length hlt (hindex.symm.trans h) rfl
      exact ⟨c :: ds, hos, by simp⟩

/-- Octets are read as a text exactly when they are its UTF-8 form. -/
theorem decode_eq_ok_iff {os : List UInt8} {cs : List Char} :
    decode os = .ok cs ↔ os = encode cs := by
  constructor
  · intro h
    obtain ⟨ds, hos, rfl⟩ := exists_encode_of_decodeFrom h
    exact hos
  · rintro rfl
    exact decodeFrom_encode cs 0 []

theorem decodeLossyFrom_of_decodeFrom {state : Option Begun} {os : List UInt8} {index : Nat}
    {acc cs : List Char} (h : decodeFrom index acc state os = .ok cs) :
    decodeLossyFrom acc state os = cs := by
  induction os generalizing state index acc with
  | nil =>
    rcases state with - | b
    · exact Except.ok.inj h
    · cases h
  | cons o os ih =>
    rw [decodeFrom] at h
    rcases state with - | b
    · rw [decodeLossyFrom]
      rcases hfeed : lead o.toNat with d | b | -
      · simp only [feed, hfeed] at h
        exact ih h
      · simp only [feed, hfeed] at h
        exact ih h
      · simp only [feed, hfeed] at h
        cases h
    · rw [decodeLossyFrom]
      rcases hfeed : b.feed o.toNat with d | b' | -
      · simp only [feed, hfeed] at h
        exact ih h
      · simp only [feed, hfeed] at h
        exact ih h
      · simp only [feed, hfeed] at h
        cases h

/-- Where nothing has to be replaced, both readers give the same text. -/
theorem decodeLossy_encode (cs : List Char) : decodeLossy (encode cs) = cs :=
  decodeLossyFrom_of_decodeFrom (decodeFrom_encode cs 0 [])

end ScimQuery.Text.Utf8
