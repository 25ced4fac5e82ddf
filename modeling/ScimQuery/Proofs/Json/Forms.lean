/-
ScimQuery/Proofs/Json/Forms.lean

What may stand between two quotes.  A character of a text is written as itself or
by an escape; `Form strict source c` lists the ways, and `Denotes strict source
text` puts them one after the other.  Unless `strict`, there are two more of them:
control characters as they are, and an apostrophe after a backslash.

Reading goes through stages, one character of the source at a time; a form takes
it from the plain stage back to the plain stage.

Main results: reading accepts exactly the strict forms up to the closing quote
(`read_eq_ok_iff`), so a whole row of characters is decoded exactly to the text
that it denotes (`decode?_eq_some_iff`).
-/
import Mathlib.Data.List.Induction
import ScimQuery.Json.Basic

namespace ScimQuery

namespace Text.Hex

/-! ### Rows of digits -/

theorem number?_concat_eq_some {ds : List Char} {c : Char} {n : Nat}
    (h : number? (ds ++ [c]) = some n) :
    (∃ m, number? ds = some m) ∧ ∃ v, value? c = some v := by
  simp only [number?, List.foldl_append, List.foldl_cons, List.foldl_nil] at h
  obtain ⟨m, hm, hc⟩ := Option.bind_eq_some_iff.1 h
  obtain ⟨v, hv, -⟩ := Option.map_eq_some_iff.1 hc
  exact ⟨⟨m, hm⟩, v, hv⟩

theorem toNat_of_value? {c : Char} {v : Nat} (h : value? c = some v) :
    48 ≤ c.toNat ∧ c.toNat ≤ 57 ∨ 97 ≤ c.toNat ∧ c.toNat ≤ 102 ∨ 65 ≤ c.toNat ∧ c.toNat ≤ 70 := by
  have hrange : '0' ≤ c ∧ c ≤ '9' ∨ 'a' ≤ c ∧ c ≤ 'f' ∨ 'A' ≤ c ∧ c ≤ 'F' := by
    unfold value? at h
    grind
  exact hrange

/-- A digit is one octet. -/
theorem utf8Size_of_value? {c : Char} {v : Nat} (h : value? c = some v) : c.utf8Size = 1 := by
  have hrange := toNat_of_value? h
  rw [Char.utf8Size_eq_one_iff]
  show c.toNat ≤ 127
  omega

/-- A row with a value is a row of digits. -/
theorem value?_of_number? {ds : List Char} {n : Nat} (h : number? ds = some n) :
    ∀ c ∈ ds, ∃ v, value? c = some v := by
  induction ds using List.reverseRecOn generalizing n with
  | nil => exact nofun
  | append_singleton ds d ih =>
    obtain ⟨⟨m, hm⟩, hd⟩ := number?_concat_eq_some h
    intro c hc
    rcases List.mem_append.1 hc with hc | hc
    · exact ih hm c hc
    · obtain rfl := List.mem_singleton.1 hc
      exact hd

/-- Digits are counted by their octets. -/
theorem size_of_number? {ds : List Char} {n : Nat} (h : number? ds = some n) :
    ds.foldl (fun k d => k + d.utf8Size) 0 = ds.length := by
  induction ds using List.reverseRecOn generalizing n with
  | nil => rfl
  | append_singleton ds d ih =>
    obtain ⟨⟨m, hm⟩, v, hv⟩ := number?_concat_eq_some h
    simp [ih hm, utf8Size_of_value? hv]

end Text.Hex

namespace Json.Quoted

open ScimQuery.Text

/-! ### Forms -/

/-- The letters that may follow a backslash, each with what it stands for. -/
def shortForms : List (Char × Char) :=
  [('"', '"'), ('\\', '\\'), ('/', '/'), ('b', '\x08'), ('f', '\x0c'), ('n', '\n'), ('r', '\r'),
    ('t', '\t')]

/-- Four hexadecimal digits and their value. -/
structure Code (ds : List Char) (n : Nat) : Prop where
  length : ds.length = 4
  number : Hex.number? ds = some n

/-- The ways to write a character between quotes. -/
inductive Form (strict : Bool) : List Char → Char → Prop
  | plain {c} : c ≠ '"' → c ≠ '\\' → (strict = true → 0x20 ≤ c.toNat) → Form strict [c] c
  | apostrophe : strict = false → Form strict ['\\', '\x27'] '\x27'
  | short {d c} : (d, c) ∈ shortForms → Form strict ['\\', d] c
  | unit {ds n} : Code ds n → ¬ (0xD800 ≤ n ∧ n < 0xE000) →
      Form strict ('\\' :: 'u' :: ds) (Char.ofNat n)
  | pair {ds es high low} : Code ds high → Code es low → 0xD800 ≤ high ∧ high < 0xDC00 →
      0xDC00 ≤ low ∧ low < 0xE000 →
      Form strict ('\\' :: 'u' :: (ds ++ '\\' :: 'u' :: es))
        (Char.ofNat (0x10000 + (high - 0xD800) * 0x400 + (low - 0xDC00)))

/-- The source writes the characters of the text one after the other. -/
inductive Denotes (strict : Bool) : List Char → List Char → Prop
  | nil : Denotes strict [] []
  | cons {source c rest cs} : Form strict source c → Denotes strict rest cs →
      Denotes strict (source ++ rest) (c :: cs)

theorem shortEscape?_eq_some_iff {d c : Char} : shortEscape? d = some c ↔ (d, c) ∈ shortForms := by
  constructor
  · intro h
    unfold shortEscape? at h
    split at h
    · rename_i hd
      cases h
      rcases hd with rfl | rfl | rfl <;> decide
    · repeat' split at h
      all_goals cases h
      all_goals rename_i hd
      all_goals subst hd
      all_goals decide
  · have hall : ∀ p ∈ shortForms, shortEscape? p.1 = some p.2 := by decide
    exact hall (d, c)

theorem ne_u_of_mem_shortForms {d c : Char} (h : (d, c) ∈ shortForms) : d ≠ 'u' := by
  have hall : ∀ p ∈ shortForms, p.1 ≠ 'u' := by decide
  exact hall _ h

theorem Code.digits {ds : List Char} {n : Nat} (h : Code ds n) :
    ∀ d ∈ ds, ∃ v, Hex.value? d = some v := Hex.value?_of_number? h.number

theorem code_escapeControl {c : Char} (h : c.toNat < 0x20) :
    Code ['0', '0', Hex.lower (c.toNat / 16 % 16), Hex.lower (c.toNat % 16)] c.toNat := by
  have hall : ∀ n < 0x20,
      Hex.number? ['0', '0', Hex.lower (n / 16 % 16), Hex.lower (n % 16)] = some n := by decide
  exact ⟨rfl, hall c.toNat h⟩

theorem form_escapeControl {strict : Bool} {c : Char} (h : c.toNat < 0x20) :
    Form strict (escapeControl c) c := by
  have hform : Form strict (escapeControl c) (Char.ofNat c.toNat) :=
    .unit (code_escapeControl h) (by omega)
  rwa [Char.ofNat_toNat] at hform

theorem Form.ne_nil {strict : Bool} {source : List Char} {c : Char} (h : Form strict source c) :
    source ≠ [] := by
  cases h <;> exact List.cons_ne_nil _ _

theorem Form.lenient {source : List Char} {c : Char} (h : Form true source c) :
    Form false source c := by
  cases h with
  | plain hq hb _ => exact .plain hq hb nofun
  | apostrophe h => cases h
  | short hd => exact .short hd
  | unit hcode hn => exact .unit hcode hn
  | pair hcode hcode' hhigh hlow => exact .pair hcode hcode' hhigh hlow

/-- What a strict text denotes it denotes leniently. -/
theorem Denotes.lenient {source text : List Char} (h : Denotes true source text) :
    Denotes false source text := by
  induction h with
  | nil => exact .nil
  | cons hform _ ih => exact .cons hform.lenient ih

/-! ### One form is read -/

/-- Reading goes on after a move. -/
def follow (acc cs : List Char) : Move → Except Fault (List Char × List Char)
  | .go stage => readFrom true stage acc cs
  | .emit d => readFrom true .plain (d :: acc) cs
  | .close => .ok (acc.reverse, cs)
  | .refuse => .error .illFormed

theorem readFrom_cons (stage : Stage) (acc : List Char) (c : Char) (cs : List Char) :
    readFrom true stage acc (c :: cs) = follow acc cs (stage.move true c) := by
  rw [readFrom]
  cases stage.move true c <;> rfl

theorem readFrom_code {ds : List Char} {n : Nat} (h : Code ds n) (before : Option Nat)
    (acc rest : List Char) :
    readFrom true (.digits before []) acc (ds ++ rest) =
      follow acc rest (unitMove true before n) := by
  obtain ⟨a, b, c, d, rfl⟩ : ∃ a b c d, ds = [a, b, c, d] := by
    match ds, h.length with
    | [a, b, c, d], _ => exact ⟨a, b, c, d, rfl⟩
  have hsize : ∀ e ∈ [a, b, c, d], e.utf8Size = 1 := by
    intro e he
    obtain ⟨v, hv⟩ := h.digits e he
    exact Hex.utf8Size_of_value? hv
  have ha := hsize a (by simp)
  have hb := hsize b (by simp)
  have hc := hsize c (by simp)
  have hd := hsize d (by simp)
  simp [readFrom_cons, Stage.move, follow, ha, hb, hc, hd, h.number]

theorem unitMove_high {n : Nat} (h : 0xD800 ≤ n ∧ n < 0xDC00) :
    unitMove true none n = .go (.paired n) := by
  have hhigh : isHigh n = true := by simp [isHigh, h]
  simp [unitMove, hhigh]

theorem unitMove_none {n : Nat} (h : ¬ (0xD800 ≤ n ∧ n < 0xDC00)) :
    unitMove true none n =
      if 0xDC00 ≤ n ∧ n < 0xE000 then .refuse else .emit (Char.ofNat n) := by
  have hhigh : isHigh n = false := by
    simp only [isHigh, Bool.and_eq_false_iff, decide_eq_false_iff_not]
    omega
  simp [unitMove, hhigh, isLow]

theorem unitMove_some (high n : Nat) :
    unitMove true (some high) n =
      if 0xDC00 ≤ n ∧ n < 0xE000 then
        .emit (Char.ofNat (0x10000 + (high - 0xD800) * 0x400 + (n - 0xDC00)))
      else .refuse := by
  simp [unitMove, isLow]

theorem readFrom_unit {ds : List Char} {n : Nat} (h : Code ds n) (acc rest : List Char) :
    readFrom true .plain acc ('\\' :: 'u' :: (ds ++ rest)) =
      follow acc rest (unitMove true none n) :=
  readFrom_code h none acc rest

theorem readFrom_paired {ds : List Char} {n : Nat} (h : Code ds n) (high : Nat)
    (acc rest : List Char) :
    readFrom true (.paired high) acc ('\\' :: 'u' :: (ds ++ rest)) =
      follow acc rest (unitMove true (some high) n) :=
  readFrom_code h (some high) acc rest

/-- A form takes reading from the plain stage to the plain stage, one character
further. -/
theorem readFrom_form {source : List Char} {c : Char} (h : Form true source c)
    (acc rest : List Char) :
    readFrom true .plain acc (source ++ rest) = readFrom true .plain (c :: acc) rest := by
  cases h with
  | plain hq hb hc =>
    have hc := Nat.not_lt.2 (hc rfl)
    simp [readFrom_cons, Stage.move, hq, hb, hc, follow]
  | apostrophe h => cases h
  | @short d _ hd =>
    simp [readFrom_cons, Stage.move, follow, ne_u_of_mem_shortForms hd,
      shortEscape?_eq_some_iff.2 hd]
  | unit hcode hn =>
    refine (readFrom_unit hcode acc rest).trans ?_
    rw [unitMove_none (by omega), if_neg (by omega)]
    rfl
  | @pair ds es high low hcode hcode' hhigh hlow =>
    rw [List.cons_append, List.cons_append, List.append_assoc, readFrom_unit hcode,
      unitMove_high hhigh]
    refine (readFrom_paired hcode' high acc rest).trans ?_
    rw [unitMove_some, if_pos hlow]
    rfl

/-- So do the forms of a whole text. -/
theorem readFrom_denotes {source text : List Char} (h : Denotes true source text)
    (acc rest : List Char) :
    readFrom true .plain acc (source ++ rest) =
      readFrom true .plain (text.reverse ++ acc) rest := by
  induction h generalizing acc with
  | nil => rfl
  | cons hform _ ih =>
    rw [List.append_assoc, readFrom_form hform, ih]
    simp

/-! ### Nothing else is read -/

/-- Digits that are read have a value, so each is one octet, and there are four. -/
theorem exists_code_of_readFrom {before : Option Nat} {got acc cs : List Char}
    {r : List Char × List Char} (hgot : got.foldl (fun n d => n + d.utf8Size) 0 < 4)
    (h : readFrom true (.digits before got) acc cs = .ok r) :
    ∃ ds rest n, cs = ds ++ rest ∧ Code (got ++ ds) n ∧
      follow acc rest (unitMove true before n) = .ok r := by
  induction cs generalizing got with
  | nil => cases h
  | cons c cs ih =>
    rw [readFrom_cons] at h
    simp only [Stage.move] at h
    by_cases hsize : (got ++ [c]).foldl (fun n d => n + d.utf8Size) 0 < 4
    · rw [if_pos hsize] at h
      obtain ⟨ds, rest, n, rfl, hcode, hfollow⟩ := ih hsize h
      exact ⟨c :: ds, rest, n, rfl, by simpa using hcode, hfollow⟩
    · rw [if_neg hsize] at h
      rcases hnumber : Hex.number? (got ++ [c]) with - | n
      · rw [hnumber] at h
        cases h
      · rw [hnumber] at h
        refine ⟨[c], cs, n, rfl, ⟨?_, hnumber⟩, h⟩
        obtain ⟨⟨m, hm⟩, -⟩ := Hex.number?_concat_eq_some hnumber
        rw [Hex.size_of_number? hm] at hgot
        rw [Hex.size_of_number? hnumber, List.length_append, List.length_singleton] at hsize
        rw [List.length_append, List.length_singleton]
        omega

/-- After a high surrogate comes the escape of a low one. -/
theorem exists_low_of_readFrom {high : Nat} {acc cs : List Char} {r : List Char × List Char}
    (h : readFrom true (.paired high) acc cs = .ok r) :
    ∃ ds rest low, cs = '\\' :: 'u' :: (ds ++ rest) ∧ Code ds low ∧
      (0xDC00 ≤ low ∧ low < 0xE000) ∧
      readFrom true .plain
        (Char.ofNat (0x10000 + (high - 0xD800) * 0x400 + (low - 0xDC00)) :: acc) rest = .ok r := by
  rcases cs with - | ⟨c, - | ⟨d, cs⟩⟩
  · cases h
  · rw [readFrom_cons, Stage.move] at h
    split at h <;> cases h
  · rw [readFrom_cons, Stage.move] at h
    split at h
    · rename_i hc
      rw [follow, readFrom_cons, Stage.move] at h
      split at h
      · rename_i hd
        subst hc hd
        obtain ⟨ds, rest, low, rfl, hcode, hfollow⟩ := exists_code_of_readFrom (by decide) h
        rw [unitMove_some] at hfollow
        split at hfollow
        · rename_i hlow
          exact ⟨ds, rest, low, rfl, hcode, hlow, hfollow⟩
        · cases hfollow
      · cases h
    · cases h

/-- What is read from the plain stage and does not end there starts with a form. -/
theorem exists_form_of_readFrom {c : Char} {acc cs : List Char} {r : List Char × List Char}
    (hc : c ≠ '"') (h : readFrom true .plain acc (c :: cs) = .ok r) :
    ∃ source d rest, c :: cs = source ++ rest ∧ Form true source d ∧
      readFrom true .plain (d :: acc) rest = .ok r := by
  rw [readFrom_cons, Stage.move, if_neg hc] at h
  by_cases hb : c = '\\'
  · subst hb
    rw [if_pos rfl] at h
    rcases cs with - | ⟨e, cs⟩
    · cases h
    · rw [follow, readFrom_cons, Stage.move] at h
      by_cases hu : e = 'u'
      · subst hu
        rw [if_pos rfl] at h
        obtain ⟨ds, rest, n, rfl, hcode, hfollow⟩ := exists_code_of_readFrom (by decide) h
        by_cases hhigh : 0xD800 ≤ n ∧ n < 0xDC00
        · rw [unitMove_high hhigh] at hfollow
          obtain ⟨es, rest', low, rfl, hcode', hlow, hread⟩ := exists_low_of_readFrom hfollow
          exact ⟨_, _, rest', by simp, .pair hcode hcode' hhigh hlow, hread⟩
        · rw [unitMove_none hhigh] at hfollow
          split at hfollow
          · cases hfollow
          · exact ⟨_, _, rest, rfl, .unit hcode (by omega), hfollow⟩
      · rw [if_neg hu] at h
        rcases he : shortEscape? e with - | d
        · rw [he] at h
          cases h
        · rw [he] at h
          exact ⟨['\\', e], d, cs, rfl, .short (shortEscape?_eq_some_iff.1 he), h⟩
  · rw [if_neg hb] at h
    split at h
    · cases h
    · rename_i hcontrol
      exact ⟨[c], c, cs, rfl, .plain hc hb fun _ => Nat.not_lt.1 hcontrol, h⟩

/-- Reading accepts exactly the strict forms up to the closing quote. -/
theorem readFrom_eq_ok_iff {acc cs text rest : List Char} :
    readFrom true .plain acc cs = .ok (text, rest) ↔
      ∃ source more, cs = source ++ '"' :: rest ∧ Denotes true source more ∧
        text = acc.reverse ++ more := by
  constructor
  · -- each form is shorter than what is before it
    intro h
    induction hn : cs.length using Nat.strongRecOn generalizing acc cs with
    | ind n ih =>
      rcases cs with - | ⟨c, cs⟩
      · cases h
      by_cases hc : c = '"'
      · subst hc
        cases h
        exact ⟨[], [], rfl, .nil, by simp⟩
      obtain ⟨source, d, after, hcs, hform, hread⟩ := exists_form_of_readFrom hc h
      have hlt : after.length < n := by
        have hpos := List.length_pos_iff.2 hform.ne_nil
        rw [← hn, hcs, List.length_append]
        omega
      obtain ⟨source', more, rfl, hdenotes, rfl⟩ := ih _ hlt hread rfl
      exact ⟨source ++ source', d :: more, by simpa using hcs, .cons hform hdenotes, by simp⟩
  · rintro ⟨source, more, rfl, hdenotes, rfl⟩
    rw [readFrom_denotes hdenotes]
    simp [readFrom_cons, Stage.move, follow]

theorem read_eq_ok_iff {cs text rest : List Char} :
    read cs = .ok (text, rest) ↔
      ∃ source, cs = source ++ '"' :: rest ∧ Denotes true source text := by
  rw [read, readFrom_eq_ok_iff]
  simp

/-- A row of characters is decoded exactly to the text that it denotes. -/
theorem decode?_eq_some_iff {source text : List Char} :
    decode? source = some text ↔ Denotes true source text := by
  have hread : decode? source = some text ↔ read (source ++ ['"']) = .ok (text, []) := by
    unfold decode?
    split
    · rename_i hread
      simp [hread]
    · rename_i hne
      exact iff_of_false nofun (hne text)
  rw [hread, read_eq_ok_iff]
  constructor
  · rintro ⟨source', hsource, hdenotes⟩
    obtain rfl := List.append_cancel_right hsource
    exact hdenotes
  · intro hdenotes
    exact ⟨source, rfl, hdenotes⟩

end Json.Quoted

end ScimQuery
