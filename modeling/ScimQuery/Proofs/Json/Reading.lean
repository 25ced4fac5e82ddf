/-
ScimQuery/Proofs/Json/Reading.lean

Readers of JSON on text that was written without white space.  There a value ends
where its container goes on or closes, or where the text ends; `Reads read text v`
says that before any such continuation `read` takes exactly `text` and gives `v`.

Main results: a text (`reads_text`), a number (`reads_natural`) and a list of
values that are read back (`Reads.list`) are read back, and so is a record whose
members are known and come once each (`Takes.record`).  What the members of a
record make of it is said by `Takes`, one member after the other.
-/
import ScimQuery.Json.Record
import ScimQuery.Proofs.Literal.ReadBack

namespace ScimQuery.Json

/-! ### Before and after a value -/

/-- The text after a value: nothing, or what a container puts there. -/
def Ended (rest : List Char) : Prop := ∀ c, rest.head? = some c → c = ',' ∨ c = ']' ∨ c = '}'

theorem ended_cons {c : Char} (h : c = ',' ∨ c = ']' ∨ c = '}') (cs : List Char) :
    Ended (c :: cs) := by
  intro d hd
  obtain rfl := Option.some.inj hd
  exact h

/-- Values in a row, each after a comma, before a closing character. -/
theorem ended_flatMap {α : Type} {write : α → List Char} {close : Char}
    (h : close = ']' ∨ close = '}') (as : List α) (rest : List Char) :
    Ended (as.flatMap (fun a => ',' :: write a) ++ close :: rest) := by
  cases as with
  | nil => exact ended_cons (.inr h) rest
  | cons a as => exact ended_cons (.inl rfl) _

/-- A written value starts with a quote, a bracket or a digit. -/
def isOpening (c : Char) : Bool := c == '"' || c == '[' || c.isDigit

theorem ne_of_isOpening {c d : Char} (hc : isOpening c = true) (hd : isOpening d = false) :
    c ≠ d := by
  rintro rfl
  rw [hd] at hc
  cases hc

theorem skipSpaces_cons {c : Char} (h : isSpace c = false) (cs : List Char) :
    skipSpaces (c :: cs) = c :: cs :=
  List.dropWhile_cons_of_neg (by simp [h])

theorem isSpace_of_isOpening {c : Char} (h : isOpening c = true) : isSpace c = false := by
  have hne : ∀ d, isOpening d = false → (c == d) = false := fun d hd =>
    beq_eq_false_iff_ne.2 (ne_of_isOpening h hd)
  rw [isSpace, hne ' ' rfl, hne '\n' rfl, hne '\t' rfl, hne '\r' rfl]
  rfl

/-- The reader takes the text off whatever may follow it. -/
structure Reads {α : Type} (read : Reader α) (text : List Char) (value : α) : Prop where
  opens : ∃ c cs, text = c :: cs ∧ isOpening c = true
  reads : ∀ rest, Ended rest → read (text ++ rest) = .ok (value, rest)

/-! ### Texts -/

theorem Quoted.read_encode (cs rest : List Char) :
    Quoted.read (Quoted.encode cs ++ '"' :: rest) = .ok (cs, rest) := by
  rw [Quoted.read, Quoted.readFrom_encode]
  simp [Quoted.readFrom, Quoted.Stage.move]

theorem Quoted.toList_write (s : String) :
    (Quoted.write s).toList = '"' :: (Quoted.encode s.toList ++ ['"']) := by
  simp [Quoted.write, String.toList_append]

theorem reads_text (s : String) : Reads text (Quoted.write s).toList s := by
  rw [Quoted.toList_write]
  refine ⟨⟨'"', _, rfl, rfl⟩, ?_⟩
  intro rest _
  rw [List.cons_append, List.append_assoc, List.singleton_append, text,
    skipSpaces_cons rfl]
  simp only [Quoted.read_encode, Except.map, String.ofList_toList]

theorem reads_textAs {α : Type} {parse : String → Option α} {s : String} {v : α}
    (h : parse s = some v) : Reads (textAs parse) (Quoted.write s).toList v := by
  refine ⟨(reads_text s).opens, ?_⟩
  intro rest hrest
  rw [textAs, (reads_text s).reads rest hrest]
  simp only [bind, Except.bind, h]

/-! ### Numbers -/

/-- Digits of a positive number do not start with a zero. -/
theorem head?_toDigits {n : Nat} (h : 0 < n) : (Nat.toDigits 10 n).head? ≠ some '0' := by
  induction n using Nat.strongRecOn with
  | ind n ih =>
    by_cases hn : n < 10
    · have hall : ∀ m < 10, 0 < m → m.digitChar ≠ '0' := by decide
      rw [Nat.toDigits_of_lt_base hn]
      simpa using hall n hn h
    · have hfront := ih (n / 10) (by omega) (by omega)
      rw [Nat.toDigits_of_base_le (by decide) (Nat.not_lt.1 hn), List.head?_append]
      rcases hdigits : Nat.toDigits 10 (n / 10) with - | ⟨c, cs⟩
      · exact absurd hdigits Nat.toDigits_ne_nil
      · rw [hdigits] at hfront
        exact hfront

theorem readWhole_toDigits (n : Nat) {rest : List Char} (hrest : Ended rest) :
    readWhole (Nat.toDigits 10 n ++ rest) = .ok (Nat.toDigits 10 n, rest) := by
  have hstop : ∀ c, rest.head? = some c → c.isDigit = false := by
    intro c hc
    rcases hrest c hc with rfl | rfl | rfl <;> rfl
  obtain ⟨htake, hdrop⟩ := Decimal.span_digits (Decimal.isDigit_toDigits n) hstop
  have hread : readDigits (Nat.toDigits 10 n ++ rest) = .ok (Nat.toDigits 10 n, rest) := by
    have hdigits := Decimal.isDigit_toDigits n
    rcases hn : Nat.toDigits 10 n with - | ⟨c, cs⟩
    · exact absurd hn Nat.toDigits_ne_nil
    · rw [hn] at htake hdrop hdigits
      rw [List.cons_append] at htake hdrop ⊢
      rw [readDigits, if_pos (hdigits c List.mem_cons_self), htake, hdrop]
  have hzero : ((Nat.toDigits 10 n).length > 1 &&
      (Nat.toDigits 10 n).head? == some '0') = false := by
    rcases Nat.eq_zero_or_pos n with rfl | hpos
    · rfl
    · have hhead : ((Nat.toDigits 10 n).head? == some '0') = false :=
        beq_eq_false_iff_ne.2 (head?_toDigits hpos)
      rw [hhead, Bool.and_false]
  simp only [readWhole, hread, bind, Except.bind, hzero, Bool.false_eq_true, if_false]

theorem readFraction_ended {rest : List Char} (hrest : Ended rest) :
    readFraction rest = .ok ([], rest) := by
  rcases rest with - | ⟨c, cs⟩
  · rfl
  · rcases hrest c rfl with rfl | rfl | rfl <;> rfl

theorem readExponent_ended {rest : List Char} (hrest : Ended rest) :
    readExponent rest = .ok (none, rest) := by
  rcases rest with - | ⟨c, cs⟩
  · rfl
  · rcases hrest c rfl with rfl | rfl | rfl <;> rfl

theorem readNumber_toDigits {n : Nat} (hn : n ≤ maxInteger) {rest : List Char}
    (hrest : Ended rest) : readNumber (Nat.toDigits 10 n ++ rest) = .ok (some n, rest) := by
  have hwhole := readWhole_toDigits n hrest
  have hvalue : Nat.ofDigitChars 10 (Nat.toDigits 10 n) 0 = n := Nat.ofDigitChars_ten_toDigits
  have hdigits := Decimal.isDigit_toDigits n
  rcases hchars : Nat.toDigits 10 n with - | ⟨c, cs⟩
  · exact absurd hchars Nat.toDigits_ne_nil
  · rw [hchars] at hwhole hvalue hdigits
    -- a digit is no sign
    have hsign : c ≠ '-' := by
      rintro rfl
      cases hdigits '-' List.mem_cons_self
    rw [List.cons_append] at hwhole ⊢
    simp [readNumber, hsign, hwhole, readFraction_ended hrest, readExponent_ended hrest, hvalue, hn,
      bind, Except.bind]

theorem reads_natural {n bound : Nat} (hn : n ≤ bound) (hbound : bound ≤ maxInteger) :
    Reads (natural bound) (toString n).toList n := by
  have hchars : (toString n).toList = Nat.toDigits 10 n := by
    rw [Nat.toString_eq_ofList_toDigits, String.toList_ofList]
  have hdigits := Decimal.isDigit_toDigits n
  rw [hchars]
  rcases hcons : Nat.toDigits 10 n with - | ⟨c, cs⟩
  · exact absurd hcons Nat.toDigits_ne_nil
  · rw [hcons] at hdigits
    have hc : c.isDigit = true := hdigits c List.mem_cons_self
    have hopen : isOpening c = true := by simp [isOpening, hc]
    refine ⟨⟨c, cs, rfl, hopen⟩, ?_⟩
    intro rest hrest
    have hread := readNumber_toDigits (Nat.le_trans hn hbound) hrest
    rw [hcons, List.cons_append] at hread
    rw [List.cons_append, natural, skipSpaces_cons (isSpace_of_isOpening hopen)]
    simp [hc, hread, hn, bind, Except.bind]

theorem Reads.nullable {α : Type} {read : Reader α} {text : List Char} {v : α}
    (h : Reads read text v) : Reads (nullable read) text (some v) := by
  refine ⟨h.opens, ?_⟩
  intro rest hrest
  obtain ⟨c, cs, rfl, hc⟩ := h.opens
  have hread := h.reads rest hrest
  have hnull : c ≠ 'n' := ne_of_isOpening hc rfl
  rw [List.cons_append] at hread ⊢
  rw [Json.nullable, skipSpaces_cons (isSpace_of_isOpening hc)]
  simp [hnull, hread, bind, Except.bind]

/-! ### Lists -/

theorem nextElement?_first {c : Char} (h : isOpening c = true) (cs : List Char) :
    nextElement? true (c :: cs) = .ok (some (c :: cs)) := by
  have hclose : c ≠ ']' := ne_of_isOpening h rfl
  simp [nextElement?, skipSpaces_cons (isSpace_of_isOpening h), hclose]

theorem nextElement?_comma {c : Char} (h : isOpening c = true) (cs : List Char) :
    nextElement? false (',' :: c :: cs) = .ok (some (c :: cs)) := by
  have hclose : c ≠ ']' := ne_of_isOpening h rfl
  simp [nextElement?, skipSpaces_cons (c := ',') rfl, skipSpaces_cons (isSpace_of_isOpening h),
    hclose]

/-- One element, whatever stands before it. -/
theorem elements_step {α : Type} {read : Reader α} {text more cs : List Char} {a : α} {first : Bool}
    (hnext : nextElement? first cs = .ok (some (text ++ more))) (h : Reads read text a)
    (hmore : Ended more) (steps : Nat) (acc : List α) :
    elements read (steps + 1) first acc cs = elements read steps false (a :: acc) more := by
  simp only [elements, hnext, h.reads more hmore, bind, Except.bind]

/-- The elements that stand after commas, and the closing bracket. -/
theorem elements_rest {α : Type} {read : Reader α} {write : α → List Char} {as : List α}
    (h : ∀ a ∈ as, Reads read (write a) a) (acc : List α) (rest : List Char) {steps : Nat}
    (hsteps : (as.flatMap (fun a => ',' :: write a) ++ ']' :: rest).length ≤ steps) :
    elements read steps false acc (as.flatMap (fun a => ',' :: write a) ++ ']' :: rest) =
      .ok (acc.reverse ++ as, rest) := by
  induction as generalizing acc steps with
  | nil =>
    rcases steps with - | steps
    · cases hsteps
    · rw [List.append_nil]
      rfl
  | cons a as ih =>
    obtain ⟨ha, has⟩ := List.forall_mem_cons.1 h
    obtain ⟨c, cs, hopen, hc⟩ := ha.opens
    rw [List.flatMap_cons, List.cons_append, List.cons_append, List.append_assoc] at hsteps ⊢
    rcases steps with - | steps
    · cases hsteps
    · rw [elements_step (by rw [hopen]; exact nextElement?_comma hc _) ha
        (ended_flatMap (.inl rfl) as rest), ih has]
      · rw [List.reverse_cons, List.append_assoc, List.singleton_append]
      · simp only [List.length_cons, List.length_append] at hsteps ⊢
        omega

/-- A list of values that are read back is read back. -/
theorem Reads.list {α : Type} {read : Reader α} {write : α → List Char} {as : List α}
    (h : ∀ a ∈ as, Reads read (write a) a) :
    Reads (Json.list read) ('[' :: (Text.join ',' (as.map write) ++ [']'])) as := by
  refine ⟨⟨'[', _, rfl, rfl⟩, ?_⟩
  intro rest _
  rw [List.cons_append, List.append_assoc, List.singleton_append, Json.list, skipSpaces_cons rfl]
  rcases as with - | ⟨a, as⟩
  · rfl
  · obtain ⟨ha, has⟩ := List.forall_mem_cons.1 h
    obtain ⟨c, cs, hopen, hc⟩ := ha.opens
    rw [List.map_cons, Text.join_cons, List.flatMap_map, List.append_assoc]
    show elements read _ true [] _ = _
    rw [elements_step (by rw [hopen]; exact nextElement?_first hc _) ha
      (ended_flatMap (.inl rfl) as rest), elements_rest has]
    · rfl
    · simp only [List.length_append]
      omega

/-! ### Records -/

/-- A member as it stands in an object. -/
def memberChars (m : String × String) : List Char := (Quoted.write m.1 ++ ":" ++ m.2).toList

theorem memberChars_eq (key text : String) :
    memberChars (key, text) =
      '"' :: (Quoted.encode key.toList ++ '"' :: ':' :: text.toList) := by
  simp [memberChars, Quoted.toList_write, String.toList_append]

/-- Members that are read one after the other and change the record as they are read. -/
inductive Takes {σ : Type} (fields : List (Field σ)) : σ → List (String × String) → σ → Prop
  | nil (s : σ) : Takes fields s [] s
  | cons {s t : σ} {key text : String} {ms : List (String × String)} {field : Field σ}
      {change : σ → σ} (hfield : fields.find? (·.key == key) = some field)
      (hread : Reads field.read text.toList change) (hrest : Takes fields (change s) ms t) :
      Takes fields s ((key, text) :: ms) t

theorem Takes.append {σ : Type} {fields : List (Field σ)} {s t u : σ}
    {ms ns : List (String × String)} (hms : Takes fields s ms t) (hns : Takes fields t ns u) :
    Takes fields s (ms ++ ns) u := by
  induction hms with
  | nil s => exact hns
  | cons hfield hread _ ih => exact .cons hfield hread (ih hns)

theorem Takes.single {σ : Type} {fields : List (Field σ)} {key text : String} {field : Field σ}
    {change : σ → σ} (hfield : fields.find? (·.key == key) = some field)
    (hread : Reads field.read text.toList change) (s : σ) :
    Takes fields s [(key, text)] (change s) :=
  .cons hfield hread (.nil _)

/-- One member, whatever stands before it. -/
theorem members_step {σ : Type} {fields : List (Field σ)} {key : String} {text more cs : List Char}
    {field : Field σ} {change : σ → σ} {first : Bool} {seen : List String}
    (hnext : nextKey? first cs =
      .ok (some (Quoted.encode key.toList ++ '"' :: ':' :: (text ++ more))))
    (hfield : fields.find? (·.key == key) = some field) (hseen : key ∉ seen)
    (hread : Reads field.read text change) (hmore : Ended more) (steps : Nat) (s : σ) :
    members fields (steps + 1) first seen s cs =
      members fields steps false (key :: seen) (change s) more := by
  have hcolon : skipColon (':' :: (text ++ more)) = .ok (text ++ more) := rfl
  have hfirst : seen.contains key = false := by simpa using hseen
  simp only [members, hnext, Quoted.read_encode, String.ofList_toList, hfield, hfirst, hcolon,
    hread.reads more hmore, bind, Except.bind, Bool.false_eq_true, if_false]

/-- The members that stand after commas, and the closing brace. -/
theorem Takes.members_rest {σ : Type} {fields : List (Field σ)} {s t : σ}
    {ms : List (String × String)} (h : Takes fields s ms t) {seen : List String}
    (hkeys : (ms.map Prod.fst).Nodup) (hseen : ∀ key ∈ ms.map Prod.fst, key ∉ seen)
    (rest : List Char) {steps : Nat}
    (hsteps : (ms.flatMap (fun m => ',' :: memberChars m) ++ '}' :: rest).length ≤ steps) :
    members fields steps false seen s (ms.flatMap (fun m => ',' :: memberChars m) ++ '}' :: rest) =
      .ok (t, rest) := by
  induction h generalizing seen steps with
  | nil s =>
    rcases steps with - | steps
    · cases hsteps
    · rfl
  | @cons s t key text ms field change hfield hread hrest ih =>
    obtain ⟨hkey, hkeys⟩ := List.nodup_cons.1 hkeys
    obtain ⟨hnew, hseen⟩ := List.forall_mem_cons.1 hseen
    rw [List.flatMap_cons, memberChars_eq] at hsteps ⊢
    simp only [List.cons_append, List.append_assoc] at hsteps ⊢
    rcases steps with - | steps
    · cases hsteps
    · rw [members_step rfl hfield hnew hread (ended_flatMap (.inr rfl) ms rest), ih hkeys]
      · -- the key that was just read does not come again
        intro key' hkey' hmem
        rcases List.mem_cons.1 hmem with rfl | hmem
        · exact hkey hkey'
        · exact hseen key' hkey' hmem
      · simp only [List.length_cons, List.length_append] at hsteps ⊢
        omega

/-- A record is read from members that are known and come once each. -/
theorem Takes.record {σ : Type} {fields : List (Field σ)} {s t : σ} {ms : List (String × String)}
    (h : Takes fields s ms t) (hkeys : (ms.map Prod.fst).Nodup) (rest : List Char) :
    Json.record fields s ('{' :: (Text.join ',' (ms.map memberChars) ++ '}' :: rest)) =
      .ok (t, rest) := by
  rw [Json.record, skipSpaces_cons rfl]
  cases h with
  | nil => rfl
  | @cons _ _ key text ms field change hfield hread hrest =>
    obtain ⟨hkey, hkeys⟩ := List.nodup_cons.1 hkeys
    rw [List.map_cons, Text.join_cons, List.flatMap_map, memberChars_eq]
    simp only [List.cons_append, List.append_assoc]
    rw [members_step rfl hfield List.not_mem_nil hread (ended_flatMap (.inr rfl) ms rest),
      hrest.members_rest hkeys]
    · intro key' hkey' hmem
      rw [List.mem_singleton.1 hmem] at hkey'
      exact hkey hkey'
    · simp only [List.length_cons, List.length_append]
      omega

end ScimQuery.Json
