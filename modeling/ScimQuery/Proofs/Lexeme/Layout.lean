/-
ScimQuery/Proofs/Lexeme/Layout.lean

The lexemes of a text as a layout of it: each token stands at its position, a word
is not part of a longer row, tokens do not overlap, and every character that no
token covers is blank.  `Covers text n m ls` says this of the characters from
position `n` up to position `m`.

Between a layout and the scanner stands `Cuts`, which takes the text apart from
left to right.  The scanner follows it (`scanFrom_of_cuts`), it is what a layout
says (`Cuts.covers`, `Covers.cuts`), and it comes to an end on every text, either
at the end of the text or at a quote that nothing closes (`exists_cuts`).

Main result: a text has the lexemes of its layout, and none exactly if a quote in it
stays open (`lexemes_iff_layout`).
-/
import ScimQuery.Filter
import ScimQuery.Proofs.Lexeme.Scanning

namespace ScimQuery

/-- The characters of a token in the text; the mark for the end has none. -/
def Token.chars : Token → List Char
  | openParen => ['(']
  | closeParen => [')']
  | openBracket => ['[']
  | closeBracket => [']']
  | quoted raw => raw.toList
  | word raw => raw.toList
  | eof => []

/-- The position after the last character of a lexeme. -/
def Lexeme.stop (l : Lexeme) : Nat := l.position + l.token.chars.length

namespace Scan

/-! ### Layouts -/

/-- A token as it is written: a bracket, a string that ends at its first quote
which no backslash takes along, or a row of characters that are no delimiters. -/
inductive Shaped : Token → Prop
  | openParen : Shaped .openParen
  | closeParen : Shaped .closeParen
  | openBracket : Shaped .openBracket
  | closeBracket : Shaped .closeBracket
  | quoted {cs} : Body cs → Shaped (.quoted (String.ofList ('"' :: (cs ++ ['"']))))
  | word {w} : IsWord w.toList → Shaped (.word w)

/-- The lexeme stands in the text at its position.  A word cannot be made longer on
either side. -/
structure Stands (text : List Char) (l : Lexeme) : Prop where
  shaped : Shaped l.token
  chars : l.token.chars <+: text.drop l.position
  left : ∀ w i c, l.token = .word w → i + 1 = l.position → text[i]? = some c →
    isDelimiter c = true
  right : ∀ w c, l.token = .word w → text[l.stop]? = some c → isDelimiter c = true

/-- The lexemes stand one after the other between the positions `n` and `m`, and
the characters that none of them covers are blank. -/
structure Covers (text : List Char) (n m : Nat) (ls : List Lexeme) : Prop where
  stands : ∀ l ∈ ls, Stands text l
  within : ∀ l ∈ ls, n ≤ l.position ∧ l.stop ≤ m
  apart : ls.Pairwise fun l k => l.stop ≤ k.position
  blank : ∀ i c, n ≤ i → i < m → text[i]? = some c →
    (∀ l ∈ ls, i < l.position ∨ l.stop ≤ i) → Text.isBlank c = true

/-- The text is laid out as the lexemes, of which the last one marks its end. -/
structure Layout (text : List Char) (ls : List Lexeme) : Prop where
  ending : ls.getLast? = some ⟨.eof, text.length⟩
  covers : Covers text 0 text.length ls.dropLast
  increasing : ls.Pairwise fun l k => l.position < k.position

/-- Some quote ends the string whose characters these are. -/
def Closes (cs : List Char) : Prop := ∃ body after, cs = body ++ '"' :: after ∧ Body body

/-- The text is laid out up to position `p`, where a string starts that does not
end. -/
structure Unclosed (text : List Char) (p : Nat) : Prop where
  covers : ∃ ls, Covers text 0 p ls
  quote : text[p]? = some '"'
  endless : ¬ Closes (text.drop (p + 1))

/-! ### Single tokens -/

theorem Shaped.exists_head {token : Token} (h : Shaped token) :
    ∃ c cs, token.chars = c :: cs ∧ Text.isBlank c = false := by
  cases h with
  | openParen => exact ⟨_, _, rfl, rfl⟩
  | closeParen => exact ⟨_, _, rfl, rfl⟩
  | openBracket => exact ⟨_, _, rfl, rfl⟩
  | closeBracket => exact ⟨_, _, rfl, rfl⟩
  | quoted _ => exact ⟨'"', _, by rw [Token.chars, String.toList_ofList], rfl⟩
  | @word w hw =>
    rcases hcs : w.toList with - | ⟨c, cs⟩
    · exact absurd hcs hw.1
    · rw [hcs] at hw
      exact ⟨c, cs, hcs, (bracket?_of_not_isDelimiter (hw.2 c List.mem_cons_self)).1⟩

/-- A bracket is a token of one character, and no word. -/
theorem shaped_of_bracket? {c : Char} {token : Token} (h : bracket? c = some token) :
    Shaped token ∧ token.chars = [c] ∧ ∀ w, token ≠ .word w := by
  unfold bracket? at h
  repeat' split at h
  all_goals cases h
  all_goals rename_i hc
  all_goals subst hc
  · exact ⟨.openParen, rfl, nofun⟩
  · exact ⟨.closeParen, rfl, nofun⟩
  · exact ⟨.openBracket, rfl, nofun⟩
  · exact ⟨.closeBracket, rfl, nofun⟩

theorem Stands.lt_stop {text : List Char} {l : Lexeme} (h : Stands text l) :
    l.position < l.stop := by
  obtain ⟨c, cs, hchars, -⟩ := h.shaped.exists_head
  rw [Lexeme.stop, hchars, List.length_cons]
  omega

theorem Stands.not_blank {text : List Char} {l : Lexeme} (h : Stands text l) {c : Char}
    (hc : text[l.position]? = some c) : Text.isBlank c = false := by
  obtain ⟨d, ds, hchars, hblank⟩ := h.shaped.exists_head
  obtain ⟨rest, hrest⟩ := h.chars
  have hd : text[l.position]? = some d := by
    rw [← List.head?_drop, ← hrest, hchars]
    rfl
  obtain rfl := Option.some.inj (hd.symm.trans hc)
  exact hblank

/-! ### Taking a text apart -/

section Drop

variable {text : List Char} {n : Nat}

theorem getElem?_of_drop {c : Char} {cs : List Char} (h : text.drop n = c :: cs) :
    text[n]? = some c := by
  rw [← List.head?_drop, h]
  rfl

theorem drop_succ {c : Char} {cs : List Char} (h : text.drop n = c :: cs) :
    text.drop (n + 1) = cs := by
  rw [← List.tail_drop, h]
  rfl

theorem getElem?_of_drop_append {as bs : List Char} (h : text.drop n = as ++ bs) {j : Nat}
    (hj : j < as.length) : text[n + j]? = as[j]? := by
  rw [← List.getElem?_drop, h, List.getElem?_append_left hj]

theorem drop_append_length {as bs : List Char} (h : text.drop n = as ++ bs) :
    text.drop (n + as.length) = bs := by
  rw [← List.drop_drop, h, List.drop_left]

end Drop

/-- The characters `cs` from position `n` on are cut into the lexemes, up to position
`m`, where `rest` is left. -/
inductive Cuts : Nat → List Char → List Lexeme → Nat → List Char → Prop
  | done {n cs} : Cuts n cs [] n cs
  | blank {n c cs ls m rest} :
      Text.isBlank c = true → Cuts (n + 1) cs ls m rest → Cuts n (c :: cs) ls m rest
  | lexeme {n token cs ls m rest} :
      Shaped token → (∀ w, token = .word w → ∀ c ∈ cs.head?, isDelimiter c = true) →
      Cuts (n + token.chars.length) cs ls m rest →
      Cuts n (token.chars ++ cs) (⟨token, n⟩ :: ls) m rest

theorem Cuts.length_eq {n m : Nat} {cs rest : List Char} {ls : List Lexeme}
    (h : Cuts n cs ls m rest) : n + cs.length = m + rest.length := by
  induction h with
  | done => rfl
  | blank _ _ ih =>
    rw [← ih, List.length_cons]
    omega
  | lexeme _ _ _ ih =>
    rw [← ih, List.length_append]
    omega

theorem Cuts.le {n m : Nat} {cs rest : List Char} {ls : List Lexeme}
    (h : Cuts n cs ls m rest) : n ≤ m := by
  induction h with
  | done => exact Nat.le_refl _
  | blank _ _ ih => omega
  | lexeme _ _ _ ih => omega

/-- What is left is the end of the text. -/
theorem Cuts.drop_eq {text : List Char} {n m : Nat} {cs rest : List Char} {ls : List Lexeme}
    (h : Cuts n cs ls m rest) (hdrop : text.drop n = cs) : text.drop m = rest := by
  induction h with
  | done => exact hdrop
  | blank _ _ ih => exact ih (drop_succ hdrop)
  | lexeme _ _ _ ih => exact ih (drop_append_length hdrop)

/-! ### The scanner follows -/

/-- What the scanner finds from position `n` on, between two lexemes. -/
def scanFrom (n : Nat) (found : List Lexeme) (cs : List Char) : Except Nat (List Lexeme) :=
  finish (cs.foldl feed ⟨.between, n, found⟩)

theorem position_feed (s : Scanner) (c : Char) : (feed s c).position = s.position + 1 := by
  unfold feed enter
  repeat' split
  all_goals rfl

theorem position_foldl_feed (cs : List Char) (s : Scanner) :
    (cs.foldl feed s).position = s.position + cs.length := by
  induction cs generalizing s with
  | nil => rfl
  | cons c cs ih =>
    rw [List.foldl_cons, ih, position_feed, List.length_cons]
    omega

/-- Inside a string, up to where it could end. -/
theorem foldl_feed_quoted {cs : List Char} (h : Body cs) (start : Nat) (read : List Char)
    (n : Nat) (found : List Lexeme) :
    cs.foldl feed ⟨.quoted start read false, n, found⟩ =
      ⟨.quoted start (cs.reverse ++ read) false, n + cs.length, found⟩ := by
  obtain ⟨m, hfold⟩ := foldl_feed_body h read n
  have hposition := position_foldl_feed cs ⟨.quoted start read false, n, found⟩
  rw [hfold] at hposition ⊢
  obtain rfl : m = n + cs.length := hposition
  rfl

/-- A word ends where a delimiter follows, or the text ends. -/
theorem finish_foldl_word {cs : List Char} (h : ∀ c ∈ cs.head?, isDelimiter c = true)
    (start : Nat) (read : List Char) (n : Nat) (found : List Lexeme) :
    finish (cs.foldl feed ⟨.word start read, n, found⟩) =
      scanFrom n (wordLexeme start read :: found) cs := by
  cases cs with
  | nil => rfl
  | cons c cs =>
    have hfeed : feed ⟨.word start read, n, found⟩ c =
        feed ⟨.between, n, wordLexeme start read :: found⟩ c := if_pos (h c rfl)
    rw [List.foldl_cons, hfeed]
    rfl

theorem scanFrom_lexeme {token : Token} {cs : List Char} (h : Shaped token)
    (hend : ∀ w, token = .word w → ∀ c ∈ cs.head?, isDelimiter c = true) (n : Nat)
    (found : List Lexeme) :
    scanFrom n found (token.chars ++ cs) =
      scanFrom (n + token.chars.length) (⟨token, n⟩ :: found) cs := by
  cases h with
  | openParen => rfl
  | closeParen => rfl
  | openBracket => rfl
  | closeBracket => rfl
  | @quoted body hbody =>
    have hopen : feed ⟨.between, n, found⟩ '"' = ⟨.quoted n ['"'] false, n + 1, found⟩ := rfl
    have hlength : n + ('"' :: (body ++ ['"'])).length = n + 1 + body.length + 1 := by
      simp only [List.length_cons, List.length_append, List.length_nil]
      omega
    have hclose : feed ⟨.quoted n (body.reverse ++ ['"']) false, n + 1 + body.length, found⟩ '"' =
        ⟨.between, n + ('"' :: (body ++ ['"'])).length,
          ⟨.quoted (String.ofList ('"' :: (body ++ ['"']))), n⟩ :: found⟩ := by
      have hread : ('"' :: (body.reverse ++ ['"'])).reverse = '"' :: (body ++ ['"']) := by simp
      rw [hlength]
      simp only [feed, if_true, hread]
    simp only [scanFrom, Token.chars, String.toList_ofList, List.cons_append, List.append_assoc,
      List.foldl_cons, List.foldl_append, hopen, foldl_feed_quoted hbody, List.nil_append, hclose]
  | @word w hw =>
    show finish ((w.toList ++ cs).foldl feed ⟨.between, n, found⟩) = _
    rw [List.foldl_append, foldl_feed_isWord hw, finish_foldl_word (hend w rfl), wordLexeme,
      List.reverse_reverse, String.ofList_toList]
    rfl

/-- The scanner finds the lexemes and goes on with what is left. -/
theorem scanFrom_of_cuts {n m : Nat} {cs rest : List Char} {ls : List Lexeme}
    (h : Cuts n cs ls m rest) (found : List Lexeme) :
    scanFrom n found cs = scanFrom m (ls.reverse ++ found) rest := by
  induction h generalizing found with
  | done => rfl
  | @blank n c cs ls m rest hc _ ih =>
    have hfeed : feed ⟨.between, n, found⟩ c = ⟨.between, n + 1, found⟩ := if_pos hc
    rw [scanFrom, List.foldl_cons, hfeed]
    exact ih found
  | lexeme hshaped hend _ ih =>
    rw [scanFrom_lexeme hshaped hend, ih, List.reverse_cons, List.append_assoc]
    rfl

/-- A string that has no end runs to the end of the text, or to a backslash that
stands last. -/
theorem body_of_not_closes : ∀ cs : List Char,
    Closes cs ∨ Body cs ∨ ∃ body, cs = body ++ ['\\'] ∧ Body body
  | [] => .inr (.inl .nil)
  | c :: cs => by
    by_cases hquote : c = '"'
    · exact .inl ⟨[], cs, by rw [hquote]; rfl, .nil⟩
    by_cases hslash : c = '\\'
    · subst hslash
      -- the backslash takes the next character along
      rcases cs with - | ⟨d, cs⟩
      · exact .inr (.inr ⟨[], rfl, .nil⟩)
      · rcases body_of_not_closes cs with ⟨body, after, rfl, hbody⟩ | hbody | ⟨body, rfl, hbody⟩
        · exact .inl ⟨_, after, rfl, .escape hbody⟩
        · exact .inr (.inl (.escape hbody))
        · exact .inr (.inr ⟨_, rfl, .escape hbody⟩)
    · rcases body_of_not_closes cs with ⟨body, after, rfl, hbody⟩ | hbody | ⟨body, rfl, hbody⟩
      · exact .inl ⟨_, after, rfl, .plain hquote hslash hbody⟩
      · exact .inr (.inl (.plain hquote hslash hbody))
      · exact .inr (.inr ⟨_, rfl, .plain hquote hslash hbody⟩)

theorem scanFrom_of_not_closes {after : List Char} (h : ¬ Closes after) (n : Nat)
    (found : List Lexeme) : scanFrom n found ('"' :: after) = .error n := by
  have hopen : feed ⟨.between, n, found⟩ '"' = ⟨.quoted n ['"'] false, n + 1, found⟩ := rfl
  rw [scanFrom, List.foldl_cons, hopen]
  rcases body_of_not_closes after with hcloses | hbody | ⟨body, rfl, hbody⟩
  · exact absurd hcloses h
  · rw [foldl_feed_quoted hbody]
    rfl
  · rw [List.foldl_append, foldl_feed_quoted hbody]
    rfl

/-! ### Every text can be cut -/

/-- A row of characters that are no delimiters ends before one. -/
theorem isDelimiter_head?_dropWhile {cs : List Char} {c : Char}
    (h : c ∈ (cs.dropWhile fun d => !isDelimiter d).head?) : isDelimiter c = true := by
  have hnot := List.head?_dropWhile_not (fun d => !isDelimiter d) cs
  rw [Option.mem_def.1 h] at hnot
  simpa using hnot

/-- From any position on, the text is cut up to its end or up to a quote that nothing
closes. -/
theorem exists_cuts (n : Nat) (cs : List Char) :
    ∃ ls m rest, Cuts n cs ls m rest ∧ (rest = [] ∨ ∃ after, rest = '"' :: after ∧ ¬ Closes after) := by
  induction hlength : cs.length using Nat.strongRecOn generalizing n cs with
  | ind length ih =>
  subst hlength
  rcases cs with - | ⟨c, cs⟩
  · exact ⟨[], n, [], .done, .inl rfl⟩
  -- what follows a token is shorter, and is cut as well
  have htoken : ∀ {token : Token} {rest : List Char}, Shaped token → c :: cs = token.chars ++ rest →
      (∀ w, token = .word w → ∀ d ∈ rest.head?, isDelimiter d = true) →
      ∃ ls m left, Cuts n (c :: cs) ls m left ∧
        (left = [] ∨ ∃ after, left = '"' :: after ∧ ¬ Closes after) := by
    intro token rest hshaped heq hend
    obtain ⟨d, ds, hchars, -⟩ := hshaped.exists_head
    have hlt : rest.length < (c :: cs).length := by
      rw [heq, hchars]
      simp only [List.length_append, List.length_cons]
      omega
    obtain ⟨ls, m, left, hcuts, hleft⟩ := ih rest.length hlt (n + token.chars.length) rest rfl
    have hwhole : Cuts n (c :: cs) (⟨token, n⟩ :: ls) m left := by
      rw [heq]
      exact .lexeme hshaped hend hcuts
    exact ⟨_, m, left, hwhole, hleft⟩
  by_cases hblank : Text.isBlank c = true
  · obtain ⟨ls, m, rest, hcuts, hrest⟩ := ih cs.length (Nat.lt_succ_self _) (n + 1) cs rfl
    exact ⟨ls, m, rest, .blank hblank hcuts, hrest⟩
  rcases hbracket : bracket? c with - | token
  · by_cases hquote : c = '"'
    · subst hquote
      by_cases hcloses : Closes cs
      · obtain ⟨body, after, rfl, hbody⟩ := hcloses
        have heq : '"' :: (body ++ '"' :: after) =
            (Token.quoted (String.ofList ('"' :: (body ++ ['"'])))).chars ++ after := by
          simp [Token.chars]
        exact htoken (.quoted hbody) heq nofun
      · exact ⟨[], n, _, .done, .inr ⟨cs, rfl, hcloses⟩⟩
    · have hdelim : isDelimiter c = false := by simpa [isDelimiter, hbracket, hquote] using hblank
      have hword : IsWord ((c :: cs).takeWhile fun d => !isDelimiter d) := by
        refine ⟨by simp [hdelim], fun d hd => ?_⟩
        simpa using List.all_eq_true.1 List.all_takeWhile d hd
      have hshaped : Shaped (.word (String.ofList ((c :: cs).takeWhile fun d => !isDelimiter d))) :=
        .word (by rwa [String.toList_ofList])
      have heq : c :: cs =
          (Token.word (String.ofList ((c :: cs).takeWhile fun d => !isDelimiter d))).chars ++
            (c :: cs).dropWhile fun d => !isDelimiter d := by
        rw [Token.chars, String.toList_ofList, List.takeWhile_append_dropWhile]
      exact htoken hshaped heq fun _ _ d hd => isDelimiter_head?_dropWhile hd
  · obtain ⟨hshaped, hchars, hne⟩ := shaped_of_bracket? hbracket
    exact htoken hshaped (by rw [hchars]; rfl) fun w hw => absurd hw (hne w)

/-! ### Layouts are cut as they stand -/

section Layout

variable {text : List Char} {n m : Nat} {ls : List Lexeme}

/-- Before a word there is a delimiter or nothing: after another word no word is cut. -/
def Fresh (text : List Char) (n : Nat) : Prop :=
  ∀ i c, i + 1 = n → text[i]? = some c → isDelimiter c = false →
    ∀ d ∈ (text.drop n).head?, isDelimiter d = true

theorem isDelimiter_of_isBlank {c : Char} (h : Text.isBlank c = true) :
    isDelimiter c = true := by
  simp [isDelimiter, h]

/-- The last character of a bracket or a string is a delimiter. -/
theorem Shaped.isDelimiter_getLast {token : Token} (h : Shaped token)
    (hword : ∀ w, token ≠ .word w) {c : Char} (hc : token.chars.getLast? = some c) :
    isDelimiter c = true := by
  cases h with
  | openParen => cases hc; rfl
  | closeParen => cases hc; rfl
  | openBracket => cases hc; rfl
  | closeBracket => cases hc; rfl
  | @quoted cs _ =>
    rw [Token.chars, String.toList_ofList, ← List.cons_append, List.getLast?_concat] at hc
    cases hc
    rfl
  | word _ => exact absurd rfl (hword _)

theorem Fresh.after_blank {c : Char} (hc : text[n]? = some c) (h : Text.isBlank c = true) :
    Fresh text (n + 1) := by
  intro i d hi hd hdelim
  obtain rfl : i = n := by omega
  obtain rfl := Option.some.inj (hc.symm.trans hd)
  rw [isDelimiter_of_isBlank h] at hdelim
  cases hdelim

theorem Fresh.after_token {token : Token} {cs : List Char} (hdrop : text.drop n = token.chars ++ cs)
    (hshaped : Shaped token)
    (hend : ∀ w, token = .word w → ∀ c ∈ cs.head?, isDelimiter c = true) :
    Fresh text (n + token.chars.length) := by
  intro i d hi hd hdelim
  rw [drop_append_length hdrop]
  by_cases hword : ∃ w, token = .word w
  · obtain ⟨w, hw⟩ := hword
    exact hend w hw
  · -- the character before is the last one of a bracket or a string
    obtain ⟨c, cs', hchars, -⟩ := hshaped.exists_head
    have hlength : 0 < token.chars.length := by
      rw [hchars]
      exact Nat.succ_pos _
    obtain rfl : i = n + (token.chars.length - 1) := by omega
    rw [getElem?_of_drop_append hdrop (by omega), ← List.getLast?_eq_getElem?] at hd
    rw [hshaped.isDelimiter_getLast (not_exists.1 hword) hd] at hdelim
    cases hdelim

theorem stands_of_fresh {token : Token} {cs : List Char} (hdrop : text.drop n = token.chars ++ cs)
    (hshaped : Shaped token)
    (hend : ∀ w, token = .word w → ∀ c ∈ cs.head?, isDelimiter c = true) (hfresh : Fresh text n) :
    Stands text ⟨token, n⟩ := by
  refine ⟨hshaped, ⟨cs, hdrop.symm⟩, ?_, ?_⟩
  · rintro w i c rfl hi hc
    rcases hdelim : isDelimiter c with - | -
    · -- the word would start with a delimiter
      obtain ⟨d, ds, hchars, -⟩ := hshaped.exists_head
      have hd : isDelimiter d = true := by
        refine hfresh i c hi hc hdelim d ?_
        rw [hdrop, hchars]
        rfl
      cases hshaped with
      | word hw =>
        have hmem : d ∈ w.toList := by
          rw [show w.toList = d :: ds from hchars]
          exact List.mem_cons_self
        rw [hw.2 d hmem] at hd
        cases hd
    · rfl
  · intro w c hw hc
    refine hend w hw c ?_
    rw [Option.mem_def, ← drop_append_length hdrop, List.head?_drop]
    exact hc

/-- A text that is cut from left to right is laid out as it was cut. -/
theorem Cuts.covers {cs rest : List Char} (h : Cuts n cs ls m rest) (hdrop : text.drop n = cs)
    (hfresh : Fresh text n) : Covers text n m ls := by
  induction h with
  | @done n cs => exact ⟨by simp, by simp, .nil, fun i c hle hlt => absurd hlt (by omega)⟩
  | @blank n c cs ls m rest hc _ ih =>
    have hhead : text[n]? = some c := getElem?_of_drop hdrop
    obtain ⟨hstands, hwithin, hapart, hblank⟩ := ih (drop_succ hdrop) (.after_blank hhead hc)
    refine ⟨hstands, fun l hl => ?_, hapart, ?_⟩
    · obtain ⟨hle, hstop⟩ := hwithin l hl
      exact ⟨by omega, hstop⟩
    · intro i d hle hlt hd hout
      rcases Nat.eq_or_lt_of_le hle with rfl | hgt
      · obtain rfl := Option.some.inj (hhead.symm.trans hd)
        exact hc
      · exact hblank i d hgt hlt hd hout
  | @lexeme n token cs ls m rest hshaped hend htail ih =>
    obtain ⟨hstands, hwithin, hapart, hblank⟩ :=
      ih (drop_append_length hdrop) (.after_token hdrop hshaped hend)
    refine ⟨?_, ?_, ?_, ?_⟩
    · exact List.forall_mem_cons.2 ⟨stands_of_fresh hdrop hshaped hend hfresh, hstands⟩
    · refine List.forall_mem_cons.2 ⟨⟨Nat.le_refl n, htail.le⟩, fun l hl => ?_⟩
      obtain ⟨hle, hstop⟩ := hwithin l hl
      exact ⟨by omega, hstop⟩
    · exact .cons (fun l hl => (hwithin l hl).1) hapart
    · intro i d hle hlt hd hout
      obtain ⟨hfirst, hothers⟩ := List.forall_mem_cons.1 hout
      have hstop : n + token.chars.length ≤ i := hfirst.resolve_left (Nat.not_lt.2 hle)
      exact hblank i d hstop hlt hd hothers

theorem Covers.tail {l : Lexeme} (h : Covers text n m (l :: ls)) : Covers text l.stop m ls := by
  obtain ⟨hstands, hwithin, hapart, hblank⟩ := h
  obtain ⟨-, hstands'⟩ := List.forall_mem_cons.1 hstands
  obtain ⟨⟨hle, -⟩, hwithin'⟩ := List.forall_mem_cons.1 hwithin
  obtain ⟨hafter, hapart'⟩ := List.pairwise_cons.1 hapart
  refine ⟨hstands', fun k hk => ⟨hafter k hk, (hwithin' k hk).2⟩, hapart', ?_⟩
  intro i c hi hlt hc hout
  have hpos : l.position ≤ l.stop := Nat.le_add_right _ _
  exact hblank i c (by omega) hlt hc (List.forall_mem_cons.2 ⟨.inr hi, hout⟩)

/-- No lexeme starts at a blank. -/
theorem Covers.after_blank {c : Char} (h : Covers text n m ls) (hc : text[n]? = some c)
    (hblank : Text.isBlank c = true) : Covers text (n + 1) m ls := by
  refine ⟨h.stands, fun l hl => ⟨?_, (h.within l hl).2⟩, h.apart, ?_⟩
  · have hle := (h.within l hl).1
    have hne : l.position ≠ n := by
      intro heq
      rw [(h.stands l hl).not_blank (heq ▸ hc)] at hblank
      cases hblank
    omega
  · intro i d hi hlt hd hout
    exact h.blank i d (by omega) hlt hd hout

/-- The first lexeme starts where the text does, or all of them start later. -/
theorem Covers.head_cases (h : Covers text n m ls) :
    (∃ token tail, ls = ⟨token, n⟩ :: tail) ∨ ∀ l ∈ ls, n < l.position := by
  rcases ls with - | ⟨⟨token, position⟩, tail⟩
  · exact .inr (by simp)
  · have hle : n ≤ position := (h.within _ List.mem_cons_self).1
    rcases Nat.eq_or_lt_of_le hle with rfl | hlt
    · exact .inl ⟨token, tail, rfl⟩
    · refine .inr (List.forall_mem_cons.2 ⟨hlt, fun k hk => ?_⟩)
      have hstop := (List.pairwise_cons.1 h.apart).1 k hk
      have hpos : position < (⟨token, position⟩ : Lexeme).stop :=
        (h.stands _ List.mem_cons_self).lt_stop
      omega

/-- The lexemes of a layout are cut as they stand. -/
theorem Covers.cuts (h : Covers text n m ls) (hle : n ≤ m) (hm : m ≤ text.length) :
    Cuts n (text.drop n) ls m (text.drop m) := by
  induction hk : m - n using Nat.strongRecOn generalizing n ls with
  | ind k ih =>
  subst hk
  rcases h.head_cases with ⟨token, tail, rfl⟩ | hlater
  · -- a token is taken
    have hstands := h.stands _ List.mem_cons_self
    have hlt : n < (⟨token, n⟩ : Lexeme).stop := hstands.lt_stop
    have hstop : (⟨token, n⟩ : Lexeme).stop ≤ m := (h.within _ List.mem_cons_self).2
    obtain ⟨rest, hrest⟩ := hstands.chars
    have hdrop : text.drop n = token.chars ++ rest := hrest.symm
    have htail := ih _ (by omega) h.tail hstop rfl
    rw [Lexeme.stop, drop_append_length hdrop] at htail
    rw [hdrop]
    refine .lexeme hstands.shaped ?_ htail
    intro w hw c hc
    refine hstands.right w c hw ?_
    rw [← List.head?_drop, Lexeme.stop, drop_append_length hdrop]
    exact hc
  · rcases Nat.eq_or_lt_of_le hle with rfl | hlt
    · -- nothing is left
      rcases ls with - | ⟨l, tail⟩
      · exact .done
      · have hstop := (h.within l List.mem_cons_self).2
        have hpos := (h.stands l List.mem_cons_self).lt_stop
        have hstart := hlater l List.mem_cons_self
        omega
    · -- a character that no token covers
      have hn : n < text.length := by omega
      rw [List.drop_eq_getElem_cons hn]
      have hhead : text[n]? = some text[n] := List.getElem?_eq_getElem hn
      have hblank : Text.isBlank text[n] = true :=
        h.blank n _ (Nat.le_refl n) hlt hhead fun l hl => .inl (hlater l hl)
      exact .blank hblank (ih _ (by omega) (h.after_blank hhead hblank) hlt rfl)

end Layout

/-! ### The lexemes of a text -/

theorem scanFrom_nil (n : Nat) (found : List Lexeme) :
    scanFrom n found [] = .ok (found.reverse ++ [⟨.eof, n⟩]) :=
  congrArg Except.ok List.reverse_cons

theorem fresh_zero (text : List Char) : Fresh text 0 := fun i _ hi => absurd hi (Nat.succ_ne_zero i)

/-- A text that is laid out to its end has the lexemes of its layout. -/
theorem lexemes_of_covers {text : List Char} {ls : List Lexeme}
    (h : Covers text 0 text.length ls) : lexemes text = .ok (ls ++ [⟨.eof, text.length⟩]) := by
  have hcuts := h.cuts (Nat.zero_le _) (Nat.le_refl _)
  rw [List.drop_zero, List.drop_length] at hcuts
  show scanFrom 0 [] text = _
  rw [scanFrom_of_cuts hcuts, scanFrom_nil, List.append_nil, List.reverse_reverse]

/-- A text that is laid out up to an open quote is refused there. -/
theorem lexemes_of_unclosed {text : List Char} {p : Nat} (h : Unclosed text p) :
    lexemes text = .error p := by
  obtain ⟨⟨ls, hcovers⟩, hquote, hendless⟩ := h
  obtain ⟨hp, hget⟩ := List.getElem?_eq_some_iff.1 hquote
  have hcuts := hcovers.cuts (Nat.zero_le _) (Nat.le_of_lt hp)
  rw [List.drop_zero, List.drop_eq_getElem_cons hp, hget] at hcuts
  show scanFrom 0 [] text = _
  rw [scanFrom_of_cuts hcuts, scanFrom_of_not_closes hendless]

/-- Every text is laid out, to its end or up to an open quote. -/
theorem covers_or_unclosed (text : List Char) :
    (∃ ls, Covers text 0 text.length ls) ∨ ∃ p, Unclosed text p := by
  obtain ⟨ls, m, rest, hcuts, hrest⟩ := exists_cuts 0 text
  have hlength := hcuts.length_eq
  have hcovers := hcuts.covers (List.drop_zero) (fresh_zero text)
  have hdrop : text.drop m = rest := hcuts.drop_eq List.drop_zero
  rcases hrest with rfl | ⟨after, rfl, hendless⟩
  · obtain rfl : m = text.length := by simpa using hlength.symm
    exact .inl ⟨ls, hcovers⟩
  · refine .inr ⟨m, ⟨ls, hcovers⟩, getElem?_of_drop hdrop, ?_⟩
    rwa [drop_succ hdrop]

theorem Covers.increasing {text : List Char} {n m : Nat} {ls : List Lexeme}
    (h : Covers text n m ls) : ls.Pairwise fun l k => l.position < k.position := by
  refine h.apart.imp_of_mem fun {l k} hl _ hstop => ?_
  have hpos := (h.stands l hl).lt_stop
  omega

theorem Covers.layout {text : List Char} {ls : List Lexeme} (h : Covers text 0 text.length ls) :
    Layout text (ls ++ [⟨.eof, text.length⟩]) := by
  refine ⟨List.getLast?_concat, by rwa [List.dropLast_concat], ?_⟩
  refine List.pairwise_append.2 ⟨h.increasing, List.pairwise_singleton _ _, ?_⟩
  intro l hl k hk
  obtain rfl := List.mem_singleton.1 hk
  have hpos := (h.stands l hl).lt_stop
  have hstop := (h.within l hl).2
  show l.position < text.length
  omega

theorem Layout.eq_append {text : List Char} {ls : List Lexeme} (h : Layout text ls) :
    ls = ls.dropLast ++ [⟨.eof, text.length⟩] := by
  obtain ⟨ms, rfl⟩ := List.getLast?_eq_some_iff.1 h.ending
  rw [List.dropLast_concat]

theorem lexemes_eq_ok_iff {text : List Char} {ls : List Lexeme} :
    lexemes text = .ok ls ↔ Layout text ls := by
  constructor
  · intro h
    rcases covers_or_unclosed text with ⟨ms, hms⟩ | ⟨p, hp⟩
    · obtain rfl := Except.ok.inj ((lexemes_of_covers hms).symm.trans h)
      exact hms.layout
    · rw [lexemes_of_unclosed hp] at h
      cases h
  · intro h
    rw [lexemes_of_covers h.covers, ← h.eq_append]

theorem lexemes_eq_error_iff {text : List Char} {p : Nat} :
    lexemes text = .error p ↔ Unclosed text p := by
  constructor
  · intro h
    rcases covers_or_unclosed text with ⟨ms, hms⟩ | ⟨q, hq⟩
    · rw [lexemes_of_covers hms] at h
      cases h
    · obtain rfl := Except.error.inj ((lexemes_of_unclosed hq).symm.trans h)
      exact hq
  · exact lexemes_of_unclosed

end Scan

namespace Filter

open Scan

/-- A text has lexemes exactly if it is laid out as these; it is refused exactly at a
quote up to which it is laid out and which nothing closes.  One of both holds, and
not the other. -/
theorem lexemes_iff_layout (input : String) :
    (∀ ls, lexemes input = .ok ls ↔ Layout input.toList ls) ∧
      (∀ fault, lexemes input = .error fault ↔
        ∃ p, Unclosed input.toList p ∧
          fault = .refused input (some p) (.grammar .unclosedString)) ∧
      ((∃ ls, Layout input.toList ls) ↔ ¬ ∃ p, Unclosed input.toList p) := by
  unfold lexemes
  rcases hscan : Scan.lexemes input.toList with p | ls
  · have hp := lexemes_eq_error_iff.1 hscan
    refine ⟨fun ls => ?_, fun fault => ⟨?_, ?_⟩, ?_⟩
    · refine iff_of_false nofun fun h => ?_
      rw [lexemes_eq_ok_iff.2 h] at hscan
      cases hscan
    · rintro ⟨⟩
      exact ⟨p, hp, rfl⟩
    · rintro ⟨q, hq, rfl⟩
      obtain rfl := Except.error.inj ((lexemes_eq_error_iff.2 hq).symm.trans hscan)
      rfl
    · refine iff_of_false ?_ (not_not_intro ⟨p, hp⟩)
      rintro ⟨ls, h⟩
      rw [lexemes_eq_ok_iff.2 h] at hscan
      cases hscan
  · have hls := lexemes_eq_ok_iff.1 hscan
    have hclosed : ¬ ∃ p, Unclosed input.toList p := by
      rintro ⟨p, hp⟩
      rw [lexemes_eq_error_iff.2 hp] at hscan
      cases hscan
    refine ⟨fun ls' => ⟨?_, ?_⟩, fun fault => ?_, iff_of_true ⟨ls, hls⟩ hclosed⟩
    · rintro ⟨⟩
      exact hls
    · intro h
      exact congrArg Except.ok (Except.ok.inj (hscan.symm.trans (lexemes_eq_ok_iff.2 h)))
    · exact iff_of_false nofun fun ⟨p, hp, _⟩ => hclosed ⟨p, hp⟩

end Filter

end ScimQuery
