/-
ScimQuery/Proofs/Lexeme/Scanning.lean

How the scanner cuts a text that is put together from words, quoted strings,
brackets and blanks.  `Scans cs ts` says that the characters `cs`, read from
between two lexemes, give the tokens `ts` and leave the scanner outside any
quoted string; what comes next may still lengthen the last word unless it is a
delimiter.

Main results: scans are put together by blanks and brackets (`Scans.blank`,
`Scans.parens`, `Scans.brackets`), a text scans to tokens exactly when these are
the tokens of its lexemes (`lexemes_of_scans`, `scans_of_lexemes`), every word
among them is a row of characters that are no delimiters (`Scans.isWord`), and a
word at the start ends at the first delimiter (`Scans.head_word`).
-/
import ScimQuery.Lexeme
import ScimQuery.Proofs.Text.Case

namespace ScimQuery.Scan

/-! ### Words -/

/-- A row of characters that the scanner keeps together. -/
def IsWord (cs : List Char) : Prop := cs ≠ [] ∧ ∀ c ∈ cs, isDelimiter c = false

theorem isWord_iff {cs : List Char} :
    IsWord cs ↔ (!cs.isEmpty && cs.all fun c => !isDelimiter c) = true := by
  simp [IsWord]

instance (cs : List Char) : Decidable (IsWord cs) := decidable_of_iff' _ isWord_iff

/-- A character that is no delimiter starts or goes on with a word. -/
theorem bracket?_of_not_isDelimiter {c : Char} (h : isDelimiter c = false) :
    Text.isBlank c = false ∧ bracket? c = none ∧ c ≠ '"' := by
  unfold isDelimiter at h
  simp only [Bool.or_eq_false_iff, beq_eq_false_iff_ne] at h
  obtain ⟨⟨hblank, hbracket⟩, hquote⟩ := h
  exact ⟨hblank, by simpa using hbracket, hquote⟩

/-! ### The scanner between and after lexemes -/

/-- The tokens found, the word at the end included. -/
def Scanner.tokens (s : Scanner) : List Token :=
  match s.place with
  | .word start read => ((wordLexeme start read :: s.found).map Lexeme.token).reverse
  | _ => (s.found.map Lexeme.token).reverse

/-- The scanner is between lexemes, after the given tokens. -/
structure Scanner.Between (s : Scanner) (ts : List Token) : Prop where
  place : s.place = .between
  tokens : s.tokens = ts

/-- The scanner is not in a quoted string, and has found the given tokens if no
word goes on. -/
structure Scanner.Past (s : Scanner) (ts : List Token) : Prop where
  place : s.place = .between ∨ ∃ start read, s.place = .word start read
  tokens : s.tokens = ts

theorem Scanner.Between.past {s : Scanner} {ts : List Token} (h : s.Between ts) : s.Past ts :=
  ⟨.inl h.place, h.tokens⟩

theorem feed_blank {s : Scanner} {ts : List Token} {c : Char} (h : s.Past ts)
    (hc : Text.isBlank c = true) : (feed s c).Between ts := by
  have hdelim : isDelimiter c = true := by simp [isDelimiter, hc]
  obtain ⟨hplace, htokens⟩ := h
  rcases hplace with hplace | ⟨start, read, hplace⟩
  · simp only [feed, hplace, enter, hc, if_true]
    exact ⟨rfl, by simpa [Scanner.tokens, hplace] using htokens⟩
  · simp only [feed, hplace, enter, hdelim, hc, if_true]
    exact ⟨rfl, by simpa [Scanner.tokens, hplace] using htokens⟩

theorem feed_bracket {s : Scanner} {ts : List Token} {c : Char} {token : Token} (h : s.Past ts)
    (hblank : Text.isBlank c = false) (hc : bracket? c = some token) :
    (feed s c).Between (ts ++ [token]) := by
  have hdelim : isDelimiter c = true := by simp [isDelimiter, hc]
  obtain ⟨hplace, rfl⟩ := h
  rcases hplace with hplace | ⟨start, read, hplace⟩
  · simp only [feed, hplace, enter, hblank, hc]
    exact ⟨rfl, by simp [Scanner.tokens, hplace]⟩
  · simp only [feed, hplace, enter, hdelim, hblank, hc, if_true]
    exact ⟨rfl, by simp [Scanner.tokens, hplace]⟩

theorem foldl_feed_word {start : Nat} {found : List Lexeme} {cs : List Char}
    (h : ∀ c ∈ cs, isDelimiter c = false) (read : List Char) (position : Nat) :
    cs.foldl feed ⟨.word start read, position, found⟩ =
      ⟨.word start (cs.reverse ++ read), position + cs.length, found⟩ := by
  induction cs generalizing read position with
  | nil => rfl
  | cons c cs ih =>
    have hc : isDelimiter c = false := h c List.mem_cons_self
    have hstep : feed ⟨.word start read, position, found⟩ c =
        ⟨.word start (c :: read), position + 1, found⟩ := by
      simp only [feed, hc]
      rfl
    rw [List.foldl_cons, hstep, ih fun d hd => h d (List.mem_cons_of_mem c hd)]
    simp [Nat.add_comm, Nat.add_left_comm]

/-- From between two lexemes, a word is read as one. -/
theorem foldl_feed_isWord {cs : List Char} (h : IsWord cs) (position : Nat)
    (found : List Lexeme) :
    cs.foldl feed ⟨.between, position, found⟩ =
      ⟨.word position cs.reverse, position + cs.length, found⟩ := by
  obtain ⟨hne, hall⟩ := h
  rcases cs with - | ⟨c, cs⟩
  · exact absurd rfl hne
  · obtain ⟨hblank, hbracket, hquote⟩ :=
      bracket?_of_not_isDelimiter (hall c List.mem_cons_self)
    have hstep : feed ⟨.between, position, found⟩ c = ⟨.word position [c], position + 1, found⟩ := by
      simp only [feed, enter, hblank, hbracket, hquote]
      rfl
    rw [List.foldl_cons, hstep, foldl_feed_word fun d hd => hall d (List.mem_cons_of_mem c hd)]
    simp [Nat.add_comm, Nat.add_left_comm]

/-! ### Texts that scan to tokens -/

/-- Read from between two lexemes, the characters give the tokens. -/
def Scans (cs : List Char) (ts : List Token) : Prop :=
  ∀ ⦃s : Scanner⦄ ⦃before : List Token⦄, s.Between before →
    (cs.foldl feed s).Past (before ++ ts)

theorem scans_nil : Scans [] [] := by
  intro s before h
  rw [List.append_nil]
  exact h.past

theorem scans_word {w : String} (h : IsWord w.toList) : Scans w.toList [.word w] := by
  intro s before hs
  obtain ⟨place, position, found⟩ := s
  obtain rfl : place = .between := hs.place
  rw [foldl_feed_isWord h]
  refine ⟨.inr ⟨_, _, rfl⟩, ?_⟩
  simp only [Scanner.tokens, wordLexeme, List.reverse_reverse, String.ofList_toList,
    List.map_cons, List.reverse_cons, ← hs.tokens]

/-- Two texts with a blank between them. -/
theorem Scans.blank {cs ds : List Char} {ts us : List Token} (h₁ : Scans cs ts)
    (h₂ : Scans ds us) : Scans (cs ++ ' ' :: ds) (ts ++ us) := by
  intro s before hs
  rw [List.foldl_append, List.foldl_cons, ← List.append_assoc]
  exact h₂ (feed_blank (h₁ hs) rfl)

/-- A text in brackets of either kind, after another one. -/
theorem Scans.enclosed {cs ds : List Char} {ts us : List Token} {opening closing : Char}
    {opens closes : Token} (h₁ : Scans cs ts) (h₂ : Scans ds us)
    (ho : Text.isBlank opening = false ∧ bracket? opening = some opens)
    (hc : Text.isBlank closing = false ∧ bracket? closing = some closes) :
    Scans (cs ++ opening :: (ds ++ [closing])) (ts ++ opens :: (us ++ [closes])) := by
  intro s before hs
  have hopen := feed_bracket (h₁ hs) ho.1 ho.2
  have hclose := feed_bracket (h₂ hopen) hc.1 hc.2
  rw [List.foldl_append, List.foldl_cons, List.foldl_append]
  have htokens : before ++ (ts ++ opens :: (us ++ [closes])) =
      before ++ ts ++ [opens] ++ us ++ [closes] := by simp
  rw [htokens]
  exact hclose.past

/-- A text in parentheses. -/
theorem Scans.parens {cs : List Char} {ts : List Token} (h : Scans cs ts) :
    Scans ('(' :: (cs ++ [')'])) (.openParen :: (ts ++ [.closeParen])) :=
  scans_nil.enclosed h ⟨rfl, rfl⟩ ⟨rfl, rfl⟩

/-- A text in square brackets after another one. -/
theorem Scans.brackets {cs ds : List Char} {ts us : List Token} (h₁ : Scans cs ts)
    (h₂ : Scans ds us) :
    Scans (cs ++ '[' :: (ds ++ [']'])) (ts ++ .openBracket :: (us ++ [.closeBracket])) :=
  h₁.enclosed h₂ ⟨rfl, rfl⟩ ⟨rfl, rfl⟩

/-! ### Quoted strings -/

/-- What stands between two quotes: a backslash takes the next character along,
and no other quote is among the characters. -/
inductive Body : List Char → Prop
  | nil : Body []
  | plain {c cs} : c ≠ '"' → c ≠ '\\' → Body cs → Body (c :: cs)
  | escape {c cs} : Body cs → Body ('\\' :: c :: cs)

theorem Body.append {cs ds : List Char} (h₁ : Body cs) (h₂ : Body ds) : Body (cs ++ ds) := by
  induction h₁ with
  | nil => exact h₂
  | plain hq hb _ ih => exact .plain hq hb ih
  | escape _ ih => exact .escape ih

theorem foldl_feed_body {start : Nat} {found : List Lexeme} {cs : List Char} (h : Body cs)
    (read : List Char) (position : Nat) :
    ∃ position', cs.foldl feed ⟨.quoted start read false, position, found⟩ =
      ⟨.quoted start (cs.reverse ++ read) false, position', found⟩ := by
  induction h generalizing read position with
  | nil => exact ⟨position, rfl⟩
  | @plain c cs hq hb _ ih =>
    have hstep : feed ⟨.quoted start read false, position, found⟩ c =
        ⟨.quoted start (c :: read) false, position + 1, found⟩ := by
      simp only [feed, hq, beq_eq_false_iff_ne.2 hb]
      rfl
    rw [List.foldl_cons, hstep]
    simpa using ih (c :: read) (position + 1)
  | @escape c cs _ ih =>
    have hstep : feed (feed ⟨.quoted start read false, position, found⟩ '\\') c =
        ⟨.quoted start (c :: '\\' :: read) false, position + 1 + 1, found⟩ := rfl
    rw [List.foldl_cons, List.foldl_cons, hstep]
    simpa using ih (c :: '\\' :: read) (position + 1 + 1)

theorem scans_quoted {cs : List Char} (h : Body cs) :
    Scans ('"' :: (cs ++ ['"'])) [.quoted (String.ofList ('"' :: (cs ++ ['"'])))] := by
  intro s before hs
  obtain ⟨place, position, found⟩ := s
  obtain rfl : place = .between := hs.place
  have hopen : feed ⟨.between, position, found⟩ '"' =
      ⟨.quoted position ['"'] false, position + 1, found⟩ := rfl
  obtain ⟨position', hbody⟩ := foldl_feed_body h ['"'] (position + 1)
  rw [List.foldl_cons, hopen, List.foldl_append, hbody]
  refine Scanner.Between.past ⟨rfl, ?_⟩
  have hread : ('"' :: (cs.reverse ++ ['"'])).reverse = '"' :: (cs ++ ['"']) := by simp
  simp only [Scanner.tokens, List.foldl_cons, List.foldl_nil, feed, if_true, List.map_cons,
    List.reverse_cons, hread, ← hs.tokens]

/-! ### Lexemes of a whole text -/

/-- A text that scans to tokens has these lexemes and the mark for the end. -/
theorem lexemes_of_scans {cs : List Char} {ts : List Token} (h : Scans cs ts) :
    ∃ ls, lexemes cs = .ok ls ∧ ls.map Lexeme.token = ts ++ [.eof] := by
  have hstart : (⟨.between, 0, []⟩ : Scanner).Between [] := ⟨rfl, rfl⟩
  obtain ⟨hplace, htokens⟩ := h hstart
  rcases hplace with hplace | ⟨start, read, hplace⟩
  · refine ⟨_, by simp only [lexemes, finish, hplace]; rfl, ?_⟩
    rw [← List.nil_append ts, ← htokens]
    simp [Scanner.tokens, hplace]
  · refine ⟨_, by simp only [lexemes, finish, hplace]; rfl, ?_⟩
    rw [← List.nil_append ts, ← htokens]
    simp [Scanner.tokens, hplace]

/-- The token is not the mark for the end, and if it is a word, its characters
are no delimiters. -/
structure Sound (l : Lexeme) : Prop where
  ne_eof : l.token ≠ .eof
  word : ∀ w, l.token = .word w → IsWord w.toList

/-- Every word found is one, and so is the word being read. -/
structure Scanner.Sound (s : Scanner) : Prop where
  found : ∀ l ∈ s.found, Scan.Sound l
  word : ∀ start read, s.place = .word start read → IsWord read.reverse

theorem sound_wordLexeme {start : Nat} {read : List Char} (h : IsWord read.reverse) :
    Sound (wordLexeme start read) := by
  refine ⟨nofun, ?_⟩
  intro w hw
  obtain rfl := Token.word.inj hw
  rwa [String.toList_ofList]

theorem sound_bracket {c : Char} {token : Token} {position : Nat}
    (h : bracket? c = some token) : Sound ⟨token, position⟩ := by
  unfold bracket? at h
  repeat' split at h
  all_goals cases h
  all_goals exact ⟨nofun, nofun⟩

theorem sound_enter {found : List Lexeme} {position : Nat} {c : Char}
    (h : ∀ l ∈ found, Sound l) : (enter found position c).Sound := by
  unfold enter
  split
  · exact ⟨h, nofun⟩
  · rename_i hblank
    split
    · rename_i token htoken
      refine ⟨?_, nofun⟩
      intro l hl
      rcases List.mem_cons.1 hl with rfl | hl
      · exact sound_bracket htoken
      · exact h l hl
    · rename_i hbracket
      split
      · exact ⟨h, nofun⟩
      · rename_i hquote
        refine ⟨h, ?_⟩
        intro start read hplace
        cases hplace
        refine ⟨List.cons_ne_nil _ _, ?_⟩
        intro d hd
        obtain rfl := List.mem_singleton.1 hd
        simpa [isDelimiter, hbracket, hquote] using hblank

theorem sound_feed {s : Scanner} (h : s.Sound) (c : Char) : (feed s c).Sound := by
  obtain ⟨hfound, hword⟩ := h
  unfold feed
  split
  · exact sound_enter hfound
  · rename_i start read hplace
    have hread := hword start read hplace
    split
    · apply sound_enter
      intro l hl
      rcases List.mem_cons.1 hl with rfl | hl
      · exact sound_wordLexeme hread
      · exact hfound l hl
    · rename_i hdelim
      refine ⟨hfound, ?_⟩
      intro start' read' hplace'
      cases hplace'
      refine ⟨by simp, ?_⟩
      intro d hd
      rw [List.reverse_cons] at hd
      rcases List.mem_append.1 hd with hd | hd
      · exact hread.2 d hd
      · obtain rfl := List.mem_singleton.1 hd
        simpa using hdelim
  · exact ⟨hfound, nofun⟩
  · split
    · refine ⟨?_, nofun⟩
      intro l hl
      rcases List.mem_cons.1 hl with rfl | hl
      · exact ⟨nofun, nofun⟩
      · exact hfound l hl
    · exact ⟨hfound, nofun⟩

theorem sound_foldl_feed {s : Scanner} (h : s.Sound) (cs : List Char) :
    (cs.foldl feed s).Sound := by
  induction cs generalizing s with
  | nil => exact h
  | cons c cs ih => exact ih (sound_feed h c)

/-- The lexemes of a text end with the mark for the end and hold no other one;
every word among them is a row of characters that are no delimiters. -/
theorem sound_of_lexemes {cs : List Char} {ls : List Lexeme} (h : lexemes cs = .ok ls) :
    ∃ ts, ls.map Lexeme.token = ts ++ [.eof] ∧ .eof ∉ ts ∧
      ∀ w, .word w ∈ ts → IsWord w.toList := by
  have hstart : (⟨.between, 0, []⟩ : Scanner).Sound := ⟨by simp, nofun⟩
  have hsound := sound_foldl_feed hstart cs
  suffices hlist : ∃ found position, ls = (⟨.eof, position⟩ :: found).reverse ∧
      ∀ l ∈ found, Sound l by
    obtain ⟨found, position, rfl, hfound⟩ := hlist
    refine ⟨(found.reverse.map Lexeme.token), by simp, ?_, ?_⟩
    · intro hmem
      obtain ⟨l, hl, heof⟩ := List.mem_map.1 hmem
      exact (hfound l (List.mem_reverse.1 hl)).ne_eof heof
    · intro w hmem
      obtain ⟨l, hl, hw⟩ := List.mem_map.1 hmem
      exact (hfound l (List.mem_reverse.1 hl)).word w hw
  unfold lexemes finish at h
  split at h
  · cases h
    exact ⟨_, _, rfl, hsound.found⟩
  · rename_i start read hplace
    cases h
    refine ⟨_, _, rfl, ?_⟩
    intro l hl
    rcases List.mem_cons.1 hl with rfl | hl
    · exact sound_wordLexeme (hsound.word start read hplace)
    · exact hsound.found l hl
  · cases h

theorem Scans.sound {cs : List Char} {ts : List Token} (h : Scans cs ts) :
    .eof ∉ ts ∧ ∀ w, .word w ∈ ts → IsWord w.toList := by
  obtain ⟨ls, hls, htokens⟩ := lexemes_of_scans h
  obtain ⟨ts', htokens', heof, hwords⟩ := sound_of_lexemes hls
  obtain rfl : ts = ts' := List.append_cancel_right (htokens.symm.trans htokens')
  exact ⟨heof, hwords⟩

/-- A text scans to one list of tokens only. -/
theorem Scans.unique {cs : List Char} {ts us : List Token} (h₁ : Scans cs ts)
    (h₂ : Scans cs us) : ts = us := by
  have hstart : (⟨.between, 0, []⟩ : Scanner).Between [] := ⟨rfl, rfl⟩
  exact (h₁ hstart).tokens.symm.trans (h₂ hstart).tokens

theorem Scans.eof_not_mem {cs : List Char} {ts : List Token} (h : Scans cs ts) : .eof ∉ ts :=
  h.sound.1

theorem Scans.isWord {cs : List Char} {ts : List Token} (h : Scans cs ts) {w : String}
    (hw : .word w ∈ ts) : IsWord w.toList :=
  h.sound.2 w hw

/-! ### Where the scanner starts -/

/-- The same place, up to positions. -/
inductive Place.Like : Place → Place → Prop
  | between : Like .between .between
  | word {start start' read} : Like (.word start read) (.word start' read)
  | quoted {start start' read escaped} :
      Like (.quoted start read escaped) (.quoted start' read escaped)

/-- The scanner `s` has come as far as `s₀`, but had found the tokens `before`
when it started. -/
structure Scanner.Follows (before : List Token) (s s₀ : Scanner) : Prop where
  place : s.place.Like s₀.place
  found : s.found.map Lexeme.token = s₀.found.map Lexeme.token ++ before.reverse

theorem follows_enter {before : List Token} {found found₀ : List Lexeme}
    (h : found.map Lexeme.token = found₀.map Lexeme.token ++ before.reverse)
    (position position₀ : Nat) (c : Char) :
    (enter found position c).Follows before (enter found₀ position₀ c) := by
  unfold enter
  by_cases hblank : Text.isBlank c = true
  · simp only [hblank, if_true]
    exact ⟨.between, h⟩
  · simp only [hblank]
    rcases bracket? c with - | token
    · by_cases hquote : c = '"'
      · simp only [hquote, if_true]
        exact ⟨.quoted, h⟩
      · simp only [hquote, if_false]
        exact ⟨.word, h⟩
    · refine ⟨.between, ?_⟩
      show token :: found.map Lexeme.token = token :: (found₀.map Lexeme.token ++ before.reverse)
      rw [h]

theorem follows_feed {before : List Token} {s s₀ : Scanner} (h : s.Follows before s₀)
    (c : Char) : (feed s c).Follows before (feed s₀ c) := by
  obtain ⟨place, position, found⟩ := s
  obtain ⟨place₀, position₀, found₀⟩ := s₀
  obtain ⟨hplace, hfound⟩ := h
  replace hfound : found.map Lexeme.token = found₀.map Lexeme.token ++ before.reverse := hfound
  have hcons : ∀ l l₀ : Lexeme, l.token = l₀.token → (l :: found).map Lexeme.token =
      (l₀ :: found₀).map Lexeme.token ++ before.reverse := by
    intro l l₀ hl
    rw [List.map_cons, List.map_cons, List.cons_append, hl, hfound]
  cases hplace with
  | between => exact follows_enter hfound position position₀ c
  | @word start start₀ read =>
    by_cases hc : isDelimiter c = true
    · simp only [feed, hc, if_true]
      exact follows_enter (hcons (wordLexeme start read) (wordLexeme start₀ read) rfl)
        position position₀ c
    · simp only [feed, hc]
      exact ⟨.word, hfound⟩
  | @quoted start start₀ read escaped =>
    cases escaped with
    | true => exact ⟨.quoted, hfound⟩
    | false =>
      by_cases hc : c = '"'
      · simp only [feed, hc, if_true]
        exact ⟨.between, hcons _ _ rfl⟩
      · simp only [feed, hc, if_false]
        exact ⟨.quoted, hfound⟩

theorem follows_foldl_feed {before : List Token} {s s₀ : Scanner} (h : s.Follows before s₀)
    (cs : List Char) : (cs.foldl feed s).Follows before (cs.foldl feed s₀) := by
  induction cs generalizing s s₀ with
  | nil => exact h
  | cons c cs ih => exact ih (follows_feed h c)

theorem Scanner.Follows.tokens {before : List Token} {s s₀ : Scanner}
    (h : s.Follows before s₀) : s.tokens = before ++ s₀.tokens := by
  obtain ⟨place, position, found⟩ := s
  obtain ⟨place₀, position₀, found₀⟩ := s₀
  obtain ⟨hplace, hfound⟩ := h
  replace hfound : found.map Lexeme.token = found₀.map Lexeme.token ++ before.reverse := hfound
  cases hplace with
  | between => simp [Scanner.tokens, hfound]
  | word => simp [Scanner.tokens, wordLexeme, hfound]
  | quoted => simp [Scanner.tokens, hfound]

/-- A word ends at the first delimiter after it, whatever follows. -/
theorem Scans.head_word {w rest : List Char} {d : Char} {ts : List Token}
    (h : Scans (w ++ d :: rest) ts) (hw : IsWord w) (hd : isDelimiter d = true) :
    ∃ us, ts = .word (String.ofList w) :: us := by
  have hstart : (⟨.between, 0, []⟩ : Scanner).Between [] := ⟨rfl, rfl⟩
  have htokens := (h hstart).tokens
  have hfeed : feed ⟨.word 0 w.reverse, 0 + w.length, []⟩ d =
      enter [wordLexeme 0 w.reverse] (0 + w.length) d := if_pos hd
  rw [List.foldl_append, foldl_feed_isWord hw, List.foldl_cons, hfeed] at htokens
  -- from here on the scanner goes as if it had started at the delimiter
  have hfound : [wordLexeme 0 w.reverse].map Lexeme.token =
      ([] : List Lexeme).map Lexeme.token ++ [Token.word (String.ofList w)].reverse := by
    simp [wordLexeme]
  have hfollows := follows_foldl_feed (follows_enter hfound (0 + w.length) 0 d) rest
  exact ⟨_, htokens.symm.trans hfollows.tokens⟩

/-- A text with lexemes scans to their tokens, wherever it is read. -/
theorem scans_of_lexemes {cs : List Char} {ls : List Lexeme} (h : lexemes cs = .ok ls) :
    ∃ ts, Scans cs ts ∧ ls.map Lexeme.token = ts ++ [.eof] := by
  refine ⟨(cs.foldl feed ⟨.between, 0, []⟩).tokens, ?_, ?_⟩
  · intro s before hs
    have hstart : s.Follows before ⟨.between, 0, []⟩ := by
      obtain ⟨place, position, found⟩ := s
      obtain rfl : place = .between := hs.place
      refine ⟨.between, ?_⟩
      rw [← hs.tokens]
      simp [Scanner.tokens]
    have hfollows := follows_foldl_feed hstart cs
    refine ⟨?_, hfollows.tokens⟩
    -- the scan from the start did not end in a string, so this one does not either
    unfold lexemes finish at h
    revert h
    have hplace := hfollows.place
    generalize (cs.foldl feed s).place = place at hplace ⊢
    generalize (cs.foldl feed ⟨.between, 0, []⟩) = s₀ at hplace ⊢
    intro h
    cases hp : s₀.place with
    | between =>
      rw [hp] at hplace
      cases hplace
      exact .inl rfl
    | word start read =>
      rw [hp] at hplace
      cases hplace
      exact .inr ⟨_, _, rfl⟩
    | quoted start read escaped =>
      rw [hp] at h
      cases h
  · unfold lexemes finish at h
    revert h
    generalize cs.foldl feed ⟨.between, 0, []⟩ = s₀
    obtain ⟨place₀, position₀, found₀⟩ := s₀
    intro h
    cases place₀ with
    | between =>
      cases h
      simp [Scanner.tokens]
    | word =>
      cases h
      simp [Scanner.tokens]
    | quoted => cases h

end ScimQuery.Scan
