/-
ScimQuery/Proofs/Literal/Wire.lean

Values on the way through a text.  The written form of a value stands in a text
with something after it; the scanner has to take it as one lexeme, no shorter and
no longer, and the reader has to make the value of it again.

Scanning does not depend on where it starts: what comes later in a text is cut as
it would be by itself, only at later positions (`Cuts.later`).

Main result: before the end, a blank or a closing bracket, the written form of a
value is a single lexeme that is read as this value (`lexemes_render_read`).
-/
import ScimQuery.Proofs.Filter.ReadBack
import ScimQuery.Proofs.Lexeme.Layout

namespace ScimQuery

/-- The lexeme at a position so much later. -/
def Lexeme.later (k : Nat) (l : Lexeme) : Lexeme := ⟨l.token, l.position + k⟩

namespace Scan

/-! ### Scanning at later positions -/

theorem Cuts.later {n m : Nat} {cs rest : List Char} {ls : List Lexeme} (h : Cuts n cs ls m rest)
    (k : Nat) : Cuts (n + k) cs (ls.map (Lexeme.later k)) (m + k) rest := by
  induction h with
  | done => exact .done
  | blank hc _ ih =>
    rw [Nat.add_right_comm] at ih
    exact .blank hc ih
  | lexeme hshaped hend _ ih =>
    rw [Nat.add_right_comm] at ih
    exact .lexeme hshaped hend ih

/-- What follows the lexemes found is cut as it is by itself. -/
theorem scanFrom_eq (k : Nat) (found : List Lexeme) (cs : List Char) :
    (∀ ls, lexemes cs = .ok ls →
        scanFrom k found cs = .ok (found.reverse ++ ls.map (Lexeme.later k))) ∧
      ∀ p, lexemes cs = .error p → scanFrom k found cs = .error (p + k) := by
  obtain ⟨ls, m, rest, hcuts, hrest⟩ := exists_cuts 0 cs
  have hlater := hcuts.later k
  rw [Nat.zero_add] at hlater
  have hlexemes : lexemes cs = scanFrom m (ls.reverse ++ []) rest := scanFrom_of_cuts hcuts []
  rw [hlexemes, scanFrom_of_cuts hlater]
  rcases hrest with rfl | ⟨after, rfl, hendless⟩
  · rw [scanFrom_nil, scanFrom_nil]
    refine ⟨?_, nofun⟩
    rintro _ ⟨⟩
    simp [Lexeme.later]
  · rw [scanFrom_of_not_closes hendless, scanFrom_of_not_closes hendless]
    refine ⟨nofun, ?_⟩
    rintro _ ⟨⟩
    rfl

end Scan

namespace Literal

open Scan

/-! ### One lexeme -/

theorem token_eq (v : Literal) : v.token = .word v.render ∨ v.token = .quoted v.render := by
  cases v with
  | text s => exact .inr rfl
  | _ => exact .inl rfl

theorem chars_token (v : Literal) : v.token.chars = v.render.toList := by
  rcases v.token_eq with h | h <;> rw [h] <;> rfl

/-- The token is written as tokens are, for it is found in its own text. -/
theorem shaped_token (v : Literal) : Shaped v.token := by
  obtain ⟨ls, hls, htokens⟩ := lexemes_of_scans v.scans_render
  obtain ⟨l, ls', rfl, hl, hrest⟩ := List.map_eq_cons_iff.1 htokens
  obtain ⟨l', ls'', rfl, -, -⟩ := List.map_eq_cons_iff.1 hrest
  have hlayout := lexemes_eq_ok_iff.1 hls
  rw [← hl]
  exact (hlayout.covers.stands l List.mem_cons_self).shaped

/-- The lexeme of a value, then those of what follows it. -/
theorem lexemes_render_append (v : Literal) {rest : List Char}
    (h : ∀ c ∈ rest.head?, isDelimiter c = true) :
    lexemes (v.render.toList ++ rest) =
      scanFrom v.render.toList.length [⟨v.token, 0⟩] rest := by
  show scanFrom 0 [] (v.render.toList ++ rest) = _
  rw [← chars_token, scanFrom_lexeme v.shaped_token fun _ _ => h, Nat.zero_add]

theorem read_render {v : Literal} (h : v.isFinite = true) : read v.render = .ok v := by
  rw [read, ofRaw?_render h]

/-- The written form of a value that has a spelling is one lexeme, a word or a string,
before the end, a blank or a closing bracket; what follows is cut as it is by itself.
The lexeme is read as the value, so a text is never read as anything else. -/
theorem lexemes_render_read {v : Literal} (hv : v.isFinite = true) {rest : List Char}
    (hrest : ∀ c ∈ rest.head?, Text.isBlank c = true ∨ c = ')' ∨ c = ']') :
    (v.token = .word v.render ∨ v.token = .quoted v.render) ∧
      (∀ ls, lexemes rest = .ok ls → lexemes (v.render.toList ++ rest) =
        .ok (⟨v.token, 0⟩ :: ls.map (Lexeme.later v.render.toList.length))) ∧
      (∀ p, lexemes rest = .error p →
        lexemes (v.render.toList ++ rest) = .error (p + v.render.toList.length)) ∧
      read v.render = .ok v ∧ v.same v = true := by
  have hdelimiter : ∀ c ∈ rest.head?, isDelimiter c = true := by
    intro c hc
    rcases hrest c hc with hblank | rfl | rfl
    · exact isDelimiter_of_isBlank hblank
    · rfl
    · rfl
  rw [v.lexemes_render_append hdelimiter]
  obtain ⟨hok, herror⟩ := scanFrom_eq v.render.toList.length [⟨v.token, 0⟩] rest
  exact ⟨v.token_eq, hok, herror, read_render hv, same_refl hv⟩

/-- A text that ends in a backslash and has a quote, an apostrophe and a control character
in it, before a closing parenthesis. -/
theorem lexemes_render_escaped :
    lexemes ((text "\"it's\x01\\").render.toList ++ [')']) =
        .ok [⟨.quoted "\"\\\"it's\\u0001\\\\\"", 0⟩, ⟨.closeParen, 16⟩, ⟨.eof, 17⟩] ∧
      read "\"\\\"it's\\u0001\\\\\"" = .ok (text "\"it's\x01\\") := by
  have hlater : lexemes [')'] = .ok [⟨.closeParen, 0⟩, ⟨.eof, 1⟩] := rfl
  have hend : ∀ c ∈ [')'].head?, Text.isBlank c = true ∨ c = ')' ∨ c = ']' := by simp
  obtain ⟨-, hok, -, hread, -⟩ := lexemes_render_read (v := text "\"it's\x01\\") rfl hend
  exact ⟨hok _ hlater, hread⟩

end Literal

end ScimQuery
