/-
ScimQuery/Proofs/Expr/Writing.lean

The canonical text as characters and as tokens.  The printer walks chains of
connectives in a loop and puts pieces in front of other pieces; `written` gives the
same characters by recursion on the tree, and `tokens` gives the tokens that these
characters make.

Main results: `written` is what the printer writes (`toList_renderIn`), a group
in the place of added parentheses does not change it (`written_grouped`), and it
scans to `tokens` as long as every reference in it is a single word
(`scans_written`).

`plain` is the printer one would write first: a joined expression is its left
operand, the connective and its right operand, each printed by the same function
under the same scope.  It gives the text of the loop for every tree and every scope
(`renderIn_eq_plain`).  The invariant of the loop is `toList_join_pieces`; what is
left to show is that the tests for parentheses are the rule that `plain` spells out
(`parensLeft_iff`, `parensRight_iff`).
-/
import ScimQuery.Proofs.Expr.Shape
import ScimQuery.Proofs.Literal.ReadBack

namespace ScimQuery.Expr

/-! ### Characters -/

/-- Characters in parentheses, if these are asked for. -/
def parensIf (b : Bool) (cs : List Char) : List Char := if b then '(' :: (cs ++ [')']) else cs

/-- The characters of the text. -/
def written (scope : Option Attribute) : Expr → List Char
  | comparison a op v =>
    (a.render scope).toList ++ ' ' :: (op.keyword.toList ++ ' ' :: v.render.toList)
  | present a => (a.render scope).toList ++ ' ' :: "pr".toList
  | joined l c r =>
    parensIf (parensLeft c l) (l.written scope) ++
      ' ' :: (c.keyword.toList ++ ' ' :: parensIf (parensRight c r) (r.written scope))
  | group n e => (if n then "not ".toList else []) ++ '(' :: (e.written scope ++ [')'])
  | valuePath a e => (a.render scope).toList ++ '[' :: (e.written (some a) ++ [']'])

/-- Pieces put in front of others, as characters. -/
def Writes (operand : List String → List String) (cs : List Char) : Prop :=
  ∀ after, (String.join (operand after)).toList = cs ++ (String.join after).toList

theorem Writes.enclosed {operand : List String → List String} {cs : List Char}
    (h : Writes operand cs) (b : Bool) : Writes (Expr.enclosed b operand) (parensIf b cs) := by
  intro after
  cases b with
  | false => exact h after
  | true =>
    have hclose := h (")" :: after)
    simp only [Expr.enclosed, parensIf, String.join_cons, String.toList_append] at hclose ⊢
    simp [hclose]

/-- A link whose operand writes its characters is the connective between blanks, then
these characters. -/
theorem Writes.link {right : List String → List String} {cs : List Char} (h : Writes right cs)
    (c : Connective) (links : Links) (after : List String) :
    (String.join (Links.pieces ((c, right) :: links) after)).toList =
      ' ' :: (c.keyword.toList ++ ' ' :: (cs ++ (String.join (links.pieces after)).toList)) := by
  have hright := h (links.pieces after)
  rw [← hright]
  simp [Links.pieces]

/-- Wherever the loop stands, the text of the operand comes first and that of the links
after it. -/
theorem toList_join_pieces (e : Expr) (scope : Option Attribute) (links : Links)
    (after : List String) :
    (String.join (e.pieces scope links after)).toList =
      e.written scope ++ (String.join (links.pieces after)).toList := by
  induction e generalizing scope links after with
  | comparison a op v => simp [pieces, written]
  | present a => simp [pieces, written]
  | joined l c r ihl ihr =>
    have hlink := (Writes.enclosed (ihr scope []) (parensRight c r)).link c links after
    rw [pieces]
    cases hl : parensLeft c l with
    | true =>
      rw [if_pos rfl, Writes.enclosed (ihl scope []) true, hlink]
      simp [written, hl]
    | false =>
      rw [if_neg Bool.false_ne_true, ihl, hlink]
      simp [written, hl, parensIf]
  | group n e ih =>
    have hinner := Writes.enclosed (ih scope []) true (links.pieces after)
    cases n with
    | false => exact hinner
    | true =>
      simp only [pieces, written, if_pos, String.join_cons, String.toList_append, hinner]
      simp [parensIf]
  | valuePath a e ih => simp [pieces, written, ih, Links.pieces]

theorem toList_renderIn (e : Expr) (scope : Option Attribute) :
    (e.renderIn scope).toList = e.written scope := by
  rw [renderIn, toList_join_pieces]
  simp [Links.pieces]

theorem toList_render (e : Expr) : e.render.toList = e.written none := e.toList_renderIn none

theorem written_groupedIf (b : Bool) (e : Expr) (scope : Option Attribute) :
    (groupedIf b e).written scope = parensIf b (e.written scope) := by
  cases b <;> rfl

theorem written_grouped (e : Expr) (scope : Option Attribute) :
    e.grouped.written scope = e.written scope := by
  induction e generalizing scope with
  | comparison a op v => rfl
  | present a => rfl
  | joined l c r ihl ihr =>
    simp only [grouped, written, connective?_groupedIf_left, connective?_groupedIf_right,
      written_groupedIf, ihl, ihr]
    rfl
  | group n e ih => simp only [grouped, written, ih]
  | valuePath a e ih => simp only [grouped, written, ih]

/-- Groups in the place of added parentheses leave the text as it is. -/
theorem render_grouped (e : Expr) : e.grouped.render = e.render := by
  apply String.toList_inj.1
  rw [toList_render, toList_render, written_grouped]

/-! ### The rule for parentheses -/

theorem parensLeft_iff {c : Connective} {left : Expr} :
    parensLeft c left ↔ c = .and ∧ left.connective? = some .or := by
  simp [parensLeft]

theorem parensRight_iff {c : Connective} {right : Expr} :
    parensRight c right ↔
      right.connective?.isSome ∧ ¬(c = .or ∧ right.connective? = some .and) := by
  rcases hr : right.connective? with - | - | - <;> cases c <;> simp [parensRight, hr]

/-! ### Plain recursion -/

/-- The text by plain recursion on the tree. -/
def plain (scope : Option Attribute) : Expr → String
  | comparison a op v => a.render scope ++ " " ++ op.keyword ++ " " ++ v.render
  | present a => a.render scope ++ " pr"
  | joined l c r =>
    let left :=
      if c = .and ∧ l.connective? = some .or then "(" ++ l.plain scope ++ ")" else l.plain scope
    let right :=
      if r.connective?.isSome ∧ ¬(c = .or ∧ r.connective? = some .and) then
        "(" ++ r.plain scope ++ ")"
      else r.plain scope
    left ++ " " ++ c.keyword ++ " " ++ right
  | group negated e => (if negated then "not " else "") ++ "(" ++ e.plain scope ++ ")"
  | valuePath a e => a.render scope ++ "[" ++ e.plain (some a) ++ "]"

/-- An operand in parentheses under a test, as characters. -/
theorem toList_parenthesized {p : Prop} [Decidable p] {b : Bool} (h : b ↔ p) (s : String) :
    (if p then "(" ++ s ++ ")" else s).toList = parensIf b s.toList := by
  cases b with
  | false => rw [if_neg (fun hp => Bool.false_ne_true (h.2 hp))]; rfl
  | true => rw [if_pos (h.1 rfl)]; simp [parensIf]

/-- What plain recursion gives is what is written. -/
theorem toList_plain (e : Expr) (scope : Option Attribute) :
    (e.plain scope).toList = e.written scope := by
  induction e generalizing scope with
  | comparison a op v => simp [plain, written]
  | present a => simp [plain, written]
  | joined l c r ihl ihr =>
    simp only [plain, written, String.toList_append, toList_parenthesized parensLeft_iff,
      toList_parenthesized parensRight_iff, ihl, ihr]
    simp
  | group n e ih => cases n <;> simp [plain, written, ih]
  | valuePath a e ih => simp [plain, written, ih]

/-- The loop and plain recursion give the same text. -/
theorem renderIn_eq_plain (e : Expr) (scope : Option Attribute) :
    e.renderIn scope = e.plain scope := by
  apply String.toList_inj.1
  rw [toList_renderIn, toList_plain]

/-! ### Tokens -/

/-- The references as they are written, from left to right. -/
def references (scope : Option Attribute) : Expr → List String
  | comparison a _ _ => [a.render scope]
  | present a => [a.render scope]
  | joined l _ r => l.references scope ++ r.references scope
  | group _ e => e.references scope
  | valuePath a e => a.render scope :: e.references (some a)

/-- Tokens in parentheses, if these are asked for. -/
def parenTokensIf (b : Bool) (ts : List Token) : List Token :=
  if b then .openParen :: (ts ++ [.closeParen]) else ts

/-- The tokens of the text. -/
def tokens (scope : Option Attribute) : Expr → List Token
  | comparison a op v => [.word (a.render scope), .word op.keyword, v.token]
  | present a => [.word (a.render scope), .word "pr"]
  | joined l c r =>
    parenTokensIf (parensLeft c l) (l.tokens scope) ++
      .word c.keyword :: parenTokensIf (parensRight c r) (r.tokens scope)
  | group n e =>
    (if n then [.word "not"] else []) ++ .openParen :: (e.tokens scope ++ [.closeParen])
  | valuePath a e =>
    .word (a.render scope) :: .openBracket :: (e.tokens (some a) ++ [.closeBracket])

open Scan

theorem scans_keyword (op : CompareOp) : Scans op.keyword.toList [.word op.keyword] :=
  scans_word (by cases op <;> decide)

theorem scans_connective (c : Connective) : Scans c.keyword.toList [.word c.keyword] :=
  scans_word (by cases c <;> decide)

theorem scans_parensIf {cs : List Char} {ts : List Token} (b : Bool) (h : Scans cs ts) :
    Scans (parensIf b cs) (parenTokensIf b ts) := by
  cases b with
  | false => exact h
  | true => exact h.parens

/-- The text scans to the tokens of the tree. -/
theorem scans_written {e : Expr} {scope : Option Attribute}
    (h : ∀ w ∈ e.references scope, IsWord w.toList) :
    Scans (e.written scope) (e.tokens scope) := by
  induction e generalizing scope with
  | comparison a op v =>
    exact (scans_word (h _ List.mem_cons_self)).blank ((scans_keyword op).blank v.scans_render)
  | present a =>
    have hpr : Scans "pr".toList [.word "pr"] := scans_word (by decide)
    exact (scans_word (h _ List.mem_cons_self)).blank hpr
  | joined l c r ihl ihr =>
    have hl := ihl fun w hw => h w (List.mem_append_left _ hw)
    have hr := ihr fun w hw => h w (List.mem_append_right _ hw)
    exact (scans_parensIf _ hl).blank ((scans_connective c).blank (scans_parensIf _ hr))
  | group n e ih =>
    have hparens := (ih h).parens
    cases n with
    | false => exact hparens
    | true =>
      have hnot : Scans "not".toList [.word "not"] := scans_word (by decide)
      exact hnot.blank hparens
  | valuePath a e ih =>
    -- the bracket ends the word before it, so no blank is needed
    have hinner := ih fun w hw => h w (List.mem_cons_of_mem _ hw)
    exact (scans_word (h _ List.mem_cons_self)).brackets hinner

end ScimQuery.Expr
