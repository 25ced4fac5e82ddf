/-
ScimQuery/Proofs/Filter/Unambiguity.lean

Lexemes and the tree they stand for, where no limit gets in the way.  A tree is
nested no deeper, and has no more operands, than the tokens that derive it are
many (`Derives.le_length`), so limits above that number refuse nothing.

Main result: under such limits lexemes are read as a tree exactly when they
derive one that becomes it when its value paths are resolved, and they derive no
second one (`ofLexemes_eq_ok_iff_derives`).
-/
import ScimQuery.Proofs.Filter.Acceptance

namespace ScimQuery

namespace Reading

/-- Every bracket and every operand of a tree has a token of its own. -/
theorem Derives.le_length {layer : Layer} {inside : Bool} {ts : List Token} {u : Expr}
    (h : Derives layer inside ts u) : u.nesting ≤ ts.length ∧ u.operands ≤ ts.length := by
  induction h with
  | conjunction _ ih => exact ih
  | operand _ ih => exact ih
  | or _ _ _ ihl ihr =>
    simp only [Expr.nesting, Expr.operands, List.length_append, List.length_cons]
    omega
  | and _ _ _ ihl ihr =>
    simp only [Expr.nesting, Expr.operands, List.length_append, List.length_cons]
    omega
  | group _ ih =>
    simp only [Expr.nesting, Expr.operands, List.length_append, List.length_cons]
    omega
  | negated _ _ ih =>
    simp only [Expr.nesting, Expr.operands, List.length_append, List.length_cons]
    omega
  | valuePath _ _ ih =>
    simp only [Expr.nesting, Expr.operands, List.length_append, List.length_cons]
    omega
  | present _ _ => exact ⟨Nat.zero_le _, Nat.succ_pos _⟩
  | comparison _ _ _ _ => exact ⟨Nat.zero_le _, Nat.succ_pos _⟩

end Reading

namespace Filter

open Reading

/-- Within limits above the number of lexemes, reading accepts exactly what the
grammar derives and gives the derived tree with its value paths resolved; the
grammar derives one tree at most. -/
theorem ofLexemes_eq_ok_iff_derives {limits : Limits} {ls : List Lexeme} {ts : List Token}
    (hls : ls.map Lexeme.token = ts ++ [.eof]) (heof : .eof ∉ ts)
    (hdepth : ls.length < limits.depth) (hops : ls.length < limits.operands) (input : String) :
    (∀ t, ofLexemes limits input ls = .ok t ↔
        ∃ u, Derives .filter false ts u ∧ t = u.resolve) ∧
      ∀ u v, Derives .filter false ts u → Derives .filter false ts v → u = v := by
  have hlength : ls.length = ts.length + 1 := by
    simpa using congrArg List.length hls
  refine ⟨?_, fun u v hu hv => hu.unique hv⟩
  intro t
  rw [ofLexemes_eq_ok_iff hls heof (by omega)]
  constructor
  · rintro ⟨u, hu, ht, -, -⟩
    exact ⟨u, hu, ht⟩
  · rintro ⟨u, hu, ht⟩
    obtain ⟨hnesting, hoperands⟩ := hu.le_length
    exact ⟨u, hu, ht, by omega, by omega⟩

/-- A negated group, an `or` and a value path, with keywords in mixed case. -/
theorem ofLexemes_negated_or_valuePath :
    let ts : List Token :=
      [.word "NOT", .openParen, .word "a", .word "Pr", .closeParen, .word "oR", .word "emails",
        .openBracket, .word "type", .word "EQ", .quoted "\"work\"", .closeBracket]
    let ls : List Lexeme := (ts ++ [Token.eof]).map (Lexeme.mk · 0)
    let u : Expr :=
      .joined (.group true (.present ⟨none, "a", none⟩)) .or
        (.valuePath ⟨none, "emails", none⟩
          (.comparison ⟨none, "type", none⟩ .eq (.text "work")))
    ofLexemes { depth := 14, operands := 14 } "" ls = .ok u.resolve ∧
      ∀ v, Derives .filter false ts v → u = v := by
  intro ts ls u
  have ha : Derives .operand false [.word "a", .word "Pr"] (.present ⟨none, "a", none⟩) :=
    .present rfl rfl
  have htype : Derives .operand true [.word "type", .word "EQ", .quoted "\"work\""]
      (.comparison ⟨none, "type", none⟩ .eq (.text "work")) :=
    .comparison rfl rfl (.quoted _) rfl
  have hemails : Attribute.ofPath? "emails" = some ⟨none, "emails", none⟩ := rfl
  have hu : Derives .filter false ts u :=
    .or (.conjunction (.operand (.negated rfl ha.filter))) rfl
      (.operand (.valuePath hemails htype.filter))
  obtain ⟨hread, hunique⟩ := @ofLexemes_eq_ok_iff_derives { depth := 14, operands := 14 } ls ts
    rfl (by decide) (by decide) (by decide) ""
  exact ⟨(hread u.resolve).2 ⟨u, hu, rfl⟩, fun v hv => hunique u v hu hv⟩

end Filter

end ScimQuery
