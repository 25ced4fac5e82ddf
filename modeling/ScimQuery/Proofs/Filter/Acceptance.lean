/-
ScimQuery/Proofs/Filter/Acceptance.lean

Which texts are filters, and what they are read as.  The four stages of reading
(limits, lexemes, grammar, assembly) are put together here.  Limits are valid when
each is between one and its ceiling (`validate_eq_ok_iff`).

Main result: under valid limits a text is read as a tree exactly when it is not
too long, its tokens derive a tree within the limits, and that tree becomes the
given one when its value paths are resolved (`parseWith_eq_ok_iff`).
-/
import ScimQuery.Filter
import ScimQuery.Proofs.Lexeme.Scanning
import ScimQuery.Proofs.Reading.Soundness

namespace ScimQuery

/-! ### Valid limits -/

namespace Limits

theorem check_eq_ok_iff {name : String} {value ceiling : Nat} :
    check name value ceiling = .ok () ↔ 0 < value ∧ value ≤ ceiling := by
  unfold check
  split
  · constructor
    · intro h
      cases h
    · omega
  · split
    · constructor
      · intro h
        cases h
      · omega
    · constructor
      · intro _
        omega
      · intro _
        rfl

/-- Limits are valid when each of them is between one and its ceiling. -/
theorem validate_eq_ok_iff {limits : Limits} :
    limits.validate = .ok () ↔
      (0 < limits.length ∧ limits.length ≤ ceiling.length) ∧
        (0 < limits.depth ∧ limits.depth ≤ ceiling.depth) ∧
          (0 < limits.operands ∧ limits.operands ≤ ceiling.operands) := by
  have hbind : ∀ {x y : Except LimitFault Unit},
      (x >>= fun _ => y) = .ok () ↔ x = .ok () ∧ y = .ok () := by
    intro x y
    cases x with
    | error fault => simp [bind, Except.bind]
    | ok u => simp [bind, Except.bind]
  unfold validate
  rw [hbind, hbind, check_eq_ok_iff, check_eq_ok_iff, check_eq_ok_iff]

end Limits

namespace Filter

open Reading Scan

/-! ### Stages of reading -/

/-- What the grammar makes of the lexemes of a text. -/
theorem ofLexemes_eq_ok_iff {limits : Limits} {input : String} {ls : List Lexeme}
    {ts : List Token} {e : Expr} (hls : ls.map Lexeme.token = ts ++ [.eof]) (heof : .eof ∉ ts)
    (hpos : 0 < limits.operands) :
    ofLexemes limits input ls = .ok e ↔
      ∃ u, Derives .filter false ts u ∧ e = u.resolve ∧ u.nesting ≤ limits.depth ∧
        u.operands ≤ limits.operands := by
  have hrun := @run_eq_ok_iff_derives limits input.length ls ts
  unfold ofLexemes Reading.events
  constructor
  · intro h
    rcases hr : run limits input.length {} ls with refusal | events
    · rw [hr] at h
      cases h
    · obtain ⟨u, hu, rfl, hdepth, hops⟩ := (hrun hls heof hpos).1 hr
      simp only [hr, bind, Except.bind, Assembly.assemble_events] at h
      exact ⟨u, hu, (Except.ok.inj h).symm, hdepth, hops⟩
  · rintro ⟨u, hu, rfl, hdepth, hops⟩
    rw [(hrun hls heof hpos).2 ⟨u, hu, rfl, hdepth, hops⟩]
    simp only [bind, Except.bind, Assembly.assemble_events]

/-- Which texts are read, and as what. -/
theorem parseWith_eq_ok_iff {limits : Limits} (hlimits : limits.validate = .ok ())
    {input : String} {e : Expr} :
    parseWith limits input = .ok e ↔
      input.utf8ByteSize ≤ limits.length ∧
        ∃ ts u, Scans input.toList ts ∧ Derives .filter false ts u ∧ e = u.resolve ∧
          u.nesting ≤ limits.depth ∧ u.operands ≤ limits.operands := by
  obtain ⟨-, -, hpos, -⟩ := Limits.validate_eq_ok_iff.1 hlimits
  have hparse : parseWith limits input =
      if limits.length < input.utf8ByteSize then
        .error (.ofGrammar input (.tooLong input.utf8ByteSize limits.length) none)
      else lexemes input >>= ofLexemes limits input := by
    simp only [parseWith, hlimits]
  rw [hparse]
  by_cases hlen : limits.length < input.utf8ByteSize
  · -- too long a text is refused before it is cut
    rw [if_pos hlen]
    constructor
    · intro h
      cases h
    · rintro ⟨hle, -⟩
      omega
  rw [if_neg hlen]
  constructor
  · intro h
    unfold lexemes at h
    rcases hls : Scan.lexemes input.toList with position | ls
    · rw [hls] at h
      cases h
    · rw [hls] at h
      obtain ⟨ts, hscans, htokens⟩ := scans_of_lexemes hls
      obtain ⟨u, hu⟩ := (ofLexemes_eq_ok_iff htokens hscans.eof_not_mem hpos).1 h
      exact ⟨Nat.not_lt.1 hlen, ts, u, hscans, hu⟩
  · rintro ⟨-, ts, u, hscans, hu⟩
    obtain ⟨ls, hls, htokens⟩ := lexemes_of_scans hscans
    unfold lexemes
    rw [hls]
    exact (ofLexemes_eq_ok_iff htokens hscans.eof_not_mem hpos).2 ⟨u, hu⟩

/-- Which texts are read within the default limits, and as what. -/
theorem parse_eq_ok_iff {input : String} {e : Expr} :
    parse input = .ok e ↔
      input.utf8ByteSize ≤ ({} : Limits).length ∧
        ∃ ts u, Scans input.toList ts ∧ Derives .filter false ts u ∧ e = u.resolve ∧
          u.nesting ≤ ({} : Limits).depth ∧ u.operands ≤ ({} : Limits).operands :=
  parseWith_eq_ok_iff rfl

end Filter

end ScimQuery
