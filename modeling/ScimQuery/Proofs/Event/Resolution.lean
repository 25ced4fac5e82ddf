/-
ScimQuery/Proofs/Event/Resolution.lean

What a tree told by events becomes.  Assembling makes each value path with
`Expr.under`, so the bare names inside it are put under its attribute as soon as
its brackets are told.  `resolve` does the same to a whole tree at once.

Main results: assembling the events of a tree gives the resolved tree
(`assemble_events`), because its events, fed to any stack, put exactly that tree
on top of it (`feedAll_events`); and no other tree has the same events
(`events_append_inj`).
-/
import ScimQuery.Event
import ScimQuery.Proofs.Expr.Shape

namespace ScimQuery

namespace Expr

/-- The tree in which every value path has the bare names inside it under its
attribute. -/
def resolve : Expr → Expr
  | comparison a op v => comparison a op v
  | present a => present a
  | joined l c r => joined l.resolve c r.resolve
  | group n e => group n e.resolve
  | valuePath a e => under a e.resolve

@[simp] theorem nesting_resolve (e : Expr) : e.resolve.nesting = e.nesting := by
  induction e with
  | comparison a op v => rfl
  | present a => rfl
  | joined l c r ihl ihr => simp only [resolve, nesting, ihl, ihr]
  | group n e ih => simp only [resolve, nesting, ih]
  | valuePath a e ih => simp only [resolve, under, nesting, nesting_scopedUnder, ih]

@[simp] theorem operands_resolve (e : Expr) : e.resolve.operands = e.operands := by
  induction e with
  | comparison a op v => rfl
  | present a => rfl
  | joined l c r ihl ihr => simp only [resolve, operands, ihl, ihr]
  | group n e ih => exact ih
  | valuePath a e ih => simp only [resolve, under, operands, operands_scopedUnder, ih]

theorem resolve_of_not_hasValuePath {e : Expr} (hflat : e.hasValuePath = false) :
    e.resolve = e := by
  induction e with
  | comparison a op v => rfl
  | present a => rfl
  | joined l c r ihl ihr =>
    obtain ⟨hl, hr⟩ := Bool.or_eq_false_iff.1 hflat
    rw [resolve, ihl hl, ihr hr]
  | group n e ih => rw [resolve, ih hflat]
  | valuePath a e ih => cases hflat

/-! ### Events of a tree -/

@[simp] theorem events_comparison (a : Attribute) (op : CompareOp) (v : Literal) :
    (comparison a op v).events = [.comparison a op v] := rfl

@[simp] theorem events_present (a : Attribute) : (present a).events = [.present a] := rfl

@[simp] theorem events_joined (l r : Expr) (c : Connective) :
    (joined l c r).events = l.events ++ r.events ++ [.joined c] := by
  show l.eventsOnto (r.eventsOnto [.joined c]) = _
  rw [eventsOnto_eq, eventsOnto_eq, List.append_assoc]

@[simp] theorem events_group (n : Bool) (e : Expr) :
    (group n e).events = e.events ++ [.group n] :=
  eventsOnto_eq e [.group n]

@[simp] theorem events_valuePath (a : Attribute) (e : Expr) :
    (valuePath a e).events = e.events ++ [.valuePath a] :=
  eventsOnto_eq e [.valuePath a]

/-- The events of a tree tell where they begin, and which tree it is. -/
theorem events_append_inj {u v : Expr} {before before' : List Event}
    (h : before ++ u.events = before' ++ v.events) : u = v ∧ before = before' := by
  -- read from the right: the last event is the root, then comes the right operand
  induction u generalizing v before before' with
  | comparison a op x =>
    cases v with
    | comparison b op' y => simpa [and_comm] using h
    | _ => simp [← List.append_assoc] at h
  | present a =>
    cases v with
    | present b => simpa [and_comm] using h
    | _ => simp [← List.append_assoc] at h
  | joined l c r ihl ihr =>
    cases v with
    | joined l' c' r' =>
      simp only [events_joined, ← List.append_assoc, List.append_singleton_inj,
        Event.joined.injEq] at h
      obtain ⟨hoperands, rfl⟩ := h
      obtain ⟨rfl, hleft⟩ := ihr hoperands
      obtain ⟨rfl, rfl⟩ := ihl hleft
      exact ⟨rfl, rfl⟩
    | _ => simp [← List.append_assoc] at h
  | group n e ih =>
    cases v with
    | group n' e' =>
      simp only [events_group, ← List.append_assoc, List.append_singleton_inj,
        Event.group.injEq] at h
      obtain ⟨hinner, rfl⟩ := h
      obtain ⟨rfl, rfl⟩ := ih hinner
      exact ⟨rfl, rfl⟩
    | _ => simp [← List.append_assoc] at h
  | valuePath a e ih =>
    cases v with
    | valuePath a' e' =>
      simp only [events_valuePath, ← List.append_assoc, List.append_singleton_inj,
        Event.valuePath.injEq] at h
      obtain ⟨hinner, rfl⟩ := h
      obtain ⟨rfl, rfl⟩ := ih hinner
      exact ⟨rfl, rfl⟩
    | _ => simp [← List.append_assoc] at h

end Expr

namespace Assembly

/-- The events of a tree put the resolved tree on top of the stack. -/
theorem feedAll_events (u : Expr) (stack : List Expr) (rest : List Event) :
    feedAll stack (u.events ++ rest) = feedAll (u.resolve :: stack) rest := by
  induction u generalizing stack rest with
  | comparison a op v => rfl
  | present a => rfl
  | joined l c r ihl ihr =>
    rw [Expr.events_joined, List.append_assoc, List.append_assoc, ihl, ihr]
    rfl
  | group n e ih =>
    rw [Expr.events_group, List.append_assoc, ih]
    rfl
  | valuePath a e ih =>
    rw [Expr.events_valuePath, List.append_assoc, ih]
    rfl

/-- Assembling the events of a tree gives the resolved tree. -/
theorem assemble_events (u : Expr) : assemble u.events = .ok u.resolve := by
  have h := feedAll_events u [] []
  rw [List.append_nil] at h
  rw [assemble, h]
  rfl

end Assembly

end ScimQuery
