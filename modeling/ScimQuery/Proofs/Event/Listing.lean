/-
ScimQuery/Proofs/Event/Listing.lean

Which events tell a tree.  Assembling never looks ahead, so the events fed so far
must make sense by themselves: `Lists us events` says that they tell the trees `us`
one after the other, the last one told first in the list.  The stack then holds just
these trees, resolved.

One event keeps this (`Lists.feed`), and with it a whole run: events leave a stack
exactly when they list trees that resolve to it (`feedAll_eq_ok_iff`).

Main result: events are assembled to a tree exactly when they are the events of one
tree and no other, which becomes the given one when it is resolved.  What reading a
filter tells is such a listing (`assemble_iff_listing`).
-/
import Mathlib.Logic.ExistsUnique
import ScimQuery.Proofs.Filter.Balance

namespace ScimQuery.Assembly

open Reading

/-! ### The invariant -/

/-- The events tell the trees one after the other, the head of the list last. -/
def Lists (us : List Expr) (events : List Event) : Prop := eventsOf us.reverse = events

theorem Lists.cons {us : List Expr} {events : List Event} (h : Lists us events) (u : Expr) :
    Lists (u :: us) (events ++ u.events) := by
  show eventsOf (u :: us).reverse = events ++ u.events
  rw [List.reverse_cons, eventsOf_append, h]
  simp [eventsOf]

theorem Lists.of_cons {us : List Expr} {u : Expr} {events : List Event}
    (h : Lists (u :: us) events) : ∃ before, Lists us before ∧ events = before ++ u.events := by
  refine ⟨eventsOf us.reverse, rfl, ?_⟩
  rw [← h, List.reverse_cons, eventsOf_append]
  simp [eventsOf]

theorem lists_single_iff {u : Expr} {events : List Event} :
    Lists [u] events ↔ u.events = events := by
  simp [Lists, eventsOf]

/-! ### Single events -/

/-- An event that finds its operands puts a node in the place of their trees, and the
events told so far list the trees that are left. -/
theorem Lists.feed {us : List Expr} {events : List Event} (h : Lists us events) {event : Event}
    {stack : List Expr} (hfeed : feed (us.map Expr.resolve) event = (stack, none)) :
    ∃ vs, stack = vs.map Expr.resolve ∧ Lists vs (events ++ [event]) := by
  cases event with
  | comparison a op v =>
    obtain ⟨rfl, -⟩ := Prod.mk.inj hfeed
    exact ⟨.comparison a op v :: us, rfl, h.cons (.comparison a op v)⟩
  | present a =>
    obtain ⟨rfl, -⟩ := Prod.mk.inj hfeed
    exact ⟨.present a :: us, rfl, h.cons (.present a)⟩
  | joined c =>
    -- the right operand is on top
    match us, h, hfeed with
    | r :: l :: us, h, hfeed =>
      obtain ⟨rfl, -⟩ := Prod.mk.inj hfeed
      obtain ⟨_, hleft, rfl⟩ := h.of_cons
      obtain ⟨before, hbefore, rfl⟩ := hleft.of_cons
      refine ⟨.joined l c r :: us, rfl, ?_⟩
      have hjoined := hbefore.cons (.joined l c r)
      rwa [Expr.events_joined, ← List.append_assoc, ← List.append_assoc] at hjoined
  | group n =>
    match us, h, hfeed with
    | e :: us, h, hfeed =>
      obtain ⟨rfl, -⟩ := Prod.mk.inj hfeed
      obtain ⟨before, hbefore, rfl⟩ := h.of_cons
      refine ⟨.group n e :: us, rfl, ?_⟩
      have hgroup := hbefore.cons (.group n e)
      rwa [Expr.events_group, ← List.append_assoc] at hgroup
  | valuePath a =>
    match us, h, hfeed with
    | e :: us, h, hfeed =>
      obtain ⟨rfl, -⟩ := Prod.mk.inj hfeed
      obtain ⟨before, hbefore, rfl⟩ := h.of_cons
      refine ⟨.valuePath a e :: us, rfl, ?_⟩
      have hpath := hbefore.cons (.valuePath a e)
      rwa [Expr.events_valuePath, ← List.append_assoc] at hpath

/-! ### Runs -/

theorem Lists.feedAll {us : List Expr} {before events : List Event} (h : Lists us before)
    {stack : List Expr} (hfeed : feedAll (us.map Expr.resolve) events = .ok stack) :
    ∃ vs, stack = vs.map Expr.resolve ∧ Lists vs (before ++ events) := by
  induction events generalizing us before with
  | nil =>
    obtain rfl := Except.ok.inj hfeed
    exact ⟨us, rfl, by rwa [List.append_nil]⟩
  | cons event events ih =>
    rw [Assembly.feedAll] at hfeed
    split at hfeed
    · rename_i stack₁ hfeed₁
      obtain ⟨vs, rfl, hvs⟩ := h.feed hfeed₁
      rw [List.append_cons]
      exact ih hvs hfeed
    · cases hfeed

/-- Events leave a stack exactly when they list trees that resolve to it. -/
theorem feedAll_eq_ok_iff {events : List Event} {stack : List Expr} :
    feedAll [] events = .ok stack ↔ ∃ us, stack = us.map Expr.resolve ∧ Lists us events := by
  constructor
  · intro h
    have hnil : Lists [] [] := rfl
    exact hnil.feedAll h
  · rintro ⟨us, rfl, rfl⟩
    rw [feedAll_eventsOf, List.append_nil, ← List.map_reverse, List.reverse_reverse]

theorem result_eq_ok_iff {stack : List Expr} {t : Expr} : result stack = .ok t ↔ stack = [t] := by
  constructor
  · intro h
    match stack, h with
    | [e], h => rw [Except.ok.inj h]
  · rintro rfl
    rfl

/-- Events are assembled to a tree exactly when some tree that resolves to it has them. -/
theorem assemble_eq_ok_iff {events : List Event} {t : Expr} :
    assemble events = .ok t ↔ ∃ u : Expr, u.events = events ∧ t = u.resolve := by
  constructor
  · intro h
    rcases hfeed : feedAll [] events with imbalance | stack
    · rw [assemble, hfeed] at h
      cases h
    · rw [assemble, hfeed] at h
      obtain rfl := result_eq_ok_iff.1 h
      obtain ⟨us, hus, hlists⟩ := feedAll_eq_ok_iff.1 hfeed
      obtain ⟨u, us, rfl, rfl, hnil⟩ := List.map_eq_cons_iff.1 hus.symm
      obtain rfl := List.map_eq_nil_iff.1 hnil
      exact ⟨u, lists_single_iff.1 hlists, rfl⟩
  · rintro ⟨u, rfl, rfl⟩
    exact assemble_events u

theorem events_inj {u v : Expr} (h : u.events = v.events) : u = v := by
  have happend : [] ++ u.events = [] ++ v.events := congrArg ([] ++ ·) h
  exact (Expr.events_append_inj happend).1

/-- Events are assembled to a tree exactly when they are the events of one tree and no
other; the tree they give is that one with its value paths resolved.  The events told by
reading any lexemes that are accepted are of this kind, and assembling them gives what
reading gives. -/
theorem assemble_iff_listing (events : List Event) :
    ((∃ t, assemble events = .ok t) ↔ ∃! u : Expr, u.events = events) ∧
    (∀ t, assemble events = .ok t ↔ ∃ u : Expr, u.events = events ∧ t = u.resolve) ∧
    ∀ limits input ls, Reading.events limits input ls = .ok events →
      (∃! u : Expr, u.events = events) ∧
        ∃ t, assemble events = .ok t ∧ Filter.ofLexemes limits input ls = .ok t := by
  have hunique : (∃ t, assemble events = .ok t) ↔ ∃! u : Expr, u.events = events := by
    constructor
    · rintro ⟨t, ht⟩
      obtain ⟨u, hu, -⟩ := assemble_eq_ok_iff.1 ht
      exact ⟨u, hu, fun v hv => events_inj (hv.trans hu.symm)⟩
    · rintro ⟨u, hu, -⟩
      exact ⟨u.resolve, assemble_eq_ok_iff.2 ⟨u, hu, rfl⟩⟩
  refine ⟨hunique, fun t => assemble_eq_ok_iff, fun limits input ls h => ?_⟩
  obtain ⟨t, hfeed, hread⟩ := Filter.exists_single_of_events h
  have ht : assemble events = .ok t := by
    rw [assemble, hfeed]
    rfl
  exact ⟨hunique.1 ⟨t, ht⟩, t, ht, hread⟩

/-- The events of a value path that is read list one tree; with one more operand at the
end they list none. -/
theorem assemble_iff_listing_valuePath :
    let x : Attribute := ⟨none, "x", none⟩
    let y : Attribute := ⟨none, "y", none⟩
    let told : List Event :=
      [.present x, .present y, .joined .or, .valuePath ⟨none, "emails", none⟩]
    let ls : List Lexeme := [⟨.word "emails", 0⟩, ⟨.openBracket, 6⟩, ⟨.word "x", 7⟩,
      ⟨.word "pr", 9⟩, ⟨.word "or", 12⟩, ⟨.word "y", 15⟩, ⟨.word "pr", 17⟩, ⟨.closeBracket, 19⟩]
    (∃! u : Expr, u.events = told) ∧
      (∃ t, assemble told = .ok t ∧ Filter.ofLexemes {} "emails[x pr or y pr]" ls = .ok t) ∧
      ¬ ∃! u : Expr, u.events = told ++ [.present x] := by
  intro x y told ls
  obtain ⟨-, -, hread⟩ := assemble_iff_listing told
  obtain ⟨hmore, -⟩ := assemble_iff_listing (told ++ [.present x])
  have hevents : Reading.events {} "emails[x pr or y pr]" ls = .ok told := rfl
  obtain ⟨hunique, htree⟩ := hread {} _ ls hevents
  refine ⟨hunique, htree, fun hlisting => ?_⟩
  obtain ⟨t, ht⟩ := hmore.2 hlisting
  cases ht

end ScimQuery.Assembly
