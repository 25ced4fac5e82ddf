/-
ScimQuery/Proofs/Session/Meaning.lean

The truth of what a session builds.  The calls of a session make up a flat row of
operands and connectives, in which `and` binds tighter than `or` and every
operand counts as one, whatever connectives it has inside.

Main result: the filter that was built is true exactly when the row is, with one
exception (`truth_of_calls`).  A session that starts with two operands joined by
`or`, directly followed by an `and`, gives the `and` only the second of them; the
first alone then makes the filter true.
-/
import ScimQuery.Proofs.Session.Calls

namespace ScimQuery

/-! ### Truth -/

/-- The truth of an expression, given that of its comparisons, presence tests and
value paths. -/
def Expr.truth (v : Expr → Bool) : Expr → Bool
  | comparison a op x => v (comparison a op x)
  | present a => v (present a)
  | valuePath a e => v (valuePath a e)
  | joined l .and r => l.truth v && r.truth v
  | joined l .or r => l.truth v || r.truth v
  | group negated e => negated ^^ e.truth v

/-- Part of a flat row: an operand that counts as one, or a connective. -/
inductive Item where
  | unit (e : Expr)
  | link (c : Connective)

/-- What is known of a row from left to right. -/
structure Tally where
  /-- Between two earlier `or`s, or before the first, all operands are true. -/
  closed : Bool := false
  /-- The operands since the last `or` are all true. -/
  run : Bool := true

/-- The part does not make its run false: it is a connective or a true operand. -/
def Item.holds (v : Expr → Bool) : Item → Bool
  | unit e => e.truth v
  | link _ => true

/-- One more part of the row. -/
def Tally.feed (v : Expr → Bool) (t : Tally) : Item → Tally
  | .unit e => { t with run := t.run && e.truth v }
  | .link .and => t
  | .link .or => ⟨t.closed || t.run, true⟩

/-- The truth of a row, in which `and` binds tighter than `or`. -/
def rowTruth (v : Expr → Bool) (row : List Item) : Bool :=
  let t := row.foldl (Tally.feed v) {}
  t.closed || t.run

theorem foldl_feed_closed (v : Expr → Bool) (row : List Item) (a b : Bool) :
    row.foldl (Tally.feed v) ⟨a, b⟩ =
      { row.foldl (Tally.feed v) ⟨false, b⟩ with
        closed := a || (row.foldl (Tally.feed v) ⟨false, b⟩).closed } := by
  induction row generalizing a b with
  | nil => simp
  | cons item row ih =>
    rcases item with e | (- | -)
    · exact ih a (b && e.truth v)
    · exact ih a b
    · show row.foldl (Tally.feed v) ⟨a || b, true⟩ = { row.foldl (Tally.feed v) ⟨b, true⟩ with
        closed := a || (row.foldl (Tally.feed v) ⟨b, true⟩).closed }
      rw [ih (a || b) true, ih b true, Bool.or_assoc]

/-- An `or` joins the rows on its two sides. -/
theorem rowTruth_or (v : Expr → Bool) (before after : List Item) :
    rowTruth v (before ++ .link .or :: after) = (rowTruth v before || rowTruth v after) := by
  simp only [rowTruth, List.foldl_append, List.foldl_cons, Tally.feed]
  rw [foldl_feed_closed, Bool.or_assoc]

/-- Without an `or`, every operand must be true. -/
theorem rowTruth_of_not_or (v : Expr → Bool) {row : List Item} (h : .link .or ∉ row) :
    rowTruth v row = row.all (Item.holds v) := by
  have hrow : ∀ b, row.foldl (Tally.feed v) ⟨false, b⟩ =
      ⟨false, b && row.all (Item.holds v)⟩ := by
    induction row with
    | nil => simp
    | cons item row ih =>
      obtain ⟨hne, hmem⟩ := not_or.1 (mt List.mem_cons.2 h)
      intro b
      rcases item with e | (- | -)
      · rw [List.all_cons, ← Bool.and_assoc]
        exact ih hmem (b && e.truth v)
      · rw [List.all_cons, Item.holds, Bool.true_and]
        exact ih hmem b
      · exact absurd rfl hne
  rw [rowTruth, hrow true, Bool.true_and, Bool.false_or]

/-- What a call adds to the row.  While an operand is wanted, the call's operand
comes before its connective; after a complete filter, it comes after it. -/
def Call.items (complete : Bool) : Call → List Item
  | connect c => [.link c]
  | merge c e => if complete then [.link c, .unit e] else [.unit e, .link c]
  | pair c l r => if complete then [.link c, .unit (.joined l c r)] else [.unit (.joined l c r)]
  | call => call.leaf?.toList.map .unit

/-- The row of a session's calls, as far as they succeed. -/
def Session.row : Session → List Call → List Item
  | _, [] => []
  | s, call :: cs =>
    match s.call call with
    | .ok s' => call.items s.isComplete ++ s'.row cs
    | .error _ => []

/-- The first operand of a pair joined by `or` that starts the session, if the
next call brings an `and` along. -/
def strayOperand? : List Call → Option Expr
  | .pair .or l _ :: call :: _ => if call.connective? = some .and then some l else none
  | _ => none

namespace Session

variable {v : Expr → Bool} {x : Bool} {t : Tally}

@[simp] theorem truth_wrapLeft (c : Connective) (e : Expr) :
    (wrapLeft c e).truth v = e.truth v := by
  unfold wrapLeft
  split
  · exact Bool.false_xor _
  · rfl

@[simp] theorem truth_wrapRight (c : Connective) (e : Expr) :
    (wrapRight c e).truth v = e.truth v := by
  unfold wrapRight
  split
  · exact Bool.false_xor _
  · rfl

/-! ### The invariant -/

/-- The session agrees with the tally of its row, except that `x` has come to the
operands before the last `or`. -/
def Agrees (v : Expr → Bool) (x : Bool) (t : Tally) : Session → Prop
  | complete (.joined l .or r) =>
    l.truth v = (t.closed || x) ∧ (r.truth v || x) = (t.run || x)
  | complete root => t.closed = false ∧ x = false ∧ root.truth v = t.run
  | pending (.slot l .or) => l.truth v = (t.closed || x) ∧ t.run = true
  | pending (.slot l .and) => t.closed = false ∧ x = false ∧ l.truth v = t.run
  | pending (.nested l .or (.slot r .and)) =>
    l.truth v = (t.closed || x) ∧ (r.truth v || x) = (t.run || x)
  | _ => False

/-- A complete filter that is not joined by `or`. -/
theorem agrees_complete_iff {root : Expr} (h : root.connective? ≠ some .or) :
    Agrees v x t (complete root) ↔ t.closed = false ∧ x = false ∧ root.truth v = t.run := by
  cases root with
  | joined l c r =>
    cases c with
    | and => rfl
    | or => exact absurd rfl h
  | _ => rfl

theorem Agrees.truth {root : Expr} (h : Agrees v x t (complete root)) :
    root.truth v = (t.closed || t.run || x) := by
  by_cases hor : root.connective? = some .or
  · cases root with
    | joined l c r =>
      obtain rfl : c = .or := Option.some.inj hor
      obtain ⟨hl, hr⟩ := h
      rw [Expr.truth, hl, Bool.or_assoc, Bool.or_comm x, hr, Bool.or_assoc]
    | _ => cases hor
  · obtain ⟨hclosed, rfl, hroot⟩ := (agrees_complete_iff hor).1 h
    rw [hroot, hclosed, Bool.or_false, Bool.false_or]

/-! ### Single steps -/

/-- An operand fills the open slot. -/
theorem Agrees.place {p : Pending} {e : Expr} {s' : Session} (h : Agrees v x t (pending p))
    (hs : (pending p).place e = .ok s') : Agrees v x (t.feed v (.unit e)) s' := by
  obtain rfl := Except.ok.inj hs
  match p, h with
  | .slot l .or, ⟨hl, hrun⟩ =>
    refine ⟨hl, ?_⟩
    rw [truth_wrapRight]
    show _ = (t.run && e.truth v || x)
    rw [hrun, Bool.true_and]
  | .slot l .and, ⟨hclosed, hx, hl⟩ =>
    refine ⟨hclosed, hx, ?_⟩
    show (Expr.joined l .and (wrapRight .and e)).truth v = (t.run && e.truth v)
    rw [Expr.truth, truth_wrapRight, hl]
  | .nested l .or (.slot r .and), ⟨hl, hr⟩ =>
    refine ⟨hl, ?_⟩
    show ((Expr.joined r .and (wrapRight .and e)).truth v || x) = (t.run && e.truth v || x)
    rw [Expr.truth, truth_wrapRight, Bool.or_and_distrib_right, hr, ← Bool.or_and_distrib_right]

/-- A connective opens a slot. -/
theorem Agrees.connect {root : Expr} {c : Connective} {s' : Session}
    (h : Agrees v x t (complete root)) (hs : (complete root).connect c = .ok s') :
    Agrees v x (t.feed v (.link c)) s' := by
  obtain ⟨l, r, rfl, rfl, hc⟩ | ⟨hleft, hc⟩ := connect_cases c root
  · -- the `and` takes the right operand of the `or`
    obtain rfl := Except.ok.inj (hc.symm.trans hs)
    exact h
  · obtain rfl := Except.ok.inj (hc.symm.trans hs)
    cases c with
    | or => exact ⟨h.truth, rfl⟩
    | and => exact (agrees_complete_iff (Expr.parensLeft_and_eq_false_iff.1 hleft)).1 h

/-- A connective and an operand after a complete filter. -/
theorem Agrees.connect_place {root e : Expr} {c : Connective} {s' : Session}
    (h : Agrees v x t (complete root))
    (hs : ((complete root).connect c >>= Session.place e) = .ok s') :
    Agrees v x ([Item.link c, .unit e].foldl (Tally.feed v) t) s' := by
  obtain ⟨p, hp⟩ := exists_connect c root
  rw [hp] at hs
  exact (h.connect hp).place hs

theorem items_of_leaf? {call : Call} {e : Expr} (h : call.leaf? = some e) (complete : Bool) :
    call.items complete = [.unit e] := by
  cases call with
  | connect c => cases h
  | merge c e => cases h
  | pair c l r => cases h
  | _ => simp only [Call.items, h]; rfl

theorem truth_pair (c : Connective) (l r : Expr) :
    (Expr.joined (wrapLeft c l) c (wrapRight c r)).truth v = (Expr.joined l c r).truth v := by
  cases c with
  | and => rw [Expr.truth, truth_wrapLeft, truth_wrapRight, Expr.truth]
  | or => rw [Expr.truth, truth_wrapLeft, truth_wrapRight, Expr.truth]

/-- Every call of a session that is not empty keeps the invariant. -/
theorem Agrees.call {s s' : Session} {call : Call} (h : Agrees v x t s)
    (hs : s.call call = .ok s') :
    Agrees v x ((call.items s.isComplete).foldl (Tally.feed v) t) s' := by
  cases s with
  | empty => cases h
  | complete root =>
    -- the connective comes first in the row
    cases call with
    | connect c => exact h.connect hs
    | merge c e => exact h.connect_place hs
    | pair c l r =>
      have hpair := h.connect_place hs
      simp only [List.foldl_cons, List.foldl_nil, Tally.feed, truth_pair] at hpair
      exact hpair
    | _ =>
      -- a leaf has no place here
      obtain ⟨e, -, hplace⟩ := leaf?_of_call rfl hs
      cases hplace
  | pending p =>
    -- the operand comes first in the row
    cases call with
    | connect c => cases hs
    | merge c e => exact (h.place rfl).connect hs
    | pair c l r =>
      have hpair := h.place hs
      simp only [Tally.feed, truth_pair] at hpair
      exact hpair
    | _ =>
      obtain ⟨e, he, hplace⟩ := leaf?_of_call rfl hs
      rw [items_of_leaf? he]
      exact h.place hplace

/-- Every run of a session that is not empty keeps the invariant. -/
theorem Agrees.calls {s s' : Session} {cs : List Call} (h : Agrees v x t s)
    (hs : s.calls cs = .ok s') : Agrees v x ((s.row cs).foldl (Tally.feed v) t) s' := by
  induction cs generalizing s t with
  | nil =>
    obtain rfl := Except.ok.inj hs
    exact h
  | cons call cs ih =>
    obtain ⟨s₁, hcall, hrest⟩ := calls_cons_ok hs
    rw [row, hcall, List.foldl_append]
    exact ih (h.call hcall) hrest

/-! ### The start of a session -/

/-- The first call, unless it joins two operands by `or`. -/
theorem agrees_first {s' : Session} {call : Call} (hs : empty.call call = .ok s')
    (hpair : ∀ l r, call ≠ .pair .or l r) :
    Agrees v false ((call.items false).foldl (Tally.feed v) {}) s' := by
  cases call with
  | connect c => cases hs
  | merge c e =>
    obtain rfl := Except.ok.inj hs
    cases c with
    | and => exact ⟨rfl, rfl, truth_wrapLeft .and e⟩
    | or =>
      refine ⟨?_, rfl⟩
      rw [truth_wrapLeft]
      show e.truth v = (false || (true && e.truth v) || false)
      simp
  | pair c l r =>
    cases c with
    | or => exact absurd rfl (hpair l r)
    | and =>
      obtain rfl := Except.ok.inj hs
      exact ⟨rfl, rfl, truth_pair .and l r⟩
  | _ =>
    obtain ⟨e, he, hplace⟩ := leaf?_of_call rfl hs
    obtain rfl := Except.ok.inj hplace
    rw [items_of_leaf? he]
    refine (agrees_complete_iff ?_).2 ⟨rfl, rfl, rfl⟩
    rw [Call.connective?_of_leaf? he]
    exact nofun

/-- A session that starts with two operands joined by `or` agrees with every tally
that tells them apart in the same way. -/
theorem agrees_pair {l r : Expr} (hl : l.truth v = (t.closed || x))
    (hr : (r.truth v || x) = (t.run || x)) :
    Agrees v x t (complete (.joined (wrapLeft .or l) .or (wrapRight .or r))) := by
  refine ⟨?_, ?_⟩
  · rw [truth_wrapLeft, hl]
  · rw [truth_wrapRight, hr]

/-- After an `or`, only the truth of the whole row before it counts. -/
theorem foldl_items_or {call : Call} (a b : Bool) (hc : call.connective? = some .or) :
    (call.items true).foldl (Tally.feed v) ⟨false, a || b⟩ =
      (call.items true).foldl (Tally.feed v) ⟨a, b⟩ := by
  cases call with
  | connect c =>
    obtain rfl := Option.some.inj hc
    simp [Call.items, Tally.feed]
  | merge c e =>
    obtain rfl := Option.some.inj hc
    simp [Call.items, Tally.feed]
  | pair c l r =>
    obtain rfl := Option.some.inj hc
    simp [Call.items, Tally.feed]
  | _ => cases hc

/-- A session that starts with two operands joined by `or`. -/
theorem truth_of_calls_pair {cs : List Call} {l r root : Expr}
    (h : (complete (.joined (wrapLeft .or l) .or (wrapRight .or r))).calls cs =
      .ok (complete root)) :
    let s := complete (.joined (wrapLeft .or l) .or (wrapRight .or r))
    let t := (s.row cs).foldl (Tally.feed v) ⟨false, (Expr.joined l .or r).truth v⟩
    root.truth v =
      (t.closed || t.run || (strayOperand? (.pair .or l r :: cs)).any (Expr.truth v)) := by
  intro s t
  rcases cs with - | ⟨call, cs⟩
  · obtain rfl := Session.complete.inj (Except.ok.inj h)
    rw [truth_pair]
    exact (Bool.or_false _).symm
  obtain ⟨s₁, hcall, hrest⟩ := calls_cons_ok h
  have hrow : s.row (call :: cs) = call.items true ++ s₁.row cs := by
    rw [row, hcall]
    rfl
  rcases hc : call.connective? with - | (- | -)
  · -- a leaf has no place after a complete filter
    obtain ⟨e, -, hplace⟩ := leaf?_of_call hc hcall
    cases hplace
  · -- the first operand is left alone before the `or`
    have hstray : strayOperand? (.pair .or l r :: call :: cs) = some l := if_pos hc
    have hpair : Agrees v (l.truth v) ⟨false, (Expr.joined l .or r).truth v⟩ s :=
      agrees_pair (Bool.false_or _).symm (by
        rw [Expr.truth, Bool.or_comm (l.truth v), Bool.or_assoc, Bool.or_self])
    rw [(hpair.calls h).truth, hstray]
    rfl
  · -- both operands are before the new `or`
    have hstray : strayOperand? (.pair .or l r :: call :: cs) = none :=
      if_neg (by rw [hc]; exact nofun)
    have hpair : Agrees v false ⟨l.truth v, r.truth v⟩ s :=
      agrees_pair (Bool.or_false _).symm rfl
    have ht : t = (s.row (call :: cs)).foldl (Tally.feed v) ⟨l.truth v, r.truth v⟩ := by
      show (s.row (call :: cs)).foldl (Tally.feed v) ⟨false, l.truth v || r.truth v⟩ = _
      rw [hrow, List.foldl_append, List.foldl_append, foldl_items_or _ _ hc]
    rw [(hpair.calls h).truth, hstray, ht]
    rfl

/-- The filter that was built is true exactly when the row of its operands and
connectives is, or the operand that a regrouped pair has lost is. -/
theorem truth_of_calls {cs : List Call} {root : Expr}
    (h : empty.calls cs = .ok (complete root)) (v : Expr → Bool) :
    root.truth v = (rowTruth v (empty.row cs) || (strayOperand? cs).any (Expr.truth v)) := by
  rcases cs with - | ⟨call, cs⟩
  · cases h
  obtain ⟨s₁, hcall, hrest⟩ := calls_cons_ok h
  have hrow : empty.row (call :: cs) = call.items false ++ s₁.row cs := by
    rw [row, hcall]
    rfl
  by_cases hpair : ∃ l r, call = .pair .or l r
  · obtain ⟨l, r, rfl⟩ := hpair
    obtain rfl := Except.ok.inj hcall
    rw [truth_of_calls_pair hrest, rowTruth, hrow]
    rfl
  · have hstray : strayOperand? (call :: cs) = none := by
      unfold strayOperand?
      split
      · rename_i heq
        exact absurd ⟨_, _, (List.cons.inj heq).1⟩ hpair
      · rfl
    have hfirst := agrees_first (v := v) hcall fun l r heq => hpair ⟨l, r, heq⟩
    have hlast := (hfirst.calls hrest).truth
    rw [← List.foldl_append, ← hrow] at hlast
    rw [hstray, hlast]
    rfl

/-- Where only the first operand of the pair is true, the filter is true although
the row is not. -/
theorem truth_of_regrouped_pair :
    let cs : List Call :=
      [.pair .or (.present ⟨none, "a", none⟩) (.present ⟨none, "b", none⟩), .connect .and,
        .present "c"]
    ∃ root v, empty.calls cs = .ok (complete root) ∧ root.render = "a pr or b pr and c pr" ∧
      root.truth v = true ∧ rowTruth v (empty.row cs) = false := by
  have hcalls : empty.calls [.pair .or (.present ⟨none, "a", none⟩) (.present ⟨none, "b", none⟩),
      .connect .and, .present "c"] = .ok (complete (.joined (.present ⟨none, "a", none⟩) .or
        (.joined (.present ⟨none, "b", none⟩) .and (.present ⟨none, "c", none⟩)))) := rfl
  refine ⟨_, fun e => e = .present ⟨none, "a", none⟩, hcalls, by decide, ?_, by decide⟩
  rw [truth_of_calls hcalls]
  decide

end Session

end ScimQuery
