/-
ScimQuery/Proofs/Session/Protocol.lean

In which order calls may come.  What a session allows depends on its *phase* alone:
nothing is built, a filter is complete, or a connective waits for its right operand.
What a call does to the phase depends on its *move* alone, never on the expressions
that come with it.  `Phase.next` is the table of both.

Placing and connecting keep to the table (`follows_place`, `follows_connect`).  The
other calls are made up of these two, and the table of a composite is the composite of
the tables (`Follows.bind`), whatever trees were taken apart or put into groups in
between.

Main result: calls whose paths can be read succeed exactly as far as the table goes,
and lead to the phase that it gives (`calls_follow_phases`).
-/
import ScimQuery.Proofs.Session.Calls

namespace ScimQuery

/-! ### Phases and moves -/

/-- How far a session has come. -/
inductive Phase where
  /-- Nothing is built. -/
  | empty
  /-- A filter is complete. -/
  | complete
  /-- A connective waits for its right operand. -/
  | pending
  deriving DecidableEq, Repr

/-- What a call brings along. -/
inductive Move where
  /-- One operand. -/
  | operand
  /-- A connective. -/
  | connective
  /-- A connective and one operand. -/
  | merge
  /-- A connective and two operands. -/
  | pair
  deriving DecidableEq, Repr

namespace Phase

/-- The phase after a move, if the move is allowed. -/
def next : Phase → Move → Option Phase
  | empty, .operand => some complete
  | pending, .operand => some complete
  | complete, .operand => none
  | complete, .connective => some pending
  | empty, .connective => none
  | pending, .connective => none
  | empty, .merge => some pending
  | pending, .merge => some pending
  | complete, .merge => some complete
  | _, .pair => some complete

/-- The phase after moves that are all allowed. -/
def run (p : Phase) (moves : List Move) : Option Phase := moves.foldlM next p

/-- Operands that come with a connective are allowed in every phase. -/
theorem exists_next (p : Phase) {m : Move} (h : m = .merge ∨ m = .pair) :
    ∃ q, p.next m = some q := by
  rcases h with rfl | rfl
  · cases p <;> exact ⟨_, rfl⟩
  · cases p <;> exact ⟨_, rfl⟩

end Phase

/-- The phase of a session. -/
def Session.phase : Session → Phase
  | empty => .empty
  | complete _ => .complete
  | pending _ => .pending

namespace Call

/-- The move of a call. -/
def move : Call → Move
  | compare .. => .operand
  | present _ => .operand
  | negate _ => .operand
  | has .. => .operand
  | connect _ => .connective
  | merge .. => .merge
  | pair .. => .pair

/-- The path of the call can be read, and no value path is put inside another. -/
def WellFormed : Call → Prop
  | compare key _ _ => (Attribute.ofPath? key).isSome = true
  | present key => (Attribute.ofPath? key).isSome = true
  | has key e => (Attribute.ofPath? key).isSome = true ∧ e.hasValuePath = false
  | _ => True

/-- A call that brings one operand along has a leaf. -/
theorem exists_leaf? {call : Call} (h : call.WellFormed) (hmove : call.move = .operand) :
    ∃ e, call.leaf? = some e := by
  cases call with
  | compare key op value =>
    obtain ⟨a, ha⟩ := Option.isSome_iff_exists.1 h
    exact ⟨_, by rw [leaf?, ha]; rfl⟩
  | present key =>
    obtain ⟨a, ha⟩ := Option.isSome_iff_exists.1 h
    exact ⟨_, by rw [leaf?, ha]; rfl⟩
  | negate e => exact ⟨_, rfl⟩
  | has key e =>
    obtain ⟨hkey, hflat⟩ := h
    obtain ⟨a, ha⟩ := Option.isSome_iff_exists.1 hkey
    exact ⟨.under a e, by rw [leaf?, hflat, ha]; rfl⟩
  | _ => cases hmove

end Call

namespace Session

/-! ### Outcomes -/

/-- The outcome is what the phases say: a session in the given phase, or a violation of
the protocol if there is none. -/
inductive Follows : Except Fault Session → Option Phase → Prop
  | ok (s : Session) : Follows (.ok s) (some s.phase)
  | error (v : Violation) : Follows (.error (.protocol v)) none

/-- Two steps follow the phases if each of them does. -/
theorem Follows.bind {r : Except Fault Session} {p : Option Phase}
    {f : Session → Except Fault Session} {g : Phase → Option Phase} (h : Follows r p)
    (hf : ∀ s, Follows (f s) (g s.phase)) : Follows (r >>= f) (p >>= g) := by
  cases h with
  | ok s => exact hf s
  | error v => exact .error v

theorem Follows.exists_ok_iff {r : Except Fault Session} {q : Option Phase} (h : Follows r q)
    (p : Phase) : (∃ s, r = .ok s ∧ s.phase = p) ↔ q = some p := by
  cases h with
  | ok s =>
    constructor
    · rintro ⟨s', hs', rfl⟩
      rw [Except.ok.inj hs']
    · intro hp
      exact ⟨s, rfl, Option.some.inj hp⟩
  | error v =>
    constructor
    · rintro ⟨s', hs', -⟩
      cases hs'
    · intro hp
      cases hp

theorem Follows.isProtocol {r : Except Fault Session} {q : Option Phase} (h : Follows r q)
    {fault : Fault} (hfault : r = .error fault) : fault.isProtocol = true := by
  cases h with
  | ok s => cases hfault
  | error v =>
    obtain rfl := Except.error.inj hfault
    rfl

/-! ### Single calls -/

theorem follows_place (e : Expr) (s : Session) : Follows (s.place e) (s.phase.next .operand) := by
  cases s with
  | empty => exact .ok (complete e)
  | complete root => exact .error _
  | pending p => exact .ok (complete (p.fill (wrapRight p.connective e)))

/-- The shape of a complete filter decides where the connective goes, not whether it
can come. -/
theorem follows_connect (c : Connective) (s : Session) :
    Follows (s.connect c) (s.phase.next .connective) := by
  cases s with
  | empty => exact .error _
  | complete root =>
    obtain ⟨p, hp⟩ := exists_connect c root
    rw [hp]
    exact .ok (pending p)
  | pending p => exact .error _

theorem follows_merge (c : Connective) (e : Expr) (s : Session) :
    Follows (s.merge c e) (s.phase.next .merge) := by
  cases s with
  | empty => exact .ok (pending (.slot (wrapLeft c e) c))
  | complete root =>
    exact (follows_connect c (complete root)).bind (g := (·.next .operand)) (follows_place e)
  | pending p =>
    exact (follows_place e (pending p)).bind (g := (·.next .connective)) (follows_connect c)

theorem follows_mergePair (c : Connective) (l r : Expr) (s : Session) :
    Follows (s.mergePair c l r) (s.phase.next .pair) := by
  cases s with
  | empty => exact follows_place _ empty
  | complete root =>
    exact (follows_connect c (complete root)).bind (g := (·.next .operand)) (follows_place _)
  | pending p => exact follows_place _ (pending p)

/-- A call follows the phases. -/
theorem follows_call {call : Call} (h : call.WellFormed) (s : Session) :
    Follows (s.call call) (s.phase.next call.move) := by
  cases call with
  | connect c => exact follows_connect c s
  | merge c e => exact follows_merge c e s
  | pair c l r => exact follows_mergePair c l r s
  | _ =>
    obtain ⟨e, he⟩ := Call.exists_leaf? h rfl
    rw [call_of_leaf? he]
    exact follows_place e s

/-! ### Runs -/

/-- Calls follow the phases. -/
theorem follows_calls {cs : List Call} (h : ∀ call ∈ cs, call.WellFormed) (s : Session) :
    Follows (s.calls cs) (s.phase.run (cs.map Call.move)) := by
  induction cs generalizing s with
  | nil => exact .ok s
  | cons call cs ih =>
    obtain ⟨hcall, hcs⟩ := List.forall_mem_cons.1 h
    rw [calls, Phase.run, List.map_cons, List.foldlM_cons]
    exact (follows_call hcall s).bind (ih hcs)

/-- What is made of the filter at the end can be had exactly when it is complete. -/
theorem exists_bind_build_iff {α : Type} (s : Session) (f : Expr → α) :
    (∃ x, (s.build >>= fun e => .ok (f e)) = .ok x) ↔ s.phase = .complete := by
  cases s with
  | empty => exact iff_of_false (fun ⟨_, hx⟩ => nomatch hx) nofun
  | complete root => exact iff_of_true ⟨f root, rfl⟩ rfl
  | pending p => exact iff_of_false (fun ⟨_, hx⟩ => nomatch hx) nofun

theorem isProtocol_of_bind_build {α : Type} {s : Session} {f : Expr → α} {fault : Fault}
    (h : (s.build >>= fun e => .ok (f e)) = .error fault) : fault.isProtocol = true := by
  cases s with
  | complete root => cases h
  | _ =>
    obtain rfl := Except.error.inj h
    rfl

theorem bind_build_id (s : Session) : (s.build >>= fun e => .ok (id e)) = s.build := by
  cases s <;> rfl

theorem exists_build_iff (s : Session) : (∃ e, s.build = .ok e) ↔ s.phase = .complete := by
  rw [← exists_bind_build_iff s id, bind_build_id]

theorem isProtocol_of_build {s : Session} {fault : Fault} (h : s.build = .error fault) :
    fault.isProtocol = true := by
  rw [← bind_build_id] at h
  exact isProtocol_of_bind_build h

/-- From any session, calls whose paths can be read succeed exactly if the phases allow
their moves, and lead to the phase that the moves give; the fault of a call that is not
allowed is a violation of the protocol.  Afterwards the filter can be built, written and
encoded exactly when the session is complete, with such a fault otherwise, and merging an
expression or a pair succeeds whatever the trees are. -/
theorem calls_follow_phases {cs : List Call} (h : ∀ call ∈ cs, call.WellFormed) (s : Session) :
    (∀ p, (∃ s', s.calls cs = .ok s' ∧ s'.phase = p) ↔
      s.phase.run (cs.map Call.move) = some p) ∧
    (∀ fault, s.calls cs = .error fault → fault.isProtocol = true) ∧
    ∀ s', s.calls cs = .ok s' →
      ((∃ e, s'.build = .ok e) ↔ s'.phase = .complete) ∧
      ((∃ text, s'.render = .ok text) ↔ s'.phase = .complete) ∧
      ((∃ text, s'.encoded = .ok text) ↔ s'.phase = .complete) ∧
      (∀ fault, s'.build = .error fault ∨ s'.render = .error fault ∨ s'.encoded = .error fault →
        fault.isProtocol = true) ∧
      (∀ c e, ∃ s'', s'.call (.merge c e) = .ok s'') ∧
      ∀ c l r, ∃ s'', s'.call (.pair c l r) = .ok s'' := by
  have hfollows := follows_calls h s
  refine ⟨hfollows.exists_ok_iff, fun fault => hfollows.isProtocol, fun s' _ => ?_⟩
  refine ⟨exists_build_iff s', exists_bind_build_iff s' _, exists_bind_build_iff s' _,
    ?_, fun c e => ?_, fun c l r => ?_⟩
  · rintro fault (hbuild | hrender | hencoded)
    · exact isProtocol_of_build hbuild
    · exact isProtocol_of_bind_build hrender
    · exact isProtocol_of_bind_build hencoded
  · obtain ⟨p, hp⟩ := Phase.exists_next s'.phase (.inl rfl)
    obtain ⟨s'', hs'', -⟩ := ((follows_merge c e s').exists_ok_iff p).2 hp
    exact ⟨s'', hs''⟩
  · obtain ⟨p, hp⟩ := Phase.exists_next s'.phase (.inr rfl)
    obtain ⟨s'', hs'', -⟩ := ((follows_mergePair c l r s').exists_ok_iff p).2 hp
    exact ⟨s'', hs''⟩

/-- Groups that are added and an `or` that is taken apart make no difference: the first
calls are accepted, one operand more is refused. -/
theorem calls_follow_phases_merged :
    let a : Expr := .present ⟨none, "a", none⟩
    let cs : List Call := [.merge .or (.joined a .or a), .has "emails" a, .connect .and,
      .merge .and (.joined a .or a), .negate a, .pair .or a a, .merge .and a]
    let more : List Call := cs ++ [.compare "b" .eq .null]
    (∃ s, empty.calls cs = .ok s ∧ ∃ text, s.encoded = .ok text) ∧
      ∃ fault, empty.calls more = .error fault ∧ fault.isProtocol = true := by
  intro a cs more
  have hmore : ∀ call ∈ more, call.WellFormed := by
    simp only [more, cs, List.cons_append, List.nil_append, List.forall_mem_cons]
    exact ⟨trivial, ⟨rfl, rfl⟩, trivial, trivial, trivial, trivial, trivial, rfl, nofun⟩
  have hcs : ∀ call ∈ cs, call.WellFormed := fun call hcall =>
    hmore call (List.mem_append_left _ hcall)
  obtain ⟨hphase, -, hend⟩ := calls_follow_phases hcs empty
  obtain ⟨hphase', hfault, -⟩ := calls_follow_phases hmore empty
  obtain ⟨s, hs, hcomplete⟩ := (hphase .complete).2 rfl
  obtain ⟨-, -, hencoded, -⟩ := hend s hs
  refine ⟨⟨s, hs, hencoded.2 hcomplete⟩, ?_⟩
  rcases hcalls : empty.calls more with fault | s'
  · exact ⟨fault, rfl, hfault fault hcalls⟩
  · cases (hphase' s'.phase).1 ⟨s', hcalls, rfl⟩

end Session

end ScimQuery
