/-
ScimQuery/Proofs/Session/Calls.lean

What the calls of a building session do.  A call either places one operand, its
*leaf*, or brings a connective along, alone or with operands from outside.

Main results: a call without a connective places its leaf (`call_of_leaf?`,
`leaf?_of_call`), which is never joined (`connective?_of_leaf?`).
-/
import ScimQuery.Session.Call
import ScimQuery.Proofs.Expr.Shape

namespace ScimQuery

namespace Call

/-- The operand that the call places, if it brings no connective along and its
path can be read. -/
def leaf? : Call → Option Expr
  | compare key op value => (Attribute.ofPath? key).map (.comparison · op value)
  | present key => (Attribute.ofPath? key).map .present
  | negate e => some (.group true e)
  | has key e => if e.hasValuePath then none else (Attribute.ofPath? key).map (.under · e)
  | connect _ => none
  | merge _ _ => none
  | pair _ _ _ => none

/-- The connective that the call brings along. -/
def connective? : Call → Option Connective
  | connect c => some c
  | merge c _ => some c
  | pair c _ _ => some c
  | _ => none

/-- A leaf is a comparison, a presence test, a negated group or a value path. -/
theorem connective?_of_leaf? {call : Call} {e : Expr} (h : call.leaf? = some e) :
    e.connective? = none := by
  cases call with
  | compare key op value =>
    obtain ⟨a, -, rfl⟩ := Option.map_eq_some_iff.1 h
    rfl
  | present key =>
    obtain ⟨a, -, rfl⟩ := Option.map_eq_some_iff.1 h
    rfl
  | negate e =>
    obtain rfl := Option.some.inj h
    rfl
  | has key e =>
    rw [leaf?] at h
    split at h
    · cases h
    · obtain ⟨a, -, rfl⟩ := Option.map_eq_some_iff.1 h
      rfl
  | _ => cases h

end Call

namespace Session

theorem read_of_ofPath? {key : String} {a : Attribute} (h : Attribute.ofPath? key = some a) :
    Attribute.read key = .ok a := by
  rw [Attribute.read, h]

/-- A call with a leaf places it. -/
theorem call_of_leaf? {call : Call} {e : Expr} (h : call.leaf? = some e) (s : Session) :
    s.call call = s.place e := by
  cases call with
  | compare key op value =>
    obtain ⟨a, ha, rfl⟩ := Option.map_eq_some_iff.1 h
    rw [Session.call, read_of_ofPath? ha]
    rfl
  | present key =>
    obtain ⟨a, ha, rfl⟩ := Option.map_eq_some_iff.1 h
    rw [Session.call, read_of_ofPath? ha]
    rfl
  | negate e =>
    obtain rfl := Option.some.inj h
    rfl
  | has key e =>
    rw [Call.leaf?] at h
    split at h
    · cases h
    · rename_i hflat
      obtain ⟨a, ha, rfl⟩ := Option.map_eq_some_iff.1 h
      rw [Session.call, read_of_ofPath? ha]
      exact if_neg hflat
  | _ => cases h

/-- A call that succeeds without a connective has a leaf. -/
theorem leaf?_of_call {call : Call} {s s' : Session} (hc : call.connective? = none)
    (h : s.call call = .ok s') : ∃ e, call.leaf? = some e ∧ s.place e = .ok s' := by
  have hread : ∀ {key : String} {f : Attribute → Except Fault Session},
      (Attribute.read key >>= f) = .ok s' → ∃ a, Attribute.ofPath? key = some a := by
    intro key f h
    rcases ha : Attribute.ofPath? key with - | a
    · rw [Attribute.read, ha] at h
      cases h
    · exact ⟨a, rfl⟩
  suffices hleaf : ∃ e, call.leaf? = some e by
    obtain ⟨e, he⟩ := hleaf
    rw [call_of_leaf? he] at h
    exact ⟨e, he, h⟩
  cases call with
  | compare key op value =>
    obtain ⟨a, ha⟩ := hread h
    exact ⟨_, by rw [Call.leaf?, ha]; rfl⟩
  | present key =>
    obtain ⟨a, ha⟩ := hread h
    exact ⟨_, by rw [Call.leaf?, ha]; rfl⟩
  | negate e => exact ⟨_, rfl⟩
  | has key e =>
    obtain ⟨a, ha⟩ := hread h
    -- a value path inside would have been refused
    have hflat : ¬ e.hasValuePath = true := by
      intro hflat
      rw [Session.call, read_of_ofPath? ha] at h
      simp only [hflat, bind, Except.bind, if_true] at h
      cases h
    exact ⟨.under a e, by rw [Call.leaf?, if_neg hflat, ha]; rfl⟩
  | _ => cases hc

/-- The first call of a session makes its leaf the whole filter. -/
theorem leaf?_of_call_empty {call : Call} {leaf : Expr} (hc : call.connective? = none)
    (h : empty.call call = .ok (complete leaf)) : call.leaf? = some leaf := by
  obtain ⟨e, he, hplace⟩ := leaf?_of_call hc h
  obtain rfl := Session.complete.inj (Except.ok.inj hplace)
  exact he

/-! ### Connectives after a complete filter -/

theorem connect_of_parensLeft {c : Connective} {root : Expr}
    (h : Expr.parensLeft c root = false) :
    (complete root).connect c = .ok (pending (.slot root c)) := by
  cases c with
  | or => rfl
  | and =>
    cases root with
    | joined l c r =>
      cases c with
      | and => rfl
      | or => cases h
    | _ => rfl

/-- An `and` goes to the right operand of an `or`; all else goes to the root. -/
theorem connect_cases (c : Connective) (root : Expr) :
    (∃ l r, c = .and ∧ root = .joined l .or r ∧
      (complete root).connect c = .ok (pending (.nested l .or (.slot r .and)))) ∨
    (Expr.parensLeft c root = false ∧
      (complete root).connect c = .ok (pending (.slot root c))) := by
  cases h : Expr.parensLeft c root with
  | false => exact .inr ⟨rfl, connect_of_parensLeft h⟩
  | true =>
    obtain ⟨l, r, rfl, rfl⟩ := Expr.parensLeft_eq_true h
    exact .inl ⟨l, r, rfl, rfl, rfl⟩

theorem exists_connect (c : Connective) (root : Expr) :
    ∃ p, (complete root).connect c = .ok (pending p) := by
  obtain ⟨l, r, -, -, h⟩ | ⟨-, h⟩ := connect_cases c root
  · exact ⟨_, h⟩
  · exact ⟨_, h⟩

/-! ### Runs -/

theorem calls_cons {s s' : Session} {call : Call} (cs : List Call) (h : s.call call = .ok s') :
    s.calls (call :: cs) = s'.calls cs := by
  rw [calls, h]
  rfl

theorem calls_cons_ok {s s' : Session} {call : Call} {cs : List Call}
    (h : s.calls (call :: cs) = .ok s') :
    ∃ s₁, s.call call = .ok s₁ ∧ s₁.calls cs = .ok s' := by
  rcases hs : s.call call with fault | s₁
  · rw [calls, hs] at h
    cases h
  · exact ⟨s₁, rfl, (calls_cons cs hs).symm.trans h⟩

end Session

end ScimQuery
