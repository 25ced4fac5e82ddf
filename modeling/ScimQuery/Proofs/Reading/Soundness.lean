/-
ScimQuery/Proofs/Reading/Soundness.lean

What the machine has read.  `Reached limits s ts` says how the tokens `ts` taken
so far make up the state `s`: every open bracket with the trees told before it,
the trees of the present level with the connectives that wait after them, and
the tokens of an operand that has only begun.

Main results: every step keeps this (`Reached.step`), so every run does
(`Reached.steps`); and where the machine accepts, the tokens derive a tree
within the limits, whose events are what was told (`run_eq_ok_iff_derives`).
-/
import ScimQuery.Proofs.Reading.Grammar

namespace ScimQuery.Reading

/-! ### Levels -/

/-- The number of operands of some trees. -/
def operandsOf : List Expr → Nat
  | [] => 0
  | u :: us => u.operands + operandsOf us

/-- The events of some trees. -/
def eventsOf (us : List Expr) : List Event := us.flatMap Expr.events

@[simp] theorem operandsOf_append (us vs : List Expr) :
    operandsOf (us ++ vs) = operandsOf us + operandsOf vs := by
  induction us with
  | nil => exact (Nat.zero_add _).symm
  | cons u us ih => rw [List.cons_append, operandsOf, operandsOf, ih, Nat.add_assoc]

@[simp] theorem eventsOf_append (us vs : List Expr) :
    eventsOf (us ++ vs) = eventsOf us ++ eventsOf vs := by
  simp [eventsOf]

/-- The tokens of a level that wants an operand, and the trees that they spell;
after each of these a connective waits. -/
inductive Begun (inside : Bool) : Level → List Token → List Expr → Prop
  | fresh : Begun inside {} [] []
  | and {ts u w} :
      Derives .conjunction inside ts u → Connective.ofWord? w = some .and →
      Begun inside ⟨false, true⟩ (ts ++ [.word w]) [u]
  | or {ts u w} :
      Derives .filter inside ts u → Connective.ofWord? w = some .or →
      Begun inside ⟨true, false⟩ (ts ++ [.word w]) [u]
  | orAnd {ts us u v w x} :
      Derives .filter inside ts u → Connective.ofWord? w = some .or →
      Derives .conjunction inside us v → Connective.ofWord? x = some .and →
      Begun inside ⟨true, true⟩ (ts ++ .word w :: (us ++ [.word x])) [u, v]

/-- The tokens of a level after an operand, and the trees that they spell, the
last of which no connective waits after. -/
inductive Ended (inside : Bool) : Level → List Token → List Expr → Prop
  | conjunction {ts u} :
      Derives .conjunction inside ts u → Ended inside ⟨false, false⟩ ts [u]
  | or {ts us u v w} :
      Derives .filter inside ts u → Connective.ofWord? w = some .or →
      Derives .conjunction inside us v → Ended inside ⟨true, false⟩ (ts ++ .word w :: us) [u, v]

/-- Trees that are nested at most so deep. -/
def Shallow (d : Nat) (us : List Expr) : Prop := ∀ u ∈ us, u.nesting ≤ d

/-- An operand ends the wait of an `and`. -/
theorem Begun.ended {inside : Bool} {level : Level} {ts os : List Token} {us : List Expr}
    {o : Expr} (h : Begun inside level ts us) (ho : Derives .operand inside os o) :
    ∃ vs, Ended inside { level with andWaits := false } (ts ++ os) vs ∧
      eventsOf vs = eventsOf us ++ o.events ++
        (if level.andWaits then [.joined .and] else []) ∧
      operandsOf vs = operandsOf us + o.operands ∧
      ∀ d, Shallow d us → o.nesting ≤ d → Shallow d vs := by
  cases h with
  | fresh =>
    refine ⟨[o], .conjunction (.operand ho), by simp [eventsOf], by simp [operandsOf], ?_⟩
    intro d _ hd
    simpa [Shallow] using hd
  | @and ts u w hu hw =>
    refine ⟨[.joined u .and o], ?_, by simp [eventsOf], by simp [operandsOf, Expr.operands], ?_⟩
    · rw [← List.append_cons]
      exact .conjunction (.and hu hw ho)
    · intro d hus hd
      have hu' : u.nesting ≤ d := hus u (by simp)
      simpa [Shallow, Expr.nesting, Nat.max_le] using ⟨hu', hd⟩
  | @or ts u w hu hw =>
    refine ⟨[u, o], ?_, by simp [eventsOf], by simp [operandsOf], ?_⟩
    · rw [← List.append_cons]
      exact .or hu hw (.operand ho)
    · intro d hus hd
      have hu' : u.nesting ≤ d := hus u (by simp)
      simpa [Shallow] using ⟨hu', hd⟩
  | @orAnd ts us u v w x hu hw hv hx =>
    refine ⟨[u, .joined v .and o], ?_, by simp [eventsOf],
      by simp [operandsOf, Expr.operands, Nat.add_assoc], ?_⟩
    · have htokens : ts ++ .word w :: (us ++ [.word x]) ++ os =
          ts ++ .word w :: (us ++ .word x :: os) := by simp
      rw [htokens]
      exact .or hu hw (.and hv hx ho)
    · intro d hus hd
      have hu' : u.nesting ≤ d := hus u (by simp)
      have hv' : v.nesting ≤ d := hus v (by simp)
      simpa [Shallow, Expr.nesting, Nat.max_le] using ⟨hu', hv', hd⟩

/-- The end of a level ends the wait of an `or`. -/
theorem Ended.filter {inside : Bool} {level : Level} {ts : List Token} {us : List Expr}
    (h : Ended inside level ts us) :
    ∃ u, Derives .filter inside ts u ∧
      u.events = eventsOf us ++ (if level.orWaits then [.joined .or] else []) ∧
      u.operands = operandsOf us ∧ ∀ d, Shallow d us → u.nesting ≤ d := by
  cases h with
  | @conjunction ts u hu =>
    refine ⟨u, .conjunction hu, by simp [eventsOf], by simp [operandsOf], ?_⟩
    intro d hus
    exact hus u (by simp)
  | @or ts us u v w hu hw hv =>
    refine ⟨.joined u .or v, .or hu hw hv, by simp [eventsOf],
      by simp [operandsOf, Expr.operands], ?_⟩
    intro d hus
    exact Nat.max_le.2 ⟨hus u (by simp), hus v (by simp)⟩

/-- An `and` after a level: it waits after the last tree. -/
theorem Ended.begun_and {inside : Bool} {level : Level} {ts : List Token} {us : List Expr}
    {w : String} (h : Ended inside level ts us) (hw : Connective.ofWord? w = some .and) :
    Begun inside { level with andWaits := true } (ts ++ [.word w]) us := by
  cases h with
  | conjunction hu => exact .and hu hw
  | @or ts us u v x hu hx hv =>
    rw [List.append_assoc, List.cons_append]
    exact .orAnd hu hx hv hw

/-- An `or` after a level: the one that waited is told, and the new one waits. -/
theorem Ended.begun_or {inside : Bool} {level : Level} {ts : List Token} {us : List Expr}
    {w : String} (h : Ended inside level ts us) (hw : Connective.ofWord? w = some .or) :
    ∃ u, Begun inside { level with orWaits := true } (ts ++ [.word w]) [u] ∧
      u.events = eventsOf us ++ (if level.orWaits then [.joined .or] else []) ∧
      u.operands = operandsOf us ∧ ∀ d, Shallow d us → u.nesting ≤ d := by
  obtain ⟨u, hu, hrest⟩ := h.filter
  refine ⟨u, ?_, hrest⟩
  cases h with
  | conjunction _ => exact .or hu hw
  | or _ _ _ => exact .or hu hw

/-! ### Frames and modes -/

/-- The tokens before the present level, up to the innermost open bracket, and
the trees that they spell. -/
inductive Opened (limit : Nat) : Bool → List Frame → List Token → List Expr → Prop
  | nil : Opened limit false [] [] []
  | group {inside frames ts us outer ls vs} :
      Opened limit inside frames ts us → Begun inside outer ls vs →
      Shallow (limit - frames.length) vs → frames.length + 1 ≤ limit →
      Opened limit inside (.group false outer :: frames) (ts ++ ls ++ [.openParen]) (us ++ vs)
  | negated {inside frames ts us outer ls vs w} :
      Opened limit inside frames ts us → Begun inside outer ls vs →
      Shallow (limit - frames.length) vs → frames.length + 1 ≤ limit →
      Text.alike w "not" = true →
      Opened limit inside (.group true outer :: frames)
        (ts ++ ls ++ [.word w, .openParen]) (us ++ vs)
  | valuePath {frames ts us outer ls vs w a} :
      Opened limit false frames ts us → Begun false outer ls vs →
      Shallow (limit - frames.length) vs → frames.length + 1 ≤ limit →
      Attribute.ofPath? w = some a →
      Opened limit true (.valuePath a outer :: frames)
        (ts ++ ls ++ [.word w, .openBracket]) (us ++ vs)

/-- The tokens of an operand that has only begun. -/
inductive Partial : Mode → List Token → Prop
  | operand : Partial .operand []
  | path {w a} :
      Attribute.ofPath? w = some a → Partial (.path a (Text.alike w "not")) [.word w]
  | value {w o a op} :
      Attribute.ofPath? w = some a → CompareOp.ofWord? o = some op →
      Partial (.value a op) [.word w, .word o]

theorem Opened.inside_eq {limit : Nat} {inside : Bool} {frames : List Frame} {ts : List Token}
    {us : List Expr} (h : Opened limit inside frames ts us) :
    frames.any Frame.isValuePath = inside := by
  induction h with
  | nil => rfl
  | group _ _ _ _ ih => simpa [Frame.isValuePath] using ih
  | negated _ _ _ _ _ ih => simpa [Frame.isValuePath] using ih
  | valuePath _ _ _ _ _ _ => rfl

/-! ### States -/

/-- The tokens `fs` make up the frames of the state, the trees `us` that they
spell and the trees `vs` of the present level are told, and the limits are
kept. -/
structure Holds (limits : Limits) (s : State) (inside : Bool) (fs : List Token)
    (us vs : List Expr) : Prop where
  opened : Opened limits.depth inside s.frames fs us
  shallow : Shallow (limits.depth - s.frames.length) vs
  told : s.told.reverse = eventsOf (us ++ vs)
  room : s.connectives = 0 ∨ s.connectives < limits.operands

/-- How the tokens taken so far make up the state. -/
inductive Reached (limits : Limits) (s : State) (ts : List Token) : Prop
  | wanting {inside fs us ls vs ps} :
      Holds limits s inside fs us vs → Begun inside s.level ls vs → Partial s.mode ps →
      s.connectives = operandsOf (us ++ vs) → ts = fs ++ ls ++ ps → Reached limits s ts
  | done {inside fs us ls vs} :
      Holds limits s inside fs us vs → Ended inside s.level ls vs → s.mode = .done →
      s.connectives + 1 = operandsOf (us ++ vs) → ts = fs ++ ls → Reached limits s ts

theorem reached_start (limits : Limits) : Reached limits {} [] :=
  .wanting ⟨.nil, by simp [Shallow], rfl, .inl rfl⟩ .fresh .operand rfl rfl

/-- A bracket opens before a fresh level. -/
theorem Reached.enter {limits : Limits} {s s' : State} {frame : Frame} {inside : Bool}
    {ts : List Token} {us : List Expr} (hs : s.enter limits frame = .ok s')
    (hopened : s.frames.length + 1 ≤ limits.depth →
      Opened limits.depth inside (frame :: s.frames) ts us)
    (htold : s.told.reverse = eventsOf us) (hcount : s.connectives = operandsOf us)
    (hroom : s.connectives = 0 ∨ s.connectives < limits.operands) : Reached limits s' ts := by
  unfold State.enter at hs
  split at hs
  · cases hs
  · rename_i hdepth
    cases hs
    exact .wanting ⟨hopened (by omega), by simp [Shallow], by simpa using htold, hroom⟩ .fresh
      .operand (by simpa using hcount) (by simp)

/-- An operand is complete. -/
theorem Reached.complete {limits : Limits} {s : State} {inside : Bool} {fs ls os : List Token}
    {us vs : List Expr} {o : Expr} {before : List Event} {event : Event}
    (hopened : Opened limits.depth inside s.frames fs us) (hbegun : Begun inside s.level ls vs)
    (hshallow : Shallow (limits.depth - s.frames.length) vs) (ho : Derives .operand inside os o)
    (hdepth : o.nesting ≤ limits.depth - s.frames.length) (hevents : o.events = before ++ [event])
    (htold : s.told.reverse = eventsOf (us ++ vs) ++ before)
    (hcount : s.connectives + 1 = operandsOf (us ++ vs) + o.operands)
    (hroom : s.connectives = 0 ∨ s.connectives < limits.operands) :
    Reached limits (s.complete event) (fs ++ ls ++ os) := by
  obtain ⟨vs', hended, hevents', hops, hshallow'⟩ := hbegun.ended ho
  have hclose : s.complete event =
      { s with
        mode := .done
        level := { s.level with andWaits := false }
        told := (if s.level.andWaits then [.joined .and] else []) ++ event :: s.told } := by
    unfold State.complete
    rcases s with ⟨mode, ⟨orWaits, andWaits⟩, frames, connectives, told⟩
    cases andWaits <;> rfl
  rw [hclose]
  refine .done ⟨hopened, hshallow' _ hshallow hdepth, ?_, hroom⟩ hended rfl ?_
    (List.append_assoc fs ls os)
  · show (_ ++ event :: s.told).reverse = _
    rw [List.reverse_append, List.reverse_cons, htold, eventsOf_append us vs', hevents', hevents]
    cases s.level.andWaits <;> simp
  · rw [hcount, operandsOf_append, operandsOf_append, hops, Nat.add_assoc]

/-! ### One token -/

section Step

variable {limits : Limits} {s s' : State} {inside : Bool} {fs ls ts : List Token}
variable {us vs : List Expr} {token : Token}

theorem reached_stepOperand (h : Holds limits s inside fs us vs) (hbegun : Begun inside s.level ls vs)
    (hcount : s.connectives = operandsOf (us ++ vs)) (hs : s.stepOperand limits token = .ok s') :
    Reached limits s' (fs ++ ls ++ [token]) := by
  unfold State.stepOperand at hs
  split at hs
  · -- a group opens; the level so far waits behind its frame
    exact .enter hs (.group h.opened hbegun h.shallow) h.told hcount h.room
  · rename_i w
    split at hs
    · rename_i a ha
      cases hs
      exact .wanting ⟨h.opened, h.shallow, h.told, h.room⟩ hbegun (.path ha) hcount rfl
    · cases hs
  · cases hs

theorem reached_stepPath {w : String} {a : Attribute} (h : Holds limits s inside fs us vs)
    (hbegun : Begun inside s.level ls vs) (hcount : s.connectives = operandsOf (us ++ vs))
    (ha : Attribute.ofPath? w = some a)
    (hs : s.stepPath limits a (Text.alike w "not") token = .ok s') :
    Reached limits s' (fs ++ ls ++ [.word w, token]) := by
  unfold State.stepPath at hs
  split at hs
  · -- the path was the word `not`, and a negated group opens
    split at hs
    · rename_i hnot
      exact .enter hs (fun hlen => .negated h.opened hbegun h.shallow hlen hnot) h.told hcount
        h.room
    · cases hs
  · -- a value path opens, which it does only outside another one
    split at hs
    · cases hs
    · rename_i hany
      obtain rfl : inside = false := by
        rw [← h.opened.inside_eq]
        simpa using hany
      exact .enter hs (fun hlen => .valuePath h.opened hbegun h.shallow hlen ha) h.told hcount
        h.room
  · rename_i p
    split at hs
    · rename_i hp
      cases hs
      exact .complete h.opened hbegun h.shallow (.present ha hp) (Nat.zero_le _)
        (List.nil_append _).symm (by simpa using h.told) (by rw [hcount]; rfl) h.room
    · split at hs
      · rename_i op hop
        cases hs
        exact .wanting ⟨h.opened, h.shallow, h.told, h.room⟩ hbegun (.value ha hop) hcount rfl
      · cases hs
  · cases hs

theorem reached_stepValue {w o : String} {a : Attribute} {op : CompareOp}
    (h : Holds limits s inside fs us vs) (hbegun : Begun inside s.level ls vs)
    (hcount : s.connectives = operandsOf (us ++ vs)) (ha : Attribute.ofPath? w = some a)
    (hop : CompareOp.ofWord? o = some op) (hs : s.stepValue a op token = .ok s') :
    Reached limits s' (fs ++ ls ++ [.word w, .word o, token]) := by
  obtain ⟨raw, hraw⟩ : ∃ raw, Spells token raw := by
    cases token with
    | quoted raw => exact ⟨raw, .quoted raw⟩
    | word raw => exact ⟨raw, .word raw⟩
    | _ => cases hs
  rcases hv : Literal.ofRaw? raw with - | v
  · cases hraw <;> (simp only [State.stepValue, hv] at hs; cases hs)
  · obtain rfl : s.complete (.comparison a op v) = s' := by
      cases hraw <;> (simp only [State.stepValue, hv] at hs; exact Except.ok.inj hs)
    exact .complete h.opened hbegun h.shallow (.comparison ha hop hraw hv) (Nat.zero_le _)
      (List.nil_append _).symm (by simpa using h.told) (by rw [hcount]; rfl) h.room

theorem closeConjunction_eq (s : State) :
    s.closeConjunction =
      { s with
        level := { s.level with orWaits := false }
        told := (if s.level.orWaits then [.joined .or] else []) ++ s.told } := by
  unfold State.closeConjunction
  rcases s with ⟨mode, ⟨orWaits, andWaits⟩, frames, connectives, told⟩
  cases orWaits <;> rfl

theorem reached_connect {w : String} {c : Connective} (h : Holds limits s inside fs us vs)
    (hended : Ended inside s.level ls vs) (hcount : s.connectives + 1 = operandsOf (us ++ vs))
    (hw : Connective.ofWord? w = some c) (hs : s.connect limits c = .ok s') :
    Reached limits s' (fs ++ ls ++ [.word w]) := by
  unfold State.connect at hs
  split at hs
  · cases hs
  · rename_i hroom
    have hroom' : s.connectives + 1 < limits.operands := Nat.not_le.1 hroom
    rw [List.append_assoc]
    cases c with
    | and =>
      cases hs
      exact .wanting ⟨h.opened, h.shallow, h.told, .inr hroom'⟩ (hended.begun_and hw) .operand
        hcount (by simp)
    | or =>
      -- the trees of the level become one, before which nothing waits
      obtain ⟨u, hbegun, hevents, hops, hdepth⟩ := hended.begun_or hw
      have hshallow : Shallow (limits.depth - s.frames.length) [u] := by
        intro v hv
        obtain rfl := List.mem_singleton.1 hv
        exact hdepth _ h.shallow
      rw [closeConjunction_eq] at hs
      cases hs
      refine .wanting ⟨h.opened, hshallow, ?_, .inr hroom'⟩ hbegun .operand ?_ (by simp)
      · show (_ ++ s.told).reverse = _
        rw [List.reverse_append, h.told, eventsOf_append, eventsOf_append, List.append_assoc]
        simp only [eventsOf, List.flatMap_cons, List.flatMap_nil, List.append_nil, hevents]
        cases s.level.orWaits <;> rfl
      · show s.connectives + 1 = _
        rw [hcount, operandsOf_append, operandsOf_append, ← hops]
        simp [operandsOf]

/-- A bracket closes on a whole filter `u`: the operand `o` that it makes belongs
to the level that the bracket interrupted. -/
theorem reached_close {frame : Frame} {outer : Level} {frames : List Frame} {event : Event}
    {os : List Token} {u o : Expr} (h : s.told.reverse ++
        (if s.level.orWaits then [.joined .or] else []) = eventsOf (us ++ vs) ++ u.events)
    (hcount : s.connectives + 1 = operandsOf (us ++ vs) + u.operands)
    (hroom : s.connectives = 0 ∨ s.connectives < limits.operands)
    (hframes : s.frames = frame :: frames) (hlen : frames.length + 1 ≤ limits.depth)
    (hdepth : u.nesting ≤ limits.depth - s.frames.length)
    (hopened : Opened limits.depth inside frames fs us) (hbegun : Begun inside outer ls vs)
    (hshallow : Shallow (limits.depth - frames.length) vs) (ho : Derives .operand inside os o)
    (hevents : o.events = u.events ++ [event]) (hops : o.operands = u.operands)
    (hnesting : o.nesting = u.nesting + 1) :
    Reached limits ({ s.closeConjunction with level := outer, frames := frames }.complete event)
      (fs ++ ls ++ os) := by
  rw [closeConjunction_eq]
  refine .complete hopened hbegun hshallow ho ?_ hevents ?_ ?_ hroom
  · show o.nesting ≤ limits.depth - frames.length
    rw [hframes, List.length_cons] at hdepth
    omega
  · show (_ ++ s.told).reverse = _
    rw [List.reverse_append, ← h]
    cases s.level.orWaits <;> rfl
  · rw [hops]
    exact hcount

theorem reached_stepDone (h : Holds limits s inside fs us vs) (hended : Ended inside s.level ls vs)
    (hcount : s.connectives + 1 = operandsOf (us ++ vs)) (hs : s.stepDone limits token = .ok s') :
    Reached limits s' (fs ++ ls ++ [token]) := by
  obtain ⟨hopened, hshallow, htold, hroom⟩ := h
  -- the whole level as one filter, for the case that a bracket closes on it
  obtain ⟨u, hu, hevents, hops, hdepth⟩ := hended.filter
  have htold' : s.told.reverse ++ (if s.level.orWaits then [.joined .or] else []) =
      eventsOf us ++ u.events := by
    rw [htold, eventsOf_append, List.append_assoc, hevents]
  have hcount' : s.connectives + 1 = operandsOf us + u.operands := by
    rw [hcount, operandsOf_append, hops]
  unfold State.stepDone at hs
  split at hs
  · rename_i w _
    split at hs
    · rename_i c hc
      exact reached_connect ⟨hopened, hshallow, htold, hroom⟩ hended hcount hc hs
    · cases hs
  · rename_i n outer frames hframes
    cases hs
    rw [hframes] at hopened
    cases hopened with
    | @group _ _ fs₀ us₀ _ ls₀ vs₀ ho hb hsh hlen =>
      have hclose := reached_close htold' hcount' hroom hframes hlen (hdepth _ hshallow) ho hb hsh
        (.group hu) (Expr.events_group false u) rfl rfl
      simpa using hclose
    | @negated _ _ fs₀ us₀ _ ls₀ vs₀ w ho hb hsh hlen hw =>
      have hclose := reached_close htold' hcount' hroom hframes hlen (hdepth _ hshallow) ho hb hsh
        (.negated hw hu) (Expr.events_group true u) rfl rfl
      simpa using hclose
  · rename_i a outer frames hframes
    cases hs
    rw [hframes] at hopened
    cases hopened with
    | @valuePath _ fs₀ us₀ _ ls₀ vs₀ w _ ho hb hsh hlen ha =>
      have hclose := reached_close htold' hcount' hroom hframes hlen (hdepth _ hshallow) ho hb hsh
        (.valuePath ha hu) (Expr.events_valuePath a u) rfl rfl
      simpa using hclose
  · cases hs

end Step

/-- Every step keeps the invariant. -/
theorem Reached.step {limits : Limits} {s s' : State} {ts : List Token} {token : Token}
    (h : Reached limits s ts) (hs : s.step limits token = .ok s') :
    Reached limits s' (ts ++ [token]) := by
  cases h with
  | @wanting inside fs us ls vs ps hholds hbegun hpartial hcount hts =>
    rw [hts, List.append_assoc]
    generalize hmode : s.mode = mode at hpartial
    cases hpartial with
    | operand =>
      simp only [State.step, hmode] at hs
      exact reached_stepOperand hholds hbegun hcount hs
    | path ha =>
      simp only [State.step, hmode] at hs
      exact reached_stepPath hholds hbegun hcount ha hs
    | value ha hop =>
      simp only [State.step, hmode] at hs
      exact reached_stepValue hholds hbegun hcount ha hop hs
  | done hholds hended hmode hcount hts =>
    rw [hts]
    simp only [State.step, hmode] at hs
    exact reached_stepDone hholds hended hcount hs

/-- Every run keeps the invariant. -/
theorem Reached.steps {limits : Limits} {s s' : State} {ts us : List Token}
    (h : Reached limits s ts) (hs : s.steps limits us = .ok s') :
    Reached limits s' (ts ++ us) := by
  induction us generalizing s ts with
  | nil =>
    cases hs
    rwa [List.append_nil]
  | cons token us ih =>
    obtain ⟨s₁, hs₁, hrest⟩ := State.steps_cons_ok hs
    rw [List.append_cons]
    exact ih (h.step hs₁) hrest

/-! ### Acceptance -/

/-- Where a filter may end, the tokens derive a tree within the limits, and its
events are told. -/
theorem Reached.finish {limits : Limits} {s : State} {ts : List Token} {events : List Event}
    (h : Reached limits s ts) (hs : s.finish = .ok events) :
    ∃ u, Derives .filter false ts u ∧ events = u.events ∧ u.nesting ≤ limits.depth ∧
      (u.operands = 1 ∨ u.operands ≤ limits.operands) := by
  cases h with
  | @wanting inside fs us ls vs ps hholds hbegun hpartial hcount hts =>
    -- an operand is still wanted
    generalize hmode : s.mode = mode at hpartial
    cases hpartial with
    | operand => simp only [State.finish, hmode, refuse] at hs; cases hs
    | path _ => simp only [State.finish, hmode, refuse] at hs; cases hs
    | value _ _ => simp only [State.finish, hmode, refuse] at hs; cases hs
  | done hholds hended hmode hcount hts =>
    obtain ⟨hopened, hshallow, htold, hroom⟩ := hholds
    obtain ⟨u, hu, hevents, hops, hdepth⟩ := hended.filter
    simp only [State.finish, hmode] at hs
    split at hs
    · rename_i hempty
      have hframes : s.frames = [] := List.isEmpty_iff.1 hempty
      rw [hframes] at hopened hshallow
      cases hopened
      rw [List.nil_append] at htold hcount hts
      refine ⟨u, hts ▸ hu, ?_, by simpa using hdepth _ hshallow, ?_⟩
      · obtain rfl := Except.ok.inj hs
        rw [closeConjunction_eq]
        show (_ ++ s.told).reverse = _
        rw [List.reverse_append, htold, hevents]
        cases s.level.orWaits <;> rfl
      · rw [hops, ← hcount]
        omega
    · cases hs

/-- The machine accepts exactly the tokens that derive a tree within the limits,
and tells the events of that tree. -/
theorem run_eq_ok_iff_derives {limits : Limits} {last : Nat} {ls : List Lexeme}
    {ts : List Token} {events : List Event} (hls : ls.map Lexeme.token = ts ++ [.eof])
    (heof : .eof ∉ ts) (hpos : 0 < limits.operands) :
    run limits last {} ls = .ok events ↔
      ∃ u, Derives .filter false ts u ∧ events = u.events ∧ u.nesting ≤ limits.depth ∧
        u.operands ≤ limits.operands := by
  constructor
  · intro h
    obtain ⟨s, hs, hfinish⟩ := (run_eq_ok_iff hls heof).1 h
    obtain ⟨u, hu, hevents, hdepth, hops⟩ := ((reached_start limits).steps hs).finish hfinish
    exact ⟨u, hu, hevents, hdepth, by omega⟩
  · rintro ⟨u, hu, rfl, hdepth, hops⟩
    exact run_of_derives hls heof hu hdepth hops

end ScimQuery.Reading
