/-
ScimQuery/Proofs/Session/NormalForm.lean

Sessions build what can be read.  A tree in *normal form* has its operands where
text has them: no `or` is a left operand of an `and`, nothing joined is a right
operand of an `and`, no `or` is a right operand of an `or`, and no value path is
inside another.  A session in normal form has at most two connectives waiting, the
second of them an `and` under an `or`.

The invariant is that the filter so far is spelled by its text, or was before the
connective that waits (`Session.Spelled`).  Every call keeps it.

Main result: after any calls whose operands are read back from their own texts, the
session is in normal form, and the filter that is built is read back from its text
(`calls_normal`).
-/
import ScimQuery.Proofs.Session.Spelling

namespace ScimQuery

/-! ### Normal form -/

namespace Expr

/-- No operand would be regrouped by reading, and no value path is inside another. -/
def Normal : Expr → Prop
  | comparison .. => True
  | present _ => True
  | joined l .and r => (l.connective? ≠ some .or ∧ r.connective? = none) ∧ l.Normal ∧ r.Normal
  | joined l .or r => r.connective? ≠ some .or ∧ l.Normal ∧ r.Normal
  | group _ e => e.Normal
  | valuePath _ e => e.hasValuePath = false ∧ e.Normal

/-- What is read is in normal form. -/
theorem Proper.normal {e : Expr} {scope : Option Attribute} (h : e.Proper scope)
    (htidy : e.Tidy) : e.Normal := by
  induction e generalizing scope with
  | comparison a op v => trivial
  | present a => trivial
  | joined l c r ihl ihr =>
    obtain ⟨⟨hpl, hpr⟩, tl, tr⟩ := htidy
    have hl := ihl h.1 tl
    have hr := ihr h.2 tr
    cases c with
    | and =>
      exact ⟨⟨parensLeft_and_eq_false_iff.1 hpl, parensRight_and_eq_false_iff.1 hpr⟩, hl, hr⟩
    | or => exact ⟨parensRight_or_eq_false_iff.1 hpr, hl, hr⟩
  | group n e ih => exact ih h htidy
  | valuePath a e ih => exact ⟨h.2.2.not_hasValuePath, ih h.2.2 htidy⟩

/-- Equal trees are in normal form together. -/
theorem Normal.of_same {d e : Expr} (hd : d.Normal) (h : d.same e = true) : e.Normal := by
  fun_induction same d e with
  | case1 a op v b op' w => trivial
  | case2 a b => trivial
  | case3 l c r l' c' r' ihl ihr =>
    simp only [Bool.and_eq_true, beq_iff_eq] at h
    obtain ⟨⟨hl, rfl⟩, hr⟩ := h
    cases c with
    | and =>
      obtain ⟨⟨hcl, hcr⟩, nl, nr⟩ := hd
      rw [connective?_eq_of_same hl] at hcl
      rw [connective?_eq_of_same hr] at hcr
      exact ⟨⟨hcl, hcr⟩, ihl nl hl, ihr nr hr⟩
    | or =>
      obtain ⟨hcr, nl, nr⟩ := hd
      rw [connective?_eq_of_same hr] at hcr
      exact ⟨hcr, ihl nl hl, ihr nr hr⟩
  | case4 n e n' e' ih =>
    simp only [Bool.and_eq_true] at h
    exact ih hd h.2
  | case5 a e b e' ih =>
    simp only [Bool.and_eq_true] at h
    obtain ⟨-, -, hflat⟩ := shape_eq_of_same h.2
    exact ⟨hflat ▸ hd.1, ih hd.2 h.2⟩
  | case6 => cases h

theorem Spelled.normal {e : Expr} (h : e.Spelled) : e.Normal := by
  obtain ⟨ts, u, hscans, hu, hsame⟩ := h
  have hproper : u.resolve.Proper none := hu.proper (fun w => hscans.isWord) rfl nofun
  exact (hproper.normal hu.tidy.resolve).of_same hsame

end Expr

/-- At most two connectives wait, the second of them an `and` under an `or`, and
what is before them is in normal form. -/
def Pending.Normal : Pending → Prop
  | slot l .and => l.connective? ≠ some .or ∧ l.Normal
  | slot l .or => l.Normal
  | nested l .or (slot r .and) => r.connective? ≠ some .or ∧ l.Normal ∧ r.Normal
  | _ => False

/-- What there is of the filter is in normal form. -/
def Session.Normal : Session → Prop
  | empty => True
  | complete root => root.Normal
  | pending p => p.Normal

/-- What the call brings along to be put into the filter. -/
def Call.operands : Call → List Expr
  | merge _ e => [e]
  | pair _ l r => [l, r]
  | call => call.leaf?.toList

namespace Session

/-! ### The invariant -/

/-- The filter is spelled by its text, or was before the connective that waits. -/
def Spelled : Session → Prop
  | empty => True
  | complete root => root.Spelled
  | pending p => ∃ root c, root.Spelled ∧ (complete root).connect c = .ok (pending p)

theorem Spelled.normal {s : Session} (h : s.Spelled) : s.Normal := by
  cases s with
  | empty => trivial
  | complete root => exact Expr.Spelled.normal h
  | pending p =>
    obtain ⟨root, c, hroot, hp⟩ := h
    have hnormal := hroot.normal
    obtain ⟨l, r, rfl, rfl, hcase⟩ | ⟨hleft, hcase⟩ := connect_cases c root
    · obtain rfl := Session.pending.inj (Except.ok.inj (hp.symm.trans hcase))
      exact hnormal
    · obtain rfl := Session.pending.inj (Except.ok.inj (hp.symm.trans hcase))
      cases c with
      | and => exact ⟨Expr.parensLeft_and_eq_false_iff.1 hleft, hnormal⟩
      | or => exact hnormal

/-! ### Single steps -/

theorem Spelled.place {s s' : Session} {e : Expr} (h : s.Spelled) (he : e.Spelled)
    (hs : s.place e = .ok s') : s'.Spelled := by
  cases s with
  | empty =>
    obtain rfl := Except.ok.inj hs
    exact he
  | complete root => cases hs
  | pending p =>
    obtain ⟨root, c, hroot, hp⟩ := h
    obtain rfl := Except.ok.inj ((place_of_connect hp e).symm.trans hs)
    exact hroot.extend (spelled_wrapRight he c) (parensRight_wrapRight c e)

theorem Spelled.connect {s s' : Session} {c : Connective} (h : s.Spelled)
    (hs : s.connect c = .ok s') : s'.Spelled := by
  cases s with
  | empty => cases hs
  | complete root =>
    obtain ⟨p, hp⟩ := exists_connect c root
    obtain rfl := Except.ok.inj (hp.symm.trans hs)
    exact ⟨root, c, h, hp⟩
  | pending p => cases hs

/-- A connective and an operand after a complete filter. -/
theorem Spelled.connect_place {root e : Expr} {c : Connective} {s' : Session}
    (h : (complete root).Spelled) (he : e.Spelled)
    (hs : ((complete root).connect c >>= Session.place e) = .ok s') : s'.Spelled := by
  obtain ⟨p, hp⟩ := exists_connect c root
  rw [hp] at hs
  exact (h.connect hp).place he hs

/-- Every call whose operands are spelled keeps the invariant. -/
theorem Spelled.call {s s' : Session} {call : Call} (h : s.Spelled)
    (hops : ∀ e ∈ call.operands, e.Spelled) (hs : s.call call = .ok s') : s'.Spelled := by
  cases call with
  | connect c => exact h.connect hs
  | merge c e =>
    have he := hops e List.mem_cons_self
    cases s with
    | empty =>
      obtain rfl := Except.ok.inj hs
      have hconnect := connect_of_parensLeft (parensLeft_wrapLeft c e)
      exact ⟨wrapLeft c e, c, spelled_wrapLeft he c, hconnect⟩
    | complete root => exact h.connect_place he hs
    | pending p => exact (h.place he rfl).connect hs
  | pair c l r =>
    have hl := hops l List.mem_cons_self
    have hr := hops r (List.mem_cons_of_mem l List.mem_cons_self)
    have hpair := spelled_pair hl hr c
    cases s with
    | empty => exact h.place hpair hs
    | complete root => exact h.connect_place hpair hs
    | pending p => exact h.place hpair hs
  | _ =>
    obtain ⟨e, he, hplace⟩ := leaf?_of_call rfl hs
    refine h.place (hops e ?_) hplace
    simp [Call.operands, he]

/-- Every run of a session keeps the invariant. -/
theorem Spelled.calls {s s' : Session} {cs : List Call} (h : s.Spelled)
    (hops : ∀ call ∈ cs, ∀ e ∈ call.operands, e.Spelled) (hs : s.calls cs = .ok s') :
    s'.Spelled := by
  induction cs generalizing s with
  | nil =>
    obtain rfl := Except.ok.inj hs
    exact h
  | cons call cs ih =>
    obtain ⟨hcall, hrest⟩ := List.forall_mem_cons.1 hops
    obtain ⟨s₁, hs₁, hs⟩ := calls_cons_ok hs
    exact ih (h.call hcall hs₁) hrest hs

/-! ### What is built -/

/-- After calls whose operands are read back from their own texts, the session is in
normal form, and the filter that is built is read back from its text. -/
theorem calls_normal {cs : List Call} {s : Session} (hs : empty.calls cs = .ok s)
    (hops : ∀ call ∈ cs, ∀ e ∈ call.operands,
      ∃ e', Filter.parse e.render = .ok e' ∧ e'.same e = true) :
    s.Normal ∧ ∀ root, s.build = .ok root →
      root.render.utf8ByteSize ≤ ({} : Limits).length →
      root.nesting ≤ ({} : Limits).depth → root.operands ≤ ({} : Limits).operands →
      ∃ e, Filter.parse root.render = .ok e ∧ e.same root = true := by
  have hspelled : s.Spelled := by
    refine Spelled.calls (s := empty) trivial (fun call hcall e he => ?_) hs
    obtain ⟨e', he', hsame⟩ := hops call hcall e he
    exact Expr.spelled_of_parse he' hsame
  refine ⟨hspelled.normal, fun root hroot hlength hdepth hcount => ?_⟩
  cases s with
  | empty => cases hroot
  | complete root =>
    obtain rfl := Except.ok.inj hroot
    exact Expr.Spelled.parse hspelled hlength hdepth hcount
  | pending p => cases hroot

/-- Operands joined by `or` are put into groups on both sides of an `and`, and the
last `and` takes the value path alone. -/
theorem calls_normal_regrouped :
    let a : Expr := .present ⟨none, "a", none⟩
    let b : Expr := .comparison ⟨none, "b", none⟩ .eq (.bool true)
    let cs : List Call := [.merge .and (.joined a .or b), .pair .or b a, .connect .or,
      .has "emails" (.present ⟨none, "type", none⟩), .merge .and (.joined a .or b)]
    ∃ s root, empty.calls cs = .ok s ∧ s.build = .ok root ∧
      root.render = "(a pr or b eq true) and (b eq true or a pr) or " ++
        "emails[type pr] and (a pr or b eq true)" ∧
      s.Normal ∧ ∃ e, Filter.parse root.render = .ok e ∧ e.same root = true := by
  intro a b cs
  have hjoined : ∃ e, Filter.parse "a pr or b eq true" = .ok e ∧
      e.same (.joined a .or b) = true := ⟨_, rfl, by decide⟩
  have ha : ∃ e, Filter.parse "a pr" = .ok e ∧ e.same a = true := ⟨_, rfl, by decide⟩
  have hb : ∃ e, Filter.parse "b eq true" = .ok e ∧ e.same b = true := ⟨_, rfl, by decide⟩
  have hpath : ∃ e, Filter.parse "emails[type pr]" = .ok e ∧
      e.same (.under ⟨none, "emails", none⟩ (.present ⟨none, "type", none⟩)) = true :=
    ⟨_, rfl, by decide⟩
  have hcalls : empty.calls cs = .ok (complete (.joined
      (.joined (.group false (.joined a .or b)) .and (.group false (.joined b .or a))) .or
      (.joined (.under ⟨none, "emails", none⟩ (.present ⟨none, "type", none⟩)) .and
        (.group false (.joined a .or b))))) := rfl
  have hops : ∀ call ∈ cs, ∀ e ∈ call.operands,
      ∃ e', Filter.parse e.render = .ok e' ∧ e'.same e = true := by
    refine List.forall_mem_cons.2 ⟨List.forall_mem_singleton.2 hjoined, ?_⟩
    refine List.forall_mem_cons.2 ⟨List.forall_mem_cons.2 ⟨hb, List.forall_mem_singleton.2 ha⟩, ?_⟩
    refine List.forall_mem_cons.2 ⟨nofun, ?_⟩
    refine List.forall_mem_cons.2 ⟨List.forall_mem_singleton.2 hpath, ?_⟩
    exact List.forall_mem_singleton.2 (List.forall_mem_singleton.2 hjoined)
  obtain ⟨hnormal, hread⟩ := calls_normal hcalls hops
  exact ⟨_, _, hcalls, rfl, by decide, hnormal,
    hread _ rfl (by decide) (by decide) (by decide)⟩

end Session

end ScimQuery
