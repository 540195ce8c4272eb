import Interlock.Proofs.Agree
import Interlock.Proofs.Draft.Basic
import Interlock.Proofs.Expr.Width

/-! What each recording operation does where it succeeds. -/

namespace Interlock

theorem Attempt.result?_eq_some {ε α : Type} {x : Attempt ε α} {a : α} :
    x.result? = some a ↔ x.Gives a := by
  unfold Attempt.result? Attempt.Gives
  split
  · rename_i b h
    simp [h]
  · rename_i h
    simpa using h a

theorem Attempt.Agrees.result? {ε ε' α α' : Type} {E : ε → ε' → Prop} {R : α → α' → Prop} {x : Attempt ε α}
    {x' : Attempt ε' α'} (h : Agrees E R x x') : Option.Rel R x.result? x'.result? := by
  unfold Agrees at h
  unfold Attempt.result?
  cases h with
  | error _ => exact .none
  | ok h =>
    cases h with
    | error _ => exact .none
    | ok h => exact .some h

theorem Except.toOption_eq_some {ε α : Type} {x : Except ε α} {a : α} :
    x.toOption = some a ↔ x = .ok a := by
  cases x <;> simp [Except.toOption]

theorem Expr.Checked.anyBit_ok {e w : Expr} (h : Expr.Checked.anyBit e = .ok w) : w.width = 1 := by
  simp only [Expr.Checked.anyBit, except_bind_ok, except_pure_ok] at h
  obtain ⟨_, _, rfl⟩ := h
  exact Expr.width_anyBit e

namespace Recording

variable {r r' : Recording}

theorem caseCond_ok {sel e : Expr} {values : List Word} (h : caseCond sel values = .ok e) :
    e.width = 1 := by
  simp only [caseCond, except_bind_ok, except_pure_ok] at h
  obtain ⟨_, _, rfl⟩ := h
  apply Expr.width_any
  intro x hx
  obtain ⟨v, -, rfl⟩ := List.mem_map.1 hx
  rfl

theorem signal_ok {name : String} {width : Nat} {kind : SignalKind} {init : Word} {loc : Location}
    {s : Sig} (h : r.signal name width kind init loc = .ok (s, r')) :
    width ≤ maxWidth ∧ s = ⟨(r.design.newSignal (r.scope ++ name) width kind init).1, width, kind⟩ ∧
      r' = { r with design := (r.design.newSignal (r.scope ++ name) width kind init).2 } := by
  unfold signal at h
  split at h
  · exact nomatch h
  · simp only [Except.ok.injEq, Prod.mk.injEq] at h
    exact ⟨by omega, h.1.symm, h.2.symm⟩

theorem assign_ok {target : Sig} {guard value : Expr} {domain : Domain} {loc : Location}
    (h : (r.assign target guard value domain loc).Gives r') :
    target.kind = assignable domain ∧
      r' = { r with design := r.design.assign ⟨target.id, guard, value.resize target.width, domain⟩ } := by
  simp only [assign, Attempt.gives_guard, Attempt.gives_bind, Attempt.gives_pure, ne_eq, not_not] at h
  obtain ⟨hkind, _, _, _, rfl⟩ := h
  exact ⟨hkind, rfl⟩

/-- No value is assigned that is wider than its target. -/
theorem assign_narrow {target : Sig} {guard value : Expr} {domain : Domain} {loc : Location}
    (h : (r.assign target guard value domain loc).Gives r') : value.width ≤ target.width := by
  simp only [assign, Attempt.gives_guard, Attempt.gives_bind, Nat.not_lt] at h
  obtain ⟨_, _, _, hw, _⟩ := h
  exact hw

theorem machine_ok {name : String} {states : List String} {loc : Location} {m : Machine}
    (h : r.machine name states loc = .ok (m, r')) :
    ∃ r₁, r.signal (name ++ "_state") (Machine.widthFor states.length) .reg 0 loc = .ok (m.state, r₁) ∧
      m.states = states ∧ m.chain = r₁.path.nextChain ∧ m.path = r.path.current ∧
      r' = { r₁ with path := r₁.path.newChain.2 } := by
  simp only [machine, except_guard_ok, except_bind_ok, except_pure_ok] at h
  obtain ⟨-, ⟨s, r₁⟩, hs, h⟩ := h
  simp only [Prod.mk.injEq] at h
  obtain ⟨rfl, rfl⟩ := h
  obtain ⟨-, -, rfl⟩ := signal_ok hs
  exact ⟨_, hs, rfl, rfl, rfl, rfl⟩

theorem machine_nonempty {name : String} {states : List String} {loc : Location} {m : Machine}
    (h : r.machine name states loc = .ok (m, r')) : states ≠ [] := by
  simp only [machine, except_guard_ok, List.isEmpty_iff] at h
  exact h.1

theorem index_ok_iff {m : Machine} {state : String} {loc : Location} {i : Nat} :
    m.index state loc = .ok i ↔ m.states.idxOf? state = some i := by
  unfold Machine.index
  split <;> simp [*]

theorem index_lt {m : Machine} {state : String} {loc : Location} {i : Nat}
    (h : m.index state loc = .ok i) : i < m.states.length :=
  (List.findIdx?_eq_some_iff_getElem.1 (index_ok_iff.1 h)).1

theorem index_eq {m : Machine} {state : String} {loc : Location} {i : Nat}
    (h : m.index state loc = .ok i) : i = m.states.idxOf state :=
  (List.findIdx?_eq_some_iff_findIdx_eq.1 (index_ok_iff.1 h)).2.symm

theorem index_of_mem {m : Machine} {state : String} (h : state ∈ m.states) (loc : Location) :
    m.index state loc = .ok (m.states.idxOf state) :=
  index_ok_iff.2 (List.findIdx?_eq_some_iff_findIdx_eq.2 ⟨List.idxOf_lt_length_of_mem h, rfl⟩)

theorem enterState_ok {m : Machine} {state : String} {loc : Location} {i : Nat}
    (hi : m.index state loc = .ok i) (h : r.enterState m state loc = .ok r') :
    r.path.current = m.path ∧ r' = r.enter m.chain i (m.inState i) := by
  simp only [enterState, hi, except_bind_ok, Except.ok.injEq, exists_eq_left', except_guard_ok,
    except_pure_ok, ne_eq, not_not] at h
  exact ⟨h.1, h.2.symm⟩

theorem nextState_ok {m : Machine} {state : String} {loc : Location}
    (h : (r.nextState m state loc).Gives r') :
    ∃ i, m.index state loc = .ok i ∧
      (r.assign m.state r.guard (.constant (UInt64.ofNat i) m.state.width) .sync loc).Gives r' := by
  simpa only [nextState, Attempt.gives_bind, Attempt.gives_ofExcept] using h

/-- A design in which the body of a node begins. -/
def opened (r : Recording) (id : NodeId) (loc : Location) : Design :=
  ({ r.design with nextDefOrder := r.design.nextDefOrder + 1 } : Design).modifyNode id fun n =>
    { n with
      defOrder := some r.design.nextDefOrder
      defLoc := some loc
      path := some r.path.current }

theorem openBody_ok {id : NodeId} {loc : Location} (h : r.openBody id loc = .ok r') :
    r.body = none ∧ (r.design.node id).defLoc = none ∧ r' = { r with design := r.opened id loc } := by
  unfold openBody at h
  split at h
  · exact nomatch h
  · rename_i hbody
    split at h
    · exact nomatch h
    · rename_i hloc
      rw [Except.ok.injEq] at h
      exact ⟨hbody, hloc, h.symm⟩

/-- Neither body is opened while another one is open. -/
theorem openTransaction_outside {t : NodeId} {request : Expr} {loc : Location}
    (h : (r.openTransaction t request loc).Gives r') : r.body = none := by
  simp only [openTransaction, Attempt.gives_bind, Attempt.gives_ofExcept] at h
  obtain ⟨r₁, hopen, -⟩ := h
  exact (openBody_ok hopen).1

theorem openMethod_outside {m : NodeId} {ready : Expr} {validator : Option Validator} {loc : Location}
    {info : MethodInfo} (h : (r.openMethod m ready validator loc).Gives (info, r')) : r.body = none := by
  simp only [openMethod, Attempt.gives_bind, Attempt.gives_ofExcept] at h
  obtain ⟨r₁, hopen, -⟩ := h
  exact (openBody_ok hopen).1

theorem openTransaction_ok {t : NodeId} {request : Expr} {loc : Location}
    (h : (r.openTransaction t request loc).Gives r') :
    ∃ info wanted, (r.design.node t).defLoc = none ∧
      ((r.opened t loc).node t).transaction? = some info ∧ Expr.Checked.anyBit request = .ok wanted ∧
      r' = { r with
        design := (r.opened t loc).drive info.request (r.cond.and wanted)
        body := some ⟨t, (r.opened t loc).read info.grant⟩ } := by
  simp only [openTransaction, Attempt.gives_bind, Attempt.gives_ofExcept] at h
  obtain ⟨r₁, hopen, h⟩ := h
  obtain ⟨-, hloc, rfl⟩ := openBody_ok hopen
  split at h
  · exact absurd h Attempt.not_gives_throw
  · rename_i info hinfo
    simp only [Attempt.gives_bind, Attempt.gives_ofChecked, Attempt.gives_pure] at h
    obtain ⟨wanted, hw, rfl⟩ := h
    exact ⟨info, wanted, hloc, hinfo, hw, rfl⟩

theorem openMethod_ok {m : NodeId} {ready : Expr} {validator : Option Validator} {loc : Location}
    {info : MethodInfo} (h : (r.openMethod m ready validator loc).Gives (info, r')) :
    ∃ old wanted, (r.design.node m).defLoc = none ∧
      ((r.opened m loc).node m).method? = some old ∧ Expr.Checked.anyBit ready = .ok wanted ∧
      info = { old with validator } ∧
      r' = { r with
        design := ((r.opened m loc).modifyNode m fun n => { n with kind := .method info }).drive
          info.ready (r.cond.and wanted)
        body := some ⟨m, ((r.opened m loc).modifyNode m fun n => { n with kind := .method info }).read
          info.run⟩ } := by
  simp only [openMethod, Attempt.gives_bind, Attempt.gives_ofExcept] at h
  obtain ⟨r₁, hopen, h⟩ := h
  obtain ⟨-, hloc, rfl⟩ := openBody_ok hopen
  split at h
  · exact absurd h Attempt.not_gives_throw
  · rename_i old hold
    simp only [Attempt.gives_bind, Attempt.gives_ofChecked, Attempt.gives_pure, Prod.mk.injEq] at h
    obtain ⟨wanted, hw, rfl, rfl⟩ := h
    exact ⟨old, wanted, hloc, hold, hw, rfl, rfl⟩

theorem closeMethod_ok {m : NodeId} {info : MethodInfo} {result : Expr} {loc : Location}
    (h : (r.closeMethod m info result loc).Gives r') :
    r' = r ∨ ∃ bus, info.dataOut = some bus ∧
      r' = { r with design := r.design.assign ⟨bus, r.cond, result.resize info.output.width, .comb⟩ } := by
  simp only [closeMethod, Attempt.gives_bind, Attempt.gives_guard] at h
  obtain ⟨_, _, _, h⟩ := h
  split at h
  · exact .inl (Attempt.gives_pure.1 h).symm
  · rename_i bus hbus
    exact .inr ⟨bus, hbus, (Attempt.gives_pure.1 h).symm⟩

/-- The call of a method as it is recorded: the argument at the width of the input, the enable under the conditions
around the place. -/
def callSite? (r : Recording) (m : NodeId) (arg enable : Expr) (loc : Location) : Option CallSite := do
  let info ← (r.design.node m).method?
  let enabled ← (Expr.Checked.anyBit enable).toOption
  return ⟨r.path.current, arg.resize info.input.width, r.cond.and enabled, loc⟩

theorem call_ok {m : NodeId} {arg enable out : Expr} {loc : Location}
    (h : (r.call m arg enable loc).Gives (out, r')) :
    ∃ frame site enabled, r.body = some frame ∧ site.path = r.path.current ∧
      site.enable = r.cond.and enabled ∧ enabled.width = 1 ∧
      (∀ s ∈ (r.design.node frame.node).sitesTo m, s.path.exclusiveWith site.path = true) ∧
      (∃ info, (r.design.node m).method? = some info ∧ site.arg.width = info.input.width) ∧
      r.callSite? m arg enable loc = some site ∧
      r' = { r with design := r.design.modifyNode frame.node fun n =>
        { n with calls := addSite n.calls m site } } := by
  simp only [call] at h
  split at h
  · exact absurd h Attempt.not_gives_throw
  · rename_i frame hbody
    split at h
    · exact absurd h Attempt.not_gives_throw
    · rename_i info hinfo
      simp only [Attempt.gives_guard, Attempt.gives_bind, Attempt.gives_ofChecked] at h
      obtain ⟨-, -, -, -, enabled, henabled, h⟩ := h
      split at h
      · exact absurd h Attempt.not_gives_throw
      · rename_i hnone
        simp only [Attempt.gives_pure, Prod.mk.injEq] at h
        obtain ⟨-, rfl⟩ := h
        rw [List.find?_eq_none] at hnone
        refine ⟨frame, _, enabled, hbody, rfl, rfl, Expr.Checked.anyBit_ok henabled, fun s hs => ?_,
          ⟨info, hinfo, Expr.width_resize ..⟩, ?_, rfl⟩
        · simpa using hnone s hs
        · simp only [callSite?, hinfo, henabled, Except.toOption, Option.bind_eq_bind, Option.bind_some,
            Option.pure_def]

theorem call_defined {m : NodeId} {arg enable out : Expr} {loc : Location}
    (h : (r.call m arg enable loc).Gives (out, r')) : (r.design.node m).isDefined = true := by
  simp only [call] at h
  split at h
  · exact absurd h Attempt.not_gives_throw
  · split at h
    · exact absurd h Attempt.not_gives_throw
    · simp only [Attempt.gives_guard, Bool.not_eq_true', Bool.not_eq_false] at h
      exact h.1

end Recording

end Interlock
