import Interlock.Proofs.Design.Callable
import Interlock.Proofs.Draft.Placed

/-! The calls of a recorded draft can be made: a call is recorded of a method only, with its argument at
the width of the input, and a method keeps its input and the wire that carries it. -/

namespace Interlock.Draft

open Design

variable {d d' : Design}

/-- A call of a method is recorded in a body. -/
theorem callable_addSite (h : d.Callable) (id m : NodeId) (site : CallSite)
    (hcallee : ∃ info, (d.node m).method? = some info ∧ site.arg.width = info.input.width) :
    (d.modifyNode id fun n => { n with calls := Recording.addSite n.calls m site }).Callable := by
  obtain ⟨info, hinfo, hw⟩ := hcallee
  have hport : ∀ i, ((d.modifyNode id fun n => { n with calls := Recording.addSite n.calls m site }).node i).port? =
      (d.node i).port? := by
    intro i
    rw [node_modifyNode]
    split <;> rfl
  refine h.transfer (fun _ _ hx => hx) (fun m' port hm => ?_) (fun m' port hm => ?_) fun c m' s hs => ?_
  · rw [hport, hm]
  · exact .inl (hport m' ▸ hm)
  · rw [node_modifyNode] at hs
    split at hs
    · rw [Node.sitesTo_addSite] at hs
      split at hs
      · rename_i he
        subst he
        rcases List.mem_append.1 hs with hs | hs
        · exact .inl hs
        · rw [List.mem_singleton.1 hs]
          exact .inr ⟨_, (hport _).trans (by rw [Node.port?, hinfo, Option.map_some]), hw⟩
      · exact .inl hs
    · exact .inl hs

/-- The body of a method gets a validator. -/
theorem callable_setValidator (h : d.Callable) {m : NodeId} {old : MethodInfo}
    (hold : (d.node m).kind = .method old) (validator : Option Validator) :
    (d.modifyNode m fun n => { n with kind := .method { old with validator } }).Callable := by
  have hport : (d.node m).port? = some (old.input, old.dataIn) := by
    rw [Node.port?, Node.method?, hold, Option.map_some]
  exact h.modifyNode m rfl (fun port hp => by rw [← hp, hport]; rfl) fun port hp => .inl (by rw [← hp, hport]; rfl)

theorem callable_opened {r : Recording} (h : r.design.Callable) (id : NodeId) (loc : Location) :
    (r.opened id loc).Callable := by
  have h₁ : ({ r.design with nextDefOrder := r.design.nextDefOrder + 1 } : Design).Callable :=
    h.of_nodes rfl fun _ _ hx => hx
  exact h₁.sameKind id (f := openedNode r loc) (fun _ => rfl) fun _ => rfl

theorem effect_callable {d d' : Draft} (h : d.design.Callable) {i : Nat} {r : Recording} (hr : r.design = d.design)
    {op : Operation} (he : Effect d i r op d') : d'.design.Callable := by
  have hd : r.design.Callable := hr ▸ h
  cases he with
  | submodule scope => exact hd.widens (newModule_widens _)
  | signal name width kind init hw => exact hd.widens (newSignal_widens ..)
  | assign s guard value domain hs hkind => exact hd.assign _
  | «when» wanted hw => exact hd
  | branches => exact hd
  | branch j b arms cond hj hw => exact hd
  | leave => exact hd
  | machine name m hw hstates hstate hchain hpath => exact hd.widens (newSignal_widens ..)
  | state j path m arms index hj hpath hi => exact hd
  | next c m guard value hc hm => exact hd.assign _
  | openTransaction t loc info wanted ht hnew hinfo => exact (callable_opened hd t loc).assign _
  | openMethod m loc old validator wanted activator hnew hinfo =>
    exact (callable_setValidator (callable_opened hd m loc) ((kind_opened r m loc m).trans hinfo) validator).assign _
  | leaveBody => exact hd
  | closeMethod m info bus value hm hbus => exact hd.assign _
  | stay => exact hd
  | call m frame site enabled hbody hpath henable hw hapart hcallee =>
    exact callable_addSite hd frame.node m site hcallee

theorem step_callable {d d' : Draft} {action : Action} (h : d.design.Callable) (hd : d.step action = some d') :
    d'.design.Callable := by
  cases action with
  | transaction name loc =>
    simp only [step, Option.some.injEq] at hd
    subst hd
    exact declareTransaction_callable h name loc
  | method decl loc =>
    simp only [step, Option.bind_eq_bind, Option.bind_eq_some_iff, Option.pure_def, Option.some.injEq,
      Attempt.result?_eq_some] at hd
    obtain ⟨⟨m, design⟩, hm, rfl⟩ := hd
    have ha := addMethod_callable h decl loc
    rwa [← declareMethod_ok hm] at ha
  | conflict a b priority loc =>
    simp only [step, Option.ite_none_right_eq_some, Option.some.injEq] at hd
    obtain ⟨-, rfl⟩ := hd
    exact h.of_nodes rfl fun _ _ hx => hx
  | before a b silenced loc =>
    simp only [step, Option.ite_none_right_eq_some, Option.some.injEq] at hd
    obtain ⟨-, rfl⟩ := hd
    exact h.of_nodes rfl fun _ _ hx => hx
  | simultaneous a others =>
    simp only [step, Option.ite_none_right_eq_some, Option.some.injEq] at hd
    obtain ⟨-, rfl⟩ := hd
    exact h.sameKind a (fun _ => rfl) fun _ => rfl
  | alternatives a others =>
    simp only [step, Option.ite_none_right_eq_some, Option.some.injEq] at hd
    obtain ⟨-, rfl⟩ := hd
    have h₁ : (d.design.simultaneous a others).Callable := h.sameKind a (fun _ => rfl) fun _ => rfl
    unfold Design.simultaneousAlternatives
    rcases others with _ | ⟨first, rest⟩
    · exact h₁
    · exact h₁.sameKind first (fun _ => rfl) fun _ => rfl
  | openModule scope =>
    simp only [step, Option.some.injEq] at hd
    subst hd
    exact h.widens (newModule_widens _)
  | inModule i op =>
    simp only [step, Option.bind_eq_bind, Option.bind_eq_some_iff] at hd
    obtain ⟨r, hr, hop⟩ := hd
    have hrd := place?_design hr
    exact effect_callable h hrd (operate_effect hrd hop)

/-- The calls of every recorded draft can be made. -/
theorem Recorded.callable {d : Draft} (h : d.Recorded) : d.design.Callable := by
  refine h.induct (P := fun d => d.design.Callable) (fun config => ?_) fun d d' action hd hstep => step_callable hd hstep
  exact ⟨fun m port hm => (nomatch hm), fun c m s hs => nomatch hs⟩

end Interlock.Draft
