import Interlock.Proofs.Design.Declare
import Interlock.Proofs.Recording

/-! Everything that an operation or an action can do to a draft, once for all invariants. -/

namespace Interlock.Draft

/-- The operation enters the next arm of a chain of branches, under this condition. -/
inductive Operation.EntersArm (chain : Nat) : Operation → Expr → Prop
  | branch {cond wanted : Expr} (h : Expr.Checked.anyBit cond = .ok wanted) :
      EntersArm chain (.branch chain cond) wanted
  | case {sel wanted : Expr} {values : List Word} (h : Recording.caseCond sel values = .ok wanted) :
      EntersArm chain (.case chain sel values) wanted
  | otherwise : EntersArm chain (.otherwise chain) .one

/-- What an operation at the place `r` of module `i` makes of a draft. -/
inductive Effect (d : Draft) (i : Nat) (r : Recording) : Operation → Draft → Prop
  | submodule {name : String} {loc : Location} (scope : String) :
      Effect d i r (.submodule name loc) { d with
        design := (Recording.openModule r.design scope).design
        places := d.places ++ [Recording.openModule r.design scope] }
  | signal {short : String} {loc : Location} (name : String) (width : Nat) (kind : SignalKind) (init : Word)
      (hw : width ≤ maxWidth) :
      Effect d i r (.signal short width kind init loc)
        { d.move i { r with design := (r.design.newSignal name width kind init).2 } with
          signals := d.signals ++ [⟨(r.design.newSignal name width kind init).1, width, kind⟩] }
  | assign {mode : AssignMode} {target : Nat} {given : Expr} {loc : Location} (s : Sig) (guard value : Expr)
      (domain : Domain) (hs : s ∈ d.signals) (hkind : s.kind = Recording.assignable domain)
      (hguard : guard = r.guard ∨ guard = r.cond ∨ guard = .one) (hvalue : value = given.resize s.width) :
      Effect d i r (.assign mode target given loc)
        (d.move i { r with design := r.design.assign ⟨s.id, guard, value, domain⟩ })
  | when {cond : Expr} (wanted : Expr) (hw : wanted.width = 1) (hwanted : Expr.Checked.anyBit cond = .ok wanted) :
      Effect d i r (.when cond) ((d.move i (r.newChain.2.enter r.newChain.1 0 wanted)).openChain
        ⟨r.path.current, .when r.newChain.1, [(0, wanted)]⟩)
  | branches :
      Effect d i r .branches ((d.move i r.newChain.2).openChain
        ⟨r.path.current, .branches { number := r.newChain.1 }, []⟩)
  | branch {op : Operation} (j : Nat) (b : Recording.Chain) (arms : List (Nat × Expr)) (cond : Expr)
      (hj : d.chains[j]? = some ⟨r.path.current, .branches b, arms⟩) (hw : cond.width = 1) (hop : op.EntersArm j cond) :
      Effect d i r op ((d.move i (r.enter b.number b.arms (b.taken.not.and cond))).noteArm j
        ⟨r.path.current, .branches b, arms⟩ (.branches ⟨b.number, b.arms + 1, b.taken.or cond⟩)
        (b.arms, b.taken.not.and cond))
  | leave : Effect d i r .leave (d.move i r.leave)
  | machine {short : String} {states : List String} {loc : Location} (name : String) (m : Machine)
      (hw : m.state.width ≤ maxWidth) (hstates : m.state.width = Machine.widthFor m.states.length)
      (hstate : m.state = ⟨(r.design.newSignal name m.state.width .reg 0).1, m.state.width, .reg⟩)
      (hchain : m.chain = r.path.nextChain) (hpath : m.path = r.path.current) (hne : m.states ≠ []) :
      Effect d i r (.machine short states loc) { (d.move i { r with
          design := (r.design.newSignal name m.state.width .reg 0).2
          path := r.path.newChain.2 }).openChain ⟨m.path, .machine m, []⟩ with
        signals := d.signals ++ [m.state] }
  | state {name : String} {loc : Location} (j : Nat) (path : ControlPath) (m : Machine) (arms : List (Nat × Expr))
      (index : Nat) (hj : d.chains[j]? = some ⟨path, .machine m, arms⟩) (hpath : r.path.current = m.path)
      (hi : index < m.states.length) :
      Effect d i r (.enterState j name loc) ((d.move i (r.enter m.chain index (m.inState index))).noteArm j
        ⟨path, .machine m, arms⟩ (.machine m) (index, m.inState index))
  | next {j : Nat} {name : String} {loc : Location} (c : Chain) (m : Machine) (guard value : Expr) (hc : c ∈ d.chains)
      (hm : c.opener = .machine m) :
      Effect d i r (.nextState j name loc)
        (d.move i { r with design := r.design.assign ⟨m.state.id, guard, value, .sync⟩ })
  | openTransaction {request : Expr} (t : NodeId) (loc : Location) (info : TransactionInfo) (wanted : Expr)
      (ht : t < r.design.nodes.size) (hnew : (r.design.node t).defLoc = none)
      (hinfo : (r.design.node t).kind = .transaction info) (hwanted : Expr.Checked.anyBit request = .ok wanted)
      (hbody : r.body = none) :
      Effect d i r (.openTransaction t request loc) ((d.move i { r with
        design := (r.opened t loc).drive info.request (r.cond.and wanted)
        body := some ⟨t, (r.opened t loc).read info.grant⟩ }).mark r)
  | openMethod {ready : Expr} (m : NodeId) (loc : Location) (old : MethodInfo) (validator : Option Validator)
      (wanted activator : Expr) (hnew : (r.design.node m).defLoc = none)
      (hinfo : (r.design.node m).kind = .method old) (hwanted : Expr.Checked.anyBit ready = .ok wanted)
      (hactivator : activator = r.design.read old.run) (hbody : r.body = none) :
      Effect d i r (.openMethod m ready validator loc) { (d.move i { r with
          design := ((r.opened m loc).modifyNode m fun n =>
            { n with kind := .method { old with validator } }).drive old.ready (r.cond.and wanted)
          body := some ⟨m, activator⟩ }).mark r with
        bodies := d.bodies ++ [(m, { old with validator })] }
  | leaveBody : Effect d i r .leaveBody (d.move i r.leaveBody)
  | closeMethod {body : Nat} {result : Expr} {loc : Location} (m : NodeId) (info : MethodInfo) (bus : SignalId)
      (value : Expr) (hm : (m, info) ∈ d.bodies) (hbus : info.dataOut = some bus)
      (hbody : d.bodies[body]? = some (m, info)) (hvalue : value = result.resize info.output.width) :
      Effect d i r (.closeMethod body result loc)
        (d.move i { r with design := r.design.assign ⟨bus, r.cond, value, .comb⟩ })
  | stay {body : Nat} {result : Expr} {loc : Location} : Effect d i r (.closeMethod body result loc) (d.move i r)
  | call {arg enable : Expr} {loc : Location} (m : NodeId) (frame : BodyFrame) (site : CallSite) (enabled : Expr)
      (hbody : r.body = some frame) (hpath : site.path = r.path.current)
      (henable : site.enable = r.cond.and enabled) (hw : enabled.width = 1)
      (hapart : ∀ s ∈ (r.design.node frame.node).sitesTo m, s.path.exclusiveWith site.path = true)
      (hcallee : ∃ info, (r.design.node m).method? = some info ∧ site.arg.width = info.input.width)
      (hdefined : (r.design.node m).isDefined = true) (hsite : r.callSite? m arg enable loc = some site) :
      Effect d i r (.call m arg enable loc)
        ((d.move i { r with design := r.design.modifyNode frame.node fun n =>
          { n with calls := Recording.addSite n.calls m site } }).mark r)

theorem kind_opened (r : Recording) (id : NodeId) (loc : Location) (j : NodeId) :
    ((r.opened id loc).node j).kind = (r.design.node j).kind := by
  unfold Recording.opened
  rw [Design.node_modifyNode]
  split <;> rfl

theorem place?_design {d : Draft} {i : Nat} {r : Recording} (h : d.place? i = some r) :
    r.design = d.design := by
  unfold place? at h
  rw [Option.map_eq_some_iff] at h
  obtain ⟨r₀, -, rfl⟩ := h
  rfl

theorem enterBranch_effect {d d' : Draft} {i : Nat} {r : Recording} {op : Operation} {chain : Nat} {cond : Expr}
    (hw : cond.width = 1) (hop : op.EntersArm chain cond) (h : d.enterBranch i r chain cond = some d') :
    Effect d i r op d' := by
  unfold enterBranch at h
  split at h
  · rename_i path b arms hj
    split at h
    · rename_i hpath
      subst hpath
      rw [Option.some.injEq] at h
      subst h
      exact .branch chain b arms cond hj hw hop
    · exact nomatch h
  · exact nomatch h

theorem assignAt_effect {d : Draft} {i : Nat} {r r' : Recording} {mode : AssignMode} {target : Sig}
    {value : Expr} {loc : Location} (name : Nat) (ht : target ∈ d.signals)
    (h : (assignAt r mode target value loc).Gives r') : Effect d i r (.assign mode name value loc) (d.move i r') := by
  have from_assign : ∀ {guard : Expr} {domain : Domain}, (guard = r.guard ∨ guard = r.cond ∨ guard = .one) →
      (r.assign target guard value domain loc).Gives r' →
        Effect d i r (.assign mode name value loc) (d.move i r') := by
    intro guard domain hguard h
    obtain ⟨hkind, rfl⟩ := Recording.assign_ok h
    exact .assign target guard _ domain ht hkind hguard rfl
  cases mode with
  | comb => exact from_assign (.inl rfl) h
  | sync => exact from_assign (.inl rfl) h
  | avComb => exact from_assign (.inr (.inl rfl)) h
  | topComb => exact from_assign (.inr (.inr rfl)) h

theorem operate_effect {d d' : Draft} {i : Nat} {r : Recording} {op : Operation}
    (hr : r.design = d.design) (h : d.operate i r op = some d') : Effect d i r op d' := by
  cases op with
  | submodule name loc =>
    simp only [operate, Option.bind_eq_bind, Option.bind_eq_some_iff, Option.pure_def, Option.some.injEq,
      Except.toOption_eq_some] at h
    obtain ⟨inner, hinner, rfl⟩ := h
    unfold Recording.openSubmodule at hinner
    split at hinner
    · exact nomatch hinner
    · rw [Except.ok.injEq] at hinner
      subst hinner
      exact .submodule _
  | signal name width kind init loc =>
    simp only [operate, Option.bind_eq_bind, Option.bind_eq_some_iff, Option.pure_def, Option.some.injEq,
      Except.toOption_eq_some] at h
    obtain ⟨⟨s, r'⟩, hs, rfl⟩ := h
    obtain ⟨hw, rfl, rfl⟩ := Recording.signal_ok hs
    exact .signal _ width kind init hw
  | assign mode target value loc =>
    simp only [operate, Option.bind_eq_bind, Option.bind_eq_some_iff, Option.pure_def, Option.some.injEq,
      Attempt.result?_eq_some] at h
    obtain ⟨s, hs, r', hr', rfl⟩ := h
    exact assignAt_effect target (List.mem_of_getElem? hs) hr'
  | «when» cond =>
    simp only [operate, Option.bind_eq_bind, Option.bind_eq_some_iff, Option.pure_def, Option.some.injEq,
      Except.toOption_eq_some] at h
    obtain ⟨wanted, hw, rfl⟩ := h
    exact .when wanted (Expr.Checked.anyBit_ok hw) hw
  | branches =>
    simp only [operate, Option.some.injEq] at h
    subst h
    exact .branches
  | branch chain cond =>
    simp only [operate, Option.bind_eq_bind, Option.bind_eq_some_iff, Except.toOption_eq_some] at h
    obtain ⟨wanted, hw, h⟩ := h
    exact enterBranch_effect (Expr.Checked.anyBit_ok hw) (.branch hw) h
  | case chain sel values =>
    simp only [operate, Option.bind_eq_bind, Option.bind_eq_some_iff, Except.toOption_eq_some] at h
    obtain ⟨wanted, hw, h⟩ := h
    exact enterBranch_effect (Recording.caseCond_ok hw) (.case hw) h
  | otherwise chain => exact enterBranch_effect Expr.width_one .otherwise h
  | leave =>
    simp only [operate, Option.some.injEq] at h
    subst h
    exact .leave
  | machine name states loc =>
    simp only [operate, Option.bind_eq_bind, Option.bind_eq_some_iff, Option.pure_def, Option.some.injEq,
      Except.toOption_eq_some] at h
    obtain ⟨⟨m, r'⟩, hm, rfl⟩ := h
    obtain ⟨r₁, hs, hstates, hchain, hpath, rfl⟩ := Recording.machine_ok hm
    obtain ⟨hw, hsig, rfl⟩ := Recording.signal_ok hs
    have hwidth : m.state.width = Machine.widthFor states.length := by rw [hsig]
    have hstate := hsig
    rw [← hwidth] at hw hstate
    have hgoal : Effect d i r (.machine name states loc) _ := .machine (r.scope ++ (name ++ "_state")) m hw
      (by rw [hwidth, hstates]) hstate hchain hpath (hstates ▸ Recording.machine_nonempty hm)
    rw [hwidth] at hgoal
    exact hgoal
  | enterState chain state loc =>
    simp only [operate] at h
    split at h
    · rename_i path m arms hj
      simp only [Option.bind_eq_bind, Option.bind_eq_some_iff, Option.pure_def, Option.some.injEq,
        Except.toOption_eq_some] at h
      obtain ⟨index, hindex, r', hr', rfl⟩ := h
      obtain ⟨hpath, rfl⟩ := Recording.enterState_ok hindex hr'
      exact .state chain path m arms index hj hpath (Recording.index_lt hindex)
    · exact nomatch h
  | nextState chain state loc =>
    simp only [operate] at h
    split at h
    · rename_i path m arms hj
      simp only [Option.bind_eq_bind, Option.bind_eq_some_iff, Option.pure_def, Option.some.injEq,
        Attempt.result?_eq_some] at h
      obtain ⟨r', hr', rfl⟩ := h
      obtain ⟨_, -, hr'⟩ := Recording.nextState_ok hr'
      obtain ⟨-, rfl⟩ := Recording.assign_ok hr'
      exact .next _ m _ _ (List.mem_of_getElem? hj) rfl
    · exact nomatch h
  | openTransaction t request loc =>
    simp only [operate] at h
    split at h
    · rename_i ht
      simp only [Option.bind_eq_bind, Option.bind_eq_some_iff, Option.pure_def, Option.some.injEq,
        Attempt.result?_eq_some] at h
      obtain ⟨r', hr', rfl⟩ := h
      obtain ⟨info, wanted, hnew, hinfo, hwanted, rfl⟩ := Recording.openTransaction_ok hr'
      refine .openTransaction t loc info wanted ?_ hnew ?_ hwanted (Recording.openTransaction_outside hr')
      · simpa [declares, hr] using ht
      · unfold Node.transaction? at hinfo
        rw [kind_opened] at hinfo
        split at hinfo <;> simp_all
    · exact nomatch h
  | openMethod m ready validator loc =>
    simp only [operate, Option.bind_eq_bind, Option.bind_eq_some_iff, Option.pure_def, Option.some.injEq,
      Attempt.result?_eq_some] at h
    obtain ⟨⟨info, r'⟩, hr', rfl⟩ := h
    obtain ⟨old, wanted, hnew, hinfo, hwanted, rfl, rfl⟩ := Recording.openMethod_ok hr'
    refine .openMethod m loc old validator wanted _ hnew ?_ hwanted rfl (Recording.openMethod_outside hr')
    unfold Node.method? at hinfo
    rw [kind_opened] at hinfo
    split at hinfo <;> simp_all
  | leaveBody =>
    simp only [operate, Option.some.injEq] at h
    subst h
    exact .leaveBody
  | closeMethod body result loc =>
    simp only [operate, Option.bind_eq_bind, Option.bind_eq_some_iff, Option.pure_def, Option.some.injEq,
      Attempt.result?_eq_some] at h
    obtain ⟨⟨m, info⟩, hm, r', hr', rfl⟩ := h
    rcases Recording.closeMethod_ok hr' with rfl | ⟨bus, hbus, rfl⟩
    · exact .stay
    · exact .closeMethod m info bus _ (List.mem_of_getElem? hm) hbus hm rfl
  | call m arg enable loc =>
    simp only [operate, Option.bind_eq_bind, Option.bind_eq_some_iff, Option.pure_def, Option.some.injEq,
      Attempt.result?_eq_some] at h
    obtain ⟨⟨out, r'⟩, hr', rfl⟩ := h
    obtain ⟨frame, site, enabled, hbody, hpath, henable, hw, hapart, hcallee, hsite, rfl⟩ := Recording.call_ok hr'
    exact .call m frame site enabled hbody hpath henable hw hapart hcallee (Recording.call_defined hr') hsite

/-- What an action makes of a draft. -/
inductive Change (d : Draft) : Draft → Prop
  | declared (design : Design) (hm : design.nextModule = d.design.nextModule)
      (hs : ∀ x s, d.design.netlist.signals.get? x = some s → design.netlist.signals.get? x = some s) :
      Change d { d with design }
  | opened (scope : String) :
      Change d { d with
        design := (Recording.openModule d.design scope).design
        places := d.places ++ [Recording.openModule d.design scope] }
  | within {d' : Draft} {op : Operation} (i : Nat) (r : Recording) (hr : d.place? i = some r)
      (he : Effect d i r op d') : Change d d'

theorem step_change {d d' : Draft} {action : Action} (hd : d.step action = some d') : Change d d' := by
  cases action with
  | transaction name loc =>
    simp only [step, Option.some.injEq] at hd
    subst hd
    exact .declared _ rfl (Design.declareTransaction_adds d.design name loc).signals
  | method decl loc =>
    simp only [step, Option.bind_eq_bind, Option.bind_eq_some_iff, Option.pure_def, Option.some.injEq,
      Attempt.result?_eq_some] at hd
    obtain ⟨⟨m, design⟩, hm, rfl⟩ := hd
    have hdesign : design = (d.design.addMethod decl loc).2 := congrArg Prod.snd (Design.declareMethod_ok hm)
    rw [hdesign]
    exact .declared _ (Design.nextModule_addMethod ..) (Design.addMethod_adds d.design decl loc).signals
  | conflict a b priority loc =>
    simp only [step, Option.ite_none_right_eq_some, Option.some.injEq] at hd
    obtain ⟨-, rfl⟩ := hd
    exact .declared _ rfl fun _ _ hx => hx
  | before a b silenced loc =>
    simp only [step, Option.ite_none_right_eq_some, Option.some.injEq] at hd
    obtain ⟨-, rfl⟩ := hd
    exact .declared _ rfl fun _ _ hx => hx
  | simultaneous a others =>
    simp only [step, Option.ite_none_right_eq_some, Option.some.injEq] at hd
    obtain ⟨-, rfl⟩ := hd
    exact .declared _ rfl fun _ _ hx => hx
  | alternatives a others =>
    simp only [step, Option.ite_none_right_eq_some, Option.some.injEq] at hd
    obtain ⟨-, rfl⟩ := hd
    refine .declared _ (Design.nextModule_alternatives ..) fun x s hx => ?_
    rw [Design.netlist_alternatives]
    exact hx
  | openModule scope =>
    simp only [step, Option.some.injEq] at hd
    subst hd
    exact .opened scope
  | inModule i op =>
    simp only [step, Option.bind_eq_bind, Option.bind_eq_some_iff] at hd
    obtain ⟨r, hr, hop⟩ := hd
    exact .within i r hr (operate_effect (place?_design hr) hop)

end Interlock.Draft
