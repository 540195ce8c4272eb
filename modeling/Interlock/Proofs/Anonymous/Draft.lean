import Interlock.Proofs.Anonymous.Recording
import Interlock.Proofs.Recording

/-! Drafts without names. Two drafts that are alike take an action alike, whatever names and places in the source
it comes with: both refuse it, or it leads to drafts that are alike. -/

namespace Interlock

open Attempt DesignError

namespace Draft

/-- The operation with all names and places left out. -/
def Operation.anonymous : Operation → Operation
  | .submodule _ _ => .submodule "" .generated
  | .signal _ width kind init _ => .signal "" width kind init .generated
  | .assign mode target value _ => .assign mode target value .generated
  | .when cond => .when cond
  | .branches => .branches
  | .branch chain cond => .branch chain cond
  | .case chain sel values => .case chain sel values
  | .otherwise chain => .otherwise chain
  | .leave => .leave
  | .machine _ states _ => .machine "" states .generated
  | .enterState chain state _ => .enterState chain state .generated
  | .nextState chain state _ => .nextState chain state .generated
  | .openTransaction t request _ => .openTransaction t request .generated
  | .openMethod m ready validator _ => .openMethod m ready validator .generated
  | .leaveBody => .leaveBody
  | .closeMethod body result _ => .closeMethod body result .generated
  | .call m arg enable _ => .call m arg enable .generated

/-- The action with all names and places left out. -/
def Action.anonymous : Action → Action
  | .transaction _ _ => .transaction "" .generated
  | .method decl _ => .method decl.anonymous .generated
  | .conflict a b priority _ => .conflict a b priority .generated
  | .before a b silenced _ => .before a b silenced .generated
  | .simultaneous a others => .simultaneous a others
  | .alternatives a others => .alternatives a others
  | .openModule _ => .openModule ""
  | .inModule place op => .inModule place op.anonymous

/-- Chains that are the same but for the name of the machine that they are opened for. -/
inductive Chain.Alike : Chain → Chain → Prop
  | when {path : ControlPath} {number : Nat} {arms : List (Nat × Expr)} :
    Alike ⟨path, .when number, arms⟩ ⟨path, .when number, arms⟩
  | branches {path : ControlPath} {chain : Recording.Chain} {arms : List (Nat × Expr)} :
    Alike ⟨path, .branches chain, arms⟩ ⟨path, .branches chain, arms⟩
  | machine {path : ControlPath} {m m' : Machine} {arms : List (Nat × Expr)} (h : m.anonymous = m'.anonymous) :
    Alike ⟨path, .machine m, arms⟩ ⟨path, .machine m', arms⟩

/-- The drafts differ in names and places only. -/
structure Alike (d d' : Draft) : Prop where
  design : d.design.Alike d'.design
  places : List.Forall₂ Recording.Alike d.places d'.places
  signals : d.signals = d'.signals
  chains : List.Forall₂ Chain.Alike d.chains d'.chains
  bodies : d.bodies = d'.bodies
  points : d.points = d'.points

variable {d d' : Draft} {r r' : Recording}

theorem declares_same {e e' : Design} (h : e.Alike e') (ids : List NodeId) : declares e ids = declares e' ids := by
  rw [declares, declares, h.size]

namespace Alike

theorem setDesign (h : Alike d d') {e e' : Design} (he : e.Alike e') : Alike { d with design := e } { d' with design := e' } :=
  ⟨he, h.places, h.signals, h.chains, h.bodies, h.points⟩

theorem place? (h : Alike d d') (i : Nat) : Option.Rel Recording.Alike (d.place? i) (d'.place? i) :=
  rel_map (forall₂_getElem? h.places i) fun _ _ hr => hr.setDesign h.design

theorem move (h : Alike d d') (i : Nat) (hr : r.Alike r') : Alike (d.move i r) (d'.move i r') := by
  refine ⟨hr.design, ?_, h.signals, h.chains, h.bodies, h.points⟩
  exact forall₂_set h.places hr i

theorem mark (h : Alike d d') (hr : r.Alike r') : Alike (d.mark r) (d'.mark r') :=
  ⟨h.design, h.places, h.signals, h.chains, h.bodies, by simp only [Draft.mark, h.points, hr.path, hr.conds]⟩

theorem openChain (h : Alike d d') {c c' : Chain} (hc : c.Alike c') : Alike (d.openChain c) (d'.openChain c') :=
  ⟨h.design, h.places, h.signals, List.rel_append h.chains (.cons hc .nil), h.bodies, h.points⟩

theorem noteArm (h : Alike d d') (i : Nat) {c c' : Chain} {o o' : Opener} {arm : Nat × Expr}
    (hc : Chain.Alike { c with opener := o, arms := c.arms ++ [arm] } { c' with opener := o', arms := c'.arms ++ [arm] }) :
    Alike (d.noteArm i c o arm) (d'.noteArm i c' o' arm) :=
  ⟨h.design, h.places, h.signals, forall₂_set h.chains hc i, h.bodies, h.points⟩

theorem enterBranch (h : Alike d d') (i : Nat) (hr : r.Alike r') (chain : Nat) (cond : Expr) :
    Option.Rel Alike (d.enterBranch i r chain cond) (d'.enterBranch i r' chain cond) := by
  have hchain := forall₂_getElem? h.chains chain
  unfold Draft.enterBranch
  rw [hr.path]
  generalize d.chains[chain]? = o at hchain ⊢
  generalize d'.chains[chain]? = o' at hchain ⊢
  cases hchain with
  | none => exact .none
  | some hc =>
    cases hc with
    | «when» => exact .none
    | branches => exact rel_guard (.some ((h.move i (hr.enter ..)).noteArm chain .branches))
    | machine _ => exact .none

/-- Both chains are opened for machines that are alike, or neither is opened for a machine. -/
theorem machine (h : Alike d d') (chain : Nat) {f f' : ControlPath → Machine → List (Nat × Expr) → Option Draft}
    (hf : ∀ path m m' arms, m.anonymous = m'.anonymous → Option.Rel Alike (f path m arms) (f' path m' arms)) :
    Option.Rel Alike
      (match d.chains[chain]? with
        | some ⟨path, .machine m, arms⟩ => f path m arms
        | _ => none)
      (match d'.chains[chain]? with
        | some ⟨path, .machine m, arms⟩ => f' path m arms
        | _ => none) := by
  have hchain := forall₂_getElem? h.chains chain
  generalize d.chains[chain]? = o at hchain ⊢
  generalize d'.chains[chain]? = o' at hchain ⊢
  cases hchain with
  | none => exact .none
  | some hc =>
    cases hc with
    | «when» => exact .none
    | branches => exact .none
    | machine hm => exact hf _ _ _ _ hm

/-- Assignments at one place. -/
theorem assignAt (hr : r.Alike r') (mode : AssignMode) (target : Sig) (value : Expr) (loc loc' : Location) :
    Agrees SameKind Recording.Alike (Draft.assignAt r mode target value loc) (Draft.assignAt r' mode target value loc') := by
  cases mode with
  | comb =>
    rw [Draft.assignAt, hr.guard]
    exact hr.assign ..
  | sync =>
    rw [Draft.assignAt, hr.guard]
    exact hr.assign ..
  | avComb =>
    rw [Draft.assignAt, hr.cond]
    exact hr.assign ..
  | topComb => exact hr.assign ..

/-- Both drafts take the operation, or neither does. -/
theorem operate (h : Alike d d') (i : Nat) (hr : r.Alike r') (op : Operation) :
    Option.Rel Alike (d.operate i r op) (d'.operate i r' op.anonymous) := by
  cases op with
  | submodule name loc =>
    refine rel_bind (hr.openSubmodule name "" loc .generated).toOption fun inner inner' hinner => .some ?_
    exact ⟨hinner.design, List.rel_append h.places (.cons hinner .nil), h.signals, h.chains, h.bodies, h.points⟩
  | signal name width kind init loc =>
    refine rel_bind (hr.signal name "" width kind init loc .generated).toOption fun p p' hp => .some ?_
    have hmove := h.move i hp.2
    exact ⟨hmove.design, hmove.places, by simp only [h.signals, hp.1], hmove.chains, hmove.bodies, hmove.points⟩
  | assign mode target value loc =>
    show Option.Rel Alike (d.signals[target]? >>= _) (d'.signals[target]? >>= _)
    rw [h.signals]
    refine rel_bind (rel_refl _) fun x _ hx => ?_
    subst hx
    exact rel_bind (assignAt hr mode x value loc .generated).result? fun _ _ hr₁ => .some (h.move i hr₁)
  | «when» cond =>
    refine rel_bind (rel_refl _) fun wanted _ hw => ?_
    subst hw
    obtain ⟨hnumber, hnext⟩ := hr.newChain
    refine .some ((h.move i ?_).openChain ?_)
    · show (r.newChain.2.enter r.newChain.1 0 wanted).Alike (r'.newChain.2.enter r'.newChain.1 0 wanted)
      rw [hnumber]
      exact hnext.enter ..
    · rw [hr.path]
      exact .when
  | branches =>
    refine .some ((h.move i hr.newChain.2).openChain ?_)
    rw [hr.path]
    exact .branches
  | branch chain cond =>
    refine rel_bind (rel_refl _) fun wanted _ hw => ?_
    subst hw
    exact h.enterBranch i hr chain wanted
  | case chain sel values =>
    refine rel_bind (rel_refl _) fun wanted _ hw => ?_
    subst hw
    exact h.enterBranch i hr chain wanted
  | otherwise chain => exact h.enterBranch i hr chain .one
  | leave => exact .some (h.move i hr.leave)
  | machine name states loc =>
    refine rel_bind (hr.machine name "" states loc .generated).toOption fun p p' hp => .some ?_
    obtain ⟨m, r₁⟩ := p
    obtain ⟨m', r₁'⟩ := p'
    obtain ⟨hm, hr₁⟩ := hp
    have hpath : m.anonymous.path = m'.anonymous.path := by rw [hm]
    have hstate : m.anonymous.state = m'.anonymous.state := by rw [hm]
    have hchain : Chain.Alike ⟨m.path, .machine m, []⟩ ⟨m'.path, .machine m', []⟩ := by
      rw [show m.path = m'.path from hpath]
      exact .machine hm
    have hopened := (h.move i hr₁).openChain hchain
    refine ⟨hopened.design, hopened.places, ?_, hopened.chains, hopened.bodies, hopened.points⟩
    simp only [h.signals, show m.state = m'.state from hstate]
  | enterState chain state loc =>
    refine h.machine chain fun path m m' arms hm => ?_
    refine rel_bind (Machine.index_agrees hm state loc .generated).toOption fun index _ hindex => ?_
    subst hindex
    refine rel_bind (hr.enterState hm state loc .generated).toOption fun r₁ r₁' hr₁ => .some ?_
    rw [Machine.inState_same hm]
    exact (h.move i hr₁).noteArm chain (.machine hm)
  | nextState chain state loc =>
    refine h.machine chain fun path m m' arms hm => ?_
    exact rel_bind (hr.nextState hm state loc .generated).result? fun _ _ hr₁ => .some (h.move i hr₁)
  | openTransaction t request loc =>
    show Option.Rel Alike (if declares d.design [t] then _ else none) (if declares d'.design [t] then _ else none)
    rw [declares_same h.design]
    refine rel_guard (rel_bind (hr.openTransaction t request loc .generated).result? fun _ _ hr₁ => .some ?_)
    exact (h.move i hr₁).mark hr
  | openMethod m ready validator loc =>
    refine rel_bind (hr.openMethod m ready validator loc .generated).result? fun p p' hp => .some ?_
    have hmark := (h.move i hp.2).mark hr
    exact ⟨hmark.design, hmark.places, hmark.signals, hmark.chains, by simp only [h.bodies, hp.1], hmark.points⟩
  | leaveBody => exact .some (h.move i hr.leaveBody)
  | closeMethod body result loc =>
    show Option.Rel Alike (d.bodies[body]? >>= _) (d'.bodies[body]? >>= _)
    rw [h.bodies]
    refine rel_bind (rel_refl _) fun b _ hb => ?_
    subst hb
    exact rel_bind (hr.closeMethod b.1 b.2 result loc .generated).result? fun _ _ hr₁ => .some (h.move i hr₁)
  | call m arg enable loc =>
    refine rel_bind (hr.call m arg enable loc .generated).result? fun p p' hp => .some ?_
    exact (h.move i hp.2).mark hr

/-- Both drafts take the action, or neither does. -/
theorem step (h : Alike d d') (a : Action) : Option.Rel Alike (d.step a) (d'.step a.anonymous) := by
  cases a with
  | transaction name loc => exact .some (h.setDesign (h.design.declareTransaction name "" loc .generated).2)
  | method decl loc =>
    have hdecl : decl.anonymous = decl.anonymous.anonymous := rfl
    exact rel_bind (Design.declareMethod_alike h.design hdecl loc .generated).result? fun _ _ hp =>
      .some (h.setDesign hp.2)
  | conflict a b priority loc =>
    show Option.Rel Alike (if declares d.design [a, b] then _ else none) (if declares d'.design [a, b] then _ else none)
    rw [declares_same h.design]
    exact rel_guard (.some (h.setDesign (h.design.relate rfl)))
  | before a b silenced loc =>
    show Option.Rel Alike (if declares d.design [a, b] then _ else none) (if declares d'.design [a, b] then _ else none)
    rw [declares_same h.design]
    exact rel_guard (.some (h.setDesign (h.design.relate rfl)))
  | simultaneous a others =>
    show Option.Rel Alike (if declares d.design (a :: others) then _ else none)
      (if declares d'.design (a :: others) then _ else none)
    rw [declares_same h.design]
    exact rel_guard (.some (h.setDesign (h.design.simultaneous a others)))
  | alternatives a others =>
    show Option.Rel Alike (if declares d.design (a :: others) then _ else none)
      (if declares d'.design (a :: others) then _ else none)
    rw [declares_same h.design]
    exact rel_guard (.some (h.setDesign (h.design.simultaneousAlternatives a others)))
  | openModule scope =>
    have hopened := Recording.Alike.openModule h.design scope ""
    refine .some ⟨hopened.design, List.rel_append h.places (.cons hopened .nil), h.signals, h.chains, h.bodies, h.points⟩
  | inModule i op => exact rel_bind (h.place? i) fun _ _ hr => h.operate i hr op

end Alike

/-- The draft after a sequence of actions, of which those that fail come to nothing. -/
def performed (config : Config) (actions : List Action) : Draft :=
  actions.foldl (fun d a => (d.step a).getD d) (start config)

/-- A sequence of actions leads to the same design, names and places apart, as the actions without names and
places do. -/
theorem performed_anonymous (config : Config) (actions : List Action) :
    (performed config actions).design.Alike (performed config.anonymous (actions.map Action.anonymous)).design := by
  have hrun : ∀ d d' : Draft, d.Alike d' → (actions.foldl (fun d a => (d.step a).getD d) d).Alike
      ((actions.map Action.anonymous).foldl (fun d a => (d.step a).getD d) d') := by
    induction actions with
    | nil => exact fun _ _ h => h
    | cons a actions ih =>
      intro d d' h
      exact ih _ _ (rel_getD (h.step a) h)
  have hstart : (start config).Alike (start config.anonymous) := ⟨rfl, .nil, rfl, .nil, rfl, rfl⟩
  exact (hrun _ _ hstart).design

/-- Sequences of actions that differ in names and places only lead to designs that do. -/
theorem performed_alike {c c' : Config} {as as' : List Action} (hc : c.anonymous = c'.anonymous)
    (has : as.map Action.anonymous = as'.map Action.anonymous) :
    (performed c as).design.Alike (performed c' as').design := by
  have h := performed_anonymous c as
  rw [hc, has] at h
  exact Eq.trans h (performed_anonymous c' as').symm

end Draft

end Interlock
