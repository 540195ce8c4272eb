import Interlock.Proofs.Recording
import Interlock.Proofs.Relations

/-! Recording never reads relations. Two drafts that differ in the relations of their designs take an action alike,
and differ in the same way afterwards; so what is recorded without one relation is the same but for it. -/

namespace Interlock

open Attempt

namespace Recording

/-- The same place in the design with these relations. -/
def Replaces (rs : List Relation) (r r' : Recording) : Prop := r' = { r with design := r.design.withRelations rs }

variable {rs : List Relation} {r r' : Recording}

namespace Replaces

theorem openSubmodule (h : Replaces rs r r') (name : String) (loc : Location) :
    Agree Eq (Replaces rs) (r.openSubmodule name loc) (r'.openSubmodule name loc) := by
  subst h
  unfold Recording.openSubmodule
  cases r.body with
  | none => exact .ok rfl
  | some frame => exact .error rfl

theorem signal (h : Replaces rs r r') (name : String) (width : Nat) (kind : SignalKind) (init : Word) (loc : Location) :
    Agree Eq (fun p p' => p.1 = p'.1 ∧ Replaces rs p.2 p'.2) (r.signal name width kind init loc)
      (r'.signal name width kind init loc) := by
  subst h
  unfold Recording.signal
  split
  · exact .error rfl
  · exact .ok ⟨rfl, rfl⟩

theorem assign (h : Replaces rs r r') (target : Sig) (guard value : Expr) (domain : Domain) (loc : Location) :
    Agrees Eq (Replaces rs) (r.assign target guard value domain loc) (r'.assign target guard value domain loc) := by
  subst h
  exact Agrees.guard rfl (Agrees.bind (agrees_ofChecked (.refl fun _ => rfl)) fun _ _ _ =>
    Agrees.guard rfl (agrees_pure rfl))

theorem machine (h : Replaces rs r r') (name : String) (states : List String) (loc : Location) :
    Agree Eq (fun p p' => p.1 = p'.1 ∧ Replaces rs p.2 p'.2) (r.machine name states loc)
      (r'.machine name states loc) := by
  refine Agree.guard rfl ((h.signal ..).bind fun p p' hp => ?_)
  obtain ⟨state, r₁⟩ := p
  obtain ⟨state', r₁'⟩ := p'
  obtain ⟨rfl, rfl⟩ := hp
  exact .ok ⟨rfl, rfl⟩

theorem enter (h : Replaces rs r r') (chain alternative : Nat) (cond : Expr) :
    Replaces rs (r.enter chain alternative cond) (r'.enter chain alternative cond) := by
  subst h
  rfl

theorem enterState (h : Replaces rs r r') (m : Machine) (state : String) (loc : Location) :
    Agree Eq (Replaces rs) (r.enterState m state loc) (r'.enterState m state loc) := by
  subst h
  exact (Agree.refl fun _ => rfl).bind fun _ _ hindex => hindex ▸ Agree.guard rfl (.ok rfl)

theorem nextState (h : Replaces rs r r') (m : Machine) (state : String) (loc : Location) :
    Agrees Eq (Replaces rs) (r.nextState m state loc) (r'.nextState m state loc) := by
  refine (agrees_ofExcept (Agree.refl fun _ => rfl)).bind fun index _ hindex => ?_
  subst hindex
  subst h
  exact Replaces.assign (r := r) rfl ..

theorem openBody (h : Replaces rs r r') (id : NodeId) (loc : Location) :
    Agree Eq (Replaces rs) (r.openBody id loc) (r'.openBody id loc) := by
  subst h
  unfold Recording.openBody
  cases r.body with
  | some frame => exact .error rfl
  | none =>
    rw [show (r.design.withRelations rs).node id = r.design.node id from rfl]
    cases (r.design.node id).defLoc with
    | some prev => exact .error rfl
    | none => exact .ok rfl

theorem openTransaction (h : Replaces rs r r') (t : NodeId) (request : Expr) (loc : Location) :
    Agrees Eq (Replaces rs) (r.openTransaction t request loc) (r'.openTransaction t request loc) := by
  refine (agrees_ofExcept (h.openBody t loc)).bind fun r₁ r₁' h₁ => ?_
  subst h₁
  rw [show (r₁.design.withRelations rs).node t = r₁.design.node t from rfl]
  split
  · exact agrees_throw rfl
  · exact (agrees_ofChecked (.refl fun _ => rfl)).bind fun _ _ hw => hw ▸ agrees_pure rfl

theorem openMethod (h : Replaces rs r r') (m : NodeId) (ready : Expr) (validator : Option Validator) (loc : Location) :
    Agrees Eq (fun p p' => p.1 = p'.1 ∧ Replaces rs p.2 p'.2) (r.openMethod m ready validator loc)
      (r'.openMethod m ready validator loc) := by
  refine (agrees_ofExcept (h.openBody m loc)).bind fun r₁ r₁' h₁ => ?_
  subst h₁
  rw [show (r₁.design.withRelations rs).node m = r₁.design.node m from rfl]
  split
  · exact agrees_throw rfl
  · exact (agrees_ofChecked (.refl fun _ => rfl)).bind fun _ _ hw => hw ▸ agrees_pure ⟨rfl, rfl⟩

theorem closeMethod (h : Replaces rs r r') (m : NodeId) (info : MethodInfo) (result : Expr) (loc : Location) :
    Agrees Eq (Replaces rs) (r.closeMethod m info result loc) (r'.closeMethod m info result loc) := by
  subst h
  refine Agrees.bind (agrees_ofChecked (.refl fun _ => rfl)) fun _ _ _ => Agrees.guard rfl ?_
  split
  · exact agrees_pure rfl
  · exact agrees_pure rfl

theorem call (h : Replaces rs r r') (m : NodeId) (arg enable : Expr) (loc : Location) :
    Agrees Eq (fun p p' => p.1 = p'.1 ∧ Replaces rs p.2 p'.2) (r.call m arg enable loc) (r'.call m arg enable loc) := by
  subst h
  unfold Recording.call
  simp only [show (r.design.withRelations rs).node = r.design.node from rfl]
  split
  · exact agrees_throw rfl
  · split
    · exact agrees_throw rfl
    · refine Agrees.guard rfl (Agrees.bind (agrees_ofChecked (.refl fun _ => rfl)) fun _ _ _ => Agrees.guard rfl ?_)
      refine (agrees_ofChecked (.refl fun _ => rfl)).bind fun _ _ he => ?_
      subst he
      split
      · exact agrees_throw rfl
      · exact agrees_pure ⟨rfl, rfl⟩

end Replaces

end Recording

namespace Draft

/-- The drafts differ in the relations alone, which the second draft has these of. What modules remember of the
design is out of date. -/
structure Replaces (rs : List Relation) (d d' : Draft) : Prop where
  design : d'.design = d.design.withRelations rs
  places : List.Forall₂ (fun r r' => ∃ e, r' = { r with design := e }) d.places d'.places
  signals : d'.signals = d.signals
  chains : d'.chains = d.chains
  bodies : d'.bodies = d.bodies
  points : d'.points = d.points

variable {rs : List Relation} {d d' : Draft} {r r' : Recording}

/-- A draft with its own relations. -/
theorem Replaces.self (d : Draft) : Replaces d.design.relations d d :=
  ⟨rfl, List.forall₂_same.2 fun r _ => ⟨r.design, rfl⟩, rfl, rfl, rfl, rfl⟩

namespace Replaces

theorem setDesign (h : Replaces rs d d') (e : Design) :
    Replaces rs { d with design := e } { d' with design := e.withRelations rs } :=
  ⟨rfl, h.places, h.signals, h.chains, h.bodies, h.points⟩

theorem place? (h : Replaces rs d d') (i : Nat) : Option.Rel (Recording.Replaces rs) (d.place? i) (d'.place? i) :=
  rel_map (forall₂_getElem? h.places i) fun _ _ ⟨_, hr⟩ => by
    subst hr
    rw [h.design]
    rfl

theorem move (h : Replaces rs d d') (i : Nat) (hr : Recording.Replaces rs r r') :
    Replaces rs (d.move i r) (d'.move i r') := by
  subst hr
  exact ⟨rfl, forall₂_set h.places ⟨_, rfl⟩ i, h.signals, h.chains, h.bodies, h.points⟩

theorem mark (h : Replaces rs d d') (hr : Recording.Replaces rs r r') : Replaces rs (d.mark r) (d'.mark r') := by
  subst hr
  exact ⟨h.design, h.places, h.signals, h.chains, h.bodies, congrArg (· ++ _) h.points⟩

theorem openChain (h : Replaces rs d d') (c : Chain) : Replaces rs (d.openChain c) (d'.openChain c) :=
  ⟨h.design, h.places, h.signals, congrArg (· ++ _) h.chains, h.bodies, h.points⟩

theorem noteArm (h : Replaces rs d d') (i : Nat) (c : Chain) (o : Opener) (arm : Nat × Expr) :
    Replaces rs (d.noteArm i c o arm) (d'.noteArm i c o arm) :=
  ⟨h.design, h.places, h.signals, congrArg (List.set · i _) h.chains, h.bodies, h.points⟩

theorem addSignal (h : Replaces rs d d') (s : Sig) :
    Replaces rs { d with signals := d.signals ++ [s] } { d' with signals := d'.signals ++ [s] } :=
  ⟨h.design, h.places, congrArg (· ++ _) h.signals, h.chains, h.bodies, h.points⟩

theorem addPlace (h : Replaces rs d d') (hr : Recording.Replaces rs r r') :
    Replaces rs { d with design := r.design, places := d.places ++ [r] }
      { d' with design := r'.design, places := d'.places ++ [r'] } := by
  subst hr
  exact ⟨rfl, List.rel_append h.places (.cons ⟨_, rfl⟩ .nil), h.signals, h.chains, h.bodies, h.points⟩

theorem enterBranch (h : Replaces rs d d') (i : Nat) (hr : Recording.Replaces rs r r') (chain : Nat) (cond : Expr) :
    Option.Rel (Replaces rs) (d.enterBranch i r chain cond) (d'.enterBranch i r' chain cond) := by
  unfold Draft.enterBranch
  rw [h.chains]
  split
  · rw [show r'.path = r.path by subst hr; rfl]
    exact rel_guard (.some ((h.move i (hr.enter ..)).noteArm ..))
  · exact .none

theorem assignAt (hr : Recording.Replaces rs r r') (mode : AssignMode) (target : Sig) (value : Expr) (loc : Location) :
    Agrees Eq (Recording.Replaces rs) (Draft.assignAt r mode target value loc)
      (Draft.assignAt r' mode target value loc) := by
  subst hr
  cases mode <;> exact Recording.Replaces.assign (r := r) rfl ..

/-- Both drafts take the operation, or neither does. -/
theorem operate (h : Replaces rs d d') (i : Nat) (hr : Recording.Replaces rs r r') (op : Operation) :
    Option.Rel (Replaces rs) (d.operate i r op) (d'.operate i r' op) := by
  cases op with
  | submodule name loc =>
    exact rel_bind (hr.openSubmodule name loc).toOption fun _ _ hinner => .some (h.addPlace hinner)
  | signal name width kind init loc =>
    refine rel_bind (hr.signal name width kind init loc).toOption fun p p' hp => .some ?_
    obtain ⟨s, r₁⟩ := p
    obtain ⟨s', r₁'⟩ := p'
    obtain ⟨rfl, hr₁⟩ := hp
    exact (h.move i hr₁).addSignal s
  | assign mode target value loc =>
    refine rel_bind (R := Eq) (by rw [h.signals]; exact rel_refl _) fun x _ hx => ?_
    subst hx
    exact rel_bind (assignAt hr mode x value loc).result? fun _ _ hr₁ => .some (h.move i hr₁)
  | «when» cond =>
    refine rel_bind (rel_refl _) fun wanted _ hw => ?_
    subst hw
    subst hr
    exact .some ((h.move i rfl).openChain _)
  | branches =>
    subst hr
    exact .some ((h.move i rfl).openChain _)
  | branch chain cond => exact rel_bind (rel_refl _) fun wanted _ hw => hw ▸ h.enterBranch i hr chain wanted
  | case chain sel values => exact rel_bind (rel_refl _) fun wanted _ hw => hw ▸ h.enterBranch i hr chain wanted
  | otherwise chain => exact h.enterBranch i hr chain .one
  | leave =>
    subst hr
    exact .some (h.move i rfl)
  | machine name states loc =>
    refine rel_bind (hr.machine name states loc).toOption fun p p' hp => .some ?_
    obtain ⟨m, r₁⟩ := p
    obtain ⟨m', r₁'⟩ := p'
    obtain ⟨rfl, hr₁⟩ := hp
    exact ((h.move i hr₁).openChain _).addSignal m.state
  | enterState chain state loc =>
    unfold Draft.operate
    rw [h.chains]
    simp only
    split
    · rename_i path m arms _
      refine rel_bind (rel_refl _) fun index _ hindex => ?_
      subst hindex
      exact rel_bind (hr.enterState m state loc).toOption fun _ _ hr₁ => .some ((h.move i hr₁).noteArm ..)
    · exact .none
  | nextState chain state loc =>
    unfold Draft.operate
    rw [h.chains]
    simp only
    split
    · rename_i m _ _
      exact rel_bind (hr.nextState m state loc).result? fun _ _ hr₁ => .some (h.move i hr₁)
    · exact .none
  | openTransaction t request loc =>
    unfold Draft.operate
    rw [h.design]
    exact rel_guard (rel_bind (hr.openTransaction t request loc).result? fun _ _ hr₁ => .some ((h.move i hr₁).mark hr))
  | openMethod m ready validator loc =>
    refine rel_bind (hr.openMethod m ready validator loc).result? fun p p' hp => .some ?_
    obtain ⟨info, r₁⟩ := p
    obtain ⟨info', r₁'⟩ := p'
    obtain ⟨rfl, hr₁⟩ := hp
    have hmark := (h.move i hr₁).mark hr
    exact ⟨hmark.design, hmark.places, hmark.signals, hmark.chains, congrArg (· ++ _) hmark.bodies, hmark.points⟩
  | leaveBody =>
    subst hr
    exact .some (h.move i rfl)
  | closeMethod body result loc =>
    refine rel_bind (R := Eq) (by rw [h.bodies]; exact rel_refl _) fun b _ hb => ?_
    subst hb
    exact rel_bind (hr.closeMethod b.1 b.2 result loc).result? fun _ _ hr₁ => .some (h.move i hr₁)
  | call m arg enable loc =>
    exact rel_bind (hr.call m arg enable loc).result? fun _ _ hp => .some ((h.move i hp.2).mark hr)

end Replaces

/-! ### Runs -/

/-- The relation that an action records. -/
def Action.relations : Action → List Relation
  | .conflict a b priority loc => [⟨a, b, priority, true, false, loc⟩]
  | .before a b silenced loc => [.before a b silenced loc]
  | _ => []

theorem declareMethod_replaces (d : Design) (rs : List Relation) (decl : MethodDecl) (loc : Location) :
    Agrees Eq (fun p p' => p'.2 = p.2.withRelations rs) (d.declareMethod decl loc)
      ((d.withRelations rs).declareMethod decl loc) := by
  refine (agrees_refl (fun _ => rfl) _).bind fun _ _ _ => (agrees_refl (fun _ => rfl) _).bind fun _ _ _ => agrees_pure ?_
  unfold Design.addMethod Design.newBus
  cases decl.input.isEmpty <;> cases decl.output.isEmpty <;> rfl

theorem Replaces.relate (h : Replaces rs d d') (r : Relation) :
    Replaces (rs ++ [r]) { d with design := d.design.relate r } { d' with design := d'.design.relate r } :=
  ⟨by rw [h.design]; rfl, h.places, h.signals, h.chains, h.bodies, h.points⟩

/-- Both drafts take the action and get its relation, or neither does. -/
theorem Replaces.step (h : Replaces rs d d') (action : Action) :
    Option.Rel (Replaces (rs ++ action.relations)) (d.step action) (d'.step action) := by
  have hnone : action.relations = [] → Option.Rel (Replaces rs) (d.step action) (d'.step action) →
      Option.Rel (Replaces (rs ++ action.relations)) (d.step action) (d'.step action) :=
    fun he h => by rwa [he, List.append_nil]
  have hdeclares : ∀ ids, declares d'.design ids = declares d.design ids := fun ids => by
    rw [h.design]
    rfl
  cases action with
  | transaction name loc =>
    refine hnone rfl (.some ?_)
    rw [h.design]
    exact h.setDesign _
  | method decl loc =>
    refine hnone rfl ?_
    unfold Draft.step
    rw [h.design]
    exact rel_bind (declareMethod_replaces d.design rs decl loc).result? fun p p' hp => .some (hp ▸ h.setDesign p.2)
  | conflict a b priority loc =>
    simp only [Draft.step, hdeclares]
    exact rel_guard (.some (h.relate _))
  | before a b silenced loc =>
    simp only [Draft.step, hdeclares]
    exact rel_guard (.some (h.relate _))
  | simultaneous a others =>
    refine hnone rfl ?_
    simp only [Draft.step, h.design]
    exact rel_guard (.some (h.setDesign _))
  | alternatives a others =>
    refine hnone rfl ?_
    simp only [Draft.step, h.design]
    refine rel_guard (.some ?_)
    cases others <;> exact h.setDesign _
  | openModule scope =>
    refine hnone rfl (.some ?_)
    rw [h.design]
    exact h.addPlace rfl
  | inModule i op => exact hnone rfl (rel_bind (h.place? i) fun _ _ hr => h.operate i hr op)

/-- Both drafts take the actions and get their relations, or neither does. -/
theorem Replaces.run (h : Replaces rs d d') (actions : List Action) :
    Option.Rel (Replaces (rs ++ actions.flatMap Action.relations)) (d.run actions) (d'.run actions) := by
  induction actions generalizing rs d d' with
  | nil =>
    rw [List.flatMap_nil, List.append_nil]
    exact .some h
  | cons action actions ih =>
    rw [List.flatMap_cons, ← List.append_assoc]
    exact rel_bind (h.step action) fun _ _ h => ih h

theorem run_relations {actions : List Action} (h : d.run actions = some d') :
    d'.design.relations = d.design.relations ++ actions.flatMap Action.relations := by
  have hrun := (Replaces.self d).run actions
  rw [h] at hrun
  cases hrun with
  | some hrun => exact congrArg Design.relations hrun.design

/-- What is recorded without an ordering is the same but for its relation. -/
theorem run_omit {config : Config} {actions actions' : List Action} {a b : NodeId} {silenced : Bool} {loc : Location}
    (h : (start config).run (actions ++ .before a b silenced loc :: actions') = some d) :
    ∃ d₀ pre post, (start config).run (actions ++ actions') = some d₀ ∧
      d.design.relations = pre ++ .before a b silenced loc :: post ∧
      d₀.design = d.design.withRelations (pre ++ post) := by
  unfold run at h ⊢
  rw [List.foldlM_append] at h
  obtain ⟨m, hm, h⟩ := Option.bind_eq_some_iff.1 h
  rw [List.foldlM_cons] at h
  obtain ⟨m', hm', h⟩ := Option.bind_eq_some_iff.1 h
  obtain rfl : { m with design := m.design.scheduleBefore a b silenced loc } = m' := by
    unfold Draft.step at hm'
    simpa using (Option.ite_none_right_eq_some.1 hm').2
  have hreplaces : Replaces m.design.relations { m with design := m.design.scheduleBefore a b silenced loc } m :=
    ⟨rfl, List.forall₂_same.2 fun r _ => ⟨r.design, rfl⟩, rfl, rfl, rfl, rfl⟩
  have hrun := hreplaces.run actions'
  have hrelations := run_relations h
  rw [show Draft.run _ actions' = some d from h] at hrun
  generalize hd₀ : m.run actions' = o at hrun
  cases hrun with
  | some hrun =>
    refine ⟨_, m.design.relations, actions'.flatMap Action.relations, ?_, ?_, hrun.design⟩
    · rw [List.foldlM_append]
      exact Option.bind_eq_some_iff.2 ⟨m, hm, hd₀⟩
    · rw [hrelations]
      exact List.append_assoc ..

end Draft

end Interlock
