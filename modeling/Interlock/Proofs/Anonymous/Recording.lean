import Interlock.Proofs.Anonymous.Design
import Interlock.Recording

/-! Recording without names. Recordings that are alike have reached the same place; each operation, whatever the
names and places in the source that it is given, fails in both with errors of one kind or keeps them alike. -/

namespace Interlock

open Attempt DesignError

/-- The machine without its name; its states keep theirs. -/
def Machine.anonymous (m : Machine) : Machine := { m with name := "" }

namespace Machine

variable {m m' : Machine}

theorem index_agrees (hm : m.anonymous = m'.anonymous) (state : String) (loc loc' : Location) :
    Agree SameKind Eq (m.index state loc) (m'.index state loc') := by
  have hstates : m.anonymous.states = m'.anonymous.states := by rw [hm]
  unfold index
  rw [show m.states = m'.states from hstates]
  split
  · exact .ok rfl
  · exact .error rfl

theorem inState_same (hm : m.anonymous = m'.anonymous) (index : Nat) : m.inState index = m'.inState index := by
  have hstate : m.anonymous.inState index = m'.anonymous.inState index := by rw [hm]
  exact hstate

end Machine

namespace Recording

/-- The same place in designs that are alike. -/
structure Alike (r r' : Recording) : Prop where
  design : r.design.Alike r'.design
  module : r.module = r'.module
  path : r.path = r'.path
  conds : r.conds = r'.conds
  body : r.body = r'.body

variable {r r' : Recording}

namespace Alike

theorem cond (h : Alike r r') : r.cond = r'.cond := by rw [Recording.cond, Recording.cond, h.conds]

theorem guard (h : Alike r r') : r.guard = r'.guard := by
  rw [Recording.guard, Recording.guard, h.cond, h.body]

theorem setDesign (h : Alike r r') {d d' : Design} (hd : d.Alike d') : Alike { r with design := d } { r' with design := d' } :=
  ⟨hd, h.module, h.path, h.conds, h.body⟩

theorem openModule {d d' : Design} (h : d.Alike d') (scope scope' : String) :
    Alike (Recording.openModule d scope) (Recording.openModule d' scope') := by
  obtain ⟨hid, hd⟩ := h.newModule
  exact ⟨hd, hid, by simp only [Recording.openModule, hid], rfl, rfl⟩

theorem openSubmodule (h : Alike r r') (name name' : String) (loc loc' : Location) :
    Agree SameKind Alike (r.openSubmodule name loc) (r'.openSubmodule name' loc') := by
  unfold Recording.openSubmodule
  rw [h.body]
  split
  · exact .error rfl
  · exact .ok (openModule h.design ..)

theorem signal (h : Alike r r') (name name' : String) (width : Nat) (kind : SignalKind) (init : Word)
    (loc loc' : Location) : Agree SameKind (fun p p' => p.1 = p'.1 ∧ Alike p.2 p'.2)
      (r.signal name width kind init loc) (r'.signal name' width kind init loc') := by
  unfold Recording.signal
  split
  · exact .error rfl
  · obtain ⟨hid, hd⟩ := h.design.newSignal (r.scope ++ name) (r'.scope ++ name') width kind init
    simp only [hid]
    exact .ok ⟨rfl, h.setDesign hd⟩

theorem assign (h : Alike r r') (target : Sig) (guard value : Expr) (domain : Domain) (loc loc' : Location) :
    Agrees SameKind Alike (r.assign target guard value domain loc) (r'.assign target guard value domain loc') := by
  refine Agrees.guard rfl (Agrees.bind (agrees_ofChecked (.refl fun _ => rfl)) fun _ _ _ => Agrees.guard rfl ?_)
  exact agrees_pure (h.setDesign (h.design.assign _))

theorem newChain (h : Alike r r') : r.newChain.1 = r'.newChain.1 ∧ Alike r.newChain.2 r'.newChain.2 := by
  unfold Recording.newChain
  rw [h.path]
  exact ⟨rfl, h.design, h.module, rfl, h.conds, h.body⟩

theorem enter (h : Alike r r') (chain alternative : Nat) (cond : Expr) :
    Alike (r.enter chain alternative cond) (r'.enter chain alternative cond) :=
  ⟨h.design, h.module, congrArg (PathBuilder.push · chain alternative) h.path, congrArg (cond :: ·) h.conds, h.body⟩

theorem leave (h : Alike r r') : Alike r.leave r'.leave :=
  ⟨h.design, h.module, congrArg PathBuilder.pop h.path, congrArg List.tail h.conds, h.body⟩

theorem machine (h : Alike r r') (name name' : String) (states : List String) (loc loc' : Location) :
    Agree SameKind (fun p p' => p.1.anonymous = p'.1.anonymous ∧ Alike p.2 p'.2)
      (r.machine name states loc) (r'.machine name' states loc') := by
  refine Agree.guard rfl ((h.signal ..).bind fun p p' hp => ?_)
  obtain ⟨state, r₁⟩ := p
  obtain ⟨state', r₁'⟩ := p'
  obtain ⟨hstate, h₁⟩ := hp
  obtain rfl : state = state' := hstate
  obtain ⟨hchain, h₂⟩ := h₁.newChain
  refine .ok ⟨?_, h₂⟩
  have hpath : r₁.newChain.2.path.current = r₁'.newChain.2.path.current := by rw [h₂.path]
  simp only [Machine.anonymous, Machine.mk.injEq, true_and]
  exact ⟨hchain, hpath⟩

theorem enterState (h : Alike r r') {m m' : Machine} (hm : m.anonymous = m'.anonymous) (state : String)
    (loc loc' : Location) : Agree SameKind Alike (r.enterState m state loc) (r'.enterState m' state loc') := by
  have hpath : m.anonymous.path = m'.anonymous.path := by rw [hm]
  have hchain : m.anonymous.chain = m'.anonymous.chain := by rw [hm]
  refine (Machine.index_agrees hm state loc loc').bind fun index _ hindex => ?_
  subst hindex
  rw [h.path, show m.path = m'.path from hpath, show m.chain = m'.chain from hchain, Machine.inState_same hm]
  exact Agree.guard rfl (.ok (h.enter ..))

theorem nextState (h : Alike r r') {m m' : Machine} (hm : m.anonymous = m'.anonymous) (state : String)
    (loc loc' : Location) : Agrees SameKind Alike (r.nextState m state loc) (r'.nextState m' state loc') := by
  have hstate : m.anonymous.state = m'.anonymous.state := by rw [hm]
  refine (agrees_ofExcept (Machine.index_agrees hm state loc loc')).bind fun index _ hindex => ?_
  subst hindex
  rw [h.guard, show m.state = m'.state from hstate]
  exact h.assign ..

/-! ### Bodies and calls -/

theorem openBody (h : Alike r r') (id : NodeId) (loc loc' : Location) :
    Agree SameKind Alike (r.openBody id loc) (r'.openBody id loc') := by
  have hdefined : (r.design.node id).defLoc.map (fun _ => Location.generated) =
      (r'.design.node id).defLoc.map fun _ => Location.generated :=
    congrArg Node.defLoc (h.design.node id)
  have hopened : ∀ n n' : Node, n.anonymous = n'.anonymous →
      ({ n with
        defOrder := some r.design.nextDefOrder
        defLoc := some loc
        path := some r.path.current } : Node).anonymous =
      ({ n' with
        defOrder := some r'.design.nextDefOrder
        defLoc := some loc'
        path := some r'.path.current } : Node).anonymous := fun n n' hn => by
    rw [h.design.same (f := Design.nextDefOrder) fun _ => rfl, h.path]
    exact congrArg (fun n : Node => { n with
      defOrder := some r'.design.nextDefOrder
      defLoc := some .generated
      path := some r'.path.current }) hn
  unfold Recording.openBody
  rw [h.body]
  split
  · exact .error rfl
  · have hprev := rel_of_map hdefined
    generalize (r.design.node id).defLoc = prev at hprev ⊢
    generalize (r'.design.node id).defLoc = prev' at hprev ⊢
    cases hprev with
    | none => exact .ok ⟨h.design.nextBody.modifyNode id hopened, h.module, h.path, h.conds, rfl⟩
    | some _ => exact .error rfl

theorem enterBody (h : Alike r r') (id : NodeId) (x : SignalId) : Alike (r.enterBody id x) (r'.enterBody id x) :=
  ⟨h.design, h.module, h.path, h.conds, by simp only [Recording.enterBody, h.design.read]⟩

theorem leaveBody (h : Alike r r') : Alike r.leaveBody r'.leaveBody := ⟨h.design, h.module, h.path, h.conds, rfl⟩

theorem openTransaction (h : Alike r r') (t : NodeId) (request : Expr) (loc loc' : Location) :
    Agrees SameKind Alike (r.openTransaction t request loc) (r'.openTransaction t request loc') := by
  refine (agrees_ofExcept (h.openBody t loc loc')).bind fun r₁ r₁' h₁ => ?_
  rw [h₁.design.transaction]
  split
  · exact agrees_throw rfl
  · refine Agrees.bind (R := Eq) (agrees_ofChecked (.refl fun _ => rfl)) fun wanted _ hw => ?_
    subst hw
    rw [h₁.cond]
    exact agrees_pure ((h₁.setDesign (h₁.design.drive ..)).enterBody ..)

theorem openMethod (h : Alike r r') (m : NodeId) (ready : Expr) (validator : Option Validator) (loc loc' : Location) :
    Agrees SameKind (fun p p' => p.1 = p'.1 ∧ Alike p.2 p'.2) (r.openMethod m ready validator loc)
      (r'.openMethod m ready validator loc') := by
  refine (agrees_ofExcept (h.openBody m loc loc')).bind fun r₁ r₁' h₁ => ?_
  rw [h₁.design.method]
  split
  · exact agrees_throw rfl
  · rename_i info _
    refine Agrees.bind (R := Eq) (agrees_ofChecked (.refl fun _ => rfl)) fun wanted _ hw => ?_
    subst hw
    rw [h₁.cond]
    have hkind : Design.Alike
        (r₁.design.modifyNode m fun n => { n with kind := .method { info with validator } })
        (r₁'.design.modifyNode m fun n => { n with kind := .method { info with validator } }) :=
      h₁.design.modifyNode m fun _ _ hn => congrArg (fun n : Node => { n with kind := .method { info with validator } }) hn
    exact agrees_pure ⟨rfl, (h₁.setDesign (hkind.drive ..)).enterBody ..⟩

theorem closeMethod (h : Alike r r') (m : NodeId) (info : MethodInfo) (result : Expr) (loc loc' : Location) :
    Agrees SameKind Alike (r.closeMethod m info result loc) (r'.closeMethod m info result loc') := by
  refine Agrees.bind (agrees_ofChecked (.refl fun _ => rfl)) fun _ _ _ => Agrees.guard rfl ?_
  split
  · exact agrees_pure h
  · rw [h.cond]
    exact agrees_pure (h.setDesign (h.design.assign _))

/-- A call that is added to a body. -/
theorem addSite_anonymous {calls calls' : List (NodeId × List CallSite)}
    (h : calls.map CallSite.allAnonymous = calls'.map CallSite.allAnonymous) (m : NodeId) {s t : CallSite}
    (hs : s.anonymous = t.anonymous) :
    (addSite calls m s).map CallSite.allAnonymous = (addSite calls' m t).map CallSite.allAnonymous := by
  have hadd : ∀ (calls : List (NodeId × List CallSite)) (s : CallSite),
      (addSite calls m s).map CallSite.allAnonymous = addSite (calls.map CallSite.allAnonymous) m s.anonymous := by
    intro calls s
    have hany : (calls.map CallSite.allAnonymous).any (fun c => c.1 == m) = calls.any fun c => c.1 == m := by
      rw [List.any_map]
      rfl
    unfold addSite
    rw [hany]
    split
    · rw [List.map_map, List.map_map]
      refine List.map_congr_left fun c _ => ?_
      by_cases hc : c.1 = m <;> simp [hc, CallSite.allAnonymous]
    · simp [CallSite.allAnonymous]
  rw [hadd, hadd, h, hs]

theorem addCall {d d' : Design} (h : d.Alike d') (c m : NodeId) {s t : CallSite} (hs : s.anonymous = t.anonymous) :
    Design.Alike (d.modifyNode c fun n => { n with calls := addSite n.calls m s })
      (d'.modifyNode c fun n => { n with calls := addSite n.calls m t }) := by
  refine h.modifyNode c fun n n' hn => ?_
  have hcalls : n.anonymous.calls = n'.anonymous.calls := by rw [hn]
  exact congrArg₂ (fun (n : Node) calls => { n with calls }) hn (addSite_anonymous hcalls m hs)

theorem sitesTo_anonymous (n : Node) (m : NodeId) : n.anonymous.sitesTo m = (n.sitesTo m).map CallSite.anonymous := by
  unfold Node.sitesTo Node.anonymous
  simp only
  induction n.calls with
  | nil => rfl
  | cons c calls ih =>
    rw [List.map_cons, CallSite.allAnonymous, List.lookup_cons, List.lookup_cons]
    split
    · rfl
    · exact ih

/-- Whether there is a site like that is the same for nodes that differ in names and places only. -/
theorem find?_sites {n n' : Node} (h : n.anonymous = n'.anonymous) (m : NodeId) {p : CallSite → Bool}
    (hp : ∀ s : CallSite, p s.anonymous = p s) :
    ((n.sitesTo m).find? p).map CallSite.anonymous = ((n'.sitesTo m).find? p).map CallSite.anonymous := by
  have hfind : ∀ n : Node, ((n.sitesTo m).find? p).map CallSite.anonymous = (n.anonymous.sitesTo m).find? p := fun n => by
    rw [sitesTo_anonymous, List.find?_map]
    simp only [Function.comp_def, hp]
  rw [hfind, hfind, h]

theorem call (h : Alike r r') (m : NodeId) (arg enable : Expr) (loc loc' : Location) :
    Agrees SameKind (fun p p' => p.1 = p'.1 ∧ Alike p.2 p'.2) (r.call m arg enable loc)
      (r'.call m arg enable loc') := by
  have hdefined : (r.design.node m).isDefined = (r'.design.node m).isDefined :=
    Node.same (h.design.node m) (f := Node.isDefined) fun _ => rfl
  unfold Recording.call
  simp only [h.design.method, hdefined, h.body]
  split
  · exact agrees_throw rfl
  · rename_i frame _
    split
    · exact agrees_throw rfl
    · rename_i info _
      refine Agrees.guard rfl (Agrees.bind (agrees_ofChecked (.refl fun _ => rfl)) fun _ _ _ => Agrees.guard rfl ?_)
      refine Agrees.bind (R := Eq) (agrees_ofChecked (.refl fun _ => rfl)) fun enabled _ he => ?_
      subst he
      have hclash := rel_of_map (find?_sites (h.design.node frame.node) m
        (p := fun s => !s.path.exclusiveWith r'.path.current) fun _ => rfl)
      simp only [h.path, h.cond]
      generalize ((r.design.node frame.node).sitesTo m).find? _ = clash at hclash ⊢
      generalize ((r'.design.node frame.node).sitesTo m).find? _ = clash' at hclash ⊢
      cases hclash with
      | some _ => exact agrees_throw rfl
      | none =>
        have hcalls := addCall h.design frame.node m
          (s := ⟨r'.path.current, arg.resize info.input.width, r'.cond.and enabled, loc⟩)
          (t := ⟨r'.path.current, arg.resize info.input.width, r'.cond.and enabled, loc'⟩) rfl
        exact agrees_pure ⟨hcalls.methodSignal m _, hcalls, h.module, rfl, h.conds, rfl⟩

end Alike

end Recording

end Interlock
