import Interlock.Proofs.Draft.DefOrder

/-! Bodies and the calls in them. An operation goes on with the open body, opens one, leaves it or records a call in it;
so a body lists the calls of a method in the order in which actions recorded them. -/

namespace Interlock.Draft

/-- A call as it is recorded. -/
structure Call where
  caller : NodeId
  callee : NodeId
  site : CallSite
deriving DecidableEq, Repr

/-- The call that an operation records at a place, if it records one. -/
def callAt? (r : Recording) : Operation → Option Call
  | .call m arg enable loc => do
    let frame ← r.body
    let site ← r.callSite? m arg enable loc
    return ⟨frame.node, m, site⟩
  | _ => none

def callOf? (d : Draft) : Action → Option Call
  | .inModule i op => do callAt? (← d.place? i) op
  | _ => none

/-- The calls that actions record, one after another. -/
def callLog (d : Draft) : List Action → List Call
  | [] => []
  | action :: rest =>
    match d.step action with
    | some d' => (d.callOf? action).toList ++ d'.callLog rest
    | none => []

/-- The calls of a log that are from one body to one method. -/
def between (c m : NodeId) (log : List Call) : List CallSite :=
  (log.filter fun x => x.caller = c ∧ x.callee = m).map (·.site)

theorem between_append (c m : NodeId) (l l' : List Call) : between c m (l ++ l') = between c m l ++ between c m l' := by
  rw [between, List.filter_append, List.map_append, between, between]

/-! ### What an operation does to bodies -/

/-- What an operation at a place makes of the design, as far as bodies and calls go, and of the open body. -/
inductive BodyEffect (r : Recording) (op : Operation) : Design → Option BodyFrame → Prop
  | keep {d' : Design} (h : Design.SameBodies r.design d') (hop : callAt? r op = none) : BodyEffect r op d' r.body
  | left (hop : callAt? r op = none) : BodyEffect r op r.design none
  | opened {d' : Design} (id : NodeId) (loc : Location) (activator : Expr) (hid : id < r.design.nodes.size)
      (hnew : (r.design.node id).defLoc = none) (h : Design.SameBodies (r.opened id loc) d')
      (hop : callAt? r op = none) : BodyEffect r op d' (some ⟨id, activator⟩)
  | called (frame : BodyFrame) (m : NodeId) (site : CallSite) (hbody : r.body = some frame)
      (hdefined : (r.design.node m).isDefined = true) (hop : callAt? r op = some ⟨frame.node, m, site⟩) :
      BodyEffect r op (r.design.modifyNode frame.node fun n => { n with calls := Recording.addSite n.calls m site })
        r.body

variable {d d' : Draft} {i : Nat} {r : Recording}

/-- The module that an operation was in goes on with the body that it leaves open, and other modules stay where they
are. No body is open in a module that is begun. -/
structure GoesOn (d d' : Draft) (i : Nat) (body : Option BodyFrame) : Prop where
  here : ∃ r, d'.places[i]? = some r ∧ r.body = body
  others : ∀ j, j ≠ i → j < d.places.length → d'.places[j]? = d.places[j]?
  length : d.places.length ≤ d'.places.length
  begun : ∀ j r, d.places.length ≤ j → d'.places[j]? = some r → r.body = none

theorem goesOn_move {body : Option BodyFrame} (hi : i < d.places.length) (hd' : d'.places = d.places.set i r)
    (hbody : r.body = body) : GoesOn d d' i body := by
  refine ⟨⟨r, ?_, hbody⟩, fun j hj _ => ?_, ?_, fun j r hj hr => ?_⟩
  · rw [hd', List.getElem?_set_self hi]
  · rw [hd', List.getElem?_set_ne (Ne.symm hj)]
  · rw [hd', List.length_set]
  · rw [hd'] at hr
    have hlt := (List.getElem?_eq_some_iff.1 hr).1
    rw [List.length_set] at hlt
    exact absurd hlt (Nat.not_lt.2 hj)

theorem goesOn_append {inner : Recording} (hi : d.places[i]? = some r) (hd' : d'.places = d.places ++ [inner])
    (hinner : inner.body = none) : GoesOn d d' i r.body := by
  have hlt := (List.getElem?_eq_some_iff.1 hi).1
  refine ⟨⟨r, ?_, rfl⟩, fun j _ hj => ?_, ?_, fun j r' hj hr' => ?_⟩
  · rw [hd', List.getElem?_append_left hlt, hi]
  · rw [hd', List.getElem?_append_left hj]
  · rw [hd', List.length_append]
    exact Nat.le_add_right ..
  · rw [hd', List.getElem?_append_right hj] at hr'
    exact List.mem_singleton.1 (List.mem_of_getElem? hr') ▸ hinner

theorem effect_bodies {r₀ : Recording} (hr₀ : d.places[i]? = some r₀) (hr : r = { r₀ with design := d.design })
    {op : Operation} (he : Effect d i r op d') : ∃ body, BodyEffect r op d'.design body ∧ GoesOn d d' i body := by
  have hi := (List.getElem?_eq_some_iff.1 hr₀).1
  have hbody : r.body = r₀.body := by rw [hr]
  cases he with
  | submodule scope => exact ⟨r.body, .keep (.of_nodes rfl rfl) rfl, hbody ▸ goesOn_append hr₀ rfl rfl⟩
  | signal name width kind init hw => exact ⟨r.body, .keep (.of_nodes rfl rfl) rfl, goesOn_move hi rfl rfl⟩
  | assign s guard value domain hs hkind => exact ⟨r.body, .keep (.of_nodes rfl rfl) rfl, goesOn_move hi rfl rfl⟩
  | «when» wanted hw => exact ⟨r.body, .keep (.of_nodes rfl rfl) rfl, goesOn_move hi rfl rfl⟩
  | branches => exact ⟨r.body, .keep (.of_nodes rfl rfl) rfl, goesOn_move hi rfl rfl⟩
  | branch j b arms cond hj hw hop =>
    exact ⟨r.body, .keep (.of_nodes rfl rfl) (by cases hop <;> rfl), goesOn_move hi rfl rfl⟩
  | leave => exact ⟨r.body, .keep (.of_nodes rfl rfl) rfl, goesOn_move hi rfl rfl⟩
  | machine name m hw hstates hstate hchain hpath =>
    exact ⟨r.body, .keep (.of_nodes rfl rfl) rfl, goesOn_move hi rfl rfl⟩
  | state j path m arms index hj hpath hi' => exact ⟨r.body, .keep (.of_nodes rfl rfl) rfl, goesOn_move hi rfl rfl⟩
  | next c m guard value hc hm => exact ⟨r.body, .keep (.of_nodes rfl rfl) rfl, goesOn_move hi rfl rfl⟩
  | openTransaction t loc info wanted ht hnew hinfo =>
    exact ⟨_, .opened t loc _ ht hnew (.of_nodes rfl rfl) rfl, goesOn_move hi rfl rfl⟩
  | openMethod m loc old validator wanted activator hnew hinfo =>
    have hm : (r.design.node m).method? = some old := by rw [Node.method?, hinfo]
    have hsame : Design.SameBodies (r.opened m loc)
        ((r.opened m loc).modifyNode m fun n => { n with kind := .method { old with validator } }) :=
      Design.modifyNode_sameBodies _ m (fun _ => rfl) (fun _ => rfl) fun _ => rfl
    exact ⟨_, .opened m loc activator (Design.lt_of_method hm) hnew (hsame.trans (.of_nodes rfl rfl)) rfl,
      goesOn_move hi rfl rfl⟩
  | leaveBody => exact ⟨none, .left rfl, goesOn_move hi rfl rfl⟩
  | closeMethod m info bus value hm hbus => exact ⟨r.body, .keep (.of_nodes rfl rfl) rfl, goesOn_move hi rfl rfl⟩
  | stay => exact ⟨r.body, .keep (.of_nodes rfl rfl) rfl, goesOn_move hi rfl rfl⟩
  | call m frame site enabled hframe hpath henable hw hapart hcallee hdefined hsite =>
    refine ⟨r.body, .called frame m site hframe hdefined ?_, goesOn_move hi rfl rfl⟩
    simp only [callAt?, hframe, hsite, Option.bind_eq_bind, Option.bind_some, Option.pure_def]

/-- Actions outside modules leave bodies, calls and modules as they are. -/
theorem step_declares {action : Action} (hd : d.step action = some d') (hmodule : ∀ scope, action ≠ .openModule scope)
    (hin : ∀ i op, action ≠ .inModule i op) : Design.SameBodies d.design d'.design ∧ d'.places = d.places := by
  cases action with
  | transaction name loc =>
    simp only [step, Option.some.injEq] at hd
    subst hd
    exact ⟨Design.declareTransaction_sameBodies d.design name loc, rfl⟩
  | method decl loc =>
    simp only [step, Option.bind_eq_bind, Option.bind_eq_some_iff, Option.pure_def, Option.some.injEq,
      Attempt.result?_eq_some] at hd
    obtain ⟨⟨m, design⟩, hm, rfl⟩ := hd
    have ha := Design.addMethod_sameBodies d.design decl loc
    rw [← Design.declareMethod_ok hm] at ha
    exact ⟨ha, rfl⟩
  | conflict a b priority loc =>
    simp only [step, Option.ite_none_right_eq_some, Option.some.injEq] at hd
    obtain ⟨-, rfl⟩ := hd
    exact ⟨.of_nodes rfl rfl, rfl⟩
  | before a b silenced loc =>
    simp only [step, Option.ite_none_right_eq_some, Option.some.injEq] at hd
    obtain ⟨-, rfl⟩ := hd
    exact ⟨.of_nodes rfl rfl, rfl⟩
  | simultaneous a others =>
    simp only [step, Option.ite_none_right_eq_some, Option.some.injEq] at hd
    obtain ⟨-, rfl⟩ := hd
    exact ⟨Design.modifyNode_sameBodies d.design a (fun _ => rfl) (fun _ => rfl) fun _ => rfl, rfl⟩
  | alternatives a others =>
    simp only [step, Option.ite_none_right_eq_some, Option.some.injEq] at hd
    obtain ⟨-, rfl⟩ := hd
    exact ⟨Design.alternatives_induct (P := Design.SameBodies d.design) d.design a others
      (Design.modifyNode_sameBodies _ a (fun _ => rfl) (fun _ => rfl) fun _ => rfl)
      fun _ first _ hs =>
        hs.trans (Design.modifyNode_sameBodies _ first (fun _ => rfl) (fun _ => rfl) fun _ => rfl), rfl⟩
  | openModule scope => exact absurd rfl (hmodule scope)
  | inModule i op => exact absurd rfl (hin i op)

/-! ### Calls in the order of recording -/

/-- A body that is open has been defined. -/
def OpenBodies (d : Draft) : Prop :=
  ∀ r ∈ d.places, ∀ frame, r.body = some frame → (d.design.node frame.node).isDefined = true

theorem isDefined_opened (r : Recording) {id j : NodeId} (loc : Location) (hid : id < r.design.nodes.size)
    (h : j = id ∨ (r.design.node j).isDefined = true) : ((r.opened id loc).node j).isDefined = true := by
  unfold Recording.opened
  rw [Design.node_modifyNode]
  split
  · rfl
  · rename_i hne
    exact h.resolve_left fun he => hne ⟨he, he ▸ hid⟩

theorem isDefined_same {e e' : Design} (h : Design.SamePlaces e e') (j : NodeId) :
    (e'.node j).isDefined = (e.node j).isDefined := by
  rw [Node.isDefined, h.place, Node.isDefined]

/-- Nodes stay defined, and so is the one whose body is open afterwards. -/
theorem BodyEffect.defined {op : Operation} {design : Design} {body : Option BodyFrame}
    (he : BodyEffect r op design body)
    (hr : ∀ frame, r.body = some frame → (r.design.node frame.node).isDefined = true) :
    (∀ j, (r.design.node j).isDefined = true → (design.node j).isDefined = true) ∧
      ∀ frame, body = some frame → (design.node frame.node).isDefined = true := by
  cases he with
  | keep h =>
    have hsame := isDefined_same h.toSamePlaces
    exact ⟨fun j hj => (hsame j).trans hj, fun frame hframe => (hsame _).trans (hr frame hframe)⟩
  | left => exact ⟨fun j hj => hj, fun frame hframe => nomatch hframe⟩
  | opened id loc activator hid hnew h =>
    have hsame := isDefined_same h.toSamePlaces
    refine ⟨fun j hj => (hsame j).trans (isDefined_opened r loc hid (.inr hj)), fun frame hframe => ?_⟩
    obtain rfl := Option.some.inj hframe
    exact (hsame id).trans (isDefined_opened r loc hid (.inl rfl))
  | called frame m site hbody =>
    have hsame := isDefined_same (Design.modifyNode_samePlaces r.design frame.node
      (f := fun n => { n with calls := Recording.addSite n.calls m site }) (fun _ => rfl) fun _ => rfl)
    exact ⟨fun j hj => (hsame j).trans hj, fun frame' hframe' => (hsame _).trans (hr frame' hframe')⟩

theorem OpenBodies.place (h : d.OpenBodies) (hr : d.place? i = some r) {frame : BodyFrame}
    (hbody : r.body = some frame) : (r.design.node frame.node).isDefined = true := by
  obtain ⟨r₀, hr₀, rfl⟩ := Option.map_eq_some_iff.1 hr
  exact h r₀ (List.mem_of_getElem? hr₀) frame hbody

/-- Every action outside modules, or that begins one, leaves calls as they are and opens no body. -/
theorem OpenBodies.declares (h : d.OpenBodies) (hsame : Design.SameBodies d.design d'.design)
    (hplaces : ∀ r ∈ d'.places, r ∈ d.places ∨ r.body = none) : d'.OpenBodies := by
  intro r hr frame hframe
  rcases hplaces r hr with hr | hnone
  · exact (isDefined_same hsame.toSamePlaces _).trans (h r hr frame hframe)
  · exact nomatch hnone.symm.trans hframe

theorem step_openBodies {action : Action} (h : d.OpenBodies) (hd : d.step action = some d') : d'.OpenBodies := by
  cases action with
  | openModule scope =>
    obtain rfl := Option.some.inj hd
    refine h.declares (.of_nodes rfl rfl) fun r hr => ?_
    refine (List.mem_append.1 hr).imp_right fun hr => ?_
    rw [List.mem_singleton.1 hr]
    rfl
  | inModule i op =>
    simp only [step, Option.bind_eq_bind, Option.bind_eq_some_iff] at hd
    obtain ⟨r, hr, hop⟩ := hd
    obtain ⟨r₀, hr₀, hrr₀⟩ := Option.map_eq_some_iff.1 hr
    obtain ⟨body, hbody, hgoes⟩ := effect_bodies hr₀ hrr₀.symm (operate_effect (place?_design hr) hop)
    obtain ⟨hstay, hopen⟩ := hbody.defined fun frame => h.place hr
    intro r' hr' frame hframe
    obtain ⟨j, hj⟩ := List.getElem?_of_mem hr'
    rcases Nat.lt_or_ge j d.places.length with hlt | hge
    · by_cases hij : j = i
      · obtain ⟨r₁, hr₁, rfl⟩ := hgoes.here
        obtain rfl := Option.some.inj (hr₁.symm.trans (hij ▸ hj))
        exact hopen frame hframe
      · rw [hgoes.others j hij hlt] at hj
        exact hstay _ (place?_design hr ▸ h r' (List.mem_of_getElem? hj) frame hframe)
    · rw [hgoes.begun j r' hge hj] at hframe
      cases hframe
  | _ =>
    obtain ⟨hsame, hplaces⟩ := step_declares hd (by simp) (by simp)
    exact h.declares hsame fun r hr => .inl (hplaces ▸ hr)

theorem Recorded.openBodies (h : d.Recorded) : d.OpenBodies :=
  h.induct (fun _ _ hr => absurd hr List.not_mem_nil) fun _ _ _ hd hstep => step_openBodies hd hstep

/-- A body lists the call that an action records in it after those that were there. -/
theorem step_sites {action : Action} (h : d.OpenBodies) (hd : d.step action = some d') (c m : NodeId) :
    (d'.design.node c).sitesTo m = (d.design.node c).sitesTo m ++ between c m (d.callOf? action).toList := by
  have same : ∀ {e e' : Design}, (∀ i, (e'.node i).calls = (e.node i).calls) →
      (e'.node c).sitesTo m = (e.node c).sitesTo m ++ between c m [] := fun hcalls => by
    rw [Node.sitesTo, hcalls, Node.sitesTo]
    exact (List.append_nil _).symm
  cases action with
  | openModule scope =>
    obtain rfl := Option.some.inj hd
    exact same fun _ => rfl
  | inModule i op =>
    simp only [step, Option.bind_eq_bind, Option.bind_eq_some_iff] at hd
    obtain ⟨r, hr, hop⟩ := hd
    obtain ⟨r₀, hr₀, hrr₀⟩ := Option.map_eq_some_iff.1 hr
    obtain ⟨body, hbody, -⟩ := effect_bodies hr₀ hrr₀.symm (operate_effect (place?_design hr) hop)
    have hcall : d.callOf? (.inModule i op) = callAt? r op := by
      simp only [callOf?, hr, Option.bind_eq_bind, Option.bind_some]
    rw [hcall, ← place?_design hr]
    generalize d'.design = design at hbody
    cases hbody with
    | keep hsame hop => exact hop ▸ same hsame.calls
    | left hop => exact hop ▸ same fun _ => rfl
    | opened id loc activator hid hnew hsame hop =>
      rw [hop]
      refine same fun j => (hsame.calls j).trans ?_
      unfold Recording.opened
      rw [Design.node_modifyNode]
      split <;> rfl
    | called frame m' site hframe _ hop =>
      have hlt : frame.node < r.design.nodes.size := by
        obtain ⟨k, hk⟩ := Option.isSome_iff_exists.1 (h.place hr hframe)
        exact Design.lt_of_place hk
      rw [hop, Design.node_modifyNode]
      by_cases hc : c = frame.node
      · subst hc
        rw [if_pos ⟨rfl, hlt⟩, Node.sitesTo_addSite]
        by_cases hm : m = m'
        · subst hm
          simp [between]
        · simp [between, hm, Ne.symm hm]
      · rw [if_neg fun h => hc h.1]
        simp [between, Ne.symm hc]
  | _ =>
    obtain ⟨hsame, -⟩ := step_declares hd (by simp) (by simp)
    exact same hsame.calls

theorem run_sites {actions : List Action} {d d' : Draft} (h : d.OpenBodies) (hd : d.run actions = some d')
    (c m : NodeId) :
    (d'.design.node c).sitesTo m = (d.design.node c).sitesTo m ++ between c m (d.callLog actions) := by
  unfold run at hd
  induction actions generalizing d with
  | nil =>
    obtain rfl : d = d' := by simpa using hd
    exact (List.append_nil _).symm
  | cons action rest ih =>
    rw [List.foldlM_cons] at hd
    obtain ⟨d₁, hd₁, hd⟩ := Option.bind_eq_some_iff.1 hd
    rw [ih (step_openBodies h hd₁) hd, step_sites h hd₁, callLog, hd₁, between_append, List.append_assoc]

/-- A body has the calls that were recorded in it, those of one method in the order in which they were. -/
theorem sites_of_run {config : Config} {actions : List Action} {d : Draft}
    (h : (start config).run actions = some d) (c m : NodeId) :
    (d.design.node c).sitesTo m = between c m ((start config).callLog actions) :=
  run_sites (fun _ hr => absurd hr List.not_mem_nil) h c m

end Interlock.Draft
