import Interlock.Proofs.Draft.Bodies
import Interlock.Proofs.Draft.Onward
import Interlock.Proofs.Failure
import Interlock.Proofs.FusedReach

/-! Calls go back in the order of definition. While no module is opened from inside a body, one body is open at a
time, and it is the one that was opened last; a method has to have a body before it is called. So a call leads to a
body opened before the caller's, or to the caller itself, and a method that calls itself is the only loop there can
be. -/

namespace Interlock

namespace Design

variable {d d' : Design} {a b m x : NodeId}

/-- A call leads from a node that has a body to one whose body was opened before, or to the node itself. -/
def CallsBack (d : Design) : Prop :=
  ∀ c m sites, (m, sites) ∈ (d.node c).calls → ∃ k l, (d.node c).defOrder = some k ∧
    (d.node m).defOrder = some l ∧ (l < k ∨ m = c)

theorem CallsBack.same (h : d.CallsBack) (hsame : SameBodies d d') : d'.CallsBack := by
  intro c m sites hc
  rw [hsame.calls] at hc
  obtain ⟨k, l, hk, hl, hlt⟩ := h c m sites hc
  exact ⟨k, l, (hsame.place c).trans hk, (hsame.place m).trans hl, hlt⟩

/-- A node that gets a body has called nothing and been called by nothing. -/
theorem CallsBack.opened {r : Recording} (h : r.design.CallsBack) (hranked : r.design.Ranked) {id : NodeId}
    (hnew : (r.design.node id).defLoc = none) (loc : Location) : (r.opened id loc).CallsBack := by
  have hnone := hranked.opened id hnew
  have hcalls : ∀ i, ((r.opened id loc).node i).calls = (r.design.node i).calls := by
    intro i
    unfold Recording.opened
    rw [node_modifyNode]
    split <;> rfl
  have hplace : ∀ i k, (r.design.node i).defOrder = some k → ((r.opened id loc).node i).defOrder = some k := by
    intro i k hi
    have hne : i ≠ id := fun he => Option.some_ne_none k (hi.symm.trans (he ▸ hnone))
    unfold Recording.opened
    rw [node_modifyNode, if_neg fun h => hne h.1]
    exact hi
  intro c m sites hc
  rw [hcalls] at hc
  obtain ⟨k, l, hk, hl, hlt⟩ := h c m sites hc
  exact ⟨k, l, hplace c k hk, hplace m l hl, hlt⟩

theorem mem_addSite {calls : List (NodeId × List CallSite)} {m m' : NodeId} {site : CallSite}
    {sites : List CallSite} (h : (m', sites) ∈ Recording.addSite calls m site) :
    m' = m ∨ (m', sites) ∈ calls := by
  unfold Recording.addSite at h
  split at h
  · obtain ⟨c, hc, he⟩ := List.mem_map.1 h
    split at he
    · exact .inl (Prod.mk.inj he).1.symm
    · exact .inr (he ▸ hc)
  · rcases List.mem_append.1 h with h | h
    · exact .inr h
    · exact .inl (Prod.mk.inj (List.mem_singleton.1 h)).1

/-- The body that was opened last calls a node that has a body. -/
theorem CallsBack.call (h : d.CallsBack) (hranked : d.Ranked) {c m : NodeId} {k : Nat}
    (hc : (d.node c).defOrder = some k) (hlast : d.nextDefOrder = k + 1) (hm : (d.node m).isDefined = true)
    (site : CallSite) : (d.modifyNode c fun n => { n with calls := Recording.addSite n.calls m site }).CallsBack := by
  have hsame : SamePlaces d (d.modifyNode c fun n => { n with calls := Recording.addSite n.calls m site }) :=
    modifyNode_samePlaces d c (fun _ => rfl) fun _ => rfl
  have hold : ∀ c' m', (∃ k l, (d.node c').defOrder = some k ∧ (d.node m').defOrder = some l ∧ (l < k ∨ m' = c')) →
      ∃ k l, ((d.modifyNode c fun n => { n with calls := Recording.addSite n.calls m site }).node c').defOrder =
        some k ∧ ((d.modifyNode c fun n => { n with calls := Recording.addSite n.calls m site }).node m').defOrder =
        some l ∧ (l < k ∨ m' = c') := by
    rintro c' m' ⟨k, l, hk, hl, hlt⟩
    exact ⟨k, l, (hsame.place c').trans hk, (hsame.place m').trans hl, hlt⟩
  intro c' m' sites hcalls
  rw [node_modifyNode] at hcalls
  split at hcalls
  · rename_i hcc
    obtain ⟨rfl, -⟩ := hcc
    rcases mem_addSite hcalls with rfl | hcalls
    · obtain ⟨l, hl⟩ := Option.isSome_iff_exists.1 hm
      refine hold c' m' ⟨k, l, hc, hl, ?_⟩
      -- The callee's number is at most the last one, which is the caller's.
      rcases Nat.lt_succ_iff_lt_or_eq.1 (hlast ▸ hranked.below m' l hl) with hlt | rfl
      · exact .inl hlt
      · exact .inr (hranked.distinct m' c' l hl hc)
    · exact hold c' m' (h c' m' sites hcalls)
  · exact hold c' m' (h c' m' sites hcalls)

/-- Calls lead no way but back. -/
theorem CallsBack.transGen (h : d.CallsBack) (hab : Relation.TransGen d.Calls a b) :
    a = b ∨ ∃ k l, (d.node a).defOrder = some k ∧ (d.node b).defOrder = some l ∧ l < k := by
  have step : ∀ {a b}, d.Calls a b →
      a = b ∨ ∃ k l, (d.node a).defOrder = some k ∧ (d.node b).defOrder = some l ∧ l < k := by
    rintro a b ⟨⟨sites, hcalls⟩, -⟩
    obtain ⟨k, l, hk, hl, hlt⟩ := h a b sites hcalls
    rcases hlt with hlt | rfl
    · exact .inr ⟨k, l, hk, hl, hlt⟩
    · exact .inl rfl
  induction hab with
  | single hab => exact step hab
  | tail _ hbc ih =>
    rcases step hbc with rfl | ⟨k, l, hk, hl, hlt⟩
    · exact ih
    · rcases ih with rfl | ⟨k', l', hk', hl', hlt'⟩
      · exact .inr ⟨k, l, hk, hl, hlt⟩
      · obtain rfl : l' = k := Option.some.inj (hl'.symm.trans hk)
        exact .inr ⟨k', l, hk', hl, Nat.lt_trans hlt hlt'⟩

/-- Nodes that lead to each other are one node. -/
theorem CallsBack.loop (h : d.CallsBack) (hmx : Relation.TransGen d.Calls m x) (hxm : Relation.TransGen d.Calls x m) : m = x := by
  rcases h.transGen hmx with rfl | ⟨k, l, hk, hl, hlt⟩
  · rfl
  · rcases h.transGen hxm with rfl | ⟨k', l', hk', hl', hlt'⟩
    · rfl
    · obtain rfl : k' = l := Option.some.inj (hk'.symm.trans hl)
      obtain rfl : l' = k := Option.some.inj (hl'.symm.trans hk)
      exact absurd hlt (Nat.lt_asymm hlt')

/-- The loop that an error is about is a method that calls itself. -/
def SelfCall (d : Design) : DesignError → Prop
  | .methodRecursion name chain loc =>
    ∃ m, d.Calls m m ∧ name = d.name m ∧ chain = [d.name m, d.name m] ∧ loc = (d.node m).loc
  | _ => True

theorem CallsBack.selfCall_of_mem (h : d.CallsBack) {t m : NodeId} {callers : List NodeId} (hway : d.Way t callers m)
    (hm : m ∈ callers) :
    d.SelfCall (.methodRecursion (d.node m).name (CallMap.loopNames d m callers) (d.node m).loc) := by
  obtain ⟨others, hnot, hchain, hnames⟩ := CallMap.loop_of_mem hway hm
  cases others with
  | nil => exact ⟨m, List.isChain_pair.1 hchain, rfl, hnames, rfl⟩
  | cons x rest =>
    rw [List.cons_append, List.cons_append, List.isChain_cons_cons] at hchain
    obtain ⟨hmx, hrest⟩ := hchain
    have hxm : Relation.ReflTransGen d.Calls x m :=
      List.relationReflTransGen_of_exists_isChain_cons (rest ++ [m]) hrest (by simp)
    -- A method between would lead back to `m`, and be `m` itself.
    have hx : m = x := by
      rcases Relation.reflTransGen_iff_eq_or_transGen.1 hxm with rfl | hxm
      · rfl
      · exact h.loop (.single hmx) hxm
    exact absurd (hx ▸ List.mem_cons_self) hnot

/-- The walk over calls raises no other recursion. -/
theorem CallsBack.build_raises (h : d.CallsBack) : Attempt.Raises d.SelfCall (CallMap.build d) :=
  CallMap.build_raises (fun _ _ _ _ => trivial) fun _ _ _ _ hway hm => h.selfCall_of_mem hway hm

/-- Making drivers raises no recursion at all. -/
theorem lower_selfCall (n : Netlist) (assigns : List GuardedAssign) (owner : SignalId → Option Location) :
    Attempt.Raises d.SelfCall (Drivers.lower n assigns owner) := by
  refine Attempt.raises_bind (Attempt.raises_adapt fun e _ => ?_) fun _ _ => Attempt.raises_pure _
  cases e <;> trivial

/-- The fused design can be walked where the recorded one can, so elaboration raises what the first walk does. -/
theorem CallsBack.elaborate_error (h : d.CallsBack) (hd : d.Sound) (hc : CallMap.CallsMethods d)
    {sink sink' : DiagnosticSink} {e : DesignError} (he : d.elaborate sink = .ok (.error e, sink')) :
    d.SelfCall e := by
  have hcheck : ∀ e : DesignError, e.OfCheck → d.SelfCall e := by
    intro e he
    cases e with
    | methodRecursion name chain loc => exact he.elim
    | _ => trivial
  refine elaborate_raises (elaborateSteps_raises hd hcheck (fused_raises hcheck h.build_raises ?_) ?_) he
  · intro map groups hmap hgroups e hfails
    rw [← CallMap.build_prune] at hmap
    obtain ⟨map', hmap'⟩ := Fusion.exists_build_fuse hd.prune hc hmap hgroups
    exact nomatch hfails.symm.trans hmap'
  · rintro e ⟨f, s, d', -, -, -, hlower⟩
    exact lower_selfCall _ _ _ e hlower

end Design

namespace Draft

/-! ### One module inside another -/

/-- An action, or the end of the module that was begun last. -/
inductive Move where
  | act (action : Action)
  | close

/-- A draft with the modules that are being recorded, the innermost first. -/
structure Course where
  modules : List Nat := []
  draft : Draft

namespace Course

/-- No body is open in the innermost module. -/
def outside (c : Course) : Bool := (c.modules.head?.bind (c.draft.places[·]?)).all (·.body.isNone)

/-- What may come next: an operation in the innermost module, or, from outside its bodies, another module. Nodes are
declared and related anywhere. -/
def admits (c : Course) : Action → Bool
  | .openModule _ => c.outside
  | .inModule i _ => c.modules.head? == some i
  | _ => true

/-- Whether recording goes on in a new module. -/
def begins : Action → Bool
  | .openModule _ | .inModule _ (.submodule ..) => true
  | _ => false

def step (c : Course) : Move → Option Course
  | .act a =>
    if c.admits a then
      (c.draft.step a).map fun d => ⟨if begins a then c.draft.places.length :: c.modules else c.modules, d⟩
    else none
  | .close => some { c with modules := c.modules.tail }

/-- The course of a recording from the start. -/
def run (config : Config) (moves : List Move) : Option Course := moves.foldlM step { draft := Draft.start config }

/-- A course that moves lead to. An operation that fails leaves no trace, and is no move. -/
def Recorded (c : Course) : Prop := ∃ config moves, run config moves = some c

theorem Recorded.induct {P : Course → Prop} (start : ∀ config, P { draft := Draft.start config })
    (step : ∀ c c' move, P c → c.step move = some c' → P c') {c : Course} (h : c.Recorded) : P c := by
  obtain ⟨config, moves, h⟩ := h
  unfold run at h
  have hfrom := start config
  generalize ({ draft := Draft.start config } : Course) = s at h hfrom
  induction moves generalizing s with
  | nil =>
    obtain rfl : s = c := by simpa using h
    exact hfrom
  | cons move rest ih =>
    rw [List.foldlM_cons] at h
    obtain ⟨s', hs', h⟩ := Option.bind_eq_some_iff.1 h
    exact ih s' h (step s s' move hfrom hs')

end Course

variable {d d' : Draft} {i : Nat} {r : Recording}

namespace Course

/-- Calls go back, and the body that is open in the innermost module is the one that was opened last; in the modules
around it none is open. -/
structure InOrder (c : Course) : Prop where
  recorded : c.draft.Recorded
  calls : c.draft.design.CallsBack
  inner : ∀ i r frame, c.modules.head? = some i → c.draft.places[i]? = some r → r.body = some frame →
    ∃ k, (c.draft.design.node frame.node).defOrder = some k ∧ c.draft.design.nextDefOrder = k + 1
  outer : ∀ i ∈ c.modules.tail, ∀ r, c.draft.places[i]? = some r → r.body = none
  within : ∀ i ∈ c.modules, i < c.draft.places.length
  nodup : c.modules.Nodup

variable {c : Course}

/-- The same modules, with calls and numbers as they were. -/
theorem InOrder.keep (h : c.InOrder) {d' : Draft} (hrec : d'.Recorded)
    (hsame : Design.SameBodies c.draft.design d'.design) (hplaces : d'.places = c.draft.places) :
    ({ c with draft := d' } : Course).InOrder := by
  refine ⟨hrec, h.calls.same hsame, fun i r frame hi hr hbody => ?_, ?_, ?_, h.nodup⟩
  · obtain ⟨k, hk, hnext⟩ := h.inner i r frame hi (hplaces ▸ hr) hbody
    exact ⟨k, (hsame.place frame.node).trans hk, hsame.next.trans hnext⟩
  · exact hplaces ▸ h.outer
  · exact hplaces ▸ h.within

/-- Another module begins outside the bodies of the innermost one. -/
theorem InOrder.begin (h : c.InOrder) {d' : Draft} {inner : Recording} (hrec : d'.Recorded)
    (hsame : Design.SameBodies c.draft.design d'.design) (hplaces : d'.places = c.draft.places ++ [inner])
    (hbody : inner.body = none) (hout : c.outside = true) :
    (⟨c.draft.places.length :: c.modules, d'⟩ : Course).InOrder := by
  have hold : ∀ i ∈ c.modules, d'.places[i]? = c.draft.places[i]? := fun i hi => by
    rw [hplaces, List.getElem?_append_left (h.within i hi)]
  refine ⟨hrec, h.calls.same hsame, fun i r frame hi hr hopen => ?_, fun i hi r hr => ?_, fun i hi => ?_, ?_⟩
  · obtain rfl : c.draft.places.length = i := Option.some.inj hi
    rw [hplaces, List.getElem?_concat_length, Option.some.injEq] at hr
    subst hr
    exact nomatch hbody.symm.trans hopen
  · have hi : i ∈ c.modules := hi
    rw [hold i hi] at hr
    cases hm : c.modules with
    | nil =>
      rw [hm] at hi
      exact nomatch hi
    | cons top rest =>
      rcases List.mem_cons.1 (hm ▸ hi) with rfl | hi'
      · unfold outside at hout
        rw [hm, List.head?_cons, Option.bind_some, hr, Option.all_some] at hout
        exact Option.isNone_iff_eq_none.1 hout
      · exact h.outer i (hm ▸ hi') r hr
  · rw [hplaces, List.length_append]
    rcases List.mem_cons.1 hi with rfl | hi
    · exact Nat.lt_succ_self _
    · exact Nat.lt_of_lt_of_le (h.within i hi) (Nat.le_add_right ..)
  · exact List.nodup_cons.2 ⟨fun hmem => Nat.lt_irrefl _ (h.within _ hmem), h.nodup⟩

/-- An operation in the innermost module, which stays the innermost. -/
theorem InOrder.operate (h : c.InOrder) {d' : Draft} {i : Nat} {r r₀ : Recording} {body : Option BodyFrame}
    (hrec : d'.Recorded) (htop : c.modules.head? = some i) (hr₀ : c.draft.places[i]? = some r₀)
    (hr : r = { r₀ with design := c.draft.design }) {op : Operation} (he : BodyEffect r op d'.design body)
    (hgoes : GoesOn c.draft d' i body) : ({ c with draft := d' } : Course).InOrder := by
  have hdesign : r.design = c.draft.design := by rw [hr]
  have hranked : r.design.Ranked := hdesign ▸ h.recorded.ranked
  have hbody : r.body = r₀.body := by rw [hr]
  have hcalls : r.design.CallsBack := hdesign ▸ h.calls
  have hinner : ∀ frame, r.body = some frame →
      ∃ k, (r.design.node frame.node).defOrder = some k ∧ r.design.nextDefOrder = k + 1 := by
    rw [hdesign, hbody]
    exact fun frame => h.inner i r₀ frame htop hr₀
  -- Calls, and the number of the body that is open afterwards.
  have hafter : d'.design.CallsBack ∧ ∀ frame, body = some frame →
      ∃ k, (d'.design.node frame.node).defOrder = some k ∧ d'.design.nextDefOrder = k + 1 := by
    generalize d'.design = design at he
    cases he with
    | keep hsame =>
      refine ⟨hcalls.same hsame, fun frame hframe => ?_⟩
      obtain ⟨k, hk, hnext⟩ := hinner frame hframe
      exact ⟨k, (hsame.place frame.node).trans hk, hsame.next.trans hnext⟩
    | left => exact ⟨hcalls, fun frame hframe => nomatch hframe⟩
    | opened id loc activator hid hnew hsame =>
      refine ⟨(hcalls.opened hranked hnew loc).same hsame, fun frame hframe => ?_⟩
      obtain rfl := Option.some.inj hframe
      refine ⟨r.design.nextDefOrder, (hsame.place id).trans ?_, hsame.next⟩
      rw [Recording.opened, Design.node_modifyNode, if_pos ⟨rfl, hid⟩]
    | called frame m site hframe hdefined =>
      obtain ⟨k, hk, hnext⟩ := hinner frame hframe
      refine ⟨hcalls.call hranked hk hnext hdefined site, fun frame' hframe' => ?_⟩
      obtain rfl : frame' = frame := Option.some.inj (hframe'.symm.trans hframe)
      have hsame : Design.SamePlaces r.design _ := Design.modifyNode_samePlaces r.design frame'.node
        (f := fun n => { n with calls := Recording.addSite n.calls m site }) (fun _ => rfl) fun _ => rfl
      exact ⟨k, (hsame.place frame'.node).trans hk, hnext⟩
  have htail : ∀ j ∈ c.modules.tail, j ≠ i := by
    intro j hj he
    obtain ⟨rest, hrest⟩ := List.head?_eq_some_iff.1 htop
    have hnodup := h.nodup
    rw [hrest, List.nodup_cons] at hnodup
    rw [hrest] at hj
    exact hnodup.1 (he ▸ hj)
  refine ⟨hrec, hafter.1, fun j r' frame hj hr' hframe => ?_, fun j hj r' hr' => ?_, fun j hj => ?_, h.nodup⟩
  · obtain rfl : i = j := Option.some.inj (htop.symm.trans hj)
    obtain ⟨r₁, hr₁, rfl⟩ := hgoes.here
    obtain rfl : r₁ = r' := Option.some.inj (hr₁.symm.trans hr')
    exact hafter.2 frame hframe
  · rw [hgoes.others j (htail j hj) (h.within j (List.mem_of_mem_tail hj))] at hr'
    exact h.outer j hj r' hr'
  · exact Nat.lt_of_lt_of_le (h.within j hj) hgoes.length

theorem InOrder.close (h : c.InOrder) : ({ c with modules := c.modules.tail } : Course).InOrder := by
  refine ⟨h.recorded, h.calls, fun i r frame hi hr hbody => ?_, fun i hi => h.outer i (List.mem_of_mem_tail hi),
    fun i hi => h.within i (List.mem_of_mem_tail hi), h.nodup.tail⟩
  have hnone := h.outer i (List.mem_of_mem_head? hi) r hr
  exact nomatch hnone.symm.trans hbody

theorem step_inOrder {c' : Course} {move : Move} (h : c.InOrder) (hs : c.step move = some c') : c'.InOrder := by
  cases move with
  | close =>
    obtain rfl := Option.some.inj hs
    exact h.close
  | act a =>
    simp only [step, Option.ite_none_right_eq_some, Option.map_eq_some_iff] at hs
    obtain ⟨hadmits, d', hd', rfl⟩ := hs
    have hrec := h.recorded.take a hd'
    cases a with
    | openModule scope =>
      simp only [Draft.step, Option.some.injEq] at hd'
      subst hd'
      exact h.begin hrec (.of_nodes rfl rfl) rfl rfl hadmits
    | inModule i op =>
      have htop : c.modules.head? = some i := beq_iff_eq.1 hadmits
      simp only [Draft.step, Option.bind_eq_bind, Option.bind_eq_some_iff] at hd'
      obtain ⟨r, hr, hop⟩ := hd'
      have heffect := operate_effect (place?_design hr) hop
      obtain ⟨r₀, hr₀, hrr₀⟩ := Option.map_eq_some_iff.1 hr
      obtain ⟨body, hbody, hgoes⟩ := effect_bodies hr₀ hrr₀.symm heffect
      have hoperate := h.operate hrec htop hr₀ hrr₀.symm hbody hgoes
      cases op with
      | submodule name loc =>
        simp only [Draft.operate, Option.bind_eq_bind, Option.bind_eq_some_iff, Option.pure_def, Option.some.injEq,
          Except.toOption_eq_some] at hop
        obtain ⟨inner, hinner, rfl⟩ := hop
        unfold Recording.openSubmodule at hinner
        split at hinner
        · cases hinner
        · rename_i hnone
          obtain rfl := Except.ok.inj hinner
          refine h.begin hrec ?_ rfl rfl ?_
          · have hdesign := place?_design hr
            exact hdesign ▸ .of_nodes rfl rfl
          · unfold outside
            rw [htop, Option.bind_some, hr₀, Option.all_some, Option.isNone_iff_eq_none, ← hnone, ← hrr₀]
      | _ => exact hoperate
    | _ =>
      obtain ⟨hsame, hplaces⟩ := step_declares hd' (by simp) (by simp)
      exact h.keep hrec hsame hplaces

theorem Recorded.inOrder (h : c.Recorded) : c.InOrder := by
  refine h.induct (fun config => ?_) fun c c' move hc hs => step_inOrder hc hs
  exact ⟨⟨config, [], rfl⟩, fun _ _ _ hc => (nomatch hc), fun _ _ _ hi => (nomatch hi), fun _ hi => (nomatch hi),
    fun _ hi => (nomatch hi), List.nodup_nil⟩

end Course

end Draft

/-- Where no module is opened from inside a body, a call leads to a method that was defined before its caller, or to
the caller; nodes that lead to each other by calls are one node; and elaboration reports a recursion only of a method
that calls itself. -/
theorem calls_backward {c : Draft.Course} (h : c.Recorded) :
    (∀ caller m sites, (m, sites) ∈ (c.draft.design.node caller).calls →
      ∃ k l, (c.draft.design.node caller).defOrder = some k ∧ (c.draft.design.node m).defOrder = some l ∧
        (l < k ∨ l = k ∧ m = caller)) ∧
    (∀ m x, Relation.TransGen c.draft.design.Calls m x → Relation.TransGen c.draft.design.Calls x m → m = x) ∧
    ∀ sink name chain loc sink',
      c.draft.design.elaborate sink = .ok (.error (.methodRecursion name chain loc), sink') →
      ∃ m, c.draft.design.Calls m m ∧ name = c.draft.design.name m ∧ chain = [name, name] ∧
        loc = (c.draft.design.node m).loc := by
  obtain ⟨hrec, hcalls, -, -, -, -⟩ := h.inOrder
  refine ⟨fun caller m sites hmem => ?_, fun m x => hcalls.loop, fun sink name chain loc sink' he => ?_⟩
  · obtain ⟨k, l, hk, hl, hlt⟩ := hcalls caller m sites hmem
    refine ⟨k, l, hk, hl, hlt.imp id fun hself => ⟨?_, hself⟩⟩
    subst hself
    exact Option.some.inj (hl.symm.trans hk)
  · obtain ⟨m, hself, rfl, hchain, hloc⟩ := hcalls.elaborate_error hrec.sound hrec.callsMethods he
    exact ⟨m, hself, rfl, hchain, hloc⟩

/-- A method that calls itself, and a transaction that calls it. -/
def Draft.Course.recursive : List Draft.Move :=
  [.act (.method { name := "again" } .generated), .act (.transaction "user" .generated), .act (.openModule ""),
    .act (.inModule 0 (.openMethod 0 .one none .generated)),
    .act (.inModule 0 (.call 0 (.zero 0) .one .generated)), .act (.inModule 0 .leaveBody),
    .act (.inModule 0 (.openTransaction 1 .one .generated)),
    .act (.inModule 0 (.call 0 (.zero 0) .one .generated)), .act (.inModule 0 .leaveBody), .close]

theorem calls_backward_of_recursive :
    ∃ c m loc sink', Draft.Course.run {} Draft.Course.recursive = some c ∧ (c.draft.design.node 1).calls ≠ [] ∧
      c.draft.design.elaborate {} = .ok (.error (.methodRecursion "again" ["again", "again"] loc), sink') ∧
      c.draft.design.Calls m m ∧ "again" = c.draft.design.name m := by
  have hrun : ∃ c ∈ Draft.Course.run {} Draft.Course.recursive, (c.draft.design.node 1).calls ≠ [] ∧
      ∃ x ∈ (c.draft.design.elaborate {}).toOption,
        x.1 = .error (.methodRecursion "again" ["again", "again"] .generated) := by
    decide +kernel
  obtain ⟨c, hc, hcalls, ⟨result, sink'⟩, hx, rfl⟩ := hrun
  have helaborate := Except.toOption_eq_some.1 hx
  obtain ⟨-, -, hself⟩ := calls_backward ⟨{}, Draft.Course.recursive, hc⟩
  obtain ⟨m, hm, hname, -, -⟩ := hself _ _ _ _ _ helaborate
  exact ⟨c, m, .generated, sink', hc, hcalls, helaborate, hm, hname⟩

end Interlock
