import Mathlib.Data.Finset.Card
import Mathlib.Data.Finset.Range
import Interlock.Proofs.Draft.Nodes

/-! Places of bodies. Bodies are numbered from zero as they are opened, and a node has one body at most; so there are
as many places as nodes with a body. Fusion gives its transactions places that there are. -/

namespace Interlock

namespace Design

variable {d d' : Design}

/-- The places of bodies are the numbers below the next one, and no two nodes share one. -/
structure Ranked (d : Design) : Prop where
  below : ∀ i k, (d.node i).defOrder = some k → k < d.nextDefOrder
  taken : ∀ k < d.nextDefOrder, ∃ i, (d.node i).defOrder = some k
  distinct : ∀ i j k, (d.node i).defOrder = some k → (d.node j).defOrder = some k → i = j
  opened : ∀ i, (d.node i).defLoc = none → (d.node i).defOrder = none

/-- Nodes keep their places, and no body has been opened. -/
structure SamePlaces (d d' : Design) : Prop where
  next : d'.nextDefOrder = d.nextDefOrder
  place : ∀ i, (d'.node i).defOrder = (d.node i).defOrder
  loc : ∀ i, (d'.node i).defLoc = (d.node i).defLoc

namespace SamePlaces

theorem of_nodes (hnodes : d'.nodes = d.nodes) (hnext : d'.nextDefOrder = d.nextDefOrder) : SamePlaces d d' := by
  have hnode : ∀ i, d'.node i = d.node i := fun i => by rw [node, node, hnodes]
  exact ⟨hnext, fun i => congrArg Node.defOrder (hnode i), fun i => congrArg Node.defLoc (hnode i)⟩

theorem trans {d₁ d₂ d₃ : Design} (h : SamePlaces d₁ d₂) (h' : SamePlaces d₂ d₃) : SamePlaces d₁ d₃ :=
  ⟨h'.next.trans h.next, fun i => (h'.place i).trans (h.place i), fun i => (h'.loc i).trans (h.loc i)⟩

end SamePlaces

theorem Ranked.same (hd : d.Ranked) (h : SamePlaces d d') : d'.Ranked := by
  obtain ⟨hnext, hplace, hloc⟩ := h
  refine ⟨fun i k hi => ?_, fun k hk => ?_, fun i j k hi hj => ?_, fun i hi => ?_⟩
  · rw [hnext]
    exact hd.below i k (hplace i ▸ hi)
  · obtain ⟨i, hi⟩ := hd.taken k (hnext ▸ hk)
    exact ⟨i, (hplace i).trans hi⟩
  · exact hd.distinct i j k (hplace i ▸ hi) (hplace j ▸ hj)
  · rw [hplace]
    exact hd.opened i (hloc i ▸ hi)

theorem modifyNode_samePlaces (d : Design) (id : NodeId) {f : Node → Node} (hplace : ∀ n, (f n).defOrder = n.defOrder)
    (hloc : ∀ n, (f n).defLoc = n.defLoc) : SamePlaces d (d.modifyNode id f) := by
  refine ⟨rfl, fun i => ?_, fun i => ?_⟩ <;> rw [node_modifyNode] <;> split
  · exact hplace _
  · rfl
  · exact hloc _
  · rfl

theorem node_of_size_le {i : NodeId} (h : d.nodes.size ≤ i) : d.node i = .absent := by
  rw [node, Arena.get?, Array.getElem?_eq_none h, Option.getD_none]

/-- Nodes keep their calls, too. -/
structure SameBodies (d d' : Design) : Prop extends SamePlaces d d' where
  calls : ∀ i, (d'.node i).calls = (d.node i).calls

theorem SameBodies.of_nodes (hnodes : d'.nodes = d.nodes) (hnext : d'.nextDefOrder = d.nextDefOrder) :
    SameBodies d d' :=
  ⟨.of_nodes hnodes hnext, fun i => by rw [node, node, hnodes]⟩

theorem SameBodies.trans {d₁ d₂ d₃ : Design} (h : SameBodies d₁ d₂) (h' : SameBodies d₂ d₃) : SameBodies d₁ d₃ :=
  ⟨h.toSamePlaces.trans h'.toSamePlaces, fun i => (h'.calls i).trans (h.calls i)⟩

theorem modifyNode_sameBodies (d : Design) (id : NodeId) {f : Node → Node} (hplace : ∀ n, (f n).defOrder = n.defOrder)
    (hloc : ∀ n, (f n).defLoc = n.defLoc) (hcalls : ∀ n, (f n).calls = n.calls) : SameBodies d (d.modifyNode id f) := by
  refine ⟨modifyNode_samePlaces d id hplace hloc, fun i => ?_⟩
  rw [node_modifyNode]
  split
  · exact hcalls _
  · rfl

/-- A new node has no body. -/
theorem addNode_sameBodies (d : Design) (name : String) (loc : Location) (kind : NodeKind) :
    SameBodies d (d.addNode name loc kind).2 := by
  have hnode : ∀ i, (d.addNode name loc kind).2.node i = d.node i ∨
      d.node i = .absent ∧ (d.addNode name loc kind).2.node i = { id := i, name, loc, kind } := by
    intro i
    by_cases hi : i = d.nodes.size
    · refine .inr ⟨node_of_size_le (Nat.le_of_eq hi.symm), ?_⟩
      rw [node, get?_addNode, if_pos hi, Option.getD_some]
    · refine .inl ?_
      rw [node, get?_addNode, if_neg hi, node]
  have hpart : ∀ {β : Type} (part : Node → β), (∀ i, part { id := i, name, loc, kind } = part .absent) →
      ∀ i, part ((d.addNode name loc kind).2.node i) = part (d.node i) := by
    intro β part hnew i
    rcases hnode i with he | ⟨habsent, he⟩
    · rw [he]
    · rw [he, habsent, hnew]
  exact ⟨⟨rfl, hpart (·.defOrder) fun _ => rfl, hpart (·.defLoc) fun _ => rfl⟩, hpart (·.calls) fun _ => rfl⟩

theorem declareTransaction_sameBodies (d : Design) (name : String) (loc : Location) :
    SameBodies d (d.declareTransaction name loc).2 := by
  have hinfo : SameBodies d (newTransactionInfo (d.newName (nameOr name "transaction")).2
      (d.newName (nameOr name "transaction")).1).2 := .of_nodes rfl rfl
  exact hinfo.trans (addNode_sameBodies ..)

theorem addMethod_sameBodies (d : Design) (decl : MethodDecl) (loc : Location) :
    SameBodies d (d.addMethod decl loc).2 := by
  have hbus : ∀ (d : Design) (name : String) (l : Layout), SameBodies d (d.newBus name l).2 := fun d name l => by
    unfold newBus
    split <;> exact .of_nodes rfl rfl
  have hwire : ∀ (d : Design) (name : String), SameBodies d (d.newWire name 1).2 := fun d name => .of_nodes rfl rfl
  have hname : SameBodies d (d.newName (nameOr decl.name "method")).2 := .of_nodes rfl rfl
  exact (((((hname.trans (hbus ..)).trans (hbus ..)).trans (hwire ..)).trans (hwire ..))).trans (addNode_sameBodies ..)

/-- The body of a node that has none yet gets the next place. -/
theorem Ranked.openBody {r : Recording} (h : r.design.Ranked) {id : NodeId} (hid : id < r.design.nodes.size)
    (hnew : (r.design.node id).defLoc = none) (loc : Location) : (r.opened id loc).Ranked := by
  have hnode : ∀ i, (r.opened id loc).node i =
      if i = id then Draft.openedNode r loc (r.design.node i) else r.design.node i := by
    intro i
    unfold Recording.opened
    rw [node_modifyNode]
    by_cases hi : i = id
    · rw [if_pos hi, if_pos ⟨hi, hi ▸ hid⟩]
      rfl
    · rw [if_neg hi, if_neg fun h => hi h.1]
      rfl
  have hplace : ∀ {i k}, ((r.opened id loc).node i).defOrder = some k ↔
      i = id ∧ k = r.design.nextDefOrder ∨ i ≠ id ∧ (r.design.node i).defOrder = some k := by
    intro i k
    rw [hnode]
    split
    · simp [*, Draft.openedNode, eq_comm]
    · simp [*]
  have hnext : (r.opened id loc).nextDefOrder = r.design.nextDefOrder + 1 := rfl
  refine ⟨fun i k hi => ?_, fun k hk => ?_, fun i j k hi hj => ?_, fun i hi => ?_⟩
  · rcases hplace.1 hi with ⟨-, rfl⟩ | ⟨-, hi⟩
    · exact Nat.lt_succ_self _
    · exact Nat.lt_succ_of_lt (h.below i k hi)
  · rcases Nat.lt_succ_iff_lt_or_eq.1 hk with hlt | rfl
    · obtain ⟨i, hi⟩ := h.taken k hlt
      -- The node had no place that it could lose.
      have hne : i ≠ id := fun he => Option.some_ne_none k (hi.symm.trans (he ▸ h.opened id hnew))
      exact ⟨i, hplace.2 (.inr ⟨hne, hi⟩)⟩
    · exact ⟨id, hplace.2 (.inl ⟨rfl, rfl⟩)⟩
  · rcases hplace.1 hi with ⟨rfl, rfl⟩ | ⟨-, hi'⟩ <;> rcases hplace.1 hj with ⟨rfl, hk⟩ | ⟨-, hj'⟩
    · rfl
    · exact absurd (h.below j _ hj') (Nat.lt_irrefl _)
    · exact absurd (h.below i _ (hk ▸ hi')) (Nat.lt_irrefl _)
    · exact h.distinct i j k hi' hj'
  · rw [hnode] at hi ⊢
    split at hi
    · cases hi
    · rw [if_neg ‹_›]
      exact h.opened i hi

theorem lt_of_place {i k : Nat} (h : (d.node i).defOrder = some k) : i < d.nodes.size := by
  by_contra hge
  rw [node_of_size_le (Nat.not_lt.1 hge)] at h
  cases h

/-- There are no more places than nodes. -/
theorem Ranked.next_le (h : d.Ranked) : d.nextDefOrder ≤ d.nodes.size := by
  have hsurj : Set.SurjOn (fun i => (d.node i).defOrder.getD 0) (Finset.range d.nodes.size : Set Nat)
      (Finset.range d.nextDefOrder : Set Nat) := by
    intro k hk
    obtain ⟨i, hi⟩ := h.taken k (Finset.mem_range.1 hk)
    exact ⟨i, Finset.mem_coe.2 (Finset.mem_range.2 (lt_of_place hi)), by simp only [hi, Option.getD_some]⟩
  simpa using Finset.card_le_card_of_surjOn _ hsurj

end Design

namespace Draft

open Design

theorem effect_ranked {d d' : Draft} (h : d.design.Ranked) {i : Nat} {r : Recording} (hr : r.design = d.design)
    {op : Operation} (he : Effect d i r op d') : d'.design.Ranked := by
  rw [← hr] at h
  cases he with
  | submodule scope => exact h.same (.of_nodes rfl rfl)
  | signal name width kind init hw => exact h.same (.of_nodes rfl rfl)
  | assign s guard value domain hs hkind => exact h.same (.of_nodes rfl rfl)
  | «when» wanted hw => exact h.same (.of_nodes rfl rfl)
  | branches => exact h.same (.of_nodes rfl rfl)
  | branch j b arms cond hj hw => exact h.same (.of_nodes rfl rfl)
  | leave => exact h.same (.of_nodes rfl rfl)
  | machine name m hw hstates hstate hchain hpath => exact h.same (.of_nodes rfl rfl)
  | state j path m arms index hj hpath hi => exact h.same (.of_nodes rfl rfl)
  | next c m guard value hc hm => exact h.same (.of_nodes rfl rfl)
  | openTransaction t loc info wanted ht hnew hinfo =>
    exact (h.openBody ht hnew loc).same (.of_nodes rfl rfl)
  | openMethod m loc old validator wanted activator hnew hinfo =>
    have hm : (r.design.node m).method? = some old := by rw [Node.method?, hinfo]
    have hopened := h.openBody (lt_of_method hm) hnew loc
    refine (hopened.same (modifyNode_samePlaces _ m (f := fun n => { n with kind := .method { old with validator } })
      (fun _ => rfl) fun _ => rfl)).same (.of_nodes rfl rfl)
  | leaveBody => exact h.same (.of_nodes rfl rfl)
  | closeMethod m info bus value hm hbus => exact h.same (.of_nodes rfl rfl)
  | stay => exact h.same (.of_nodes rfl rfl)
  | call m frame site enabled hbody hpath henable hw hapart hcallee =>
    exact h.same (modifyNode_samePlaces _ frame.node (fun _ => rfl) fun _ => rfl)

theorem step_ranked {d d' : Draft} {action : Action} (h : d.design.Ranked) (hd : d.step action = some d') :
    d'.design.Ranked := by
  cases action with
  | transaction name loc =>
    simp only [step, Option.some.injEq] at hd
    subst hd
    exact h.same (declareTransaction_sameBodies d.design name loc).toSamePlaces
  | method decl loc =>
    simp only [step, Option.bind_eq_bind, Option.bind_eq_some_iff, Option.pure_def, Option.some.injEq,
      Attempt.result?_eq_some] at hd
    obtain ⟨⟨m, design⟩, hm, rfl⟩ := hd
    have ha := h.same (addMethod_sameBodies d.design decl loc).toSamePlaces
    rwa [← declareMethod_ok hm] at ha
  | conflict a b priority loc =>
    simp only [step, Option.ite_none_right_eq_some, Option.some.injEq] at hd
    obtain ⟨-, rfl⟩ := hd
    exact h.same (.of_nodes rfl rfl)
  | before a b silenced loc =>
    simp only [step, Option.ite_none_right_eq_some, Option.some.injEq] at hd
    obtain ⟨-, rfl⟩ := hd
    exact h.same (.of_nodes rfl rfl)
  | simultaneous a others =>
    simp only [step, Option.ite_none_right_eq_some, Option.some.injEq] at hd
    obtain ⟨-, rfl⟩ := hd
    exact h.same (modifyNode_samePlaces d.design a (fun _ => rfl) fun _ => rfl)
  | alternatives a others =>
    simp only [step, Option.ite_none_right_eq_some, Option.some.injEq] at hd
    obtain ⟨-, rfl⟩ := hd
    have h₁ : (d.design.simultaneous a others).Ranked :=
      h.same (modifyNode_samePlaces d.design a (fun _ => rfl) fun _ => rfl)
    unfold Design.simultaneousAlternatives
    rcases others with _ | ⟨first, rest⟩
    · exact h₁
    · exact h₁.same (modifyNode_samePlaces _ first (fun _ => rfl) fun _ => rfl)
  | openModule scope =>
    simp only [step, Option.some.injEq] at hd
    subst hd
    exact h.same (.of_nodes rfl rfl)
  | inModule i op =>
    simp only [step, Option.bind_eq_bind, Option.bind_eq_some_iff] at hd
    obtain ⟨r, hr, hop⟩ := hd
    have hrd := place?_design hr
    exact effect_ranked h hrd (operate_effect hrd hop)

/-- The bodies of every recorded draft have their places. -/
theorem Recorded.ranked {d : Draft} (h : d.Recorded) : d.design.Ranked := by
  refine h.induct (P := fun d => d.design.Ranked) (fun config => ?_) fun d d' action hd hstep => step_ranked hd hstep
  exact ⟨fun _ _ hi => (nomatch hi), fun k hk => absurd hk (Nat.not_lt_zero k), fun _ _ _ hi => (nomatch hi),
    fun _ _ => rfl⟩

end Draft

/-! ### After fusion -/

namespace Fusion

open Design

variable {d d' : Design}

/-- Places of the second design are places of the first. -/
def PlacesFrom (d d' : Design) : Prop :=
  ∀ i k, (d'.node i).defOrder = some k → ∃ j, (d.node j).defOrder = some k

theorem PlacesFrom.trans {d₁ d₂ d₃ : Design} (h : PlacesFrom d₁ d₂) (h' : PlacesFrom d₂ d₃) : PlacesFrom d₁ d₃ :=
  fun i k hi => by
    obtain ⟨j, hj⟩ := h' i k hi
    exact h j k hj

theorem PlacesFrom.of_same (h : SamePlaces d d') : PlacesFrom d d' := fun i _ hi => ⟨i, h.place i ▸ hi⟩

theorem withGroup_samePlaces (d : Design) (members : Group) : SamePlaces d (withGroup d members) :=
  have hinfo : SamePlaces d (newTransactionInfo (d.newName ("_".intercalate (members.map d.name))).2
      (d.newName ("_".intercalate (members.map d.name))).1).2.newModule.2 := .of_nodes rfl rfl
  (hinfo.trans (addNode_sameBodies ..).toSamePlaces).trans (.of_nodes rfl rfl)

/-- The transaction of a group gets the place of a member. -/
theorem addGroup_places (d : Design) (members : Group) : PlacesFrom d (addGroup d members).2 := by
  obtain ⟨module, loc, heq⟩ : ∃ module loc, (addGroup d members).2 =
      (withGroup d members).modifyNode d.nodes.size fun n => { n with
        defOrder := (members.filterMap fun m => ((withGroup d members).node m).defOrder).min?
        defLoc := loc
        calls := members.map (memberCall module) } := ⟨_, _, rfl⟩
  have hsame := withGroup_samePlaces d members
  intro i k hi
  rw [heq, node_modifyNode] at hi
  split at hi
  · obtain ⟨m, -, hm⟩ := List.mem_filterMap.1 (List.min?_mem hi)
    exact ⟨m, hsame.place m ▸ hm⟩
  · exact ⟨i, hsame.place i ▸ hi⟩

theorem addGroups_places (groups : List Group) : ∀ d : Design, PlacesFrom d (addGroups d groups).2 := by
  induction groups with
  | nil => exact fun d i k hi => ⟨i, hi⟩
  | cons g gs ih => exact fun d => (addGroup_places d g).trans (ih _)

theorem fuse_places (d : Design) (groups : List Group) : PlacesFrom d (fuse d groups).2 := by
  have hmembers : PlacesFrom d ((groups.foldl Group.union []).foldl (fun d m => d.modifyNode m toMember) d) := by
    refine List.foldlRecOn (motive := PlacesFrom d) _ _ (fun i k hi => ⟨i, hi⟩) fun d' h m _ => h.trans (.of_same ?_)
    refine modifyNode_samePlaces d' m (fun n => ?_) fun n => ?_ <;> rcases toMember_cases n with he | ⟨info, -, he⟩ <;>
      rw [he]
  unfold fuse
  simp only
  rw [driveRunnables_eq]
  exact hmembers.trans (addGroups_places groups _)

end Fusion

namespace Draft.Recorded

variable {d : Draft} {t k : Nat}

/-- The places of a recorded design are below the number of its nodes. -/
theorem place_lt (h : d.Recorded) (hk : (d.design.node t).defOrder = some k) : k < d.design.nodes.size :=
  Nat.lt_of_lt_of_le (h.ranked.below t k hk) h.ranked.next_le

theorem fused_place_lt (h : d.Recorded) {f : Design.Fused} (hf : Attempt.Gives d.design.fused f)
    (hk : (f.design.node t).defOrder = some k) : k < d.design.nodes.size := by
  obtain ⟨map, groups, -, -, -, hdesign, -⟩ := Design.fused_steps hf
  rw [hdesign] at hk
  obtain ⟨j, hj⟩ := Fusion.fuse_places _ _ t k hk
  exact h.place_lt hj

end Draft.Recorded

end Interlock
