import Interlock.Proofs.Anonymous.Fusion
import Interlock.Elaboration

/-! Schedules without names. The order of transactions, the conflicts between them and the classes that these form
are the same for designs that are alike; where relations are stated matters for messages only. -/

namespace Interlock

open DesignError

namespace Digraph

variable {β : Type} {g : Digraph β}

/-- The graph without the labels of its edges. -/
def unlabelled (g : Digraph β) : Digraph Unit := ⟨g.nodes, g.edges.map fun e => (e.1, e.2.1, ())⟩

theorem unlabelled_addNode (g : Digraph β) (n : Nat) : (g.addNode n).unlabelled = g.unlabelled.addNode n := by
  unfold addNode
  by_cases hn : n ∈ g.nodes
  · rw [if_pos hn, if_pos (show n ∈ g.unlabelled.nodes from hn)]
  · rw [if_neg hn, if_neg (show n ∉ g.unlabelled.nodes from hn)]
    rfl

theorem hasEdge_unlabelled (g : Digraph β) (a b : Nat) : g.unlabelled.hasEdge a b = g.hasEdge a b := by
  rw [hasEdge, hasEdge, unlabelled, List.any_map]
  rfl

theorem unlabelled_addEdge (g : Digraph β) (a b : Nat) (label : β) :
    (g.addEdge a b label).unlabelled = g.unlabelled.addEdge a b () := by
  unfold addEdge
  rw [← unlabelled_addNode, ← unlabelled_addNode]
  generalize (g.addNode a).addNode b = g
  simp only [hasEdge_unlabelled]
  split
  · simp only [unlabelled, List.map_map]
    congr 1
    refine List.map_congr_left fun e _ => ?_
    simp only [Function.comp_apply]
    split <;> rfl
  · simp only [unlabelled, List.map_append, List.map_cons, List.map_nil]

theorem predecessors_unlabelled (g : Digraph β) : g.unlabelled.predecessors = g.predecessors := by
  funext n
  rw [predecessors, predecessors, unlabelled, List.filterMap_map]
  rfl

end Digraph

namespace Design

variable {d d' : Design} {map : CallMap}

/-! ### The order of transactions -/

theorem contradicted_anonymous (d : Design) (r : Relation) : d.anonymous.contradicted r.anonymous = d.contradicted r := by
  have horder : ∀ i, (d.anonymous.node i).defOrder = (d.node i).defOrder := fun i => by
    rw [node_anonymous]
    rfl
  unfold contradicted
  rw [horder, horder]
  rfl

/-- The orderings that the definitions contradict, each beside the one that it is like. -/
theorem contradictions_alike (h : d.Alike d') : List.Forall₂ (fun r r' => r.anonymous = r'.anonymous)
    (d.relations.filter d.contradicted) (d'.relations.filter d'.contradicted) := by
  have hfilter : ∀ d : Design, (d.relations.filter d.contradicted).map Relation.anonymous =
      d.anonymous.relations.filter d.anonymous.contradicted := fun d => by
    rw [anonymous, List.filter_map]
    refine congrArg (List.map Relation.anonymous) (List.filter_congr fun r _ => ?_)
    exact (contradicted_anonymous d r).symm
  refine forall₂_of_map ?_
  rw [hfilter, hfilter, h]

theorem checkOrder_agrees (h : d.Alike d') : Agree SameKind (fun _ _ => True) d.checkOrder d'.checkOrder := by
  have hbad := contradictions_alike h
  unfold checkOrder
  rw [h.same (f := fun d => d.config.scheduleOrder) fun _ => rfl]
  simp only
  split
  · exact .ok trivial
  · exact .ok trivial
  · generalize d.relations.filter d.contradicted = bad at hbad
    generalize d'.relations.filter d'.contradicted = bad' at hbad
    cases hbad with
    | nil => exact .ok trivial
    | cons _ _ => exact .error rfl

theorem unlabelled_addPreference (d : Design) (map : CallMap) (r : Relation) {g g' : Digraph Location}
    (hg : g.unlabelled = g'.unlabelled) :
    (d.anonymous.addPreference map g r.anonymous).unlabelled = (d.addPreference map g' r).unlabelled := by
  have hpreference : preference r.anonymous = preference r := rfl
  unfold addPreference
  rw [hpreference, CallMap.standsFor_anonymous]
  split
  · exact hg
  · refine List.foldl_rel (r := fun (g g' : Digraph Location) => g.unlabelled = g'.unlabelled) hg fun p _ g g' hg => ?_
    rw [Digraph.unlabelled_addEdge, Digraph.unlabelled_addEdge, hg]

theorem unlabelled_priorities (d : Design) (map : CallMap) :
    (d.anonymous.priorities map).unlabelled = (d.priorities map).unlabelled := by
  unfold priorities
  rw [transactions_anonymous, anonymous, List.foldl_map]
  exact List.foldl_rel (r := fun (g g' : Digraph Location) => g.unlabelled = g'.unlabelled) rfl fun r _ _ _ =>
    unlabelled_addPreference d map r

theorem takeInOrder_same (h : d.Alike d') {g g' : Digraph Location} (hg : g.unlabelled = g'.unlabelled) (fuel : Nat)
    (left : List NodeId) : d.takeInOrder g fuel left = d'.takeInOrder g' fuel left := by
  have hkey : d.sortKey = d'.sortKey := funext fun t => by
    rw [sortKey, sortKey, Node.same (h.node t) (f := Node.defOrder) fun _ => rfl]
  have hbefore : g.predecessors = g'.predecessors := by
    rw [← Digraph.predecessors_unlabelled, hg, Digraph.predecessors_unlabelled]
  induction fuel generalizing left with
  | zero => rfl
  | succ fuel ih =>
    simp only [takeInOrder, hkey, hbefore, ih]

theorem priorityOrder_agrees (h : d.Alike d') {g g' : Digraph Location} (hg : g.unlabelled = g'.unlabelled) :
    Agree SameKind Eq (d.priorityOrder g) (d'.priorityOrder g') := by
  have hnodes : g.unlabelled.nodes = g'.unlabelled.nodes := by rw [hg]
  unfold priorityOrder
  rw [show g.nodes = g'.nodes from hnodes, takeInOrder_same h hg]
  simp only
  split
  · exact .error rfl
  · exact .ok rfl

/-! ### Conflicts -/

theorem conflicting_anonymous (d : Design) (map : CallMap) : d.anonymous.conflicting map = d.conflicting map := by
  have hexclusive : ∀ i, (d.anonymous.node i).isNonexclusive = (d.node i).isNonexclusive := fun i => by
    rw [node_anonymous]
    rfl
  have hpath : ∀ i, (d.anonymous.node i).path = (d.node i).path := fun i => by
    rw [node_anonymous]
    rfl
  have hrelated : d.anonymous.relatedByConflict map = d.relatedByConflict map := by
    funext t u
    rw [relatedByConflict, relatedByConflict, CallMap.standsFor_anonymous, anonymous, List.any_map]
    rfl
  funext t u
  simp only [conflicting, sharesMethod, mergesNonexclusive, staticallyExclusive, pathsOf, hexclusive, hpath, hrelated]

theorem schedule_agrees (h : d.Alike d') (map : CallMap) :
    Agree SameKind Eq (d.schedule map) (d'.schedule map) := by
  have hgraph : (d.priorities map).unlabelled = (d'.priorities map).unlabelled :=
    h.same (f := fun d => (d.priorities map).unlabelled) fun d => unlabelled_priorities d map
  unfold schedule
  refine (priorityOrder_agrees h hgraph).bind fun order _ horder => ?_
  subst horder
  refine .ok ?_
  unfold Schedule.ofOrder
  rw [h.same (f := fun d => d.conflicting map) fun d => conflicting_anonymous d map]

end Design

end Interlock
