import Interlock.Proofs.Schedule

/-! The order of a schedule: what a relation prefers comes first, and the members of each class stand in it
as they do in the whole order. -/

namespace Interlock

namespace Design

variable {d : Design} {map : CallMap}

/-! ### Preferences -/

theorem edge_addEdges {ps : List (NodeId × NodeId)} {loc : Location} {x y : NodeId} :
    ∀ {g : Digraph Location}, g.Edge x y ∨ (x, y) ∈ ps →
      (ps.foldl (fun g (t, u) => g.addEdge t u loc) g).Edge x y := by
  induction ps with
  | nil =>
    intro g h
    exact h.resolve_right List.not_mem_nil
  | cons p ps ih =>
    intro g h
    refine ih ?_
    rw [Digraph.edge_addEdge]
    rcases h with h | h
    · exact .inl (.inl h)
    · rcases List.mem_cons.1 h with rfl | h
      · exact .inl (.inr ⟨rfl, rfl⟩)
      · exact .inr h

/-- A relation that prefers a node puts an edge from the transactions that it stands for to those of the
other node. -/
theorem edge_addPreference {g : Digraph Location} {r : Relation} {a b t u : NodeId} (hr : preference r = some (a, b))
    (ht : t ∈ map.standsFor d a) (hu : u ∈ map.standsFor d b) (hne : t ≠ u) :
    (d.addPreference map g r).Edge t u := by
  have hcross : (t, u) ∈ crossPairs (map.standsFor d a) (map.standsFor d b) := by
    simp only [crossPairs, List.mem_flatMap, List.mem_map, List.mem_filter, decide_eq_true_eq]
    exact ⟨t, ht, u, ⟨hu, hne⟩, rfl⟩
  unfold addPreference
  rw [hr]
  exact edge_addEdges (.inr hcross)

theorem addPreference_keeps {g : Digraph Location} {r : Relation} {t u : NodeId} (h : g.Edge t u) :
    (d.addPreference map g r).Edge t u := by
  unfold addPreference
  split
  · exact h
  · exact edge_addEdges (.inl h)

theorem edge_priorities {r : Relation} (hmem : r ∈ d.relations) {a b t u : NodeId} (hr : preference r = some (a, b))
    (ht : t ∈ map.standsFor d a) (hu : u ∈ map.standsFor d b) (hne : t ≠ u) :
    (d.priorities map).Edge t u := by
  have keeps : ∀ (l : List Relation) (g : Digraph Location), g.Edge t u →
      (l.foldl (d.addPreference map) g).Edge t u := by
    intro l
    induction l with
    | nil => exact fun _ h => h
    | cons x xs ih => exact fun g h => ih _ (addPreference_keeps h)
  obtain ⟨pre, post, hsplit⟩ := List.append_of_mem hmem
  rw [priorities, hsplit, List.foldl_append, List.foldl_cons]
  exact keeps post _ (edge_addPreference hr ht hu hne)

/-! ### The order -/

/-- Of two nodes with an edge between them the one that it comes from is taken first. -/
theorem takeInOrder_edge {g : Digraph Location} {t u : NodeId} (hedge : g.Edge t u) :
    ∀ (fuel : Nat) (left : List NodeId), t ∈ left → u ∈ d.takeInOrder g fuel left →
      t ∈ d.takeInOrder g fuel left → [t, u].Sublist (d.takeInOrder g fuel left) := by
  intro fuel
  induction fuel with
  | zero => exact fun left _ hu => absurd hu List.not_mem_nil
  | succ fuel ih =>
    intro left htl hu ht
    rw [takeInOrder] at hu ht ⊢
    split at hu
    · exact absurd hu List.not_mem_nil
    · rename_i x hx
      simp only [hx] at ht
      rcases List.mem_cons.1 hu with rfl | hu
      · -- Nothing that is left has an edge to the one taken.
        have hfree := (List.mem_filter.1 (leastBy_mem hx)).2
        rw [List.all_eq_true] at hfree
        exact absurd htl (of_decide_eq_true (hfree t (Digraph.mem_predecessors.2 hedge)))
      · rcases List.mem_cons.1 ht with rfl | ht
        · exact (List.singleton_sublist.2 hu).cons_cons t
        · have hleft := ((takeInOrder_spec (d := d) (g := g) fuel _).2 t ht)
          exact (ih _ hleft hu ht).cons x

end Design

namespace Schedule

/-- The preferred side of a relation comes first in the order, for any two different transactions that its
ends stand for. -/
theorem preferred_first {d : Design} {map : CallMap} {s : Schedule} (hd : d.Sound) (hmap : map.Describes d)
    (h : d.schedule map = .ok s) {r : Relation} (hmem : r ∈ d.relations) {a b t u : NodeId}
    (hr : Design.preference r = some (a, b)) (ht : t ∈ map.standsFor d a) (hu : u ∈ map.standsFor d b)
    (hne : t ≠ u) : [t, u].Sublist s.order := by
  obtain ⟨ha, hb⟩ := Design.preference_bounded hd hmem hr
  simp only [Design.schedule, except_bind_ok, except_pure_ok] at h
  obtain ⟨order, horder, rfl⟩ := h
  have hall : ∀ x ∈ d.transactions, x ∈ (d.priorities map).nodes ∧ x ∈ order := fun x hx =>
    have hx := (Design.mem_priorities hd hmap).2 hx
    ⟨hx, ((Design.priorityOrder_ok horder).2 x).2 hx⟩
  obtain ⟨htg, hto⟩ := hall t (Design.mem_standsFor hd hmap ha ht)
  obtain ⟨-, huo⟩ := hall u (Design.mem_standsFor hd hmap hb hu)
  unfold Design.priorityOrder at horder
  simp only at horder
  split at horder
  · cases horder
  · obtain rfl := Except.ok.inj horder
    exact Design.takeInOrder_edge (Design.edge_priorities hmem hr ht hu hne) _ _ htg huo hto

theorem classOf_filter (pairs : List (NodeId × NodeId)) (order : List NodeId) (t : NodeId) :
    classOf pairs order t = order.filter (· ∈ classOf pairs order t) := by
  refine List.filter_congr fun x hx => ?_
  simp only [classOf, List.mem_filter, decide_eq_true_eq, hx, true_and]

theorem split_classOf {pairs : List (NodeId × NodeId)} {order : List NodeId} :
    ∀ (fuel : Nat) (left : List NodeId), ∀ members ∈ split pairs order fuel left,
      ∃ t ∈ left, members = classOf pairs order t := by
  intro fuel
  induction fuel with
  | zero => exact fun left members hm => absurd hm List.not_mem_nil
  | succ fuel ih =>
    intro left members hm
    rcases left with _ | ⟨t, left⟩
    · exact absurd hm List.not_mem_nil
    · rcases List.mem_cons.1 hm with rfl | hm
      · exact ⟨t, List.mem_cons_self .., rfl⟩
      · obtain ⟨u, hu, hclass⟩ := ih _ members hm
        exact ⟨u, List.mem_cons_of_mem _ (List.mem_filter.1 hu).1, hclass⟩

theorem split_filter (pairs : List (NodeId × NodeId)) (order : List NodeId) (fuel : Nat) (left : List NodeId) :
    ∀ members ∈ split pairs order fuel left, members = order.filter (· ∈ members) := by
  intro members hm
  obtain ⟨t, -, rfl⟩ := split_classOf fuel left members hm
  exact classOf_filter pairs order t

/-- The members of a class are in the order of priority. -/
theorem members_in_order {d : Design} {map : CallMap} {s : Schedule} (h : d.schedule map = .ok s)
    {members : List NodeId} (hm : members ∈ s.components) : members = s.order.filter (· ∈ members) := by
  simp only [Design.schedule, except_bind_ok, except_pure_ok] at h
  obtain ⟨order, -, rfl⟩ := h
  exact split_filter _ order _ _ members hm

end Schedule

end Interlock
