import Interlock.Proofs.CallMap
import Interlock.Proofs.Digraph.Components
import Interlock.Proofs.Schedule.Priority

/-! The order that takes, again and again, the first transaction that nothing left is preferred to. It holds every
node exactly where the graph has no cycle, and then it comes first among the orders that put each edge forward;
where it stops early, the cycle that is reported is a component of the graph. -/

namespace Interlock

/-! ### Keys -/

theorem keyLe_iff {a b : Nat × Nat} : keyLe a b = true ↔ a.1 < b.1 ∨ (a.1 = b.1 ∧ a.2 ≤ b.2) := by
  simp [keyLe]

theorem keyLe_refl (a : Nat × Nat) : keyLe a a = true := keyLe_iff.2 (.inr ⟨rfl, Nat.le_refl _⟩)

theorem keyLe_of_not {a b : Nat × Nat} (h : ¬ keyLe a b = true) : keyLe b a = true := by
  rw [keyLe_iff] at h ⊢
  omega

theorem keyLe_trans {a b c : Nat × Nat} (hab : keyLe a b = true) (hbc : keyLe b c = true) : keyLe a c = true := by
  rw [keyLe_iff] at hab hbc ⊢
  omega

theorem leastBy_eq_none {key : NodeId → Nat × Nat} {l : List NodeId} (h : leastBy key l = none) : l = [] := by
  cases l with
  | nil => rfl
  | cons x xs =>
    rw [leastBy] at h
    split at h
    · cases h
    · split at h <;> cases h

theorem leastBy_le {key : NodeId → Nat × Nat} {l : List NodeId} {t : NodeId} (h : leastBy key l = some t) :
    ∀ u ∈ l, keyLe (key t) (key u) = true := by
  induction l generalizing t with
  | nil => exact nomatch h
  | cons x xs ih =>
    rw [leastBy] at h
    intro u hu
    split at h
    · rename_i hnone
      obtain rfl := Option.some.inj h
      rcases List.mem_cons.1 hu with rfl | hu
      · exact keyLe_refl _
      · exact absurd hu (leastBy_eq_none hnone ▸ List.not_mem_nil)
    · rename_i y hy
      split at h
      · rename_i hxy
        obtain rfl := Option.some.inj h
        rcases List.mem_cons.1 hu with rfl | hu
        · exact keyLe_refl _
        · exact keyLe_trans hxy (ih hy u hu)
      · rename_i hxy
        obtain rfl := Option.some.inj h
        rcases List.mem_cons.1 hu with rfl | hu
        · exact keyLe_of_not hxy
        · exact ih hy u hu

/-! ### Places in a list -/

theorem filter_ne_eq_erase {l : List NodeId} (h : l.Nodup) (t : NodeId) : l.filter (t ≠ ·) = l.erase t := by
  rw [h.erase_eq_filter]
  exact List.filter_congr fun y _ => by simp [bne, Bool.beq_eq_decide_eq, eq_comm]

/-- In a list without repetition what stands earlier has the lower place. -/
theorem pairwise_idxOf {l : List NodeId} (h : l.Nodup) : l.Pairwise fun a b => l.idxOf a < l.idxOf b := by
  refine List.pairwise_iff_getElem.2 fun i j hi hj hij => ?_
  rwa [h.idxOf_getElem i hi, h.idxOf_getElem j hj]

theorem idxOf_lt_of_sublist {l : List NodeId} (h : l.Nodup) {a b : NodeId} (hab : [a, b].Sublist l) :
    l.idxOf a < l.idxOf b :=
  List.pairwise_iff_forall_sublist.1 (pairwise_idxOf h) hab

namespace Digraph

variable {β : Type} {g : Digraph β}

/-- The edges of a graph join different nodes of it. -/
structure Simple (g : Digraph β) : Prop where
  nodup : g.nodes.Nodup
  within : g.EdgesWithin
  loopless : ∀ x, ¬ g.Edge x x

/-- Each edge leads forward in the list. -/
def Forward (g : Digraph β) (l : List Nat) : Prop := ∀ t u, g.Edge t u → [t, u].Sublist l

/-- In a list without repetition no edge leads back. -/
theorem Forward.pairwise {l : List Nat} (h : g.Forward l) (hl : l.Nodup) : l.Pairwise fun a b => ¬ g.Edge b a := by
  refine List.pairwise_iff_forall_sublist.2 fun {a b} hab hedge => ?_
  exact Nat.lt_asymm (idxOf_lt_of_sublist hl hab) (idxOf_lt_of_sublist hl (h b a hedge))

/-- A graph whose nodes stand in a list with every edge forward has no cycle. -/
theorem Forward.acyclic {l : List Nat} (h : g.Forward l) (hl : l.Nodup) : g.Acyclic := by
  have hlt : ∀ t u, Relation.TransGen g.Edge t u → l.idxOf t < l.idxOf u := by
    intro t u htu
    induction htu with
    | single h' => exact idxOf_lt_of_sublist hl (h _ _ h')
    | tail _ h' ih => exact Nat.lt_trans ih (idxOf_lt_of_sublist hl (h _ _ h'))
  exact fun t ht => Nat.lt_irrefl _ (hlt t t ht)

/-- A cycle joins two nodes, since no edge leads from a node to itself. -/
theorem Simple.exists_strong (hg : g.Simple) (h : ¬ g.Acyclic) : ∃ a ∈ g.nodes, ∃ b, a ≠ b ∧ g.Strong a b := by
  unfold Acyclic at h
  push Not at h
  obtain ⟨a, ha⟩ := h
  obtain ⟨b, hab, hba⟩ := Relation.TransGen.head'_iff.1 ha
  refine ⟨a, (hg.within a b hab).1, b, ?_, .single hab, hba⟩
  rintro rfl
  exact hg.loopless a hab

end Digraph

namespace Design

variable {d : Design} {map : CallMap} {g : Digraph Location}

/-! ### Taking in order -/

/-- Nothing that is left is preferred to a transaction. -/
theorem mem_free {left : List NodeId} {t : NodeId} :
    t ∈ left.filter (fun t => (g.predecessors t).all (· ∉ left)) ↔ t ∈ left ∧ ∀ p ∈ left, ¬ g.Edge p t := by
  simp only [List.mem_filter, List.all_eq_true, decide_eq_true_eq, Digraph.mem_predecessors]
  exact and_congr_right fun _ => ⟨fun h p hp he => h p he hp, fun h p he hp => h p hp he⟩

/-- Without cycles something can always be taken. -/
theorem takeInOrder_all (hg : g.Acyclic) :
    ∀ (fuel : Nat) (left : List NodeId), left.length ≤ fuel → ∀ t ∈ left, t ∈ d.takeInOrder g fuel left := by
  intro fuel
  induction fuel with
  | zero =>
    intro left hlen t ht
    exact absurd (List.length_pos_of_mem ht) (Nat.not_lt.2 hlen)
  | succ fuel ih =>
    intro left hlen t ht
    rw [takeInOrder]
    split
    · rename_i hnone
      have hnil := leastBy_eq_none hnone
      have hleft : left = [] := hg.eq_nil fun u hu => by
        by_contra hfree
        push Not at hfree
        exact absurd (mem_free.2 ⟨hu, hfree⟩) (hnil ▸ List.not_mem_nil)
      exact absurd ht (hleft ▸ List.not_mem_nil)
    · rename_i u hu
      have hul := (mem_free.1 (leastBy_mem hu)).1
      by_cases htu : u = t
      · exact htu ▸ List.mem_cons_self ..
      · have hshort : (left.filter (u ≠ ·)).length < left.length :=
          List.length_filter_lt_length_iff_exists.2 ⟨u, hul, by simp⟩
        exact List.mem_cons_of_mem _ (ih _ (by omega) t (List.mem_filter.2 ⟨ht, decide_eq_true htu⟩))

/-- Among the orders of what is left in which no edge leads back, the one that is taken comes first: where it first
differs from another, it has the lesser key, since what the other has there could be taken too. -/
theorem takeInOrder_first {R : NodeId → NodeId → Prop}
    (hR : ∀ t u, keyLe (d.sortKey t) (d.sortKey u) = true → t ≠ u → R t u) (hloop : ∀ x, ¬ g.Edge x x) :
    ∀ (fuel : Nat) (left other : List NodeId), left.length ≤ fuel → left.Nodup → other.Perm left →
      (other.Pairwise fun a b => ¬ g.Edge b a) →
      d.takeInOrder g fuel left = other ∨ List.Lex R (d.takeInOrder g fuel left) other := by
  intro fuel
  induction fuel with
  | zero =>
    intro left other hlen _ hperm _
    obtain rfl := List.length_eq_zero_iff.1 (Nat.le_zero.1 hlen)
    exact .inl hperm.eq_nil.symm
  | succ fuel ih =>
    intro left other hlen hnodup hperm hforward
    cases other with
    | nil =>
      obtain rfl := hperm.symm.eq_nil
      exact .inl rfl
    | cons x other =>
      obtain ⟨hfirst, hrest⟩ := List.pairwise_cons.1 hforward
      have hx : x ∈ left.filter (fun t => (g.predecessors t).all (· ∉ left)) := by
        refine mem_free.2 ⟨hperm.subset (List.mem_cons_self ..), fun p hp hedge => ?_⟩
        rcases List.mem_cons.1 (hperm.symm.subset hp) with rfl | hp
        · exact hloop p hedge
        · exact hfirst p hp hedge
      rw [takeInOrder]
      split
      · rename_i hnone
        exact absurd hx (leastBy_eq_none hnone ▸ List.not_mem_nil)
      · rename_i t ht
        by_cases htx : t = x
        · subst htx
          have hperm' : other.Perm (left.filter (t ≠ ·)) := by
            rw [filter_ne_eq_erase hnodup]
            exact (List.cons_perm_iff_perm_erase.1 hperm).2
          have hshort : (left.filter (t ≠ ·)).length < left.length :=
            List.length_filter_lt_length_iff_exists.2 ⟨t, hperm.subset (List.mem_cons_self ..), by simp⟩
          rcases ih _ other (by omega) (hnodup.filter _) hperm' hrest with he | hlex
          · exact .inl (by rw [he])
          · exact .inr (.cons hlex)
        · exact .inr (.rel (hR t x (leastBy_le ht x hx) htx))

theorem priorityOrder_eq {order : List NodeId} (h : d.priorityOrder g = .ok order) :
    order = d.takeInOrder g g.nodes.length g.nodes := by
  unfold priorityOrder at h
  simp only at h
  split at h
  · cases h
  · exact (Except.ok.inj h).symm

/-- The edges lead forward in the order. -/
theorem priorityOrder_forward (hg : g.EdgesWithin) {order : List NodeId} (h : d.priorityOrder g = .ok order) :
    g.Forward order := by
  intro t u hedge
  obtain ⟨ht, hu⟩ := hg t u hedge
  have hmem := (priorityOrder_ok h).2
  rw [priorityOrder_eq h] at hmem ⊢
  exact takeInOrder_edge hedge _ _ ht ((hmem u).2 hu) ((hmem t).2 ht)

/-- The order is found where the graph has no cycle. -/
theorem priorityOrder_ok_iff (hg : g.Simple) : (∃ order, d.priorityOrder g = .ok order) ↔ g.Acyclic := by
  constructor
  · rintro ⟨order, horder⟩
    exact (priorityOrder_forward hg.within horder).acyclic (priorityOrder_ok horder).1
  · intro hacyclic
    have hlen : g.nodes.length ≤ (d.takeInOrder g g.nodes.length g.nodes).length :=
      (List.subperm_of_subset hg.nodup (takeInOrder_all hacyclic _ _ (Nat.le_refl _))).length_le
    exact ⟨_, if_neg (Nat.not_lt.2 hlen)⟩

end Design

end Interlock
