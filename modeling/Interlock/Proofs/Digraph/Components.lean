import Interlock.Proofs.Digraph.Outcome
import Mathlib.Data.Finset.Max
import Mathlib.Data.Finset.Range
import Mathlib.Data.Fintype.Card
import Mathlib.Data.Fintype.EquivFin
import Mathlib.Logic.Relation

/-! Strongly connected components. The component of a node holds the nodes that it reaches and that reach it, each
of them once; and the list of components has one for every node, since the member that the walk leaves last is
found among the nodes it has left.

Graphs without cycles are those with a topological order: what would stop the sort is on a cycle, and along an
order no path comes back. -/

namespace Interlock

/-- Where a relation that holds of finitely many numbers has no cycles, its chains end. -/
theorem acc_of_acyclic {r : Nat → Nat → Prop} {n : Nat} (hbound : ∀ a b, r a b → a < n)
    (h : ∀ a, ¬ Relation.TransGen r a a) (a : Nat) : Acc (fun b a => r a b) a := by
  let below : Fin n → Fin n → Prop := fun b a => Relation.TransGen r a b
  have : IsTrans (Fin n) below := ⟨fun _ _ _ hab hbc => Relation.TransGen.trans hbc hab⟩
  have : Std.Irrefl below := ⟨fun a => h a⟩
  have hwf : WellFounded below := Finite.wellFounded_of_trans_of_irrefl below
  have hacc : ∀ a : Fin n, Acc (fun b a => r a b) (a : Nat) := fun a => by
    induction a using hwf.induction with
    | _ a ih =>
      refine Acc.intro _ fun b hb => ?_
      by_cases hlt : b < n
      · exact ih ⟨b, hlt⟩ (.single hb)
      · exact Acc.intro _ fun c hc => absurd (hbound b c hc) hlt
  by_cases hlt : a < n
  · exact hacc ⟨a, hlt⟩
  · exact Acc.intro _ fun b hb => absurd (hbound a b hb) hlt

namespace Digraph

variable {β : Type} {g : Digraph β}

/-- No path along edges comes back to where it starts. -/
def Acyclic (g : Digraph β) : Prop := ∀ x, ¬ Relation.TransGen g.Edge x x

/-- A graph without cycles has no set of nodes each of which has a predecessor in the set. -/
theorem Acyclic.eq_nil (hg : g.Acyclic) {l : List Nat} (hl : ∀ t ∈ l, ∃ p ∈ l, g.Edge p t) : l = [] := by
  let before : Nat → Nat → Prop := fun t p => t ∈ l ∧ g.Edge p t
  obtain ⟨n, hn⟩ := l.toFinset.exists_nat_subset_range
  have hbound : ∀ t p, before t p → t < n := fun t p h => Finset.mem_range.1 (hn (List.mem_toFinset.2 h.1))
  have hback : ∀ t p, Relation.TransGen before t p → Relation.TransGen g.Edge p t := by
    intro t p h
    induction h with
    | single h => exact .single h.2
    | tail _ h ih => exact .head h.2 ih
  refine List.eq_nil_iff_forall_not_mem.2 fun t ht => ?_
  induction acc_of_acyclic hbound (fun t h => hg t (hback t t h)) t with
  | intro t _ ih =>
    obtain ⟨p, hp, hedge⟩ := hl t ht
    exact ih p ⟨ht, hedge⟩ hp

/-- Where every node comes after its predecessors, no path comes back. -/
theorem Sorted.acyclic {order : List Nat} (hs : g.Sorted order) (hedges : ∀ a b, g.Edge a b → b ∈ g.nodes) :
    g.Acyclic := by
  have hstep : ∀ a b, g.Edge a b → order.idxOf a < order.idxOf b := by
    intro a b hab
    obtain ⟨pre, post, rfl, hb⟩ := List.eq_append_cons_of_mem (hs.covers b (hedges a b hab))
    have ha := hs.forward pre b post rfl a hab
    rw [List.idxOf_append_of_mem ha, List.idxOf_append_of_notMem hb]
    exact Nat.lt_of_lt_of_le (List.idxOf_lt_length_of_mem ha) (Nat.le_add_right ..)
  have hpath : ∀ a b, Relation.TransGen g.Edge a b → order.idxOf a < order.idxOf b := by
    intro a b h
    induction h with
    | single h => exact hstep a _ h
    | tail _ h ih => exact Nat.lt_trans ih (hstep _ _ h)
  exact fun x hx => Nat.lt_irrefl _ (hpath x x hx)

/-- A graph without cycles has a topological order. -/
theorem topologicalOrder_acyclic (hg : g.Acyclic) (hedges : ∀ a b, g.Edge a b → a ∈ g.nodes ∧ b ∈ g.nodes) :
    ∃ order, g.topologicalOrder = .ok order := by
  rcases topologicalOrder_outcome hedges with ⟨order, horder, -⟩ | ⟨x, -, -, hx⟩
  · exact ⟨order, horder⟩
  · exact absurd hx (hg x)

end Digraph

/-! ### Components -/

namespace Walk

variable {next : Nat → List Nat}

theorem enter_nodup : ∀ (fuel : Nat) (w : Walk) (n : Nat), w.seen.Nodup → (enter next fuel w n).seen.Nodup := by
  intro fuel
  induction fuel with
  | zero => exact fun w n hw => hw
  | succ fuel ih =>
    intro w n hw
    rw [enter]
    split
    · exact hw
    · rename_i hn
      exact List.foldlRecOn (motive := fun (w : Walk) => w.seen.Nodup) _ _ (List.nodup_cons.2 ⟨hn, hw⟩)
        fun w hw x _ => ih w x hw

/-- A stretch of a walk after which every node that it met has been left. -/
structure Leaves (w w' : Walk) : Prop where
  seen : ∀ x ∈ w.seen, x ∈ w'.seen
  left : ∀ x ∈ w.left, x ∈ w'.left
  done : ∀ x ∈ w'.seen, x ∈ w.seen ∨ x ∈ w'.left
  met : ∀ x ∈ w'.left, x ∈ w.left ∨ x ∈ w'.seen

theorem Leaves.refl (w : Walk) : Leaves w w := ⟨fun _ h => h, fun _ h => h, fun _ h => .inl h, fun _ h => .inl h⟩

theorem Leaves.trans {w₁ w₂ w₃ : Walk} (h : Leaves w₁ w₂) (h' : Leaves w₂ w₃) : Leaves w₁ w₃ := by
  refine ⟨fun x hx => h'.seen x (h.seen x hx), fun x hx => h'.left x (h.left x hx), fun x hx => ?_, fun x hx => ?_⟩
  · rcases h'.done x hx with hx | hx
    · exact (h.done x hx).imp_right (h'.left x)
    · exact .inr hx
  · rcases h'.met x hx with hx | hx
    · exact (h.met x hx).imp_right (h'.seen x)
    · exact .inr hx

theorem enter_leaves : ∀ (fuel : Nat) (w : Walk) (n : Nat), Leaves w (enter next fuel w n) := by
  intro fuel
  induction fuel with
  | zero => exact fun w _ => .refl w
  | succ fuel ih =>
    intro w n
    rw [enter]
    split
    · exact .refl w
    · have hall : Leaves { w with seen := n :: w.seen }
          ((next n).foldl (enter next fuel) { w with seen := n :: w.seen }) :=
        List.foldlRecOn _ _ (.refl _) fun w' hw' x _ => hw'.trans (ih w' x)
      have hself := hall.seen n (List.mem_cons_self ..)
      refine ⟨fun x hx => hall.seen x (List.mem_cons_of_mem _ hx),
        fun x hx => List.mem_cons_of_mem _ (hall.left x hx), fun x hx => ?_, fun x hx => ?_⟩
      · rcases hall.done x hx with hx | hx
        · rcases List.mem_cons.1 hx with rfl | hx
          · exact .inr (List.mem_cons_self ..)
          · exact .inl hx
        · exact .inr (List.mem_cons_of_mem _ hx)
      · rcases List.mem_cons.1 hx with rfl | hx
        · exact .inr hself
        · exact hall.met x hx

/-- What a whole walk meets is what can be reached from its start. -/
theorem mem_enter_iff {all : List Nat} (hall : ∀ x, ∀ y ∈ next x, y ∈ all) {n : Nat} (hn : n ∈ all) {m : Nat} :
    m ∈ (enter next all.length {} n).seen ↔ Relation.ReflTransGen (fun x y => y ∈ next x) n m := by
  constructor
  · exact fun hm => enter_within (S := Relation.ReflTransGen (fun x y => y ∈ next x) n) (fun x hx y hy => hx.tail hy)
      all.length {} n .refl (fun x hx => absurd hx List.not_mem_nil) m hm
  · obtain ⟨hself, hclosed⟩ := enter_closed hall hn
    intro h
    induction h with
    | refl => exact hself
    | tail _ hy ih => exact hclosed _ ih _ hy

end Walk

namespace Digraph

variable {β : Type} {g : Digraph β} {n m : Nat}

/-- The edges of a graph join its nodes. -/
def EdgesWithin (g : Digraph β) : Prop := ∀ a b, g.Edge a b → a ∈ g.nodes ∧ b ∈ g.nodes

/-- Two nodes reach each other. -/
def Strong (g : Digraph β) (a b : Nat) : Prop := Relation.ReflTransGen g.Edge a b ∧ Relation.ReflTransGen g.Edge b a

theorem Strong.refl (g : Digraph β) (a : Nat) : g.Strong a a := ⟨.refl, .refl⟩

theorem Strong.symm {a b : Nat} (h : g.Strong a b) : g.Strong b a := ⟨h.2, h.1⟩

theorem Strong.trans {a b c : Nat} (h : g.Strong a b) (h' : g.Strong b c) : g.Strong a c :=
  ⟨h.1.trans h'.1, h'.2.trans h.2⟩

theorem Strong.mem (hg : g.EdgesWithin) {a b : Nat} (h : g.Strong a b) (ha : a ∈ g.nodes) : b ∈ g.nodes := by
  rcases h.1.cases_tail with rfl | ⟨c, -, hc⟩
  · exact ha
  · exact (hg c b hc).2

theorem mem_component (hg : g.EdgesWithin) (hn : n ∈ g.nodes) : m ∈ g.component n ↔ g.Strong n m := by
  have hforth : m ∈ g.reachable n ↔ Relation.ReflTransGen g.Edge n m := by
    refine (Walk.mem_enter_iff (fun x y hy => (hg x y (mem_successors.1 hy)).2) hn).trans ?_
    simp only [mem_successors]
  have hback : m ∈ g.reaching n ↔ Relation.ReflTransGen g.Edge m n := by
    refine (Walk.mem_enter_iff (fun x y hy => (hg y x (mem_predecessors.1 hy)).1) hn).trans ?_
    simp only [mem_predecessors]
    exact Relation.reflTransGen_swap
  simp only [component, List.mem_filter, decide_eq_true_eq, hforth, hback, Strong]

theorem nodup_component (n : Nat) : (g.component n).Nodup := (Walk.enter_nodup _ _ _ List.nodup_nil).filter _

/-- A walk from every node leaves every node, and no other. -/
theorem mem_walk_iff (hg : g.EdgesWithin) : n ∈ (g.walk g.successors).left ↔ n ∈ g.nodes := by
  have hnext : ∀ x, ∀ y ∈ g.successors x, y ∈ g.nodes := fun x y hy => (hg x y (mem_successors.1 hy)).2
  have hleaves : Walk.Leaves {} (g.walk g.successors) :=
    List.foldlRecOn _ _ (.refl _) fun w hw x _ => hw.trans (Walk.enter_leaves _ w x)
  have hwithin : ∀ x ∈ (g.walk g.successors).seen, x ∈ g.nodes :=
    List.foldlRecOn (motive := fun (w : Walk) => ∀ x ∈ w.seen, x ∈ g.nodes) _ _
      (fun x hx => absurd hx List.not_mem_nil) fun w hw y hy => Walk.enter_within (fun x _ => hnext x) _ w y hy hw
  have hseen : ∀ (l : List Nat) (w : Walk), (∀ x ∈ l, x ∈ g.nodes) →
      ∀ x, x ∈ w.seen ∨ x ∈ l → x ∈ (l.foldl (Walk.enter g.successors g.nodes.length) w).seen := by
    intro l
    induction l with
    | nil => exact fun w _ x hx => hx.resolve_right List.not_mem_nil
    | cons y ys ih =>
      intro w hl x hx
      obtain ⟨hext, hy⟩ := Walk.enter_extends hnext g.nodes.length w y (hl y (List.mem_cons_self ..))
        (List.length_filter_le ..)
      refine ih _ (fun z hz => hl z (List.mem_cons_of_mem _ hz)) x ?_
      rcases hx with hx | hx
      · exact .inl (hext.seen x hx)
      · rcases List.mem_cons.1 hx with rfl | hx
        · exact .inl hy
        · exact .inr hx
  constructor
  · exact fun hn => hwithin n ((hleaves.met n hn).resolve_left List.not_mem_nil)
  · exact fun hn => (hleaves.done n (hseen g.nodes {} (fun _ hx => hx) n (.inr hn))).resolve_left List.not_mem_nil

/-- A strongly connected component, listed without repetition. -/
structure IsComponent (g : Digraph β) (c : List Nat) : Prop where
  nodup : c.Nodup
  nonempty : c ≠ []
  strong : ∀ x ∈ c, ∀ y, y ∈ c ↔ g.Strong x y

theorem isComponent (hg : g.EdgesWithin) (hn : n ∈ g.nodes) : g.IsComponent (g.component n) := by
  refine ⟨nodup_component n, List.ne_nil_of_mem ((mem_component hg hn).2 (.refl g n)), fun x hx y => ?_⟩
  have hnx := (mem_component hg hn).1 hx
  rw [mem_component hg hn]
  exact ⟨hnx.symm.trans, hnx.trans⟩

theorem components_isComponent (hg : g.EdgesWithin) : ∀ c ∈ g.components, g.IsComponent c := by
  intro c hc
  obtain ⟨n, hn, hmembers⟩ := List.mem_filterMap.1 hc
  simp only [Option.ite_none_right_eq_some, Option.some.injEq] at hmembers
  obtain ⟨-, rfl⟩ := hmembers
  exact isComponent hg ((mem_walk_iff hg).1 (List.mem_reverse.1 hn))

/-- Every node is in one of the components: that of the member that the walk leaves last. -/
theorem exists_component (hg : g.EdgesWithin) (hn : n ∈ g.nodes) : ∃ c ∈ g.components, n ∈ c := by
  have hself := (mem_component hg hn).2 (.refl g n)
  obtain ⟨m, hm, hlast⟩ := (g.component n).toFinset.exists_max_image
    ((g.walk g.successors).left.reverse.idxOf ·) ⟨n, List.mem_toFinset.2 hself⟩
  have hnm := (mem_component hg hn).1 (List.mem_toFinset.1 hm)
  have hmg := hnm.mem hg hn
  refine ⟨g.component m, List.mem_filterMap.2 ⟨m, List.mem_reverse.2 ((mem_walk_iff hg).2 hmg), ?_⟩,
    (mem_component hg hmg).2 hnm.symm⟩
  refine if_pos (List.all_eq_true.2 fun x hx => decide_eq_true (hlast x (List.mem_toFinset.2 ?_)))
  exact (mem_component hg hn).2 (hnm.trans ((mem_component hg hmg).1 hx))

/-- Two nodes that reach each other are in a component of more than one member, and the first such component is
found. -/
theorem find?_component (hg : g.EdgesWithin) {a b : Nat} (ha : a ∈ g.nodes) (hne : a ≠ b) (h : g.Strong a b) :
    ∃ c, g.components.find? (fun c => 1 < c.length) = some c ∧ g.IsComponent c ∧ 1 < c.length := by
  obtain ⟨c, hc, hac⟩ := exists_component hg ha
  have hbc := ((components_isComponent hg c hc).strong a hac b).2 h
  have hlen : 1 < c.length :=
    (List.subperm_of_subset (show [a, b].Nodup by simp [hne]) (by simp [hac, hbc])).length_le
  have hsome : (g.components.find? fun c => 1 < c.length).isSome = true :=
    List.find?_isSome.2 ⟨c, hc, decide_eq_true hlen⟩
  obtain ⟨c, hfind⟩ := Option.isSome_iff_exists.1 hsome
  have hlong := List.find?_some hfind
  rw [decide_eq_true_eq] at hlong
  exact ⟨c, hfind, components_isComponent hg c (List.mem_of_find?_eq_some hfind), hlong⟩

/-- Some edge joins two members of a component that has more than one. -/
theorem IsComponent.exists_edge {c : List Nat} (hc : g.IsComponent c) (hlen : 1 < c.length) :
    ∃ a ∈ c, ∃ b ∈ c, g.Edge a b := by
  obtain ⟨x, y, rest, rfl⟩ : ∃ x y rest, c = x :: y :: rest := by
    match c, hlen with
    | x :: y :: rest, _ => exact ⟨x, y, rest, rfl⟩
  have hne : x ≠ y := fun he => (List.nodup_cons.1 hc.nodup).1 (he ▸ List.mem_cons_self ..)
  have hx := List.mem_cons_self (a := x) (l := y :: rest)
  obtain ⟨hxy, hyx⟩ := (hc.strong x hx y).1 (List.mem_cons_of_mem _ (List.mem_cons_self ..))
  rcases hxy.cases_head with he | ⟨z, hxz, hzy⟩
  · exact absurd he hne
  · exact ⟨x, hx, z, (hc.strong x hx z).2 ⟨.single hxz, hzy.trans hyx⟩, hxz⟩

end Digraph

end Interlock
