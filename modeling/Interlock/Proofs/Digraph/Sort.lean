import Interlock.Digraph.Sort
import Interlock.Proofs.Attempt
import Mathlib.Tactic.Common

/-! The edges of a graph, and what a topological order promises: it holds every node, and each node
comes after those with an edge to it. The second pass of the sort checks the order, so nothing needs to
be known of the walk but which nodes it leaves. -/

namespace Interlock.Digraph

variable {β : Type} {g : Digraph β}

/-- There is an edge from one node to another. -/
def Edge (g : Digraph β) (a b : Nat) : Prop := ∃ label, (a, b, label) ∈ g.edges

theorem edge_iff {a b : Nat} : g.Edge a b ↔ ∃ e ∈ g.edges, e.1 = a ∧ e.2.1 = b := by
  constructor
  · rintro ⟨l, he⟩
    exact ⟨_, he, rfl, rfl⟩
  · rintro ⟨⟨x, y, l⟩, he, rfl, rfl⟩
    exact ⟨l, he⟩

theorem hasEdge_iff {a b : Nat} : g.hasEdge a b = true ↔ g.Edge a b := by
  simp only [hasEdge, edge_iff, List.any_eq_true, Bool.and_eq_true, beq_iff_eq]

theorem mem_successors {a b : Nat} : b ∈ g.successors a ↔ g.Edge a b := by
  simp only [successors, edge_iff, List.mem_filterMap, Option.ite_none_right_eq_some, Option.some.injEq]

theorem mem_predecessors {a b : Nat} : a ∈ g.predecessors b ↔ g.Edge a b := by
  simp only [predecessors, edge_iff, List.mem_filterMap, Option.ite_none_right_eq_some, Option.some.injEq]
  exact exists_congr fun e => and_congr_right fun _ => and_comm

theorem mem_addNode {n x : Nat} : x ∈ (g.addNode n).nodes ↔ x ∈ g.nodes ∨ x = n := by
  unfold addNode
  split
  · rename_i h
    exact ⟨.inl, fun hx => hx.elim id fun hx => hx ▸ h⟩
  · simp

@[simp] theorem edges_addNode (n : Nat) : (g.addNode n).edges = g.edges := by
  unfold addNode
  split <;> rfl

theorem mem_ofNodes {nodes : List Nat} {x : Nat} :
    x ∈ (ofNodes nodes : Digraph β).nodes ↔ x ∈ nodes := by
  have step : ∀ (l : List Nat) (g : Digraph β), x ∈ (l.foldl addNode g).nodes ↔ x ∈ g.nodes ∨ x ∈ l := by
    intro l
    induction l with
    | nil => simp
    | cons y ys ih =>
      intro g
      rw [List.foldl_cons, ih, mem_addNode, List.mem_cons, or_assoc]
  rw [ofNodes, step]
  simp

theorem edges_ofNodes (nodes : List Nat) : (ofNodes nodes : Digraph β).edges = [] := by
  have step : ∀ (l : List Nat) (g : Digraph β), (l.foldl addNode g).edges = g.edges := by
    intro l
    induction l with
    | nil => exact fun _ => rfl
    | cons y ys ih =>
      intro g
      rw [List.foldl_cons, ih, edges_addNode]
  exact step nodes {}

theorem mem_addEdge {a b x : Nat} {label : β} :
    x ∈ (g.addEdge a b label).nodes ↔ x ∈ g.nodes ∨ x = a ∨ x = b := by
  unfold addEdge
  simp only
  split <;> simp only [mem_addNode, or_assoc]

theorem edge_addEdge {a b x y : Nat} {label : β} :
    (g.addEdge a b label).Edge x y ↔ g.Edge x y ∨ (x = a ∧ y = b) := by
  unfold addEdge
  simp only
  split
  · rename_i h
    -- The edge is there already; only its label changes.
    have hab : g.Edge a b := by simpa [Edge] using hasEdge_iff.1 h
    simp only [Edge, List.mem_map, edges_addNode]
    constructor
    · rintro ⟨l, ⟨u, v, l'⟩, he, hl⟩
      split at hl
      · simp only [Prod.mk.injEq] at hl
        exact .inr ⟨hl.1.symm, hl.2.1.symm⟩
      · simp only [Prod.mk.injEq] at hl
        obtain ⟨rfl, rfl, rfl⟩ := hl
        exact .inl ⟨_, he⟩
    · intro h
      have hxy : g.Edge x y := by
        rcases h with h | ⟨rfl, rfl⟩
        · exact h
        · exact hab
      obtain ⟨l, he⟩ := hxy
      by_cases hc : x = a ∧ y = b
      · exact ⟨label, (x, y, l), he, by simp [hc]⟩
      · refine ⟨l, (x, y, l), he, ?_⟩
        rw [if_neg]
        simpa using hc
  · simp only [Edge, edges_addNode, List.mem_append, List.mem_singleton, Prod.mk.injEq]
    constructor
    · rintro ⟨l, he | ⟨rfl, rfl, rfl⟩⟩
      · exact .inl ⟨l, he⟩
      · exact .inr ⟨rfl, rfl⟩
    · rintro (⟨l, he⟩ | ⟨rfl, rfl⟩)
      · exact ⟨l, .inl he⟩
      · exact ⟨label, .inr ⟨rfl, rfl, rfl⟩⟩

/-- A label of the new graph was there before, or is the one of the new edge. -/
theorem label_addEdge {a b x y : Nat} {label l : β} (h : (x, y, l) ∈ (g.addEdge a b label).edges) :
    (x, y, l) ∈ g.edges ∨ (x = a ∧ y = b ∧ l = label) := by
  unfold addEdge at h
  simp only at h
  split at h
  · simp only [List.mem_map, edges_addNode] at h
    obtain ⟨e, he, hl⟩ := h
    split at hl
    · simp only [Prod.mk.injEq] at hl
      exact .inr ⟨hl.1.symm, hl.2.1.symm, hl.2.2.symm⟩
    · exact .inl (hl ▸ he)
  · simpa only [edges_addNode, List.mem_append, List.mem_singleton, Prod.mk.injEq] using h

theorem nodup_addNode {n : Nat} (h : g.nodes.Nodup) : (g.addNode n).nodes.Nodup := by
  unfold addNode
  split
  · exact h
  · rename_i hn
    refine List.nodup_append.2 ⟨h, by simp, fun a ha b hb => ?_⟩
    rintro rfl
    exact hn (List.mem_singleton.1 hb ▸ ha)

theorem nodup_ofNodes (nodes : List Nat) : (ofNodes nodes : Digraph β).nodes.Nodup :=
  List.foldlRecOn (motive := fun (g : Digraph β) => g.nodes.Nodup) _ _ List.nodup_nil fun _ h _ _ => nodup_addNode h

theorem nodup_addEdge {a b : Nat} {label : β} (h : g.nodes.Nodup) : (g.addEdge a b label).nodes.Nodup := by
  unfold addEdge
  simp only
  split <;> exact nodup_addNode (nodup_addNode h)

/-! ### The walk of the sort -/

/-- What a stretch of the walk adds: each node that it meets is left again, and none that it leaves
has an edge to itself. -/
structure Descends (g : Digraph β) (w w' : Walk) : Prop where
  seen : ∀ x ∈ w.seen, x ∈ w'.seen
  left : ∀ x ∈ w.left, x ∈ w'.left
  done : ∀ x ∈ w'.seen, x ∈ w.seen ∨ x ∈ w'.left
  loopless : ∀ x ∈ w'.left, x ∈ w.left ∨ ¬ g.Edge x x

theorem Descends.refl (w : Walk) : g.Descends w w :=
  ⟨fun _ h => h, fun _ h => h, fun _ h => .inl h, fun _ h => .inl h⟩

theorem Descends.trans {w₁ w₂ w₃ : Walk} (h : g.Descends w₁ w₂) (h' : g.Descends w₂ w₃) :
    g.Descends w₁ w₃ := by
  refine ⟨fun x hx => h'.seen x (h.seen x hx), fun x hx => h'.left x (h.left x hx), ?_, ?_⟩
  · intro x hx
    rcases h'.done x hx with hx | hx
    · exact (h.done x hx).imp id (h'.left x)
    · exact .inr hx
  · intro x hx
    rcases h'.loopless x hx with hx | hx
    · exact h.loopless x hx
    · exact .inr hx

theorem descend_descends :
    ∀ (fuel : Nat) (w w' : Walk) (n : Nat), g.descend fuel w n = .ok w' → g.Descends w w' := by
  intro fuel
  induction fuel with
  | zero =>
    intro w w' n h
    obtain rfl : w = w' := by simpa [descend] using h
    exact .refl w
  | succ fuel ih =>
    have visitAll : ∀ (l : List Nat) (w w' : Walk), l.foldlM (descend g fuel) w = .ok w' →
        g.Descends w w' := by
      intro l
      induction l with
      | nil =>
        intro w w' h
        obtain rfl := except_pure_ok.1 h
        exact .refl w
      | cons x xs ihl =>
        intro w w' h
        rw [List.foldlM_cons, except_bind_ok] at h
        obtain ⟨w₁, h₁, h⟩ := h
        exact (ih w w₁ x h₁).trans (ihl w₁ w' h)
    intro w w' n h
    rw [descend] at h
    split at h
    · obtain rfl : w = w' := by simpa using h
      exact .refl w
    split at h
    · exact nomatch h
    · rename_i hloop
      rw [hasEdge_iff] at hloop
      obtain ⟨w₁, h₁, h⟩ := except_bind_ok.1 h
      obtain rfl := except_pure_ok.1 h
      have hd := visitAll _ _ _ h₁
      refine ⟨fun x hx => hd.seen x (List.mem_cons_of_mem _ hx), fun x hx => List.mem_cons_of_mem _ (hd.left x hx),
        ?_, ?_⟩
      · intro x hx
        rcases hd.done x hx with hx | hx
        · rcases List.mem_cons.1 hx with rfl | hx
          · exact .inr (List.mem_cons_self ..)
          · exact .inl hx
        · exact .inr (List.mem_cons_of_mem _ hx)
      · intro x hx
        rcases List.mem_cons.1 hx with rfl | hx
        · exact .inr hloop
        · exact hd.loopless x hx

theorem descend_mem {fuel : Nat} {w w' : Walk} {n : Nat} (h : g.descend (fuel + 1) w n = .ok w') :
    n ∈ w'.seen := by
  rw [descend] at h
  split at h
  · obtain rfl : w = w' := by simpa using h
    assumption
  split at h
  · exact nomatch h
  · obtain ⟨w₁, h₁, h⟩ := except_bind_ok.1 h
    obtain rfl := except_pure_ok.1 h
    have hd : g.Descends { w with seen := n :: w.seen } w₁ := by
      generalize (g.successors n).reverse = l at h₁
      generalize ({ w with seen := n :: w.seen } : Walk) = v at h₁ ⊢
      induction l generalizing v with
      | nil =>
        obtain rfl := except_pure_ok.1 h₁
        exact .refl _
      | cons x xs ih =>
        rw [List.foldlM_cons, except_bind_ok] at h₁
        obtain ⟨v', hx, h₁⟩ := h₁
        exact (descend_descends _ _ _ _ hx).trans (ih v' h₁)
    exact hd.seen n (List.mem_cons_self ..)

/-- The walk stays among nodes that are closed under edges. -/
theorem descend_within {S : Nat → Prop} (hS : ∀ x y, S x → g.Edge x y → S y) :
    ∀ (fuel : Nat) (w w' : Walk) (n : Nat), g.descend fuel w n = .ok w' → S n →
      (∀ x ∈ w.left, S x) → ∀ x ∈ w'.left, S x := by
  intro fuel
  induction fuel with
  | zero =>
    intro w w' n h _ hw
    obtain rfl : w = w' := by simpa [descend] using h
    exact hw
  | succ fuel ih =>
    have visitAll : ∀ (l : List Nat) (w w' : Walk), l.foldlM (descend g fuel) w = .ok w' →
        (∀ y ∈ l, S y) → (∀ x ∈ w.left, S x) → ∀ x ∈ w'.left, S x := by
      intro l
      induction l with
      | nil =>
        intro w w' h _ hw
        obtain rfl := except_pure_ok.1 h
        exact hw
      | cons x xs ihl =>
        intro w w' h hl hw
        rw [List.foldlM_cons, except_bind_ok] at h
        obtain ⟨w₁, h₁, h⟩ := h
        exact ihl w₁ w' h (fun y hy => hl y (List.mem_cons_of_mem _ hy))
          (ih w w₁ x h₁ (hl x (List.mem_cons_self ..)) hw)
    intro w w' n h hn hw
    rw [descend] at h
    split at h
    · obtain rfl : w = w' := by simpa using h
      exact hw
    split at h
    · exact nomatch h
    · obtain ⟨w₁, h₁, h⟩ := except_bind_ok.1 h
      obtain rfl := except_pure_ok.1 h
      intro x hx
      rcases List.mem_cons.1 hx with rfl | hx
      · exact hn
      · refine visitAll _ _ _ h₁ (fun y hy => ?_) hw x hx
        exact hS n y hn (mem_successors.1 (List.mem_reverse.1 hy))

/-! ### The order -/

theorem checkOrder_ok {seen l pre post : List Nat} {n p : Nat} (h : g.checkOrder seen l = .ok ())
    (hl : l = pre ++ n :: post) (hp : g.Edge p n) : p ∈ seen ∨ p ∈ pre ∨ p = n := by
  induction l generalizing seen pre with
  | nil => simp at hl
  | cons x xs ih =>
    rw [checkOrder] at h
    split at h
    · exact nomatch h
    · rename_i hnone
      rcases pre with _ | ⟨y, pre⟩
      · obtain ⟨rfl, rfl⟩ : x = n ∧ xs = post := by simpa using hl
        rw [List.getLast?_eq_none_iff, List.filter_eq_nil_iff] at hnone
        have := hnone p (mem_predecessors.2 hp)
        simp only [decide_eq_true_eq, not_not, List.mem_cons] at this
        tauto
      · obtain ⟨rfl, htail⟩ : x = y ∧ xs = pre ++ n :: post := by simpa using hl
        have := ih h htail
        simp only [List.mem_cons] at this ⊢
        tauto

/-- What a topological order promises. -/
structure Sorted (g : Digraph β) (order : List Nat) : Prop where
  covers : ∀ n ∈ g.nodes, n ∈ order
  within : ∀ n ∈ order, n ∈ g.nodes
  forward : ∀ pre n post, order = pre ++ n :: post → ∀ p, g.Edge p n → p ∈ pre

/-- The order of a graph whose edges join its nodes. -/
theorem topologicalOrder_sorted (hedges : ∀ a b, g.Edge a b → b ∈ g.nodes) {order : List Nat}
    (h : g.topologicalOrder = .ok order) : g.Sorted order := by
  simp only [topologicalOrder, except_bind_ok, except_pure_ok] at h
  obtain ⟨w, hw, _, hc, rfl⟩ := h
  have whole : ∀ (l : List Nat) (v : Walk), l.foldlM (g.descend g.nodes.length) v = .ok w →
      (∀ n ∈ l, n ∈ g.nodes) →
      g.Descends v w ∧ (∀ n ∈ l, n ∈ w.seen) ∧ ((∀ x ∈ v.left, x ∈ g.nodes) → ∀ x ∈ w.left, x ∈ g.nodes) := by
    intro l
    induction l with
    | nil =>
      intro v hv _
      obtain rfl := except_pure_ok.1 hv
      exact ⟨.refl _, fun n hn => (nomatch hn), fun h => h⟩
    | cons x xs ih =>
      intro v hv hl
      rw [List.foldlM_cons, except_bind_ok] at hv
      obtain ⟨v', hx, hv⟩ := hv
      obtain ⟨hd, hmem, hin⟩ := ih v' hv fun n hn => hl n (List.mem_cons_of_mem _ hn)
      have hxg := hl x (List.mem_cons_self ..)
      have hdx := descend_descends _ _ _ _ hx
      refine ⟨hdx.trans hd, fun n hn => ?_, fun hv => hin (descend_within
        (fun a b _ hab => hedges a b hab) _ _ _ _ hx hxg hv)⟩
      rcases List.mem_cons.1 hn with rfl | hn
      · have hpos := List.length_pos_of_mem hxg
        obtain ⟨k, hk⟩ : ∃ k, g.nodes.length = k + 1 := ⟨g.nodes.length - 1, by omega⟩
        rw [hk] at hx
        exact hd.seen _ (descend_mem hx)
      · exact hmem n hn
  obtain ⟨hd, hmem, hin⟩ := whole g.nodes {} hw fun n hn => hn
  refine ⟨fun n hn => ?_, hin fun x hx => (nomatch hx), fun pre n post ho p hp => ?_⟩
  · exact (hd.done n (hmem n hn)).resolve_left fun h => nomatch h
  · rcases checkOrder_ok hc ho hp with h | h | h
    · exact nomatch h
    · exact h
    · -- A node before itself would have an edge to itself.
      subst h
      have hn : p ∈ w.left := by simp [ho]
      exact absurd hp ((hd.loopless p hn).resolve_left fun h => nomatch h)

end Interlock.Digraph
