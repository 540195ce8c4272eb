import Interlock.Elaboration
import Interlock.Proofs.Design.Gains
import Interlock.Proofs.Digraph.Sort
import Interlock.Proofs.Digraph.Walk
import Interlock.Proofs.Reach.Ways

/-! What a schedule promises. Its order holds every transaction once; its classes divide the order, and
no conflict leads from one class to another. -/

namespace Interlock

/-- The pairs of a list are those of an earlier and a later member. -/
theorem mem_allPairs {α : Type} {l : List α} {a b : α} :
    (a, b) ∈ allPairs l ↔ ∃ pre mid post, l = pre ++ a :: (mid ++ b :: post) := by
  induction l with
  | nil => simp [allPairs]
  | cons x xs ih =>
    rw [allPairs, List.mem_append, ih, List.mem_map]
    constructor
    · rintro (⟨y, hy, he⟩ | ⟨pre, mid, post, rfl⟩)
      · obtain ⟨rfl, rfl⟩ := Prod.mk.inj he
        obtain ⟨mid, post, rfl⟩ := List.append_of_mem hy
        exact ⟨[], mid, post, rfl⟩
      · exact ⟨x :: pre, mid, post, rfl⟩
    · rintro ⟨pre, mid, post, h⟩
      rcases pre with _ | ⟨y, pre⟩
      · obtain ⟨rfl, rfl⟩ := List.cons.inj h
        exact .inl ⟨b, by simp, rfl⟩
      · obtain ⟨rfl, rfl⟩ := List.cons.inj h
        exact .inr ⟨pre, mid, post, rfl⟩

/-- Of two members of a list one comes first. -/
theorem allPairs_total {α : Type} {l : List α} {a b : α} (ha : a ∈ l) (hb : b ∈ l) (hne : a ≠ b) :
    (a, b) ∈ allPairs l ∨ (b, a) ∈ allPairs l := by
  simp only [mem_allPairs]
  obtain ⟨pre, post, rfl⟩ := List.append_of_mem ha
  rcases List.mem_append.1 hb with hb | hb
  · obtain ⟨pre, mid, rfl⟩ := List.append_of_mem hb
    exact .inr ⟨pre, mid, post, List.append_assoc ..⟩
  · obtain ⟨mid, post, rfl⟩ := List.append_of_mem ((List.mem_cons.1 hb).resolve_left (Ne.symm hne))
    exact .inl ⟨pre, mid, post, rfl⟩

namespace Design

variable {d : Design} {map : CallMap}

/-! ### The order -/

theorem mem_standsFor (hd : d.Sound) (hmap : map.Describes d) {i t : NodeId} (hi : i < d.nodes.size)
    (ht : t ∈ map.standsFor d i) : t ∈ d.transactions := by
  unfold CallMap.standsFor at ht
  split at ht
  · rename_i h
    obtain rfl := List.mem_singleton.1 ht
    obtain ⟨n, hn⟩ := Arena.exists_get? hi
    rw [node_of_get? hn] at h
    unfold Node.isTransaction Node.transaction? at h
    split at h
    · exact hd.mem_transactions.2 ⟨n, _, hn, ‹_›⟩
    · exact nomatch h
  · obtain ⟨r, hr, rfl⟩ := List.mem_map.1 ht
    exact (hmap.right r (List.mem_filter.1 hr).1).transaction

theorem mem_addEdges {ps : List (NodeId × NodeId)} {loc : Location} {x : NodeId} :
    ∀ {g : Digraph Location}, x ∈ (ps.foldl (fun g (t, u) => g.addEdge t u loc) g).nodes →
      x ∈ g.nodes ∨ ∃ p ∈ ps, x = p.1 ∨ x = p.2 := by
  induction ps with
  | nil => exact fun hx => .inl hx
  | cons p ps ih =>
    intro g hx
    rcases ih hx with hx | ⟨q, hq, hx⟩
    · rcases Digraph.mem_addEdge.1 hx with hx | hx
      · exact .inl hx
      · exact .inr ⟨p, List.mem_cons_self .., hx⟩
    · exact .inr ⟨q, List.mem_cons_of_mem _ hq, hx⟩

theorem nodes_addEdges {ps : List (NodeId × NodeId)} {loc : Location} {x : NodeId} :
    ∀ {g : Digraph Location}, x ∈ g.nodes →
      x ∈ (ps.foldl (fun g (t, u) => g.addEdge t u loc) g).nodes := by
  induction ps with
  | nil => exact fun hx => hx
  | cons p ps ih => exact fun hx => ih (Digraph.mem_addEdge.2 (.inl hx))

theorem preference_bounded (hd : d.Sound) {r : Relation} (hr : r ∈ d.relations) {a b : NodeId}
    (h : preference r = some (a, b)) : a < d.nodes.size ∧ b < d.nodes.size := by
  obtain ⟨hs, ht⟩ := hd.relations r hr
  unfold preference at h
  split at h
  · exact nomatch h
  · obtain ⟨rfl, rfl⟩ := Prod.mk.inj (Option.some.inj h)
    exact ⟨hs, ht⟩
  · obtain ⟨rfl, rfl⟩ := Prod.mk.inj (Option.some.inj h)
    exact ⟨ht, hs⟩

/-- The graph of preferences is one of the transactions. -/
theorem mem_priorities (hd : d.Sound) (hmap : map.Describes d) {x : NodeId} :
    x ∈ (d.priorities map).nodes ↔ x ∈ d.transactions := by
  have step : ∀ (l : List Relation) (g : Digraph Location), (∀ r ∈ l, r ∈ d.relations) →
      (∀ y, y ∈ g.nodes ↔ y ∈ d.transactions) →
      (x ∈ (l.foldl (d.addPreference map) g).nodes ↔ x ∈ d.transactions) := by
    intro l
    induction l with
    | nil => exact fun g _ hg => hg x
    | cons r l ih =>
      intro g hl hg
      apply ih _ (fun r' hr' => hl r' (List.mem_cons_of_mem _ hr'))
      intro y
      unfold addPreference
      split
      · exact hg y
      · rename_i a b hab
        obtain ⟨ha, hb⟩ := preference_bounded hd (hl r (List.mem_cons_self ..)) hab
        refine ⟨fun hy => ?_, fun hy => nodes_addEdges ((hg y).2 hy)⟩
        rcases mem_addEdges hy with hy | ⟨p, hp, hy⟩
        · exact (hg y).1 hy
        · simp only [crossPairs, List.mem_flatMap, List.mem_map, List.mem_filter] at hp
          obtain ⟨t, ht, u, ⟨hu, -⟩, rfl⟩ := hp
          rcases hy with rfl | rfl
          · exact mem_standsFor hd hmap ha ht
          · exact mem_standsFor hd hmap hb hu
  exact step d.relations _ (fun _ h => h) fun y => Digraph.mem_ofNodes

theorem leastBy_mem {key : NodeId → Nat × Nat} {l : List NodeId} {t : NodeId} (h : leastBy key l = some t) :
    t ∈ l := by
  induction l generalizing t with
  | nil => exact nomatch h
  | cons x xs ih =>
    rw [leastBy] at h
    split at h
    · exact Option.some.inj h ▸ List.mem_cons_self ..
    · rename_i y hy
      split at h
      · exact Option.some.inj h ▸ List.mem_cons_self ..
      · exact Option.some.inj h ▸ List.mem_cons_of_mem _ (ih hy)

theorem takeInOrder_spec {g : Digraph Location} :
    ∀ (fuel : Nat) (left : List NodeId),
      (d.takeInOrder g fuel left).Nodup ∧ ∀ t ∈ d.takeInOrder g fuel left, t ∈ left := by
  intro fuel
  induction fuel with
  | zero => exact fun left => ⟨List.nodup_nil, fun t ht => nomatch ht⟩
  | succ fuel ih =>
    intro left
    rw [takeInOrder]
    split
    · exact ⟨List.nodup_nil, fun t ht => nomatch ht⟩
    · rename_i t ht
      have htl := (List.mem_filter.1 (leastBy_mem ht)).1
      obtain ⟨hnodup, hmem⟩ := ih (left.filter (t ≠ ·))
      refine ⟨List.nodup_cons.2 ⟨fun h => ?_, hnodup⟩, fun u hu => ?_⟩
      · simpa using (List.mem_filter.1 (hmem t h)).2
      · rcases List.mem_cons.1 hu with rfl | hu
        · exact htl
        · exact (List.mem_filter.1 (hmem u hu)).1

/-- An order that leaves nothing over holds every node once. -/
theorem priorityOrder_ok {g : Digraph Location} {order : List NodeId} (h : d.priorityOrder g = .ok order) :
    order.Nodup ∧ ∀ t, t ∈ order ↔ t ∈ g.nodes := by
  unfold priorityOrder at h
  simp only at h
  split at h
  · exact nomatch h
  · rename_i hlen
    rw [Except.ok.injEq] at h
    subst h
    obtain ⟨hnodup, hmem⟩ := takeInOrder_spec (d := d) (g := g) g.nodes.length g.nodes
    have hperm := (List.subperm_of_subset hnodup hmem).perm_of_length_le (Nat.le_of_not_lt hlen)
    exact ⟨hnodup, fun t => hperm.mem_iff⟩

end Design

namespace Schedule

/-! ### The classes -/

theorem linked_symm {pairs : List (NodeId × NodeId)} {t u : NodeId} (h : linked pairs t u = true) :
    linked pairs u t = true := by
  unfold linked at h ⊢
  rwa [Bool.or_comm]

/-- No conflict leads out of these transactions. -/
def Closed (pairs : List (NodeId × NodeId)) (order members : List NodeId) : Prop :=
  ∀ x ∈ members, ∀ y ∈ order, linked pairs x y = true → y ∈ members

theorem classOf_spec (pairs : List (NodeId × NodeId)) {order : List NodeId} {t : NodeId} (ht : t ∈ order) :
    t ∈ classOf pairs order t ∧ Closed pairs order (classOf pairs order t) ∧
      ∀ left, t ∈ left → Closed pairs order left → ∀ x ∈ classOf pairs order t, x ∈ left := by
  have hnext : ∀ x, ∀ y ∈ order.filter (linked pairs x), y ∈ order := fun x y hy => (List.mem_filter.1 hy).1
  obtain ⟨hself, hclosed⟩ := Walk.enter_closed hnext ht
  simp only [classOf, List.mem_filter, decide_eq_true_eq]
  refine ⟨⟨ht, hself⟩, fun x hx y hy hxy => ?_, fun left htl hleft x hx => ?_⟩
  · rw [List.mem_filter, decide_eq_true_eq] at hx ⊢
    exact ⟨hy, hclosed x hx.2 y (List.mem_filter.2 ⟨hy, hxy⟩)⟩
  · refine Walk.enter_within (S := (· ∈ left)) (fun z hz y hy => ?_) order.length {} t htl
      (fun _ h => nomatch h) x hx.2
    rw [List.mem_filter] at hy
    exact hleft z hz y hy.1 hy.2

/-- What a class leaves over is closed again, since conflicts are mutual. -/
theorem closed_rest {pairs : List (NodeId × NodeId)} {order left : List NodeId} {t : NodeId}
    (hleft : ∀ x ∈ t :: left, x ∈ order) (hclosed : Closed pairs order (t :: left)) :
    Closed pairs order (left.filter (· ∉ classOf pairs order t)) := by
  obtain ⟨hself, hclass, -⟩ := classOf_spec pairs (hleft t (List.mem_cons_self ..))
  intro x hx y hy hxy
  rw [List.mem_filter, decide_eq_true_eq] at hx ⊢
  have hyc : y ∉ classOf pairs order t := fun hyc =>
    hx.2 (hclass y hyc x (hleft x (List.mem_cons_of_mem _ hx.1)) (linked_symm hxy))
  refine ⟨?_, hyc⟩
  rcases List.mem_cons.1 (hclosed x (List.mem_cons_of_mem _ hx.1) y hy hxy) with rfl | hy
  · exact absurd hself hyc
  · exact hy

theorem split_spec (pairs : List (NodeId × NodeId)) {order : List NodeId} (hnodup : order.Nodup) :
    ∀ (fuel : Nat) (left : List NodeId), left.length ≤ fuel → (∀ t ∈ left, t ∈ order) →
      Closed pairs order left →
      (split pairs order fuel left).flatten.Nodup ∧
        (∀ x, x ∈ (split pairs order fuel left).flatten ↔ x ∈ left) ∧
        ∀ members ∈ split pairs order fuel left, Closed pairs order members := by
  intro fuel
  induction fuel with
  | zero =>
    intro left hlen _ _
    obtain rfl := List.length_eq_zero_iff.1 (Nat.le_zero.1 hlen)
    exact ⟨List.nodup_nil, fun x => .rfl, fun _ h => nomatch h⟩
  | succ fuel ih =>
    intro left hlen hleft hclosed
    rcases left with _ | ⟨t, left⟩
    · exact ⟨List.nodup_nil, fun x => .rfl, fun _ h => nomatch h⟩
    obtain ⟨hself, hclass, hwithin⟩ := classOf_spec pairs (hleft t (List.mem_cons_self ..))
    have hin := hwithin _ (List.mem_cons_self ..) hclosed
    obtain ⟨hnd, hmem, hcl⟩ := ih (left.filter (· ∉ classOf pairs order t))
      (Nat.le_trans (List.length_filter_le ..) (Nat.le_of_succ_le_succ hlen))
      (fun x hx => hleft x (List.mem_cons_of_mem _ (List.mem_filter.1 hx).1)) (closed_rest hleft hclosed)
    rw [split]
    refine ⟨?_, fun x => ?_, fun members hm => ?_⟩
    · rw [List.flatten_cons, List.nodup_append]
      refine ⟨hnodup.filter _, hnd, fun x hx y hy he => ?_⟩
      subst he
      have := (List.mem_filter.1 ((hmem x).1 hy)).2
      exact absurd hx (by simpa using this)
    · rw [List.flatten_cons, List.mem_append, hmem, List.mem_filter, decide_eq_true_eq, List.mem_cons]
      constructor
      · rintro (hx | hx)
        · exact List.mem_cons.1 (hin x hx)
        · exact .inr hx.1
      · intro hx
        by_cases hxc : x ∈ classOf pairs order t
        · exact .inl hxc
        · rcases hx with rfl | hx
          · exact absurd hself hxc
          · exact .inr ⟨hx, hxc⟩
    · rcases List.mem_cons.1 hm with rfl | hm
      · exact hclass
      · exact hcl members hm

/-- What a schedule promises of a design. -/
structure Schedules (s : Schedule) (d : Design) (map : CallMap) : Prop where
  nodup : s.order.Nodup
  order : ∀ t, t ∈ s.order ↔ t ∈ d.transactions
  conflicts : ∀ t u, (t, u) ∈ s.conflicts ↔ (t, u) ∈ allPairs s.order ∧ d.conflicting map t u = true
  divided : s.components.flatten.Nodup
  classes : ∀ t, t ∈ s.components.flatten ↔ t ∈ d.transactions
  closed : ∀ members ∈ s.components, Closed s.conflicts s.order members

theorem schedule_ok {d : Design} {map : CallMap} {s : Schedule} (hd : d.Sound) (hmap : map.Describes d)
    (h : d.schedule map = .ok s) : Schedules s d map := by
  simp only [Design.schedule, except_bind_ok, except_pure_ok] at h
  obtain ⟨order, horder, rfl⟩ := h
  obtain ⟨hnodup, hmem⟩ := Design.priorityOrder_ok horder
  have hmem : ∀ t, t ∈ order ↔ t ∈ d.transactions := fun t => (hmem t).trans (Design.mem_priorities hd hmap)
  obtain ⟨hnd, hcl, hclosed⟩ := split_spec ((allPairs order).filter fun (t, u) => d.conflicting map t u)
    hnodup order.length order (Nat.le_refl _) (fun _ h => h) (fun _ _ y hy _ => hy)
  exact ⟨hnodup, hmem, fun t u => List.mem_filter, hnd, fun t => (hcl t).trans (hmem t), hclosed⟩

namespace Schedules

variable {s : Schedule} {d : Design} {map : CallMap}

/-- Transactions that conflict are two members of one class. -/
theorem same_class (h : Schedules s d map) {t u : NodeId} (hc : s.conflict t u = true) :
    t ≠ u ∧ ∃ members ∈ s.components, t ∈ members ∧ u ∈ members := by
  have hpair : ∃ a b, (a, b) ∈ s.conflicts ∧ ((a = t ∧ b = u) ∨ (a = u ∧ b = t)) := by
    unfold conflict linked at hc
    rw [Bool.or_eq_true, List.contains_iff_mem, List.contains_iff_mem] at hc
    rcases hc with hc | hc
    · exact ⟨t, u, hc, .inl ⟨rfl, rfl⟩⟩
    · exact ⟨u, t, hc, .inr ⟨rfl, rfl⟩⟩
  obtain ⟨a, b, hab, heq⟩ := hpair
  obtain ⟨hall, hcon⟩ := (h.conflicts a b).1 hab
  obtain ⟨pre, mid, post, hsplit⟩ := mem_allPairs.1 hall
  have hne : a ≠ b := by
    rintro rfl
    simp [Design.conflicting] at hcon
  have hta : t ∈ s.order ∧ u ∈ s.order ∧ t ≠ u := by
    rw [hsplit]
    rcases heq with ⟨rfl, rfl⟩ | ⟨rfl, rfl⟩
    · exact ⟨by simp, by simp, hne⟩
    · exact ⟨by simp, by simp, Ne.symm hne⟩
  obtain ⟨members, hm, ht⟩ := List.mem_flatten.1 ((h.classes t).2 ((h.order t).1 hta.1))
  exact ⟨hta.2.2, members, hm, ht, h.closed members hm t ht u hta.2.1 hc⟩

/-- Two transactions that are found to conflict, in whichever order, do. -/
theorem conflict_of (h : Schedules s d map) {t u : NodeId} (ht : t ∈ d.transactions) (hu : u ∈ d.transactions)
    (hne : t ≠ u) (htu : d.conflicting map t u = true) (hut : d.conflicting map u t = true) :
    s.conflict t u = true := by
  unfold conflict linked
  rw [Bool.or_eq_true, List.contains_iff_mem, List.contains_iff_mem, h.conflicts, h.conflicts]
  rcases allPairs_total ((h.order t).2 ht) ((h.order u).2 hu) hne with hp | hp
  · exact .inl ⟨hp, htu⟩
  · exact .inr ⟨hp, hut⟩

theorem members (h : Schedules s d map) : ∀ members ∈ s.components, ∀ t ∈ members, t ∈ d.transactions :=
  fun members hm t ht => (h.classes t).1 (List.mem_flatten.2 ⟨members, hm, ht⟩)

end Schedules

end Schedule

end Interlock
