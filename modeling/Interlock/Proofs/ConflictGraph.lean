import Interlock.Proofs.Schedule.Canonical
import Interlock.Proofs.SharedWays

/-! A schedule shows the conflicts of a design as they are: its classes are the connected components of the graph
of conflicts, and its pairs are the edges of this graph. Both are listed in the order of priority. -/

namespace Interlock

namespace Design

variable {d : Design} {map : CallMap} {t u : NodeId}

/-- Two transactions conflict. -/
def Conflicts (d : Design) (map : CallMap) (t u : NodeId) : Prop :=
  t ∈ d.transactions ∧ u ∈ d.transactions ∧ d.conflicting map t u = true

theorem lastCommon_comm : ∀ as bs : List NodeId, lastCommon as bs = lastCommon bs as
  | [], [] | [], _ :: _ | _ :: _, [] => rfl
  | a :: as, b :: bs => by
    rw [lastCommon, lastCommon, lastCommon_comm as bs]
    by_cases hab : a = b
    · subst hab
      rfl
    · rw [if_neg hab, if_neg (Ne.symm hab)]

theorem sharesMethod_symm (h : d.sharesMethod map t u = true) : d.sharesMethod map u t = true := by
  unfold sharesMethod mergesNonexclusive at h ⊢
  simp only [List.any_eq_true, Bool.and_eq_true, List.contains_iff_mem] at h ⊢
  obtain ⟨m, ht, hu, hmerge⟩ := h
  exact ⟨m, hu, ht, lastCommon_comm (map.ancestors t m) (map.ancestors u m) ▸ hmerge⟩

theorem relatedByConflict_symm (h : d.relatedByConflict map t u = true) : d.relatedByConflict map u t = true := by
  unfold relatedByConflict at h ⊢
  obtain ⟨r, hr, hends⟩ := List.any_eq_true.1 h
  refine List.any_eq_true.2 ⟨r, hr, ?_⟩
  rwa [Bool.or_comm]

theorem conflicting_symm (h : d.conflicting map t u = true) : d.conflicting map u t = true := by
  unfold conflicting at h ⊢
  rw [staticallyExclusive_comm]
  simp only [Bool.and_eq_true, Bool.or_eq_true, bne_iff_ne] at h ⊢
  exact ⟨⟨Ne.symm h.1.1, h.1.2.imp sharesMethod_symm relatedByConflict_symm⟩, h.2⟩

theorem Conflicts.symm (h : d.Conflicts map t u) : d.Conflicts map u t := ⟨h.2.1, h.1, conflicting_symm h.2.2⟩

theorem Conflicts.ne (h : d.Conflicts map t u) : t ≠ u := by
  have hc := h.2.2
  unfold conflicting at hc
  simp only [Bool.and_eq_true, bne_iff_ne] at hc
  exact hc.1.1

end Design

/-! ### Pairs in order -/

theorem fst_mem_of_allPairs {α : Type} {l : List α} {p : α × α} (h : p ∈ allPairs l) : p.1 ∈ l := by
  obtain ⟨pre, mid, post, rfl⟩ := mem_allPairs.1 h
  exact List.mem_append_right _ (List.mem_cons_self ..)

/-- The pairs of an ordered list are in order, the first members before the second ones. -/
theorem allPairs_pairwise {α : Type} {R : α → α → Prop} {l : List α} (h : l.Pairwise R) :
    (allPairs l).Pairwise fun p q => R p.1 q.1 ∨ (p.1 = q.1 ∧ R p.2 q.2) := by
  induction l with
  | nil => exact .nil
  | cons x xs ih =>
    obtain ⟨hx, hxs⟩ := List.pairwise_cons.1 h
    refine List.pairwise_append.2 ⟨?_, ih hxs, fun p hp q hq => .inl ?_⟩
    · exact List.pairwise_map.2 (hxs.imp fun hab => .inr ⟨rfl, hab⟩)
    · obtain ⟨_, -, rfl⟩ := List.mem_map.1 hp
      exact hx q.1 (fst_mem_of_allPairs hq)

theorem mem_allPairs_iff_idxOf {l : List NodeId} (hl : l.Nodup) {a b : NodeId} :
    (a, b) ∈ allPairs l ↔ a ∈ l ∧ b ∈ l ∧ l.idxOf a < l.idxOf b := by
  have forward : ∀ {x y}, (x, y) ∈ allPairs l → x ∈ l ∧ y ∈ l ∧ l.idxOf x < l.idxOf y := by
    intro x y h
    obtain ⟨pre, mid, post, rfl⟩ := mem_allPairs.1 h
    refine ⟨by simp, by simp, idxOf_lt_of_sublist hl (List.sublist_append_of_sublist_right ?_)⟩
    exact (List.singleton_sublist.2 (by simp)).cons_cons x
  refine ⟨forward, fun ⟨ha, hb, hlt⟩ => ?_⟩
  have hne : a ≠ b := fun he => Nat.lt_irrefl _ (he ▸ hlt)
  exact (allPairs_total ha hb hne).resolve_right fun h => Nat.lt_asymm hlt (forward h).2.2

namespace Schedule

variable {pairs : List (NodeId × NodeId)} {order : List NodeId}

/-! ### Classes -/

/-- A class holds what conflicts lead to. -/
theorem mem_classOf_iff {t x : NodeId} (ht : t ∈ order) :
    x ∈ classOf pairs order t ↔ Relation.ReflTransGen (fun a b => b ∈ order ∧ linked pairs a b = true) t x := by
  have hnext : ∀ x, ∀ y ∈ order.filter (linked pairs x), y ∈ order := fun x y hy => (List.mem_filter.1 hy).1
  have hseen : x ∈ (Walk.enter (fun t => order.filter (linked pairs t)) order.length {} t).seen ↔
      Relation.ReflTransGen (fun a b => b ∈ order ∧ linked pairs a b = true) t x := by
    rw [Walk.mem_enter_iff hnext ht]
    simp only [List.mem_filter]
  simp only [classOf, List.mem_filter, decide_eq_true_eq, hseen]
  refine ⟨And.right, fun h => ⟨?_, h⟩⟩
  rcases h.cases_tail with rfl | ⟨_, -, hx, -⟩
  · exact ht
  · exact hx

/-- What is left keeps the order, so each class begins with the first transaction that is left. -/
theorem split_heads : ∀ (fuel : Nat) (left : List NodeId) (p : NodeId → Bool), left = order.filter p →
    Closed pairs order left → ((split pairs order fuel left).filterMap List.head?).Sublist left := by
  intro fuel
  induction fuel with
  | zero => exact fun left _ _ _ => List.nil_sublist left
  | succ fuel ih =>
    intro left p hleft hclosed
    rcases left with _ | ⟨t, left⟩
    · exact List.nil_sublist []
    have hin : ∀ x ∈ t :: left, x ∈ order := fun x hx => (List.mem_filter.1 (hleft ▸ hx)).1
    obtain ⟨hself, -, hwithin⟩ := classOf_spec pairs (hin t (List.mem_cons_self ..))
    -- Whatever the class holds is still left.
    have hclass : classOf pairs order t = (t :: left).filter (· ∈ classOf pairs order t) := by
      rw [hleft, List.filter_filter]
      refine (classOf_filter pairs order t).trans (List.filter_congr fun x _ => ?_)
      rw [eq_comm, Bool.and_eq_left_iff_imp]
      intro hx
      have hxl := hwithin _ (List.mem_cons_self ..) hclosed x (of_decide_eq_true hx)
      exact (List.mem_filter.1 (hleft ▸ hxl)).2
    have hfirst : (classOf pairs order t).head? = some t := by
      rw [hclass, List.filter_cons, if_pos (decide_eq_true hself), List.head?_cons]
    have hrest : left.filter (· ∉ classOf pairs order t) =
        order.filter fun x => decide (x ∉ classOf pairs order t) && p x := by
      rw [← List.filter_filter, ← hleft, List.filter_cons, if_neg (by simpa using hself)]
    rw [split, List.filterMap_cons_some hfirst]
    exact ((ih _ _ hrest (closed_rest hin hclosed)).trans List.filter_sublist).cons_cons t

/-- The classes and the pairs of a schedule show the graph of conflicts. -/
structure Shows (s : Schedule) (d : Design) (map : CallMap) : Prop where
  /-- Each transaction is in exactly one class. -/
  partition : ∀ t ∈ d.transactions, ∃! members, members ∈ s.components ∧ t ∈ members
  distinct : s.components.Nodup
  nonempty : ∀ members ∈ s.components, members ≠ []
  /-- A class holds what paths of conflicts join. -/
  joined : ∀ t ∈ d.transactions, ∀ u,
    (∃ members ∈ s.components, t ∈ members ∧ u ∈ members) ↔ Relation.ReflTransGen (d.Conflicts map) t u
  inOrder : ∀ members ∈ s.components, members.Sublist s.order
  byFirst : (s.components.filterMap List.head?).Sublist s.order
  /-- Of two transactions that conflict the preferred one comes first. -/
  pairs : ∀ t u, (t, u) ∈ s.conflicts ↔ d.Conflicts map t u ∧ s.order.idxOf t < s.order.idxOf u
  once : s.conflicts.Nodup
  sorted : s.conflicts.Pairwise fun p q => s.order.idxOf p.1 < s.order.idxOf q.1 ∨
    (s.order.idxOf p.1 = s.order.idxOf q.1 ∧ s.order.idxOf p.2 < s.order.idxOf q.2)

variable {s : Schedule} {d : Design} {map : CallMap}

/-! ### Pairs -/

theorem Schedules.mem_conflicts_iff (h : Schedules s d map) {t u : NodeId} :
    (t, u) ∈ s.conflicts ↔ d.Conflicts map t u ∧ s.order.idxOf t < s.order.idxOf u := by
  rw [h.conflicts, mem_allPairs_iff_idxOf h.nodup, h.order, h.order, Design.Conflicts]
  tauto

/-- The order of places does not matter for who conflicts. -/
theorem Schedules.linked_iff (h : Schedules s d map) {t u : NodeId} :
    linked s.conflicts t u = true ↔ d.Conflicts map t u := by
  unfold linked
  rw [Bool.or_eq_true, List.contains_iff_mem, List.contains_iff_mem, h.mem_conflicts_iff, h.mem_conflicts_iff]
  constructor
  · rintro (⟨hc, -⟩ | ⟨hc, -⟩)
    · exact hc
    · exact hc.symm
  · intro hc
    have hne : s.order.idxOf t ≠ s.order.idxOf u := fun he =>
      hc.ne (List.idxOf_inj ((h.order t).2 hc.1) |>.1 he)
    rcases Nat.lt_or_gt_of_ne hne with hlt | hlt
    · exact .inl ⟨hc, hlt⟩
    · exact .inr ⟨hc.symm, hlt⟩

theorem conflicts_sorted (h : d.schedule map = .ok s) (hnodup : s.order.Nodup) :
    s.conflicts.Pairwise fun p q => s.order.idxOf p.1 < s.order.idxOf q.1 ∨
      (s.order.idxOf p.1 = s.order.idxOf q.1 ∧ s.order.idxOf p.2 < s.order.idxOf q.2) := by
  simp only [Design.schedule, except_bind_ok, except_pure_ok] at h
  obtain ⟨order, -, rfl⟩ := h
  refine ((allPairs_pairwise (pairwise_idxOf hnodup)).sublist List.filter_sublist).imp fun {p q} hpq => ?_
  exact hpq.imp_right fun h => ⟨by rw [h.1], h.2⟩

/-! ### Classes of a schedule -/

theorem exists_classOf (h : d.schedule map = .ok s) {members : List NodeId} (hm : members ∈ s.components) :
    ∃ t ∈ s.order, members = classOf s.conflicts s.order t := by
  simp only [Design.schedule, except_bind_ok, except_pure_ok] at h
  obtain ⟨order, -, rfl⟩ := h
  exact split_classOf _ _ members hm

theorem heads_sublist (h : d.schedule map = .ok s) : (s.components.filterMap List.head?).Sublist s.order := by
  simp only [Design.schedule, except_bind_ok, except_pure_ok] at h
  obtain ⟨order, -, rfl⟩ := h
  exact split_heads _ order (fun _ => true) (List.filter_true order).symm fun _ _ y hy _ => hy

/-- The members of a class are joined to each of them by paths of conflicts, and nothing else is. -/
theorem Schedules.mem_class_iff (hs : Schedules s d map) (h : d.schedule map = .ok s) {members : List NodeId}
    (hm : members ∈ s.components) {t u : NodeId} (ht : t ∈ members) :
    u ∈ members ↔ Relation.ReflTransGen (d.Conflicts map) t u := by
  obtain ⟨root, hroot, rfl⟩ := exists_classOf h hm
  have hstep : (fun a b => b ∈ s.order ∧ linked s.conflicts a b = true) = d.Conflicts map := by
    funext a b
    rw [hs.linked_iff, hs.order, eq_iff_iff, and_iff_right_iff_imp]
    exact fun hc => hc.2.1
  rw [mem_classOf_iff hroot, hstep] at ht ⊢
  have hsymm : Std.Symm (d.Conflicts map) := ⟨fun _ _ hc => hc.symm⟩
  have hback : Relation.ReflTransGen (d.Conflicts map) t root := Relation.ReflTransGen.stdSymm.symm _ _ ht
  exact ⟨hback.trans, ht.trans⟩

end Schedule

/-- Each transaction is in one class, together with those that paths of conflicts join to it; and each conflict is
listed once, the preferred side first. Classes and pairs come in the order of priority. -/
theorem schedule_shows_conflicts {d : Design} (hd : d.Sound) {map : CallMap}
    (hmap : Attempt.Gives (CallMap.build d) map) {s : Schedule} (h : d.schedule map = .ok s) : s.Shows d map := by
  have hs := Schedule.schedule_ok hd (CallMap.build_ok hmap) h
  have hclass : ∀ t ∈ d.transactions, ∃ members ∈ s.components, t ∈ members := fun t ht =>
    List.mem_flatten.1 ((hs.classes t).2 ht)
  have hnonempty : ∀ members ∈ s.components, members ≠ [] := fun members hm => by
    obtain ⟨t, ht, rfl⟩ := Schedule.exists_classOf h hm
    exact List.ne_nil_of_mem (Schedule.classOf_spec _ ht).1
  have hdisjoint := (List.nodup_flatten.1 hs.divided).2
  have hsorted := Schedule.conflicts_sorted h hs.nodup
  refine ⟨fun t ht => ?_, ?_, hnonempty, fun t ht u => ?_, fun members hm => ?_, Schedule.heads_sublist h,
    fun t u => hs.mem_conflicts_iff, ?_, hsorted⟩
  · obtain ⟨members, hm, htm⟩ := hclass t ht
    refine ⟨members, ⟨hm, htm⟩, fun other ⟨ho, hto⟩ => ?_⟩
    by_contra hne
    have hsymm : Std.Symm (List.Disjoint (α := NodeId)) := ⟨fun _ _ => List.Disjoint.symm⟩
    exact hdisjoint.forall ho hm hne hto htm
  · refine List.Pairwise.imp_of_mem (fun {c c'} hc _ hcc' he => ?_) hdisjoint
    subst he
    obtain ⟨x, hx⟩ := List.exists_mem_of_ne_nil c (hnonempty c hc)
    exact hcc' hx hx
  · constructor
    · rintro ⟨members, hm, htm, hum⟩
      exact (hs.mem_class_iff h hm htm).1 hum
    · intro hpath
      obtain ⟨members, hm, htm⟩ := hclass t ht
      exact ⟨members, hm, htm, (hs.mem_class_iff h hm htm).2 hpath⟩
  · rw [Schedule.members_in_order h hm]
    exact List.filter_sublist
  · refine hsorted.imp fun {p q} hpq he => ?_
    subst he
    omega

namespace Draft

/-- Four transactions, of which one conflicts with two others, and one with none. -/
def conflicted : List Action :=
  [.transaction "A" .generated, .transaction "B" .generated, .transaction "C" .generated,
    .transaction "D" .generated, .conflict 2 3 .right .generated, .conflict 0 2 .undefined .generated]

end Draft

/-- `A` and `D` do not conflict, but both conflict with `C`, to which `D` is preferred. -/
theorem schedule_shows_conflicts_of_conflicted :
    ∃ map, Attempt.Gives (CallMap.build (Draft.of Draft.conflicted).design) map ∧
      (Draft.of Draft.conflicted).design.schedule map = .ok ⟨[0, 1, 3, 2], [(0, 2), (3, 2)], [[0, 3, 2], [1]]⟩ ∧
      Schedule.Shows ⟨[0, 1, 3, 2], [(0, 2), (3, 2)], [[0, 3, 2], [1]]⟩ (Draft.of Draft.conflicted).design map := by
  have hrec : (Draft.of Draft.conflicted).Recorded := Draft.recorded_of (by decide +kernel)
  have hmap : ∃ map ∈ (CallMap.build (Draft.of Draft.conflicted).design).result?,
      (Draft.of Draft.conflicted).design.schedule map =
        .ok ⟨[0, 1, 3, 2], [(0, 2), (3, 2)], [[0, 3, 2], [1]]⟩ := by
    decide +kernel
  obtain ⟨map, hgives, hs⟩ := hmap
  rw [Option.mem_def, Attempt.result?_eq_some] at hgives
  exact ⟨map, hgives, hs, schedule_shows_conflicts hrec.sound hgives hs⟩

end Interlock
