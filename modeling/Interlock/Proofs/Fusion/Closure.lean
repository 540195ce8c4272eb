import Interlock.Proofs.Fusion.Members
import Mathlib.Data.Finset.Powerset
import Mathlib.Data.Finset.Max
import Mathlib.Data.List.Sort
import Mathlib.Logic.Relation

/-! The groups that come out of the pairs. Groups list their members in ascending order, so there are not more
groups than sets of members, and the limit on steps is never met. Hence a group is joined with every pair that
shares a member with it, unless independence separates what they are together; and a group that is kept is part
of no larger one. -/

namespace Interlock

namespace Group

/-- In ascending order, as all groups are. -/
def Ascending (g : Group) : Prop := g.Pairwise (· < ·)

theorem Ascending.insert {g : Group} (h : g.Ascending) (x : NodeId) : (insert x g).Ascending := by
  induction g with
  | nil => exact List.pairwise_singleton _ _
  | cons y ys ih =>
    obtain ⟨hy, hys⟩ := List.pairwise_cons.1 h
    rw [Group.insert]
    split_ifs with hlt heq
    · refine List.pairwise_cons.2 ⟨fun z hz => ?_, h⟩
      rcases List.mem_cons.1 hz with rfl | hz
      · exact hlt
      · exact Nat.lt_trans hlt (hy z hz)
    · exact h
    · refine List.pairwise_cons.2 ⟨fun z hz => ?_, ih hys⟩
      rcases mem_insert.1 hz with rfl | hz
      · exact Nat.lt_of_le_of_ne (Nat.le_of_not_lt hlt) (Ne.symm heq)
      · exact hy z hz

theorem Ascending.union {g : Group} (h : g.Ascending) (g' : Group) : (union g g').Ascending := by
  unfold Group.union
  induction g' generalizing g with
  | nil => exact h
  | cons x xs ih => exact ih (h.insert x)

/-- Ascending groups with the same members are the same. -/
theorem Ascending.ext {g h : Group} (hg : g.Ascending) (hh : h.Ascending) (he : ∀ x, x ∈ g ↔ x ∈ h) : g = h :=
  List.Pairwise.eq_of_mem_iff hg hh he

theorem Ascending.nodup {g : Group} (h : g.Ascending) : g.Nodup := h.imp fun hlt => Nat.ne_of_lt hlt

theorem subset_iff {g h : Group} : g.subset h = true ↔ ∀ x ∈ g, x ∈ h := by
  simp [subset, List.all_eq_true]

theorem shares_iff {g h : Group} : g.disjoint h = false ↔ ∃ x ∈ g, x ∈ h := by
  simp [disjoint]

theorem subset_iff_toFinset {g h : Group} : g.subset h = true ↔ g.toFinset ⊆ h.toFinset := by
  rw [subset_iff]
  simp [Finset.subset_iff]

/-- There are not more ascending groups than sets of members. -/
theorem length_le {members : Group} {gs : List Group} (hnodup : gs.Nodup) (hasc : ∀ g ∈ gs, g.Ascending)
    (hmem : ∀ g ∈ gs, ∀ x ∈ g, x ∈ members) : gs.length ≤ 2 ^ members.length := by
  have hinj : Set.InjOn (fun g : Group => g.toFinset) gs.toFinset := by
    intro g hg h hh he
    rw [List.coe_toFinset] at hg hh
    exact (hasc g hg).ext (hasc h hh) fun x => by simpa using Finset.ext_iff.1 he x
  have hmaps : ∀ g ∈ gs.toFinset, g.toFinset ∈ members.toFinset.powerset := by
    intro g hg
    refine Finset.mem_powerset.2 fun x hx => List.mem_toFinset.2 ?_
    exact hmem g (List.mem_toFinset.1 hg) x (List.mem_toFinset.1 hx)
  calc gs.length = gs.toFinset.card := (List.toFinset_card_of_nodup hnodup).symm
    _ ≤ members.toFinset.powerset.card := Finset.card_le_card_of_injOn _ hmaps hinj
    _ = 2 ^ members.toFinset.card := Finset.card_powerset _
    _ ≤ 2 ^ members.length := Nat.pow_le_pow_right (by decide) (List.toFinset_card_le _)

/-- A larger group has more members. -/
theorem Ascending.length_lt {g h : Group} (hg : g.Ascending) (hh : h.Ascending) (hsub : g.subset h = true)
    (hne : h ≠ g) : g.length < h.length := by
  have hsub := subset_iff.1 hsub
  have hperm := hg.nodup.subperm hsub
  refine Nat.lt_of_le_of_ne hperm.length_le fun he => hne ?_
  exact hh.ext hg fun x => (hperm.perm_of_length_le he.ge).mem_iff.symm

end Group

namespace Independence

variable {i : Independence} {x y : NodeId}

/-- Two transactions must not be in one group. -/
def Apart (i : Independence) (x y : NodeId) : Prop := holds i.declared x y = true ∨ holds i.derived x y = true

instance (i : Independence) (x y : NodeId) : Decidable (i.Apart x y) :=
  inferInstanceAs (Decidable (_ ∨ _))

theorem holds_comm (pairs : List (NodeId × NodeId)) (a b : NodeId) : holds pairs a b = holds pairs b a := by
  unfold holds
  exact congrArg _ (funext fun p => Bool.or_comm ..)

theorem Apart.symm (h : i.Apart x y) : i.Apart y x := by
  rwa [Apart, holds_comm i.declared, holds_comm i.derived]

/-- A group is separated where two of its members must not be in one. -/
theorem separates_iff {g : Group} (hg : g.Ascending) :
    i.separates g = true ↔ ∃ x ∈ g, ∃ y ∈ g, x ≠ y ∧ i.Apart x y := by
  unfold separates
  rw [List.any_eq_true]
  constructor
  · rintro ⟨⟨a, b⟩, hab, hsep⟩
    obtain ⟨pre, mid, post, rfl⟩ := mem_allPairs.1 hab
    refine ⟨a, by simp, b, by simp, ?_, by simpa [Apart] using hsep⟩
    have hlt := (List.pairwise_cons.1 (List.pairwise_append.1 hg).2.1).1 b (by simp)
    exact Nat.ne_of_lt hlt
  · rintro ⟨x, hx, y, hy, hne, hapart⟩
    rcases allPairs_total hx hy hne with h | h
    · exact ⟨_, h, by simpa [Apart] using hapart⟩
    · exact ⟨_, h, by simpa [Apart] using hapart.symm⟩

end Independence

namespace Fusion

variable {i : Independence} {ps queue closed groups : List Group} {g : Group}

/-- A group joined with each pair that shares a member with it and has another one. -/
def joinedWith (ps : List Group) (g : Group) : List Group :=
  (ps.filter fun p => !g.disjoint p && !p.subset g).map g.union

theorem mem_joinedWith {x : Group} :
    x ∈ joinedWith ps g ↔ ∃ p ∈ ps, (g.disjoint p = false ∧ p.subset g = false) ∧ g.union p = x := by
  simp [joinedWith, and_assoc]

theorem length_joinedWith_le (ps : List Group) (g : Group) : (joinedWith ps g).length ≤ ps.length := by
  rw [joinedWith, List.length_map]
  exact List.length_filter_le ..

/-- Steps are left for the groups in the queue, and for those that others can still put there: each set of members
is closed once, and puts at most one group there for each pair. -/
structure Room (members : Group) (ps queue closed : List Group) (fuel : Nat) : Prop where
  steps : queue.length + ps.length * (2 ^ members.length - closed.length) ≤ fuel
  nodup : closed.Nodup
  queued : ∀ g ∈ queue, g.Ascending ∧ ∀ x ∈ g, x ∈ members
  closed : ∀ g ∈ closed, g.Ascending ∧ ∀ x ∈ g, x ∈ members

variable {members : Group} {fuel : Nat}

theorem Room.skip (h : Room members ps (g :: queue) closed (fuel + 1)) : Room members ps queue closed fuel := by
  refine ⟨?_, h.nodup, fun x hx => h.queued x (List.mem_cons_of_mem _ hx), h.closed⟩
  have := h.steps
  rw [List.length_cons] at this
  omega

/-- There is room for another closed group, which pays for what it puts in the queue. -/
theorem Room.close (h : Room members ps (g :: queue) closed (fuel + 1)) (hps : ∀ p ∈ ps, ∀ x ∈ p, x ∈ members)
    (hnew : g ∉ closed) : Room members ps (queue ++ joinedWith ps g) (closed ++ [g]) fuel := by
  obtain ⟨hsteps, hnodup, hqueue, hclosed⟩ := h
  have hg := hqueue g (List.mem_cons_self ..)
  have hclosed' : ∀ x ∈ closed ++ [g], x.Ascending ∧ ∀ y ∈ x, y ∈ members := forall_mem_snoc hclosed hg
  have hnodup' : (closed ++ [g]).Nodup := by
    rw [List.nodup_append]
    refine ⟨hnodup, List.nodup_singleton g, fun x hx y hy he => hnew ?_⟩
    rwa [← List.mem_singleton.1 hy, ← he]
  refine ⟨?_, hnodup', fun x hx => ?_, hclosed'⟩
  · have hcount := Group.length_le hnodup' (fun x hx => (hclosed' x hx).1) fun x hx => (hclosed' x hx).2
    have hjoined := length_joinedWith_le ps g
    rw [List.length_append, List.length_singleton] at hcount
    rw [List.length_cons] at hsteps
    rw [List.length_append, List.length_append, List.length_singleton]
    have hroom : 2 ^ members.length - closed.length = 2 ^ members.length - (closed.length + 1) + 1 := by omega
    rw [hroom, Nat.mul_succ] at hsteps
    omega
  · rcases List.mem_append.1 hx with hx | hx
    · exact hqueue x (List.mem_cons_of_mem _ hx)
    · obtain ⟨p, hp, -, rfl⟩ := mem_joinedWith.1 hx
      exact ⟨hg.1.union p, fun y hy => (Group.mem_union.1 hy).elim (hg.2 y) (hps p hp y)⟩

theorem Room.queue_nil (h : Room members ps queue closed 0) : queue = [] := by
  have := h.steps
  exact List.length_eq_zero_iff.1 (by omega)

/-- There is room for closing the pairs. -/
theorem Room.start (h : ∀ p ∈ ps, p.Ascending) (hfuel : closeFuel ps ≤ fuel) :
    Room (ps.foldl Group.union []) ps ps [] fuel := by
  refine ⟨?_, List.nodup_nil, fun p hp => ⟨h p hp, fun x hx => Group.mem_members.2 ⟨p, hp, hx⟩⟩,
    fun _ hg => absurd hg List.not_mem_nil⟩
  rw [closeFuel, Nat.one_shiftLeft, Nat.mul_add, Nat.mul_one] at hfuel
  rw [List.length_nil, Nat.sub_zero]
  omega

/-- Where two limits leave room they are the same to closing. -/
theorem close_limit (hps : ∀ p ∈ ps, ∀ x ∈ p, x ∈ members) : ∀ (fuel fuel' : Nat) (queue closed : List Group),
    Room members ps queue closed fuel → Room members ps queue closed fuel' →
    close i ps fuel queue closed = close i ps fuel' queue closed := by
  have hnil : ∀ (fuel : Nat) (closed : List Group), close i ps fuel [] closed = closed := by
    intro fuel closed
    cases fuel <;> rfl
  intro fuel
  induction fuel with
  | zero =>
    intro fuel' queue closed h _
    rw [h.queue_nil, hnil, hnil]
  | succ fuel ih =>
    intro fuel' queue closed h h'
    rcases queue with _ | ⟨g, queue⟩
    · rw [hnil, hnil]
    rcases fuel' with _ | fuel'
    · exact absurd h'.queue_nil (List.cons_ne_nil _ _)
    rw [close, close]
    split
    · exact ih fuel' queue closed h.skip h'.skip
    · rename_i hnew
      rw [Bool.or_eq_true, decide_eq_true_eq, not_or] at hnew
      exact ih fuel' _ _ (h.close hps hnew.1) (h'.close hps hnew.1)

/-- What closing makes of the groups in the queue, next to those that were closed before. -/
structure Closes (i : Independence) (ps queue closed groups : List Group) : Prop where
  nodup : groups.Nodup
  keeps : ∀ g ∈ closed, g ∈ groups
  takes : ∀ g ∈ queue, i.separates g = false → g ∈ groups
  joins : ∀ g ∈ groups, g ∈ closed ∨ i.separates g = false ∧
    ∀ x ∈ joinedWith ps g, i.separates x = false → x ∈ groups

/-- A group that has been closed, or is separated, is passed over. -/
theorem Closes.skip (h : Closes i ps queue closed groups) (hskip : g ∈ closed ∨ i.separates g = true) :
    Closes i ps (g :: queue) closed groups := by
  refine ⟨h.nodup, h.keeps, fun x hx hsep => ?_, h.joins⟩
  rcases List.mem_cons.1 hx with rfl | hx
  · exact h.keeps x (hskip.resolve_right fun htrue => Bool.false_ne_true (hsep.symm.trans htrue))
  · exact h.takes x hx hsep

/-- Another one is closed, and what it can be joined to is put in the queue. -/
theorem Closes.close (h : Closes i ps (queue ++ joinedWith ps g) (closed ++ [g]) groups)
    (hsep : i.separates g = false) : Closes i ps (g :: queue) closed groups := by
  refine ⟨h.nodup, fun x hx => h.keeps x (List.mem_append_left _ hx), fun x hx hx' => ?_, fun x hx => ?_⟩
  · rcases List.mem_cons.1 hx with rfl | hx
    · exact h.keeps x (List.mem_append_right _ (List.mem_singleton_self x))
    · exact h.takes x (List.mem_append_left _ hx) hx'
  · rcases h.joins x hx with hold | hjoins
    · rcases List.mem_append.1 hold with hold | hone
      · exact .inl hold
      · rw [List.mem_singleton.1 hone]
        exact .inr ⟨hsep, fun y hy hy' => h.takes y (List.mem_append_right _ hy) hy'⟩
    · exact .inr hjoins

/-- Closing comes to its end: each step takes a group from the queue, and only a group that is closed for the
first time puts others there. -/
theorem close_closes (hps : ∀ p ∈ ps, ∀ x ∈ p, x ∈ members) : ∀ (fuel : Nat) (queue closed : List Group),
    Room members ps queue closed fuel → Closes i ps queue closed (close i ps fuel queue closed) := by
  intro fuel
  induction fuel with
  | zero =>
    intro queue closed h
    obtain rfl := h.queue_nil
    exact ⟨h.nodup, fun _ h => h, fun _ h => absurd h List.not_mem_nil, fun _ h => .inl h⟩
  | succ fuel ih =>
    intro queue closed h
    rcases queue with _ | ⟨g, queue⟩
    · exact ⟨h.nodup, fun _ h => h, fun _ h => absurd h List.not_mem_nil, fun _ h => .inl h⟩
    rw [close]
    split
    · rename_i hskip
      exact (ih queue closed h.skip).skip (by simpa using hskip)
    · rename_i hnew
      rw [Bool.or_eq_true, decide_eq_true_eq, not_or, Bool.not_eq_true] at hnew
      exact (ih _ _ (h.close hps hnew.1)).close hnew.2

/-- Every group is part of one that is kept. -/
theorem exists_maximal (hasc : ∀ g ∈ groups, g.Ascending) (hg : g ∈ groups) :
    ∃ h ∈ maximal groups, g.subset h = true := by
  obtain ⟨h, hh, hlongest⟩ := (groups.toFinset.filter fun h => g.subset h = true).exists_max_image List.length
    ⟨g, by simp [hg, Group.subset_iff]⟩
  simp only [Finset.mem_filter, List.mem_toFinset] at hh hlongest
  refine ⟨h, List.mem_filter.2 ⟨hh.1, ?_⟩, hh.2⟩
  rw [Bool.not_eq_true', List.any_eq_false]
  intro x hx hlarger
  rw [Bool.and_eq_true, bne_iff_ne] at hlarger
  have hlt := (hasc h hh.1).length_lt (hasc x hx) hlarger.2 hlarger.1
  have hsub : g.subset x = true :=
    Group.subset_iff.2 fun y hy => Group.subset_iff.1 hlarger.2 y (Group.subset_iff.1 hh.2 y hy)
  exact Nat.not_lt.2 (hlongest x ⟨hx, hsub⟩) hlt

/-! ### Ties -/

/-- A declaration asks two transactions to run together. -/
def Tie (d : Design) (map : CallMap) (x y : NodeId) : Prop :=
  ∃ n ∈ d.nodeList, ∃ other ∈ n.simultaneous, x ∈ map.standsFor d n.id ∧ y ∈ map.standsFor d other

/-- What the groups of a design are. -/
structure Grouped (d : Design) (map : CallMap) (groups : List Group) : Prop where
  /-- Members of a group are tied together, and independence separates none. -/
  tied : ∀ g ∈ groups, ∀ x ∈ g, ∀ y ∈ g, Relation.EqvGen (Tie d map) x y
  together : ∀ g ∈ groups, ∀ x ∈ g, ∀ y ∈ g, x ≠ y → ¬ (Independence.collect d map).Apart x y
  /-- Two transactions that are tied are in a group. -/
  covers : ∀ x y, Tie d map x y → x ≠ y → ¬ (Independence.collect d map).Apart x y → ∃ g ∈ groups, x ∈ g ∧ y ∈ g
  /-- A group that has one of them has the other, unless a member is independent of it. -/
  joins : ∀ g ∈ groups, ∀ x ∈ g, ∀ y, Tie d map x y ∨ Tie d map y x →
    y ∈ g ∨ ∃ z ∈ g, z ≠ y ∧ (Independence.collect d map).Apart z y

variable {d : Design} {map : CallMap}

theorem pair_of_tie {i : Independence} (h : pairs d map i = .ok ps) {x y : NodeId} (ht : Tie d map x y)
    (hne : x ≠ y) : ∃ p ∈ ps, ∀ z, z ∈ p ↔ z = x ∨ z = y := by
  obtain ⟨n, hn, other, ho, hx, hy⟩ := ht
  refine ⟨_, pairs_mem h hn ho hx hy hne, fun z => ?_⟩
  rw [Group.mem_insert, List.mem_singleton, or_comm]

theorem tie_of_pair {i : Independence} (h : pairs d map i = .ok ps) :
    ∀ p ∈ ps, p.Ascending ∧ ∀ x ∈ p, ∀ y ∈ p, Relation.EqvGen (Tie d map) x y := by
  refine pairs_all (P := fun p => p.Ascending ∧ ∀ x ∈ p, ∀ y ∈ p, Relation.EqvGen (Tie d map) x y)
    (fun n hn other ho a ha b hb _ => ⟨Group.Ascending.insert (List.pairwise_singleton _ _) b, fun x hx y hy => ?_⟩) h
  have htie : Relation.EqvGen (Tie d map) a b := .rel a b ⟨n, hn, other, ho, ha, hb⟩
  rw [Group.mem_insert, List.mem_singleton] at hx hy
  rcases hx with rfl | rfl <;> rcases hy with rfl | rfl
  · exact .refl _
  · exact htie.symm
  · exact htie
  · exact .refl _

/-- Joining keeps members tied together. -/
theorem tied_union {R : NodeId → NodeId → Prop} {g p : Group} (hg : ∀ x ∈ g, ∀ y ∈ g, Relation.EqvGen R x y)
    (hp : ∀ x ∈ p, ∀ y ∈ p, Relation.EqvGen R x y) (hshare : g.disjoint p = false) :
    ∀ x ∈ g.union p, ∀ y ∈ g.union p, Relation.EqvGen R x y := by
  obtain ⟨z, hzg, hzp⟩ := Group.shares_iff.1 hshare
  have hto : ∀ x ∈ g.union p, Relation.EqvGen R x z := fun x hx =>
    (Group.mem_union.1 hx).elim (fun hx => hg x hx z hzg) fun hx => hp x hx z hzp
  exact fun x hx y hy => (hto x hx).trans _ _ _ ((hto y hy).symm _ _)

theorem mem_of_pair : ∀ p ∈ ps, ∀ x ∈ p, x ∈ ps.foldl Group.union [] := fun p hp _ hx => Group.mem_members.2 ⟨p, hp, hx⟩

/-- The limit on steps is enough for closing the pairs. -/
theorem pairs_close (h : ∀ p ∈ ps, p.Ascending) (i : Independence) :
    Closes i ps ps [] (close i ps (closeFuel ps) ps []) :=
  close_closes mem_of_pair _ ps [] (.start h (Nat.le_refl _))

/-- No larger limit changes what closing the pairs makes. -/
theorem pairs_limit (h : ∀ p ∈ ps, p.Ascending) (i : Independence) {limit : Nat} (hlimit : closeFuel ps ≤ limit) :
    close i ps limit ps [] = close i ps (closeFuel ps) ps [] :=
  close_limit mem_of_pair limit (closeFuel ps) ps [] (.start h hlimit) (.start h (Nat.le_refl _))

/-- A kept group that shares a member with a pair has both, or independence separates what they are together. -/
theorem Closes.joined {i : Independence} {groups : List Group} (h : Closes i ps ps [] groups) {g p : Group}
    (hg : g ∈ maximal groups) (hp : p ∈ ps) (hshare : g.disjoint p = false) :
    p.subset g = true ∨ i.separates (g.union p) = true := by
  obtain ⟨hgroups, hmax⟩ := List.mem_filter.1 hg
  rw [Bool.not_eq_true', List.any_eq_false] at hmax
  by_contra hneither
  rw [not_or, Bool.not_eq_true, Bool.not_eq_true] at hneither
  obtain ⟨hnot, hsep⟩ := hneither
  have hjoin : g.union p ∈ groups :=
    ((h.joins g hgroups).resolve_left List.not_mem_nil).2 _ (mem_joinedWith.2 ⟨p, hp, ⟨hshare, hnot⟩, rfl⟩) hsep
  refine hmax _ hjoin ?_
  rw [Bool.and_eq_true, bne_iff_ne]
  refine ⟨fun he => ?_, Group.subset_iff.2 fun x hx => Group.mem_union.2 (.inl hx)⟩
  rw [Group.subset_iff.2 fun x hx => he ▸ Group.mem_union.2 (.inr hx)] at hnot
  cases hnot

/-- Where independence separates a group from one more member, the new member is one of the two. -/
theorem apart_of_union {i : Independence} {g p : Group} {y : NodeId} (hg : g.Ascending)
    (htogether : ∀ u ∈ g, ∀ v ∈ g, u ≠ v → ¬ i.Apart u v) (hp : ∀ z ∈ p, z ≠ y → z ∈ g)
    (hsep : i.separates (g.union p) = true) : ∃ z ∈ g, z ≠ y ∧ i.Apart z y := by
  obtain ⟨u, hu, v, hv, huv, hapart⟩ := (Independence.separates_iff (hg.union p)).1 hsep
  have hold : ∀ z ∈ g.union p, z ≠ y → z ∈ g := fun z hz hzy =>
    (Group.mem_union.1 hz).elim id fun hz => hp z hz hzy
  by_cases huy : u = y
  · subst huy
    exact ⟨v, hold v hv (Ne.symm huv), Ne.symm huv, hapart.symm⟩
  · by_cases hvy : v = y
    · subst hvy
      exact ⟨u, hold u hu huv, huv, hapart⟩
    · exact absurd hapart (htogether u (hold u hu huy) v (hold v hv hvy) huv)

/-- Closing the pairs makes groups of tied transactions, which grow until independence forbids it. -/
theorem groups_grouped {gs : List Group} (h : Fusion.groups d map = .ok gs) : Grouped d map gs := by
  simp only [Fusion.groups, except_bind_ok, except_pure_ok] at h
  obtain ⟨ps, hps, rfl⟩ := h
  have hpair := tie_of_pair hps
  have hcloses := pairs_close (fun p hp => (hpair p hp).1) (Independence.collect d map)
  have hall := close_all (P := fun g => g.Ascending ∧ ∀ x ∈ g, ∀ y ∈ g, Relation.EqvGen (Tie d map) x y)
    (i := Independence.collect d map) (fun g p hg hp hshare => ⟨hg.1.union p, tied_union hg.2 (hpair p hp).2 hshare⟩)
    (closeFuel ps) ps [] hpair fun _ hg => absurd hg List.not_mem_nil
  have hkept : ∀ g ∈ maximal (close (Independence.collect d map) ps (closeFuel ps) ps []),
      g ∈ close (Independence.collect d map) ps (closeFuel ps) ps [] := fun g hg => (List.mem_filter.1 hg).1
  generalize close (Independence.collect d map) ps (closeFuel ps) ps [] = r at hcloses hall hkept ⊢
  have htogether : ∀ g ∈ r, ∀ x ∈ g, ∀ y ∈ g, x ≠ y → ¬ (Independence.collect d map).Apart x y := by
    intro g hg x hx y hy hne hapart
    have hsep := ((hcloses.joins g hg).resolve_left List.not_mem_nil).1
    rw [(Independence.separates_iff (hall g hg).1).2 ⟨x, hx, y, hy, hne, hapart⟩] at hsep
    cases hsep
  refine ⟨fun g hg => (hall g (hkept g hg)).2, fun g hg => htogether g (hkept g hg),
    fun x y ht hne hfree => ?_, fun g hg x hx y ht => ?_⟩
  · obtain ⟨p, hp, hmem⟩ := pair_of_tie hps ht hne
    have hsep : (Independence.collect d map).separates p = false := by
      rw [Bool.eq_false_iff]
      intro hsep
      obtain ⟨u, hu, v, hv, huv, hapart⟩ := (Independence.separates_iff (hpair p hp).1).1 hsep
      rcases (hmem u).1 hu with rfl | rfl <;> rcases (hmem v).1 hv with rfl | rfl
      · exact huv rfl
      · exact hfree hapart
      · exact hfree hapart.symm
      · exact huv rfl
    obtain ⟨g, hg, hsub⟩ := exists_maximal (fun g hg => (hall g hg).1) (hcloses.takes p hp hsep)
    exact ⟨g, hg, Group.subset_iff.1 hsub x ((hmem x).2 (.inl rfl)), Group.subset_iff.1 hsub y ((hmem y).2 (.inr rfl))⟩
  · by_cases hy : y ∈ g
    · exact .inl hy
    have hne : x ≠ y := fun he => hy (he ▸ hx)
    obtain ⟨p, hp, hmem⟩ : ∃ p ∈ ps, ∀ z, z ∈ p ↔ z = x ∨ z = y := by
      rcases ht with ht | ht
      · exact pair_of_tie hps ht hne
      · obtain ⟨p, hp, hmem⟩ := pair_of_tie hps ht (Ne.symm hne)
        exact ⟨p, hp, fun z => (hmem z).trans or_comm⟩
    have hshare : g.disjoint p = false := Group.shares_iff.2 ⟨x, hx, (hmem x).2 (.inl rfl)⟩
    rcases hcloses.joined hg hp hshare with hsub | hsep
    · exact absurd (Group.subset_iff.1 hsub y ((hmem y).2 (.inr rfl))) hy
    refine .inr (apart_of_union (hall g (hkept g hg)).1 (htogether g (hkept g hg)) (fun z hz hzy => ?_) hsep)
    exact ((hmem z).1 hz).resolve_right hzy ▸ hx

end Fusion

end Interlock
