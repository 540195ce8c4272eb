import Interlock.Proofs.CallMap
import Interlock.Proofs.FusedUnits
import Interlock.Proofs.Fusion.Closure

/-! The groups of transactions that have to run together, described without the way in which they are found. A set
of transactions can be fused if declarations ask for pairs in it that link all of it, and no two of its members
are independent; the groups are the largest such sets, each of them once. -/

namespace Interlock

theorem Node.isTransaction_iff {n : Node} : n.isTransaction = true ↔ n.method? = none := by
  unfold isTransaction transaction? method?
  cases n.kind <;> simp

namespace Independence

theorem holds_iff {pairs : List (NodeId × NodeId)} {a b : NodeId} :
    holds pairs a b = true ↔ (a, b) ∈ pairs ∨ (b, a) ∈ pairs := by
  simp only [holds, List.any_eq_true, Bool.or_eq_true, beq_iff_eq, and_or_left, exists_or, exists_eq_right]

/-- Any two members of a list are a pair of it. -/
theorem holds_allPairs {l : List NodeId} {a b : NodeId} (hne : a ≠ b) :
    holds (allPairs l) a b = true ↔ a ∈ l ∧ b ∈ l := by
  rw [holds_iff]
  refine ⟨fun h => ?_, fun ⟨ha, hb⟩ => allPairs_total ha hb hne⟩
  rcases h with h | h <;> obtain ⟨pre, mid, post, rfl⟩ := mem_allPairs.1 h <;> simp

theorem holds_flatMap {α : Type} {l : List α} {f : α → List (NodeId × NodeId)} {a b : NodeId} :
    holds (l.flatMap f) a b = true ↔ ∃ x ∈ l, holds (f x) a b = true := by
  simp only [holds_iff, List.mem_flatMap]
  constructor
  · rintro (⟨x, hx, h⟩ | ⟨x, hx, h⟩)
    · exact ⟨x, hx, .inl h⟩
    · exact ⟨x, hx, .inr h⟩
  · rintro ⟨x, hx, h | h⟩
    · exact .inl ⟨x, hx, h⟩
    · exact .inr ⟨x, hx, h⟩

end Independence

namespace Design

variable {d : Design} {map : CallMap} {x y : NodeId}

/-- A declaration asks two nodes to run together, for each of which one of the transactions stands. -/
def Asked (d : Design) (x y : NodeId) : Prop :=
  ∃ n ∈ d.nodeList, ∃ other ∈ n.simultaneous,
    Relation.ReflTransGen d.Calls x n.id ∧ Relation.ReflTransGen d.Calls y other

/-- Two transactions must not run together: each stands for one of the nodes that a declaration keeps apart, or both
reach an exclusive method. -/
def Independent (d : Design) (x y : NodeId) : Prop :=
  (∃ n ∈ d.nodeList, n.independent ≠ [] ∧
    (∃ a ∈ n.id :: n.independent, Relation.ReflTransGen d.Calls x a) ∧
    ∃ b ∈ n.id :: n.independent, Relation.ReflTransGen d.Calls y b) ∨
  ∃ m info, (d.node m).method? = some info ∧ info.nonexclusive = false ∧
    Relation.TransGen d.Calls x m ∧ Relation.TransGen d.Calls y m

/-- A transaction stands for itself and for the methods to which its calls lead. -/
theorem Sound.mem_standsFor_iff (hd : d.Sound) (hmap : map.Describes d) {id : NodeId} (hx : x ∈ d.transactions) :
    x ∈ map.standsFor d id ↔ Relation.ReflTransGen d.Calls x id := by
  unfold CallMap.standsFor
  split
  · rename_i hid
    rw [List.mem_singleton]
    refine ⟨fun he => he ▸ .refl, fun h => ?_⟩
    rcases h.cases_tail with he | ⟨c, -, -, info, hinfo⟩
    · exact he.symm
    · rw [Node.isTransaction_iff, hinfo] at hid
      exact nomatch hid
  · rename_i hid
    rw [CallMap.mem_transactionsOf_iff, hmap.mem_methodsOf_iff, and_iff_right hx]
    refine ⟨Relation.TransGen.to_reflTransGen, fun h => ?_⟩
    rcases Relation.reflTransGen_iff_eq_or_transGen.1 h with rfl | h
    · obtain ⟨info, htr⟩ := hd.transaction hx
      rw [Node.isTransaction, htr.transaction?] at hid
      exact absurd rfl hid
    · exact h

theorem Sound.tie_iff (hd : d.Sound) (hmap : map.Describes d) (hx : x ∈ d.transactions) (hy : y ∈ d.transactions) :
    Fusion.Tie d map x y ↔ d.Asked x y := by
  unfold Fusion.Tie Asked
  simp only [hd.mem_standsFor_iff hmap hx, hd.mem_standsFor_iff hmap hy]

theorem Sound.mem_declared_iff (hd : d.Sound) (hmap : map.Describes d) (hx : x ∈ d.transactions) (hy : y ∈ d.transactions)
    (hne : x ≠ y) : Independence.holds (Independence.collect d map).declared x y = true ↔
      ∃ n ∈ d.nodeList, n.independent ≠ [] ∧ (∃ a ∈ n.id :: n.independent, Relation.ReflTransGen d.Calls x a) ∧
        ∃ b ∈ n.id :: n.independent, Relation.ReflTransGen d.Calls y b := by
  rw [Independence.collect, Independence.holds_flatMap]
  refine exists_congr fun n => and_congr_right fun _ => ?_
  unfold Independence.declaredBy
  by_cases hempty : n.independent = []
  · simp [hempty, Independence.holds]
  · rw [if_neg (mt List.isEmpty_iff.1 hempty), Independence.holds_allPairs hne, List.mem_flatMap, List.mem_flatMap]
    simp only [hd.mem_standsFor_iff hmap hx, hd.mem_standsFor_iff hmap hy]
    exact (and_iff_right hempty).symm

theorem Sound.mem_derived_iff (hd : d.Sound) (hmap : map.Describes d) (hx : x ∈ d.transactions) (hy : y ∈ d.transactions)
    (hne : x ≠ y) : Independence.holds (Independence.collect d map).derived x y = true ↔
      ∃ m info, (d.node m).method? = some info ∧ info.nonexclusive = false ∧
        Relation.TransGen d.Calls x m ∧ Relation.TransGen d.Calls y m := by
  have hreach : ∀ m, Independence.holds (allPairs (map.transactionsOf m)) x y = true ↔
      Relation.TransGen d.Calls x m ∧ Relation.TransGen d.Calls y m := by
    intro m
    rw [Independence.holds_allPairs hne, CallMap.mem_transactionsOf_iff, CallMap.mem_transactionsOf_iff,
      hmap.mem_methodsOf_iff, hmap.mem_methodsOf_iff, and_iff_right hx, and_iff_right hy]
  rw [Independence.collect, Independence.holds_flatMap]
  constructor
  · rintro ⟨n, hn, h⟩
    obtain ⟨j, hj⟩ := Arena.mem_toList.1 hn
    obtain rfl := (hd.nodes j n hj).id
    unfold Independence.derivedBy at h
    split at h
    · rename_i info hinfo
      split_ifs at h with hnonexclusive
      · cases h
      · refine ⟨n.id, info, ?_, Bool.eq_false_iff.2 hnonexclusive, (hreach n.id).1 h⟩
        rwa [node_of_get? hj]
    · cases h
  · rintro ⟨m, info, hinfo, hexclusive, h⟩
    obtain ⟨n, hn, hnode, -⟩ := get?_of_method hinfo
    obtain rfl := (hd.nodes m n hn).id
    refine ⟨n, Arena.mem_toList.2 ⟨n.id, hn⟩, ?_⟩
    rw [Independence.derivedBy, ← hnode, hinfo]
    simp only [hexclusive, Bool.false_eq_true, if_false]
    rw [hnode]
    exact (hreach n.id).2 h

theorem Sound.apart_iff (hd : d.Sound) (hmap : map.Describes d) (hx : x ∈ d.transactions) (hy : y ∈ d.transactions)
    (hne : x ≠ y) : (Independence.collect d map).Apart x y ↔ d.Independent x y :=
  or_congr (hd.mem_declared_iff hmap hx hy hne) (hd.mem_derived_iff hmap hx hy hne)

end Design

namespace Fusion

variable {d : Design} {map : CallMap} {S T : Finset NodeId} {ps r : List Group} {g p : Group} {x y z : NodeId}

/-! ### Sets that can be fused -/

/-- A declaration asks for two members to run together. -/
def AskedIn (d : Design) (S : Finset NodeId) (x y : NodeId) : Prop := x ∈ S ∧ y ∈ S ∧ d.Asked x y

/-- At least two transactions that are linked by the pairs among them for which declarations ask. -/
structure Linked (d : Design) (S : Finset NodeId) : Prop where
  transactions : ∀ x ∈ S, x ∈ d.transactions
  several : 1 < S.card
  tied : ∀ x ∈ S, ∀ y ∈ S, Relation.EqvGen (AskedIn d S) x y

/-- Linked transactions of which no two are independent. -/
structure Fusible (d : Design) (S : Finset NodeId) : Prop extends Linked d S where
  together : ∀ x ∈ S, ∀ y ∈ S, x ≠ y → ¬ d.Independent x y

theorem AskedIn.mono (hsub : S ⊆ T) (h : AskedIn d S x y) : AskedIn d T x y := ⟨hsub h.1, hsub h.2.1, h.2.2⟩

theorem Linked.pair (hx : x ∈ d.transactions) (hy : y ∈ d.transactions) (hne : x ≠ y) (h : d.Asked x y) :
    Linked d {x, y} := by
  have htie : Relation.EqvGen (AskedIn d {x, y}) x y := .rel x y ⟨by simp, by simp, h⟩
  refine ⟨by simp [hx, hy], by simp [Finset.card_pair hne], fun a ha b hb => ?_⟩
  rw [Finset.mem_insert, Finset.mem_singleton] at ha hb
  rcases ha with rfl | rfl <;> rcases hb with rfl | rfl
  · exact .refl _
  · exact htie
  · exact htie.symm
  · exact .refl _

/-- Linked sets that share a member are linked together. -/
theorem Linked.union (hS : Linked d S) (hT : Linked d T) (hz : z ∈ S) (hz' : z ∈ T) : Linked d (S ∪ T) := by
  refine ⟨fun x hx => ?_, Nat.lt_of_lt_of_le hS.several (Finset.card_le_card Finset.subset_union_left), ?_⟩
  · exact (Finset.mem_union.1 hx).elim (hS.transactions x) (hT.transactions x)
  · have hto : ∀ x ∈ S ∪ T, Relation.EqvGen (AskedIn d (S ∪ T)) x z := by
      intro x hx
      rcases Finset.mem_union.1 hx with hx | hx
      · exact (hS.tied x hx z hz).mono fun _ _ => AskedIn.mono Finset.subset_union_left
      · exact (hT.tied x hx z hz').mono fun _ _ => AskedIn.mono Finset.subset_union_right
    exact fun x hx y hy => (hto x hx).trans _ _ _ ((hto y hy).symm _ _)

/-- A pair leads out of any part of a linked set that is not all of it. -/
theorem Linked.leaves (hS : Linked d S) {P : NodeId → Prop} (hx : x ∈ S) (hPx : P x) (hy : y ∈ S) (hPy : ¬ P y) :
    ∃ a b, P a ∧ ¬ P b ∧ (AskedIn d S a b ∨ AskedIn d S b a) := by
  by_contra hnone
  have hagree : ∀ a b, AskedIn d S a b → (P a ↔ P b) := fun a b h =>
    ⟨fun ha => by_contra fun hb => hnone ⟨a, b, ha, hb, .inl h⟩,
      fun hb => by_contra fun ha => hnone ⟨b, a, hb, ha, .inr h⟩⟩
  have hiff : ∀ {a b}, Relation.EqvGen (AskedIn d S) a b → (P a ↔ P b) := by
    intro a b h
    induction h with
    | rel a b h => exact hagree a b h
    | refl a => exact .rfl
    | symm a b _ ih => exact ih.symm
    | trans a b c _ _ ih ih' => exact ih.trans ih'
  exact hPy ((hiff (hS.tied x hx y hy)).1 hPx)

/-! ### Closed groups -/

theorem toFinset_union (g p : Group) : (g.union p).toFinset = g.toFinset ∪ p.toFinset := by
  ext x
  simp [Group.mem_union]

theorem pairs_linked (hd : d.Sound) (hmap : map.Describes d) {i : Independence} (h : pairs d map i = .ok ps) :
    ∀ p ∈ ps, p.Ascending ∧ Linked d p.toFinset := by
  refine pairs_all (P := fun p => p.Ascending ∧ Linked d p.toFinset) (fun n hn other ho a ha b hb hne => ?_) h
  have hfinset : (Group.insert b [a]).toFinset = {a, b} := by
    ext x
    simp [Group.mem_insert, or_comm]
  obtain ⟨j, hj⟩ := Arena.mem_toList.1 hn
  have hnode := hd.nodes j n hj
  have hat : a ∈ d.transactions := Design.mem_standsFor hd hmap (hnode.id.symm ▸ Arena.lt_of_get? hj) ha
  have hbt : b ∈ d.transactions := Design.mem_standsFor hd hmap (hnode.simultaneous other ho) hb
  rw [hfinset]
  exact ⟨.insert (List.pairwise_singleton _ _) b,
    .pair hat hbt hne ((hd.tie_iff hmap hat hbt).1 ⟨n, hn, other, ho, ha, hb⟩)⟩

/-- Closing makes linked sets of the pairs. -/
theorem close_linked (hpairs : ∀ p ∈ ps, p.Ascending ∧ Linked d p.toFinset) (i : Independence) (limit : Nat) :
    ∀ g ∈ close i ps limit ps [], g.Ascending ∧ Linked d g.toFinset := by
  refine close_all (P := fun g => g.Ascending ∧ Linked d g.toFinset) (fun g p hg hp hshare => ⟨hg.1.union p, ?_⟩)
    limit ps [] hpairs fun _ hg => absurd hg List.not_mem_nil
  obtain ⟨z, hzg, hzp⟩ := Group.shares_iff.1 hshare
  rw [toFinset_union]
  exact hg.2.union (hpairs p hp).2 (List.mem_toFinset.2 hzg) (List.mem_toFinset.2 hzp)

/-- Independence separates a group of transactions where two members are independent. -/
theorem separates_eq_false_iff (hd : d.Sound) (hmap : map.Describes d) (hg : g.Ascending)
    (htr : ∀ x ∈ g, x ∈ d.transactions) : (Independence.collect d map).separates g = false ↔
      ∀ x ∈ g, ∀ y ∈ g, x ≠ y → ¬ d.Independent x y := by
  rw [Bool.eq_false_iff, ne_eq, Independence.separates_iff hg]
  constructor
  · exact fun h x hx y hy hne hind => h ⟨x, hx, y, hy, hne, (hd.apart_iff hmap (htr x hx) (htr y hy) hne).2 hind⟩
  · rintro h ⟨x, hx, y, hy, hne, hapart⟩
    exact h x hx y hy hne ((hd.apart_iff hmap (htr x hx) (htr y hy) hne).1 hapart)

/-- Any part of a set that can be fused stays together. -/
theorem Fusible.not_separated (hS : Fusible d S) (hd : d.Sound) (hmap : map.Describes d) (hg : g.Ascending)
    (hsub : g.toFinset ⊆ S) : (Independence.collect d map).separates g = false := by
  have hmem : ∀ x ∈ g, x ∈ S := fun x hx => hsub (List.mem_toFinset.2 hx)
  exact (separates_eq_false_iff hd hmap hg fun x hx => hS.transactions x (hmem x hx)).2
    fun x hx y hy => hS.together x (hmem x hx) y (hmem y hy)

theorem Closes.fusible (h : Closes (Independence.collect d map) ps ps [] r) (hd : d.Sound) (hmap : map.Describes d)
    (hlinked : ∀ g ∈ r, g.Ascending ∧ Linked d g.toFinset) (hg : g ∈ r) : Fusible d g.toFinset := by
  obtain ⟨hasc, hl⟩ := hlinked g hg
  have htogether := (separates_eq_false_iff hd hmap hasc fun x hx => hl.transactions x (List.mem_toFinset.2 hx)).1
    ((h.joins g hg).resolve_left List.not_mem_nil).1
  exact ⟨hl, fun x hx y hy => htogether x (List.mem_toFinset.1 hx) y (List.mem_toFinset.1 hy)⟩

/-- A pair that leads out of a part of a set is there. -/
theorem exists_pair (hd : d.Sound) (hmap : map.Describes d) {i : Independence} (hps : pairs d map i = .ok ps)
    (hS : Linked d S) {P : NodeId → Prop} (hx : x ∈ S) (hPx : P x) (hy : y ∈ S) (hPy : ¬ P y) :
    ∃ p ∈ ps, ∃ a ∈ S, ∃ b ∈ S, P a ∧ ¬ P b ∧ ∀ z, z ∈ p ↔ z = a ∨ z = b := by
  obtain ⟨a, b, ha, hb, hab⟩ := hS.leaves hx hPx hy hPy
  have hne : a ≠ b := fun he => hb (he ▸ ha)
  rcases hab with ⟨haS, hbS, hasked⟩ | ⟨hbS, haS, hasked⟩
  · have htie := (hd.tie_iff hmap (hS.transactions a haS) (hS.transactions b hbS)).2 hasked
    obtain ⟨p, hp, hmem⟩ := pair_of_tie hps htie hne
    exact ⟨p, hp, a, haS, b, hbS, ha, hb, hmem⟩
  · have htie := (hd.tie_iff hmap (hS.transactions b hbS) (hS.transactions a haS)).2 hasked
    obtain ⟨p, hp, hmem⟩ := pair_of_tie hps htie hne.symm
    exact ⟨p, hp, a, haS, b, hbS, ha, hb, fun z => (hmem z).trans or_comm⟩

/-- A closed group that is not all of a set that can be fused is joined with a pair of it. -/
theorem Closes.grows (h : Closes (Independence.collect d map) ps ps [] r) (hd : d.Sound) (hmap : map.Describes d)
    (hps : pairs d map (Independence.collect d map) = .ok ps) (hasc : g.Ascending) (hS : Fusible d S) (hg : g ∈ r)
    (hne : g ≠ []) (hsub : g.toFinset ⊂ S) : ∃ g' ∈ r, g'.toFinset ⊆ S ∧ g.toFinset.card < g'.toFinset.card := by
  obtain ⟨x, hx⟩ := List.exists_mem_of_ne_nil g hne
  obtain ⟨y, hy, hyg⟩ := Finset.exists_of_ssubset hsub
  obtain ⟨p, hp, a, haS, b, hbS, hag, hbg, hmem⟩ := exists_pair hd hmap hps hS.toLinked (P := (· ∈ g))
    (hsub.1 (List.mem_toFinset.2 hx)) hx hy fun hy' => hyg (List.mem_toFinset.2 hy')
  have hshare : g.disjoint p = false := Group.shares_iff.2 ⟨a, hag, (hmem a).2 (.inl rfl)⟩
  have hnot : p.subset g = false := by
    rw [Bool.eq_false_iff]
    exact fun hs => hbg (Group.subset_iff.1 hs b ((hmem b).2 (.inr rfl)))
  have hunion : (g.union p).toFinset ⊆ S := by
    rw [toFinset_union]
    refine Finset.union_subset hsub.1 fun z hz => ?_
    rcases (hmem z).1 (List.mem_toFinset.1 hz) with rfl | rfl
    · exact haS
    · exact hbS
  have hjoined := ((h.joins g hg).resolve_left List.not_mem_nil).2 (g.union p)
    (mem_joinedWith.2 ⟨p, hp, ⟨hshare, hnot⟩, rfl⟩) (hS.not_separated hd hmap (hasc.union p) hunion)
  refine ⟨g.union p, hjoined, hunion, Finset.card_lt_card ?_⟩
  rw [toFinset_union]
  refine Finset.ssubset_iff_subset_ne.2 ⟨Finset.subset_union_left, fun he => hbg (List.mem_toFinset.1 ?_)⟩
  rw [he]
  exact Finset.mem_union_right _ (List.mem_toFinset.2 ((hmem b).2 (.inr rfl)))

/-- Every set that can be fused is closed: of the closed groups in it the largest is all of it. -/
theorem Closes.complete (h : Closes (Independence.collect d map) ps ps [] r) (hd : d.Sound) (hmap : map.Describes d)
    (hps : pairs d map (Independence.collect d map) = .ok ps)
    (hlinked : ∀ g ∈ r, g.Ascending ∧ Linked d g.toFinset) (hS : Fusible d S) : ∃ g ∈ r, g.toFinset = S := by
  have hpairs := pairs_linked hd hmap hps
  have hstart : ∃ p ∈ r, p.toFinset ⊆ S := by
    obtain ⟨x, hx, y, hy, hne⟩ := Finset.one_lt_card.1 hS.several
    obtain ⟨p, hp, a, haS, b, hbS, -, -, hmem⟩ := exists_pair hd hmap hps hS.toLinked (P := (· = x)) hx rfl hy hne.symm
    have hsub : p.toFinset ⊆ S := by
      intro z hz
      rcases (hmem z).1 (List.mem_toFinset.1 hz) with rfl | rfl
      · exact haS
      · exact hbS
    exact ⟨p, h.takes p hp (hS.not_separated hd hmap (hpairs p hp).1 hsub), hsub⟩
  obtain ⟨g₀, hg₀, hsub₀⟩ := hstart
  obtain ⟨g, hg, hlargest⟩ := (r.toFinset.filter fun g => g.toFinset ⊆ S).exists_max_image (fun g => g.toFinset.card)
    ⟨g₀, by simp [hg₀, hsub₀]⟩
  simp only [Finset.mem_filter, List.mem_toFinset] at hg hlargest
  refine ⟨g, hg.1, ?_⟩
  by_contra hne
  have hnil : g ≠ [] := by
    rintro rfl
    exact absurd (hlinked [] hg.1).2.several (by simp)
  obtain ⟨g', hg', hsub', hlt⟩ := h.grows hd hmap hps (hlinked g hg.1).1 hS hg.1 hnil
    (Finset.ssubset_iff_subset_ne.2 ⟨hg.2, hne⟩)
  exact Nat.not_lt.2 (hlargest g' ⟨hg', hsub'⟩) hlt

/-- The closed groups are the sets that can be fused, so those that are kept are the largest of these. -/
theorem Closes.maximal_iff (h : Closes (Independence.collect d map) ps ps [] r) (hd : d.Sound)
    (hmap : map.Describes d) (hps : pairs d map (Independence.collect d map) = .ok ps)
    (hlinked : ∀ g ∈ r, g.Ascending ∧ Linked d g.toFinset) :
    (∃ g ∈ maximal r, g.toFinset = S) ↔ Maximal (Fusible d) S := by
  constructor
  · rintro ⟨g, hg, rfl⟩
    obtain ⟨hg, hlargest⟩ := List.mem_filter.1 hg
    rw [Bool.not_eq_true', List.any_eq_false] at hlargest
    refine ⟨h.fusible hd hmap hlinked hg, fun T hT hsub => ?_⟩
    obtain ⟨g', hg', rfl⟩ := h.complete hd hmap hps hlinked hT
    by_contra hnot
    refine hlargest g' hg' ?_
    rw [Bool.and_eq_true, bne_iff_ne]
    exact ⟨fun he => hnot (he ▸ Finset.Subset.refl _), Group.subset_iff_toFinset.2 hsub⟩
  · rintro ⟨hS, hlargest⟩
    obtain ⟨g, hg, rfl⟩ := h.complete hd hmap hps hlinked hS
    refine ⟨g, List.mem_filter.2 ⟨hg, ?_⟩, rfl⟩
    rw [Bool.not_eq_true', List.any_eq_false]
    intro g' hg' hlarger
    rw [Bool.and_eq_true, bne_iff_ne] at hlarger
    have hsub := Group.subset_iff_toFinset.1 hlarger.2
    have hback := hlargest (h.fusible hd hmap hlinked hg') hsub
    refine hlarger.1 ((hlinked g' hg').1.ext (hlinked g hg).1 fun x => ?_)
    exact ⟨fun hx => List.mem_toFinset.1 (hback (List.mem_toFinset.2 hx)),
      fun hx => List.mem_toFinset.1 (hsub (List.mem_toFinset.2 hx))⟩

/-- The groups, with another limit on the steps of closing. -/
def groupsWithin (limit : Nat) (d : Design) (map : CallMap) : Except DesignError (List Group) := do
  let i := Independence.collect d map
  let ps ← pairs d map i
  return maximal (close i ps limit ps [])

/-- No limit beyond some number of steps is ever met. -/
theorem groupsWithin_eq (hd : d.Sound) (hmap : map.Describes d) :
    ∃ bound, ∀ limit, bound ≤ limit → groupsWithin limit d map = groups d map := by
  cases hps : pairs d map (Independence.collect d map) with
  | error e =>
    refine ⟨0, fun limit _ => ?_⟩
    rw [groupsWithin, groups, hps]
    rfl
  | ok ps =>
    refine ⟨closeFuel ps, fun limit hlimit => ?_⟩
    rw [groupsWithin, groups, hps]
    exact congrArg (fun r => Except.ok (maximal r))
      (pairs_limit (fun p hp => (pairs_linked hd hmap hps p hp).1) _ hlimit)

end Fusion

/-- The search for groups comes to an end, since no limit beyond some number of steps changes it. The groups that it
gives are the largest sets of transactions that can be fused, each of them once and in ascending order. -/
theorem maximal_groups {d : Draft} (hd : d.Recorded) {map : CallMap}
    (hmap : Attempt.Gives (CallMap.build d.design) map) :
    (∃ bound, ∀ limit, bound ≤ limit → Fusion.groupsWithin limit d.design map = Fusion.groups d.design map) ∧
      ∀ gs, Fusion.groups d.design map = .ok gs → gs.Nodup ∧ (∀ g ∈ gs, g.Ascending) ∧
        ∀ S : Finset NodeId, (∃ g ∈ gs, g.toFinset = S) ↔ Maximal (Fusion.Fusible d.design) S := by
  have hdesc := CallMap.build_ok hmap
  refine ⟨Fusion.groupsWithin_eq hd.sound hdesc, fun gs hgs => ?_⟩
  simp only [Fusion.groups, except_bind_ok, except_pure_ok] at hgs
  obtain ⟨ps, hps, rfl⟩ := hgs
  have hpairs := Fusion.pairs_linked hd.sound hdesc hps
  have hcloses := Fusion.pairs_close (fun p hp => (hpairs p hp).1) (Independence.collect d.design map)
  have hlinked := Fusion.close_linked hpairs (Independence.collect d.design map) (Fusion.closeFuel ps)
  exact ⟨hcloses.nodup.filter _, fun g hg => (hlinked g (List.mem_filter.1 hg).1).1,
    fun S => hcloses.maximal_iff hd.sound hdesc hps hlinked⟩

/-- `A` can be fused with `B` and with `C`, but not with both. -/
theorem maximal_groups_of_alternated :
    ∃ map, Attempt.Gives (CallMap.build (Draft.of Draft.alternated).design) map ∧
      Fusion.groups (Draft.of Draft.alternated).design map = .ok [[0, 1], [0, 2]] ∧
      Maximal (Fusion.Fusible (Draft.of Draft.alternated).design) {0, 1} ∧
      Maximal (Fusion.Fusible (Draft.of Draft.alternated).design) {0, 2} ∧
      ¬ Fusion.Fusible (Draft.of Draft.alternated).design {0, 1, 2} := by
  have hrec : (Draft.of Draft.alternated).Recorded := Draft.recorded_of (by decide +kernel)
  have hmap : ∃ map ∈ (CallMap.build (Draft.of Draft.alternated).design).result?,
      Fusion.groups (Draft.of Draft.alternated).design map = .ok [[0, 1], [0, 2]] := by
    decide +kernel
  obtain ⟨map, hmap, hgroups⟩ := hmap
  have hgives := Attempt.result?_eq_some.1 hmap
  obtain ⟨-, -, hmaximal⟩ := (maximal_groups hrec hgives).2 _ hgroups
  have hfirst : Maximal (Fusion.Fusible (Draft.of Draft.alternated).design) {0, 1} :=
    (hmaximal {0, 1}).1 ⟨[0, 1], by simp, by simp⟩
  have hsecond : Maximal (Fusion.Fusible (Draft.of Draft.alternated).design) {0, 2} :=
    (hmaximal {0, 2}).1 ⟨[0, 2], by simp, by simp⟩
  refine ⟨map, hgives, hgroups, hfirst, hsecond, fun hall => ?_⟩
  have hback := hfirst.le_of_ge hall (by decide)
  exact absurd hback (by decide)

end Interlock
