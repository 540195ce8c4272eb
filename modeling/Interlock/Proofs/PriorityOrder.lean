import Interlock.Proofs.Draft.DefOrder
import Interlock.Proofs.Schedule.Canonical

/-! The priority order is a topological order of the preferences between transactions, and among all of them the
first by the places of the bodies. Preferences that contradict each other are reported as a cycle. -/

namespace Interlock

namespace Design

variable {d : Design} {map : CallMap}

/-- A relation that was stated at `loc` prefers a transaction that one of its ends stands for to another one that
its other end stands for. -/
def Prefers (d : Design) (map : CallMap) (t u : NodeId) (loc : Location) : Prop :=
  ∃ r ∈ d.relations, r.loc = loc ∧ ∃ first second, preference r = some (first, second) ∧
    t ∈ map.standsFor d first ∧ u ∈ map.standsFor d second ∧ t ≠ u

/-- Some relation prefers a transaction to another. -/
def Preferred (d : Design) (map : CallMap) (t u : NodeId) : Prop := ∃ loc, d.Prefers map t u loc

/-- Of two transactions the one whose body comes first, and one with a body before one without; those that are not
told apart by this go by their numbers. -/
def Sooner (d : Design) (t u : NodeId) : Prop :=
  match (d.node t).defOrder, (d.node u).defOrder with
  | some i, some j => i < j ∨ (i = j ∧ t < u)
  | some _, none => True
  | none, some _ => False
  | none, none => t < u

/-- The places of bodies are numbers of 32 bits, of which the highest is not reached. -/
def PlacesFit (d : Design) : Prop := ∀ t k, (d.node t).defOrder = some k → k < wordLimit - 1

/-- Every preferred transaction stands before the other one. -/
def Respects (d : Design) (map : CallMap) (order : List NodeId) : Prop :=
  ∀ t u, d.Preferred map t u → [t, u].Sublist order

/-- The first of the orders that respect the preferences. -/
structure Canonical (d : Design) (map : CallMap) (order : List NodeId) : Prop where
  perm : order.Perm d.transactions
  respects : d.Respects map order
  first : d.PlacesFit → ∀ other, other.Perm d.transactions → d.Respects map other →
    order = other ∨ List.Lex d.Sooner order other

/-- The error names the transactions of one strongly connected component, of which there are two at least, and the
place of a relation between two of them. -/
def ReportsCycle (d : Design) (map : CallMap) (e : DesignError) : Prop :=
  ∃ (members : List NodeId) (loc : Location), e = .priorityCycle (members.map d.name) loc ∧
    members.Nodup ∧ 2 ≤ members.length ∧
    (∀ t ∈ members, ∀ u, u ∈ members ↔
      Relation.ReflTransGen (d.Preferred map) t u ∧ Relation.ReflTransGen (d.Preferred map) u t) ∧
    ∃ t ∈ members, ∃ u ∈ members, d.Prefers map t u loc

/-! ### The graph of preferences -/

theorem prefers_of_mem_crossPairs {r : Relation} (hr : r ∈ d.relations) {a b t u : NodeId}
    (hab : preference r = some (a, b)) (h : (t, u) ∈ crossPairs (map.standsFor d a) (map.standsFor d b)) :
    d.Prefers map t u r.loc := by
  simp only [crossPairs, List.mem_flatMap, List.mem_map, List.mem_filter, decide_eq_true_eq, Prod.mk.injEq] at h
  obtain ⟨t', ht, u', ⟨hu, hne⟩, rfl, rfl⟩ := h
  exact ⟨r, hr, rfl, a, b, hab, ht, hu, hne⟩

/-- Each edge has the place of a relation that it stands for, and each node is listed once. -/
structure Lifts (d : Design) (map : CallMap) (g : Digraph Location) : Prop where
  nodup : g.nodes.Nodup
  label : ∀ t u loc, (t, u, loc) ∈ g.edges → d.Prefers map t u loc

theorem Lifts.addPreference {g : Digraph Location} (hg : d.Lifts map g) {r : Relation} (hr : r ∈ d.relations) :
    d.Lifts map (d.addPreference map g r) := by
  unfold Design.addPreference
  split
  · exact hg
  · rename_i a b hab
    refine List.foldlRecOn (motive := d.Lifts map) _ _ hg fun g hg p hp => ?_
    refine ⟨Digraph.nodup_addEdge hg.nodup, fun t u loc he => ?_⟩
    rcases Digraph.label_addEdge he with he | ⟨rfl, rfl, rfl⟩
    · exact hg.label t u loc he
    · exact prefers_of_mem_crossPairs hr hab hp

theorem lifts_priorities : d.Lifts map (d.priorities map) := by
  refine List.foldlRecOn (motive := d.Lifts map) _ _ ⟨Digraph.nodup_ofNodes _, fun t u loc he => ?_⟩
    fun g hg r hr => hg.addPreference hr
  rw [Digraph.edges_ofNodes] at he
  exact absurd he List.not_mem_nil

theorem edge_priorities_iff {t u : NodeId} : (d.priorities map).Edge t u ↔ d.Preferred map t u := by
  constructor
  · rintro ⟨loc, he⟩
    exact ⟨loc, lifts_priorities.label t u loc he⟩
  · rintro ⟨_, r, hr, -, a, b, hab, ht, hu, hne⟩
    exact edge_priorities hr hab ht hu hne

theorem edge_priorities_eq : (d.priorities map).Edge = d.Preferred map :=
  funext fun _ => funext fun _ => propext edge_priorities_iff

theorem simple_priorities (hd : d.Sound) (hmap : map.Describes d) : (d.priorities map).Simple := by
  refine ⟨lifts_priorities.nodup, fun t u he => ?_, fun t he => ?_⟩
  · obtain ⟨_, r, hr, -, a, b, hab, ht, hu, -⟩ := edge_priorities_iff.1 he
    obtain ⟨ha, hb⟩ := preference_bounded hd hr hab
    rw [mem_priorities hd hmap, mem_priorities hd hmap]
    exact ⟨mem_standsFor hd hmap ha ht, mem_standsFor hd hmap hb hu⟩
  · obtain ⟨_, _, _, _, _, _, _, _, _, hne⟩ := edge_priorities_iff.1 he
    exact hne rfl

theorem priorities_perm (hd : d.Sound) (hmap : map.Describes d) : (d.priorities map).nodes.Perm d.transactions :=
  (List.perm_ext_iff_of_nodup lifts_priorities.nodup hd.transactions_nodup).2
    fun _ => mem_priorities hd hmap

/-! ### The order -/

theorem sooner_of_keyLe (hd : d.PlacesFit) {t u : NodeId} (h : keyLe (d.sortKey t) (d.sortKey u) = true)
    (hne : t ≠ u) : d.Sooner t u := by
  have ht := hd t
  have hu := hd u
  have hlt : t ≤ u → t < u := fun hle => Nat.lt_of_le_of_ne hle hne
  rw [keyLe_iff] at h
  unfold sortKey at h
  unfold Sooner
  cases hi : (d.node t).defOrder with
  | none =>
    cases hj : (d.node u).defOrder with
    | none =>
      simp only [hi, hj, Option.getD_none] at h
      exact hlt (h.resolve_left (Nat.lt_irrefl _)).2
    | some j =>
      have := hu j hj
      simp only [hi, hj, Option.getD_none, Option.getD_some] at h
      omega
  | some i =>
    cases hj : (d.node u).defOrder with
    | none => trivial
    | some j =>
      simp only [hi, hj, Option.getD_some] at h
      exact h.imp_right fun h => ⟨h.1, hlt h.2⟩

theorem priorityOrder_canonical (hd : d.Sound) (hmap : map.Describes d) {order : List NodeId}
    (h : d.priorityOrder (d.priorities map) = .ok order) : d.Canonical map order := by
  have hg := simple_priorities hd hmap
  have hnodes := priorities_perm hd hmap
  obtain ⟨hnodup, hmem⟩ := priorityOrder_ok h
  have hperm : order.Perm (d.priorities map).nodes := (List.perm_ext_iff_of_nodup hnodup hg.nodup).2 hmem
  refine ⟨hperm.trans hnodes, fun t u hp => priorityOrder_forward hg.within h t u (edge_priorities_iff.2 hp),
    fun hfit other hother hresp => ?_⟩
  have hother := hother.trans hnodes.symm
  have hforward : (d.priorities map).Forward other := fun t u he => hresp t u (edge_priorities_iff.1 he)
  rw [priorityOrder_eq h]
  exact takeInOrder_first (fun t u => sooner_of_keyLe hfit) hg.loopless _ _ other (Nat.le_refl _) hg.nodup hother
    (hforward.pairwise (hother.nodup_iff.2 hg.nodup))

/-! ### The cycle -/

theorem priorityOrder_reports (hd : d.Sound) (hmap : map.Describes d) {e : DesignError}
    (h : d.priorityOrder (d.priorities map) = .error e) : d.ReportsCycle map e := by
  have hg := simple_priorities hd hmap
  have hcyclic : ¬ (d.priorities map).Acyclic := fun hacyclic => by
    obtain ⟨order, horder⟩ := (priorityOrder_ok_iff hg).2 hacyclic
    exact nomatch horder.symm.trans h
  obtain ⟨a, ha, b, hne, hab⟩ := hg.exists_strong hcyclic
  obtain ⟨c, hfind, hc, hlen⟩ := Digraph.find?_component hg.within ha hne hab
  obtain ⟨x, hx, y, hy, hxy⟩ := hc.exists_edge hlen
  have hsome : ((d.priorities map).edges.find? fun e => c.contains e.1 && c.contains e.2.1).isSome = true := by
    obtain ⟨l, hl⟩ := hxy
    exact List.find?_isSome.2 ⟨_, hl, by simp [hx, hy]⟩
  obtain ⟨⟨t, u, loc⟩, hedge⟩ := Option.isSome_iff_exists.1 hsome
  have htu := List.find?_some hedge
  simp only [Bool.and_eq_true, List.contains_iff_mem] at htu
  have he : e = d.cycleError (d.priorities map) := by
    unfold priorityOrder at h
    simp only at h
    split at h
    · exact (Except.error.inj h).symm
    · cases h
  have hsort := List.mergeSort_perm c fun a b => keyLe (d.cycleKey a) (d.cycleKey b)
  refine ⟨_, loc, ?_, hsort.nodup_iff.2 hc.nodup, ?_, fun t ht u => ?_, t, hsort.mem_iff.2 htu.1, u,
    hsort.mem_iff.2 htu.2, lifts_priorities.label t u loc (List.mem_of_find?_eq_some hedge)⟩
  · rw [he, cycleError, hfind]
    simp only [Option.getD_some, hedge, Option.map_some]
  · rw [hsort.length_eq]
    exact hlen
  · rw [hsort.mem_iff, hc.strong t (hsort.mem_iff.1 ht) u, Digraph.Strong, edge_priorities_eq]

end Design

/-- The places of bodies fit where the nodes can be counted, before the design is fused and after. -/
theorem Draft.Recorded.placesFit {d : Draft} (hd : d.Recorded) (hsize : d.design.nodes.size < wordLimit) :
    d.design.PlacesFit ∧ ∀ f, Attempt.Gives d.design.fused f → f.design.PlacesFit :=
  ⟨fun _ _ hk => Nat.lt_of_lt_of_le (hd.place_lt hk) (Nat.le_sub_one_of_lt hsize),
    fun _ hf _ _ hk => Nat.lt_of_lt_of_le (hd.fused_place_lt hf hk) (Nat.le_sub_one_of_lt hsize)⟩

/-- Preferences can be met exactly where they do not lead in a circle. The order that meets them holds every
transaction once, puts preferred ones first and is the first of all such orders; otherwise a strongly connected
component of the preferences is reported, at a relation between two of its members. -/
theorem priority_order_canonical {d : Design} (hd : d.Sound) {map : CallMap}
    (hmap : Attempt.Gives (CallMap.build d) map) :
    ((∃ order, d.priorityOrder (d.priorities map) = .ok order) ↔
        ∀ t, ¬ Relation.TransGen (d.Preferred map) t t) ∧
      (∀ order, d.priorityOrder (d.priorities map) = .ok order → d.Canonical map order) ∧
      ∀ e, d.priorityOrder (d.priorities map) = .error e → d.ReportsCycle map e := by
  have hdescribes := CallMap.build_ok hmap
  refine ⟨?_, fun order => Design.priorityOrder_canonical hd hdescribes,
    fun e => Design.priorityOrder_reports hd hdescribes⟩
  rw [Design.priorityOrder_ok_iff (Design.simple_priorities hd hdescribes), Digraph.Acyclic,
    Design.edge_priorities_eq]

namespace Draft

/-- Three transactions: the body of `B` comes before that of `A`, and `C` has none but is preferred to `B`. -/
def preferring : List Action :=
  [.transaction "A" .generated, .transaction "B" .generated, .transaction "C" .generated, .openModule "",
    .inModule 0 (.openTransaction 1 .one .generated), .inModule 0 .leaveBody,
    .inModule 0 (.openTransaction 0 .one .generated), .inModule 0 .leaveBody,
    .before 2 1 false .generated]

end Draft

/-- `C` keeps `B` back, so `A` comes first. With the opposite preference as well there is no order. -/
theorem priority_order_canonical_of_preferring :
    (∃ map, Attempt.Gives (CallMap.build (Draft.of Draft.preferring).design) map ∧
      (Draft.of Draft.preferring).design.priorityOrder ((Draft.of Draft.preferring).design.priorities map) =
        .ok [0, 2, 1] ∧
      (Draft.of Draft.preferring).design.PlacesFit ∧ (Draft.of Draft.preferring).design.Canonical map [0, 2, 1]) ∧
    ∃ d map e, d = (Draft.of (Draft.preferring ++ [.conflict 1 2 .left .generated])).design ∧
      Attempt.Gives (CallMap.build d) map ∧ d.priorityOrder (d.priorities map) = .error e ∧ d.ReportsCycle map e := by
  have hrec : (Draft.of Draft.preferring).Recorded := Draft.recorded_of (by decide +kernel)
  have hrec' : (Draft.of (Draft.preferring ++ [.conflict 1 2 .left .generated])).Recorded :=
    Draft.recorded_of (by decide +kernel)
  have hmap : ∃ map ∈ (CallMap.build (Draft.of Draft.preferring).design).result?,
      (Draft.of Draft.preferring).design.priorityOrder ((Draft.of Draft.preferring).design.priorities map) =
        .ok [0, 2, 1] := by
    decide +kernel
  generalize hd : (Draft.of (Draft.preferring ++ [.conflict 1 2 .left .generated])).design = d
  have hmap' : ∃ map ∈ (CallMap.build d).result?, (d.priorityOrder (d.priorities map)).toOption = none := by
    rw [← hd]
    decide +kernel
  obtain ⟨map, hgives, horder⟩ := hmap
  obtain ⟨map', hgives', hnone⟩ := hmap'
  rw [Option.mem_def, Attempt.result?_eq_some] at hgives hgives'
  refine ⟨⟨map, hgives, horder, (hrec.placesFit (by decide +kernel)).1,
    (priority_order_canonical hrec.sound hgives).2.1 _ horder⟩, ?_⟩
  cases hcycle : d.priorityOrder (d.priorities map') with
  | ok order =>
    rw [hcycle] at hnone
    cases hnone
  | error e =>
    exact ⟨d, map', e, rfl, hgives', hcycle, (priority_order_canonical (hd ▸ hrec'.sound) hgives').2.2 e hcycle⟩

end Interlock
