import Interlock.Proofs.Fusion.Closure
import Interlock.Proofs.FusedUnits

/-! Simultaneity that a draft declares. Two transactions that are tied are in the same groups, unless a third is
independent of one of them; and transactions in the same groups run in the same cycles. Where independence cuts
a group in two, a transaction can run with some of the others that it was declared to run with and without the
rest. -/

namespace Interlock

namespace Design

theorem fused_grouped {d : Design} {f : Fused} (hd : d.Sound) (h : Attempt.Gives d.fused f) {map : CallMap}
    (hmap : Attempt.Gives (CallMap.build d) map) : Fusion.Grouped d map (f.groups.map (·.members)) := by
  obtain ⟨map', groups, hmap', hgroups, hfused, -⟩ := fused_steps h
  have hmembers := (Fusion.fuse_unites hd.prune
    (Fusion.groups_within hd.prune (CallMap.build_ok hmap') hgroups)).2
  rw [CallMap.build_prune] at hmap'
  obtain rfl := hmap.unique hmap'
  rw [hfused, hmembers]
  exact Fusion.groups_grouped hgroups

theorem Sound.standsFor {d : Design} (hd : d.Sound) (map : CallMap) {t : NodeId} (ht : t ∈ d.transactions) :
    map.standsFor d t = [t] := by
  obtain ⟨info, htr⟩ := hd.transaction ht
  rw [CallMap.standsFor, Node.isTransaction, htr.transaction?]
  rfl

/-- Transactions that are tied run in the same cycles where none that is tied to them is independent of one of
them. -/
theorem Circuit.tied_granted {f : Fused} {d d' : Design} {s : Schedule} {l : List GuardedAssign} {k : Kernel}
    (h : Circuit f.design f.map s d' l) (hk : Kernel.Reachable d'.lowered k) (hf : f.StemsFrom d)
    {map : CallMap} (hgroups : Fusion.Grouped d map (f.groups.map (·.members))) {a b : NodeId}
    (htie : Fusion.Tie d map a b)
    (hfree : ∀ x, Relation.EqvGen (Fusion.Tie d map) x a → ∀ y, y = a ∨ y = b → x ≠ y →
      ¬ (Independence.collect d map).Apart x y) : d.Granted k a ↔ d.Granted k b := by
  by_cases hab : a = b
  · rw [hab]
  obtain ⟨members, hmem, ha, hb⟩ := hgroups.covers a b htie hab (hfree a (.refl a) b (.inr rfl) hab)
  obtain ⟨g, hg, rfl⟩ := List.mem_map.1 hmem
  rw [h.member_granted hk hf hg ha, h.member_granted hk hf hg hb]
  refine exists_congr fun g' => and_congr_right fun hg' => and_congr_left fun _ => ⟨fun ha' => ?_, fun hb' => ?_⟩
  · refine (hgroups.joins _ (List.mem_map_of_mem hg') a ha' b (.inl htie)).resolve_right ?_
    rintro ⟨z, hz, hne, hapart⟩
    exact hfree z (hgroups.tied _ (List.mem_map_of_mem hg') z hz a ha') b (.inr rfl) hne hapart
  · refine (hgroups.joins _ (List.mem_map_of_mem hg') b hb' a (.inr htie)).resolve_right ?_
    rintro ⟨z, hz, hne, hapart⟩
    have hzb := hgroups.tied _ (List.mem_map_of_mem hg') z hz b hb'
    exact hfree z (hzb.trans _ _ _ (.symm _ _ (.rel _ _ htie))) a (.inl rfl) hne hapart

end Design

namespace Draft

/-- The draft has been told that `a` has to run exactly where all the others do. -/
def Simultaneous (d : Draft) (a : NodeId) (others : List NodeId) : Prop :=
  ∃ config before after, (start config).run (before ++ .simultaneous a others :: after) = some d

theorem simultaneous_of {a : NodeId} {others : List NodeId} {before after : List Action}
    (h : ((start {}).run (before ++ .simultaneous a others :: after)).isSome = true) :
    (of (before ++ .simultaneous a others :: after)).Simultaneous a others := took_of h

theorem Simultaneous.recorded {d : Draft} {a : NodeId} {others : List NodeId} (h : d.Simultaneous a others) :
    d.Recorded := Took.recorded h

theorem simultaneous_listed {d : Design} {a : NodeId} (ha : a < d.nodes.size) (others : List NodeId) :
    ∃ n, (d.simultaneous a others).nodes.get? a = some n ∧ others ⊆ n.simultaneous := by
  obtain ⟨n, hn⟩ := Arena.exists_get? ha
  refine ⟨{ n with simultaneous := n.simultaneous ++ others }, ?_, List.subset_append_right ..⟩
  simp only [Design.simultaneous]
  rw [Design.get?_modifyNode, if_pos rfl, hn, Option.map_some]

/-- What a node lists, it lists after it has evolved. -/
theorem listed_of_evolves {d d' : Design} {a : NodeId} {others : List NodeId} (h : d.Evolves d')
    (ha : ∃ n, d.nodes.get? a = some n ∧ others ⊆ n.simultaneous) :
    ∃ n, d'.nodes.get? a = some n ∧ others ⊆ n.simultaneous := by
  obtain ⟨n, hn, hlisted⟩ := ha
  obtain ⟨n', hn', hevolves⟩ := h.old a n hn
  exact ⟨n', hn', fun b hb => hevolves.simultaneous (hlisted hb)⟩

theorem Simultaneous.listed {d : Draft} {a : NodeId} {others : List NodeId} (h : d.Simultaneous a others) :
    ∃ n, d.design.nodes.get? a = some n ∧ others ⊆ n.simultaneous := by
  obtain ⟨d₁, d₂, hstep, hevolves⟩ := Took.evolves h
  simp only [step, declares, List.all_cons, Bool.and_eq_true, decide_eq_true_eq, Option.ite_none_right_eq_some,
    Option.some.injEq] at hstep
  obtain ⟨hdeclared, rfl⟩ := hstep
  exact listed_of_evolves hevolves (simultaneous_listed hdeclared.1 others)

end Draft

/-- With either scheduler and in every state that inputs and clock edges lead to, a transaction that was declared
to run together with others runs exactly where all of them do, provided that no transaction that declarations
tie to it is independent of it or of one of them. -/
theorem simultaneous_run_together {d : Draft} {a : NodeId} {others : List NodeId} (hd : d.Simultaneous a others)
    (ha : a ∈ d.design.transactions) (hothers : ∀ b ∈ others, b ∈ d.design.transactions) (hne : others ≠ [])
    {map : CallMap} (hmap : Attempt.Gives (CallMap.build d.design) map)
    (hfree : ∀ x, Relation.EqvGen (Fusion.Tie d.design map) x a → ∀ y ∈ a :: others, x ≠ y →
      ¬ (Independence.collect d.design map).Apart x y)
    {sink sink' : DiagnosticSink} {e : Elaborated} (he : d.design.elaborate sink = .ok (.ok e, sink'))
    {f : Design.Fused} (hf : Attempt.Gives d.design.fused f) {s : Schedule}
    (hs : f.design.schedule f.map = .ok s) {k : Kernel} (hk : Kernel.Reachable e.netlist k) :
    d.design.Granted k a ↔ ∀ b ∈ others, d.design.Granted k b := by
  have hrec := hd.recorded
  obtain ⟨d', l, h, hnetlist⟩ := Design.elaborate_circuit hrec.sound he hf hs
  rw [hnetlist] at hk
  obtain ⟨n, hn, hlisted⟩ := hd.listed
  have hid := (hrec.sound.nodes a n hn).id
  have hpair : ∀ b ∈ others, (d.design.Granted k a ↔ d.design.Granted k b) := by
    intro b hb
    have htie : Fusion.Tie d.design map a b := by
      refine ⟨n, Arena.mem_toList.2 ⟨a, hn⟩, b, hlisted hb, ?_, ?_⟩
      · rw [hid, hrec.sound.standsFor map ha]
        exact List.mem_singleton_self a
      · rw [hrec.sound.standsFor map (hothers b hb)]
        exact List.mem_singleton_self b
    refine h.tied_granted hk (hrec.stemsFrom hf) (Design.fused_grouped hrec.sound hf hmap) htie
      fun x hx y hy => hfree x hx y ?_
    rcases hy with rfl | rfl
    · exact List.mem_cons_self ..
    · exact List.mem_cons_of_mem _ hb
  refine ⟨fun hgrant b hb => (hpair b hb).1 hgrant, fun hall => ?_⟩
  obtain ⟨b, hb⟩ := List.exists_mem_of_ne_nil others hne
  exact (hpair b hb).2 (hall b hb)

namespace Draft

/-- A transaction that has to run exactly where two others do. -/
def united : List Action :=
  [.transaction "A" .generated, .transaction "B" .generated, .transaction "C" .generated] ++
    .simultaneous 0 [1, 2] ::
    [.openModule "",
      .inModule 0 (.openTransaction 0 .one .generated), .inModule 0 .leaveBody,
      .inModule 0 (.openTransaction 1 .one .generated), .inModule 0 .leaveBody,
      .inModule 0 (.openTransaction 2 .one .generated), .inModule 0 .leaveBody]

/-- The same, but the two others call one exclusive method. -/
def rivals : List Action :=
  [.transaction "A" .generated, .transaction "B" .generated, .transaction "C" .generated,
    .method { name := "m" } .generated] ++
    .simultaneous 0 [1, 2] ::
    [.openModule "",
      .inModule 0 (.openMethod 3 .one none .generated), .inModule 0 .leaveBody,
      .inModule 0 (.openTransaction 0 .one .generated), .inModule 0 .leaveBody,
      .inModule 0 (.openTransaction 1 .one .generated),
      .inModule 0 (.call 3 (.zero 0) .one .generated), .inModule 0 .leaveBody,
      .inModule 0 (.openTransaction 2 .one .generated),
      .inModule 0 (.call 3 (.zero 0) .one .generated), .inModule 0 .leaveBody]

end Draft

/-- `A` runs, and so both others do. -/
theorem simultaneous_run_together_of_united :
    ∃ x : Draft.Trial, (Draft.of Draft.united).trial? = some x ∧
      (Draft.of Draft.united).design.Granted x.kernel 0 ∧
      ∀ b ∈ [1, 2], (Draft.of Draft.united).design.Granted x.kernel b := by
  have hsim : (Draft.of Draft.united).Simultaneous 0 [1, 2] := Draft.simultaneous_of (by decide +kernel)
  have htrial : ∃ x ∈ (Draft.of Draft.united).trial?, (Draft.of Draft.united).design.transactions = [0, 1, 2] ∧
      (Draft.of Draft.united).design.Granted x.kernel 0 := by
    decide +kernel
  have hfree : ∃ map ∈ (CallMap.build (Draft.of Draft.united).design).result?,
      (Independence.collect (Draft.of Draft.united).design map).declared = [] ∧
      (Independence.collect (Draft.of Draft.united).design map).derived = [] := by
    decide +kernel
  obtain ⟨x, hx, htr, hgrant⟩ := htrial
  obtain ⟨map, hmap, hdeclared, hderived⟩ := hfree
  obtain ⟨hf, hs, he, hk⟩ := Draft.trial_ok hx
  refine ⟨x, hx, hgrant, (simultaneous_run_together hsim (by rw [htr]; decide) (fun b hb => ?_) (by decide)
    (Attempt.result?_eq_some.1 hmap) (fun y _ z _ _ hapart => ?_) he hf hs hk).1 hgrant⟩
  · rw [htr]
    exact List.mem_cons_of_mem 0 hb
  · rw [Independence.Apart, hdeclared, hderived] at hapart
    simp [Independence.holds] at hapart

/-- `A` and `B` run, and `C` does not: `B` and `C` call one exclusive method, so that there is a group of `A`
and `B` and one of `A` and `C`. -/
theorem not_together_of_rivals :
    ∃ x : Draft.Trial, (Draft.of Draft.rivals).Simultaneous 0 [1, 2] ∧ (Draft.of Draft.rivals).trial? = some x ∧
      (Draft.of Draft.rivals).design.transactions = [0, 1, 2] ∧ (Draft.of Draft.rivals).design.Granted x.kernel 0 ∧
      ¬ (Draft.of Draft.rivals).design.Granted x.kernel 2 := by
  have hsim : (Draft.of Draft.rivals).Simultaneous 0 [1, 2] := Draft.simultaneous_of (by decide +kernel)
  have htrial : ∃ x ∈ (Draft.of Draft.rivals).trial?, (Draft.of Draft.rivals).design.transactions = [0, 1, 2] ∧
      (Draft.of Draft.rivals).design.Granted x.kernel 0 ∧ ¬ (Draft.of Draft.rivals).design.Granted x.kernel 2 := by
    decide +kernel
  obtain ⟨x, hx, hrun⟩ := htrial
  exact ⟨x, hsim, hx, hrun⟩

end Interlock
