import Interlock.Proofs.Simultaneity
import Interlock.Proofs.SingleCall

/-! Alternatives that a draft declares. The transaction that has alternatives shares a group with each of them,
never with two. Groups that share a member call one exclusive method, and nothing merges their calls; so of all
groups that have the transaction at most one runs, and with it one alternative. An alternative that is also in
groups without the transaction can run besides. -/

namespace Interlock

namespace Independence

/-- Of the nodes that a transaction lists as independent no two may be in one group. -/
theorem apart_of_listed {d : Design} (hd : d.Sound) (map : CallMap) {first : NodeId} {n : Node}
    (hn : d.nodes.get? first = some n) {rest : List NodeId} (hrest : rest ⊆ n.independent)
    (htr : ∀ x ∈ first :: rest, x ∈ d.transactions) {x y : NodeId} (hx : x ∈ first :: rest)
    (hy : y ∈ first :: rest) (hne : x ≠ y) : (collect d map).Apart x y := by
  have hfirst := (hd.nodes first n hn).id
  have hmem : ∀ z ∈ first :: rest, z ∈ (n.id :: n.independent).flatMap (map.standsFor d) := by
    intro z hz
    refine List.mem_flatMap.2 ⟨z, ?_, ?_⟩
    · rw [hfirst]
      exact List.cons_subset_cons first hrest hz
    · rw [hd.standsFor map (htr z hz)]
      exact List.mem_singleton_self z
  have hlisted : n.independent.isEmpty = false := by
    rw [Bool.eq_false_iff, ne_eq, List.isEmpty_iff]
    intro hnil
    rw [hnil, List.subset_nil] at hrest
    rw [hrest, List.mem_singleton] at hx hy
    exact hne (hx.trans hy.symm)
  have hpair : ∀ p ∈ allPairs ((n.id :: n.independent).flatMap (map.standsFor d)), p ∈ (collect d map).declared := by
    intro p hp
    refine List.mem_flatMap.2 ⟨n, Arena.mem_toList.2 ⟨first, hn⟩, ?_⟩
    rw [declaredBy, hlisted]
    exact hp
  left
  rcases allPairs_total (hmem x hx) (hmem y hy) hne with hp | hp
  · exact List.any_eq_true.2 ⟨_, hpair _ hp, by simp⟩
  · exact List.any_eq_true.2 ⟨_, hpair _ hp, by simp⟩

end Independence

namespace Design

/-- A transaction is tied to those that it lists. -/
theorem Sound.tie {d : Design} (hd : d.Sound) (map : CallMap) {a b : NodeId} {n : Node}
    (hn : d.nodes.get? a = some n) (hb : b ∈ n.simultaneous) (ha : a ∈ d.transactions) (htr : b ∈ d.transactions) :
    Fusion.Tie d map a b := by
  refine ⟨n, Arena.mem_toList.2 ⟨a, hn⟩, b, hb, ?_, ?_⟩
  · rw [(hd.nodes a n hn).id, hd.standsFor map ha]
    exact List.mem_singleton_self a
  · rw [hd.standsFor map htr]
    exact List.mem_singleton_self b

namespace Circuit

variable {d : Draft} {f : Fused} {d' : Design} {s : Schedule} {l : List GuardedAssign} {k : Kernel}
  {g g' : Fusion.FusedGroup} {m : NodeId}

/-- Calls of transactions that call a method themselves are merged where the method takes several callers. -/
theorem merges_direct {map : CallMap} {t u : NodeId} (ht : map.ancestors t m = [m]) (hu : map.ancestors u m = [m]) :
    f.design.mergesNonexclusive map t u m = (f.design.node m).isNonexclusive := by
  simp [mergesNonexclusive, ht, hu, lastCommon]

/-- Nothing stands between the transaction of a group and a member. -/
theorem ancestors_member (h : Circuit f.design f.map s d' l) (hd : d.Recorded)
    (hf : Attempt.Gives d.design.fused f) (hg : g ∈ f.groups) (hm : m ∈ g.members) :
    f.map.ancestors g.transaction m = [m] := by
  have hstems := hd.stemsFrom hf
  have ht := hstems.unites.transactions g hg m hm
  obtain ⟨site, hsite, -⟩ := hstems.unites.site hg hm
  obtain ⟨-, r, hr, -⟩ := h.describes.covers _ (hstems.unites.transaction h.sound hg) [] m
    (.direct ((hd.callable.fused hd.sound hf).of_sites hsite))
  obtain ⟨hrt, hrm⟩ := CallMap.find?_key hr
  have hway := (h.describes.right r (List.mem_of_find?_eq_some hr)).way
  rw [hrt, hrm] at hway
  rw [CallMap.ancestors, hr]
  refine congrArg (m :: ·) ?_
  rcases hway.last h.sound with ⟨hnil, -⟩ | ⟨c, rest, -, hc, hbefore⟩
  · exact hnil
  · -- Whoever calls a member is the transaction of a group, which nobody calls.
    obtain ⟨-, info, hinfo⟩ := hbefore.calls
    obtain ⟨-, minfo, hminfo⟩ := hway.calls
    obtain ⟨⟨sites, hcalls⟩, -⟩ := h.sound.calls_of_caller hc hminfo
    obtain ⟨site, hsite⟩ := hd.exists_site hf hcalls
    obtain ⟨g', hg', -, rfl⟩ := hstems.unites.caller hstems.sound hstems.callable hstems.fuses ht hsite
    obtain ⟨tinfo, htr⟩ := h.sound.transaction (hstems.unites.transaction h.sound hg')
    rw [Node.method?, htr.kind] at hinfo
    cases hinfo

/-- The transaction of a group knows its members. -/
theorem members_eq (hf : f.StemsFrom d.design) (hg : g ∈ f.groups) (hg' : g' ∈ f.groups)
    (he : g.transaction = g'.transaction) : g.members = g'.members := by
  obtain ⟨n, -, module, hn, -, hcalls⟩ := hf.unites.calls g hg
  obtain ⟨n', -, module', hn', -, hcalls'⟩ := hf.unites.calls g' hg'
  rw [he] at hn
  obtain rfl : n = n' := Option.some.inj (hn.symm.trans hn')
  have hmap := congrArg (List.map (·.1)) (hcalls.symm.trans hcalls')
  simpa [Function.comp_def, Fusion.memberCall] using hmap

/-- Of the groups that have a member in common at most one runs. -/
theorem sole_group (h : Circuit f.design f.map s d' l) (hk : Kernel.Reachable d'.lowered k) (hd : d.Recorded)
    (hsep : d.Separate) (hf : Attempt.Gives d.design.fused f) (hg : g ∈ f.groups) (hg' : g' ∈ f.groups)
    (hm : m ∈ g.members) (hm' : m ∈ g'.members) (hruns : f.design.runs k g.transaction = true)
    (hruns' : f.design.runs k g'.transaction = true) : g.members = g'.members := by
  have hstems := hd.stemsFrom hf
  by_cases hne : g.transaction = g'.transaction
  · exact members_eq hstems hg hg' hne
  exfalso
  have ht := hstems.unites.transaction h.sound hg
  have ht' := hstems.unites.transaction h.sound hg'
  -- A member is an exclusive method, and both transactions call it themselves.
  obtain ⟨info, htr⟩ := hstems.sound.transaction (hstems.unites.transactions g hg m hm)
  have hexcl : (f.design.node m).isNonexclusive = false := by
    rw [Node.isNonexclusive, (hstems.unites.member g hg m hm info htr.kind).1]
    rfl
  have reached : ∀ {g : Fusion.FusedGroup}, g ∈ f.groups → m ∈ g.members → m ∈ f.map.methodsOf g.transaction := by
    intro g hg hm
    obtain ⟨site, hsite, -⟩ := hstems.unites.site hg hm
    exact h.describes.mem_of_way (hstems.unites.transaction h.sound hg)
      (.direct ((hd.callable.fused hd.sound hf).of_sites hsite))
  have conflicting : ∀ {g g' : Fusion.FusedGroup}, g ∈ f.groups → g' ∈ f.groups → m ∈ g.members → m ∈ g'.members →
      g.transaction ≠ g'.transaction → f.design.runs k g.transaction = true →
      f.design.runs k g'.transaction = true → f.design.conflicting f.map g.transaction g'.transaction = true := by
    intro g g' hg hg' hm hm' hne hruns hruns'
    by_contra hfree
    have hmerge := h.merges hk hd hsep hstems.fuses (hstems.unites.transaction h.sound hg)
      (hstems.unites.transaction h.sound hg') hne hruns hruns' (reached hg hm) (reached hg' hm')
      (Bool.eq_false_iff.2 hfree)
    rw [merges_direct (h.ancestors_member hd hf hg hm) (h.ancestors_member hd hf hg' hm'), hexcl] at hmerge
    cases hmerge
  exact h.apart hk (h.schedules.conflict_of ht ht' hne (conflicting hg hg' hm hm' hne hruns hruns')
    (conflicting hg' hg hm' hm (Ne.symm hne) hruns' hruns)) ⟨hruns, hruns'⟩

end Circuit

/-- A transaction has alternatives: it is tied to each, and no two of them may be in one group. -/
structure Offers (d : Design) (map : CallMap) (a : NodeId) (others : List NodeId) : Prop where
  ne : ∀ o ∈ others, o ≠ a
  tie : ∀ o ∈ others, Fusion.Tie d map a o
  apart : ∀ x ∈ others, ∀ y ∈ others, x ≠ y → (Independence.collect d map).Apart x y

namespace Offers

variable {d : Design} {map : CallMap} {a : NodeId} {others : List NodeId} {groups : List Group}

/-- Each alternative shares a group with the transaction. -/
theorem covered (h : d.Offers map a others) (hgroups : Fusion.Grouped d map groups)
    (hfree : ∀ x, Relation.EqvGen (Fusion.Tie d map) x a → x ≠ a → ¬ (Independence.collect d map).Apart x a)
    {o : NodeId} (ho : o ∈ others) : ∃ g ∈ groups, a ∈ g ∧ o ∈ g :=
  hgroups.covers a o (h.tie o ho) (Ne.symm (h.ne o ho)) fun hapart =>
    hfree o (.symm _ _ (.rel _ _ (h.tie o ho))) (h.ne o ho) hapart.symm

/-- A group with an alternative has the transaction too. -/
theorem shared (h : d.Offers map a others) (hgroups : Fusion.Grouped d map groups)
    (hfree : ∀ x, Relation.EqvGen (Fusion.Tie d map) x a → x ≠ a → ¬ (Independence.collect d map).Apart x a)
    {g : Group} (hg : g ∈ groups) {o : NodeId} (ho : o ∈ others) (hog : o ∈ g) : a ∈ g := by
  refine (hgroups.joins g hg o hog a (.inr (h.tie o ho))).resolve_right ?_
  rintro ⟨z, hz, hza, hapart⟩
  have hzo := hgroups.tied g hg z hz o hog
  exact hfree z (hzo.trans _ _ _ (.symm _ _ (.rel _ _ (h.tie o ho)))) hza hapart

/-- A group with the transaction has an alternative, if nothing else keeps some alternative out. -/
theorem offered (h : d.Offers map a others) (hgroups : Fusion.Grouped d map groups)
    (hopen : ∃ o ∈ others, ∀ x, Relation.EqvGen (Fusion.Tie d map) x a → x ∉ others →
      ¬ (Independence.collect d map).Apart x o)
    {g : Group} (hg : g ∈ groups) (ha : a ∈ g) : ∃ o ∈ others, o ∈ g := by
  obtain ⟨o, ho, hopen⟩ := hopen
  rcases hgroups.joins g hg a ha o (.inl (h.tie o ho)) with hog | ⟨z, hz, -, hapart⟩
  · exact ⟨o, ho, hog⟩
  · by_contra hnone
    exact hopen z (hgroups.tied g hg z hz a ha) (fun hzo => hnone ⟨z, hzo, hz⟩) hapart

/-- No group has two alternatives. -/
theorem single (h : d.Offers map a others) (hgroups : Fusion.Grouped d map groups) {g : Group} (hg : g ∈ groups)
    {x y : NodeId} (hx : x ∈ others) (hy : y ∈ others) (hxg : x ∈ g) (hyg : y ∈ g) : x = y := by
  by_contra hxy
  exact hgroups.together g hg x hxg y hyg hxy (h.apart x hx y hy hxy)

end Offers

end Design

namespace Draft

/-- Alternatives are listed with the transaction, and the first of them lists the others as independent. -/
theorem alternatives_listed {d : Draft} {a : NodeId} {others : List NodeId} (h : d.Took (.alternatives a others)) :
    (∃ n, d.design.nodes.get? a = some n ∧ others ⊆ n.simultaneous) ∧
      ∀ first rest, others = first :: rest → ∃ n, d.design.nodes.get? first = some n ∧ rest ⊆ n.independent := by
  obtain ⟨d₁, d₂, hstep, hevolves⟩ := h.evolves
  simp only [step, declares, List.all_cons, Bool.and_eq_true, decide_eq_true_eq, List.all_eq_true,
    Option.ite_none_right_eq_some, Option.some.injEq] at hstep
  obtain ⟨⟨hdeclared, hothers⟩, rfl⟩ := hstep
  refine ⟨listed_of_evolves hevolves ?_, ?_⟩
  · exact Design.alternatives_induct (P := fun design => ∃ n, design.nodes.get? a = some n ∧ others ⊆ n.simultaneous)
      d₁.design a others (simultaneous_listed hdeclared others) fun _ first _ hlisted =>
        listed_of_evolves (Design.modifyNode_evolves _ first fun _ _ =>
          ⟨rfl, fun _ h => h, fun _ h => List.mem_append_left _ h, fun h => h⟩) hlisted
  · rintro first rest rfl
    obtain ⟨n, hn⟩ := Arena.exists_get? (hothers first (List.mem_cons_self ..))
    obtain ⟨n₁, hn₁, -⟩ := (simultaneous_evolves d₁.design a (first :: rest)).old first n hn
    obtain ⟨n₂, hn₂, he⟩ := hevolves.old first { n₁ with independent := n₁.independent ++ rest } (by
      rw [Design.simultaneousAlternatives, Design.get?_modifyNode, if_pos rfl, hn₁, Option.map_some])
    exact ⟨n₂, hn₂, fun b hb => he.independent (List.mem_append_right _ hb)⟩

theorem Took.offers {d : Draft} {a : NodeId} {others : List NodeId} (h : d.Took (.alternatives a others))
    (htr : ∀ x ∈ a :: others, x ∈ d.design.transactions) (hdistinct : (a :: others).Nodup) (map : CallMap) :
    d.design.Offers map a others := by
  have hsound := h.recorded.sound
  obtain ⟨⟨n, hn, hlisted⟩, hindependent⟩ := alternatives_listed h
  refine ⟨fun o ho hoa => (List.nodup_cons.1 hdistinct).1 (hoa ▸ ho), fun o ho => ?_, fun x hx y hy hxy => ?_⟩
  · exact hsound.tie map hn (hlisted ho) (htr a (List.mem_cons_self ..)) (htr o (List.mem_cons_of_mem _ ho))
  · rcases others with _ | ⟨first, rest⟩
    · cases hx
    obtain ⟨n₁, hn₁, hrest⟩ := hindependent first rest rfl
    exact Independence.apart_of_listed hsound map hn₁ hrest (fun z hz => htr z (List.mem_cons_of_mem _ hz)) hx hy hxy

end Draft

/-- With either scheduler and in every state that inputs and clock edges lead to, a transaction that was declared
to have alternatives runs together with exactly one of them, provided that nothing that declarations tie to it is
independent of it, that besides the alternatives nothing tied to it is independent of some alternative, and that
the numbers of chains tell places apart. -/
theorem alternatives_run_one {d : Draft} {a : NodeId} {others : List NodeId}
    (hd : d.Took (.alternatives a others)) (htr : ∀ x ∈ a :: others, x ∈ d.design.transactions)
    (hdistinct : (a :: others).Nodup) (hsep : d.Separate) {map : CallMap}
    (hmap : Attempt.Gives (CallMap.build d.design) map)
    (hfree : ∀ x, Relation.EqvGen (Fusion.Tie d.design map) x a → x ≠ a →
      ¬ (Independence.collect d.design map).Apart x a)
    (hopen : ∃ o ∈ others, ∀ x, Relation.EqvGen (Fusion.Tie d.design map) x a → x ∉ others →
      ¬ (Independence.collect d.design map).Apart x o)
    {sink sink' : DiagnosticSink} {e : Elaborated} (he : d.design.elaborate sink = .ok (.ok e, sink'))
    {f : Design.Fused} (hf : Attempt.Gives d.design.fused f) {s : Schedule}
    (hs : f.design.schedule f.map = .ok s) {k : Kernel} (hk : Kernel.Reachable e.netlist k)
    (hgrant : d.design.Granted k a) : ∃! o, o ∈ others ∧ d.design.Granted k o := by
  have hrec := hd.recorded
  obtain ⟨d', l, h, hnetlist⟩ := Design.elaborate_circuit hrec.sound he hf hs
  rw [hnetlist] at hk
  have hstems := hrec.stemsFrom hf
  have hgroups := Design.fused_grouped hrec.sound hf hmap
  have hoffers := hd.offers htr hdistinct map
  -- A group of `a` runs.
  obtain ⟨g, hg, hag, hgt⟩ : ∃ g ∈ f.groups, a ∈ g.members ∧ f.design.Granted k g.transaction := by
    obtain ⟨o, ho, -⟩ := hopen
    obtain ⟨members, hmem, hag, -⟩ := hoffers.covered hgroups hfree ho
    obtain ⟨g, hg, rfl⟩ := List.mem_map.1 hmem
    exact (h.member_granted hk hstems hg hag).1 hgrant
  have hruns := (h.granted_iff hk (hstems.unites.transaction h.sound hg)).1 hgt
  -- Every alternative that runs is in that group: its own group shares `a`, and only one such group runs.
  have inGroup : ∀ o ∈ others, d.design.Granted k o → o ∈ g.members := by
    intro o ho hgranted
    obtain ⟨members, hmem, -, hog⟩ := hoffers.covered hgroups hfree ho
    obtain ⟨g₁, hg₁, rfl⟩ := List.mem_map.1 hmem
    obtain ⟨g₂, hg₂, hog, hgt₂⟩ := (h.member_granted hk hstems hg₁ hog).1 hgranted
    have hag₂ := hoffers.shared hgroups hfree (List.mem_map_of_mem hg₂) ho hog
    rw [h.sole_group hk hrec hsep hf hg hg₂ hag hag₂ hruns
      ((h.granted_iff hk (hstems.unites.transaction h.sound hg₂)).1 hgt₂)]
    exact hog
  obtain ⟨o, ho, hog⟩ := hoffers.offered hgroups hopen (List.mem_map_of_mem hg) hag
  refine ⟨o, ⟨ho, (h.member_granted hk hstems hg hog).2 ⟨g, hg, hog, hgt⟩⟩, fun x hx => ?_⟩
  exact hoffers.single hgroups (List.mem_map_of_mem hg) hx.1 ho (inGroup x hx.1 hx.2) hog

namespace Draft

/-- An alternative that has to run together with a transaction that calls, as the first does, a nonexclusive
method which calls an exclusive one. -/
def bridged : List Action :=
  [.transaction "A" .generated, .transaction "B" .generated, .transaction "C" .generated,
    .transaction "D" .generated, .method { name := "m" } .generated,
    .method { name := "n", nonexclusive := true } .generated] ++
    .alternatives 0 [1, 2] ::
    [.simultaneous 2 [3], .openModule "",
      .inModule 0 (.openMethod 4 .one none .generated), .inModule 0 .leaveBody,
      .inModule 0 (.openMethod 5 .one none .generated),
      .inModule 0 (.call 4 (.zero 0) .one .generated), .inModule 0 .leaveBody,
      .inModule 0 (.openTransaction 0 .one .generated),
      .inModule 0 (.call 5 (.zero 0) .one .generated), .inModule 0 .leaveBody,
      .inModule 0 (.openTransaction 1 .one .generated), .inModule 0 .leaveBody,
      .inModule 0 (.openTransaction 2 .one .generated), .inModule 0 .leaveBody,
      .inModule 0 (.openTransaction 3 .one .generated),
      .inModule 0 (.call 5 (.zero 0) .one .generated), .inModule 0 .leaveBody]

end Draft

/-- `A` runs, with `B` and without `C`. -/
theorem alternatives_run_one_of_alternated :
    ∃ x : Draft.Trial, (Draft.of Draft.alternated).trial? = some x ∧
      (Draft.of Draft.alternated).design.Granted x.kernel 0 ∧
      ∃! o, o ∈ [1, 2] ∧ (Draft.of Draft.alternated).design.Granted x.kernel o := by
  have htook : (Draft.of Draft.alternated).Took (.alternatives 0 [1, 2]) :=
    @Draft.took_of _ (Draft.alternated.take 4) (Draft.alternated.drop 5) (by decide +kernel)
  have htrial : ∃ x ∈ (Draft.of Draft.alternated).trial?,
      (Draft.of Draft.alternated).design.transactions = [0, 1, 2] ∧
      (Draft.of Draft.alternated).design.Granted x.kernel 0 := by
    decide +kernel
  have hsep : (Draft.of Draft.alternated).Separate := by decide +kernel
  have hmap : ∃ map ∈ (CallMap.build (Draft.of Draft.alternated).design).result?,
      (Independence.collect (Draft.of Draft.alternated).design map).declared = [(1, 2)] ∧
      (Independence.collect (Draft.of Draft.alternated).design map).derived = [] := by
    decide +kernel
  obtain ⟨x, hx, htr, hgrant⟩ := htrial
  obtain ⟨map, hmap, hdeclared, hderived⟩ := hmap
  obtain ⟨hf, hs, he, hk⟩ := Draft.trial_ok hx
  have happart : ∀ y z, (Independence.collect (Draft.of Draft.alternated).design map).Apart y z →
      y = 1 ∧ z = 2 ∨ y = 2 ∧ z = 1 := by
    intro y z hapart
    rw [Independence.Apart, hdeclared, hderived] at hapart
    simp only [Independence.holds, List.any_cons, List.any_nil, Bool.or_false, Bool.or_eq_true, beq_iff_eq,
      Prod.mk.injEq, Bool.false_eq_true, or_false] at hapart
    rcases hapart with ⟨rfl, rfl⟩ | ⟨rfl, rfl⟩
    · exact .inl ⟨rfl, rfl⟩
    · exact .inr ⟨rfl, rfl⟩
  refine ⟨x, hx, hgrant, alternatives_run_one htook (fun y hy => htr ▸ hy) (by decide) hsep
    (Attempt.result?_eq_some.1 hmap) (fun y _ _ hapart => ?_) ⟨1, by decide, fun y _ hy hapart => ?_⟩
    he hf hs hk hgrant⟩
  · rcases happart y 0 hapart with ⟨-, h⟩ | ⟨-, h⟩ <;> cases h
  · rcases happart y 1 hapart with ⟨-, h⟩ | ⟨rfl, -⟩
    · cases h
    · exact hy (by decide)

/-- `A` runs with both `B` and `C`: `C` runs in a group with `D` that does not share `A`, and the calls of `A` and
of `D` are merged. -/
theorem both_alternatives_of_bridged :
    ∃ x : Draft.Trial, (Draft.of Draft.bridged).Took (.alternatives 0 [1, 2]) ∧
      (Draft.of Draft.bridged).trial? = some x ∧
      (Draft.of Draft.bridged).design.transactions = [0, 1, 2, 3] ∧
      (Draft.of Draft.bridged).design.Granted x.kernel 0 ∧ (Draft.of Draft.bridged).design.Granted x.kernel 1 ∧
      (Draft.of Draft.bridged).design.Granted x.kernel 2 := by
  have htook : (Draft.of Draft.bridged).Took (.alternatives 0 [1, 2]) := Draft.took_of (by decide +kernel)
  have htrial : ∃ x ∈ (Draft.of Draft.bridged).trial?,
      (Draft.of Draft.bridged).design.transactions = [0, 1, 2, 3] ∧
      (Draft.of Draft.bridged).design.Granted x.kernel 0 ∧ (Draft.of Draft.bridged).design.Granted x.kernel 1 ∧
      (Draft.of Draft.bridged).design.Granted x.kernel 2 := by
    decide +kernel
  obtain ⟨x, hx, hrun⟩ := htrial
  exact ⟨x, htook, hx, hrun⟩

end Interlock
