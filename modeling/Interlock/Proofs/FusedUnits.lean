import Interlock.Proofs.CallChains
import Interlock.Proofs.Draft.Nodes
import Interlock.Proofs.Draft.Trial

/-! Fused groups run as units. Nobody calls a member but the transactions of its groups, which call it in every
cycle; so a member runs where one of them is granted, and may run where one of them may. A granted transaction
of a group runs all its members. -/

namespace Interlock

namespace Fusion

variable {d d' : Design} {fused : List FusedGroup} {g : FusedGroup} {m : NodeId}

theorem Unites.transaction (h : Unites d fused d') (hd : d'.Sound) (hg : g ∈ fused) :
    g.transaction ∈ d'.transactions := by
  obtain ⟨n, info, -, hn, hk, -⟩ := h.calls g hg
  exact hd.mem_transactions.2 ⟨n, info, hn, hk⟩

/-- The transaction of a group calls its members in every cycle. -/
theorem Unites.site (h : Unites d fused d') (hg : g ∈ fused) (hm : m ∈ g.members) :
    ∃ site ∈ (d'.node g.transaction).sitesTo m, site.enable = .one := by
  obtain ⟨n, _, module, hn, -, hcalls⟩ := h.calls g hg
  rw [Design.node_of_get? hn, sitesTo_member hcalls hm]
  exact ⟨_, List.mem_singleton_self _, rfl⟩

/-- Nobody else calls them. -/
theorem Unites.caller (h : Unites d fused d') (hd : d.Sound) (hc : d.Callable) (hf : Fuses d d')
    (hm : m ∈ d.transactions) {c : NodeId} {site : CallSite} (hs : site ∈ (d'.node c).sitesTo m) :
    ∃ g ∈ fused, m ∈ g.members ∧ g.transaction = c := by
  obtain ⟨sites, hmem, -⟩ := Node.mem_calls_of_sites hs
  obtain ⟨n', hn', hcalls⟩ := Design.get?_of_calls hmem
  rcases Nat.lt_or_ge c d.nodes.size with hlt | hge
  · -- What was recorded calls methods only.
    obtain ⟨n, hn⟩ := Arena.exists_get? hlt
    obtain ⟨n₂, hn₂, hsame⟩ := hf.old c n hn
    have hsites : (d'.node c).sitesTo m = (d.node c).sitesTo m := by
      rw [Design.node_of_get? hn₂, Design.node_of_get? hn, Node.sitesTo, Node.sitesTo, hsame.fields.2.2.1]
    obtain ⟨port, hport, -⟩ := hc.calls c m site (hsites ▸ hs)
    obtain ⟨info, htr⟩ := hd.transaction hm
    rw [Node.port?, Node.method?, htr.kind] at hport
    cases hport
  · obtain ⟨g, hg, rfl⟩ := h.new c n' hn' hge
    obtain ⟨n, _, module, hn, -, hmembers⟩ := h.calls g hg
    obtain rfl : n' = n := Option.some.inj (hn'.symm.trans hn)
    rw [hmembers] at hcalls
    obtain ⟨x, hx, he⟩ := List.mem_map.1 hcalls
    obtain ⟨rfl, -⟩ := Prod.mk.inj he
    exact ⟨g, hg, hx, rfl⟩

end Fusion

namespace Design

/-- A way goes on with the calls of the method at its end. -/
theorem Way.onward {d : Design} {t m x : NodeId} {callers : List NodeId} (h : d.Way t callers m)
    (hx : Relation.TransGen d.Calls m x) : ∃ callers, d.Way t callers x := by
  induction hx with
  | single hcall => exact ⟨_, h.extend hcall⟩
  | tail _ hcall ih =>
    obtain ⟨callers, hway⟩ := ih
    exact ⟨_, hway.extend hcall⟩

/-- A transaction may run in a state. -/
def MayRun (d : Design) (k : Kernel) (t : NodeId) : Prop :=
  ∃ info ∈ (d.node t).transaction?, k.get info.runnable = .ok 1

instance (d : Design) (k : Kernel) (t : NodeId) : Decidable (d.MayRun k t) :=
  inferInstanceAs (Decidable (∃ info ∈ (d.node t).transaction?, k.get info.runnable = .ok 1))

/-- The transaction of one of the groups of `m` is of this kind. -/
def Fused.someGroup (f : Fused) (m : NodeId) (p : NodeId → Prop) [DecidablePred p] : Bool :=
  f.groups.any fun g => m ∈ g.members && p g.transaction

theorem Fused.someGroup_iff {f : Fused} {m : NodeId} {p : NodeId → Prop} [DecidablePred p] :
    f.someGroup m p = true ↔ ∃ g ∈ f.groups, m ∈ g.members ∧ p g.transaction := by
  simp [someGroup]

/-- A fused design with the design that it has been made of. -/
structure Fused.StemsFrom (f : Fused) (d : Design) : Prop where
  sound : d.Sound
  callable : d.Callable
  fuses : Fusion.Fuses d f.design
  unites : Fusion.Unites d f.groups f.design

variable {f : Fused} {d d' : Design} {s : Schedule} {l : List GuardedAssign} {k : Kernel} {g : Fusion.FusedGroup}
  {m : NodeId}

theorem Wired.mayRun_iff (h : Wired d d' l) (hk : Kernel.Reachable d'.lowered k) {t : NodeId}
    {info : TransactionInfo} (ht : d.HasTransaction t info) :
    d.MayRun k t ↔ lowBit (k.values.valuation info.runnable) = true := by
  rw [MayRun, ht.transaction?, ← h.get_one hk ht.runnable]
  simp

namespace Circuit

/-- A member runs where the transaction of one of its groups does. -/
theorem member_runs (h : Circuit f.design f.map s d' l) (hk : k.Steady d'.lowered) (hf : f.StemsFrom d)
    (hg : g ∈ f.groups) (hm : m ∈ g.members) :
    f.design.runs k m = true ↔ ∃ g ∈ f.groups, m ∈ g.members ∧ f.design.runs k g.transaction = true := by
  have ht := hf.unites.transactions g hg m hm
  obtain ⟨info, htr⟩ := hf.sound.transaction ht
  have hmethod := (hf.unites.member g hg m hm info htr.kind).1
  rw [h.runs_iff hk hmethod]
  constructor
  · rintro ⟨c, -, -, -, hruns, site, hsite, -⟩
    obtain ⟨g', hg', hm', rfl⟩ := hf.unites.caller hf.sound hf.callable hf.fuses ht hsite
    exact ⟨g', hg', hm', hruns⟩
  · rintro ⟨g', hg', hm', hruns⟩
    obtain ⟨site, hsite, hen⟩ := hf.unites.site hg' hm'
    obtain ⟨sites, hcalls, -⟩ := Node.mem_calls_of_sites hsite
    have hcall : f.design.Calls g'.transaction m := ⟨⟨sites, hcalls⟩, _, hmethod⟩
    refine ⟨g'.transaction, h.sound.caller_of_calls hcall, h.live_of_transaction (hf.unites.transaction h.sound hg'),
      hcall, hruns, site, hsite, ?_⟩
    rw [hen, Expr.truth_one]

/-- The old grant of a member carries the OR of the grants of its groups. -/
theorem member_grant (h : Circuit f.design f.map s d' l) (hk : Kernel.Reachable d'.lowered k) (hf : f.StemsFrom d)
    (hg : g ∈ f.groups) (hm : m ∈ g.members) {info : TransactionInfo} (htr : d.HasTransaction m info) :
    k.get info.grant = .ok (f.someGroup m (f.design.Granted k)).toUInt64 := by
  have hmethod := (hf.unites.member g hg m hm info htr.kind).1
  rw [h.toWired.get_bit hk (hf.fuses.isBit htr.grant)]
  refine congrArg (fun b : Bool => Except.ok b.toUInt64) (Bool.eq_iff_iff.2 ?_)
  have hruns : lowBit (k.values.valuation info.grant) = f.design.runs k m := by
    rw [runs, activator_of_method hmethod]
    rfl
  rw [hruns, h.member_runs hk.steady hf hg hm, Fused.someGroup_iff]
  refine exists_congr fun g' => and_congr_right fun hg' => and_congr_right fun _ => ?_
  rw [h.toWired.granted_iff hk (hf.unites.transaction h.sound hg')]

/-- Its old runnable carries the OR of theirs. -/
theorem member_runnable (h : Circuit f.design f.map s d' l) (hk : Kernel.Reachable d'.lowered k)
    (hf : f.StemsFrom d) (hg : g ∈ f.groups) (hm : m ∈ g.members) {info : TransactionInfo}
    (htr : d.HasTransaction m info) :
    k.get info.runnable = .ok (f.someGroup m (f.design.MayRun k)).toUInt64 := by
  have hmay : ∀ g ∈ f.groups, (f.design.transactionSignal g.transaction (·.runnable)).truth k.values.valuation = true ↔
      f.design.MayRun k g.transaction := by
    intro g hg
    obtain ⟨tinfo, ht⟩ := h.sound.transaction (hf.unites.transaction h.sound hg)
    rw [h.toWired.mayRun_iff hk ht, transactionSignal, ht.kind]
    exact iff_of_eq (congrArg (· = true) (truth_read ht.runnable))
  rw [h.toWired.get_bit hk (hf.fuses.isBit htr.runnable), h.toWired.recorded_value hk.steady
    (hf.fuses.isBit htr.runnable) (hf.unites.member g hg m hm info htr.kind).2, Fusion.mayRun, Expr.truth_any,
    List.any_map, List.any_filter]
  refine congrArg (fun b : Bool => Except.ok b.toUInt64) (Bool.eq_iff_iff.2 ?_)
  rw [Fused.someGroup_iff, List.any_eq_true]
  simp only [Function.comp_apply, Bool.and_eq_true, decide_eq_true_eq]
  exact exists_congr fun g' => and_congr_right fun hg' => and_congr_right fun _ => hmay g' hg'

theorem member_granted (h : Circuit f.design f.map s d' l) (hk : Kernel.Reachable d'.lowered k) (hf : f.StemsFrom d)
    (hg : g ∈ f.groups) (hm : m ∈ g.members) :
    d.Granted k m ↔ ∃ g ∈ f.groups, m ∈ g.members ∧ f.design.Granted k g.transaction := by
  obtain ⟨info, htr⟩ := hf.sound.transaction (hf.unites.transactions g hg m hm)
  rw [Granted, htr.transaction?, ← Fused.someGroup_iff]
  simp only [Option.mem_def, Option.some.injEq, exists_eq_left']
  rw [h.member_grant hk hf hg hm htr, Except.ok.injEq]
  cases f.someGroup m (f.design.Granted k) <;> decide

end Circuit

end Design

theorem Draft.Recorded.stemsFrom {d : Draft} (h : d.Recorded) {f : Design.Fused}
    (hf : Attempt.Gives d.design.fused f) : f.StemsFrom d.design :=
  ⟨h.sound, h.callable, (Design.fused_ok h.sound hf).2.2, Design.fused_unites h.sound hf⟩

/-- With either scheduler and in every state that inputs and clock edges lead to, a member of a fused group runs
exactly where the transaction of one of its groups is granted, and may run exactly where one of them may. A
granted transaction of a group runs every member, and then the member has requested to run and all methods that
calls lead to from it are ready. Members of the same groups run in the same cycles. -/
theorem groups_run_as_units {d : Draft} (hd : d.Recorded) {sink sink' : DiagnosticSink} {e : Elaborated}
    (he : d.design.elaborate sink = .ok (.ok e, sink')) {f : Design.Fused}
    (hf : Attempt.Gives d.design.fused f) {s : Schedule} (hs : f.design.schedule f.map = .ok s) {k : Kernel}
    (hk : Kernel.Reachable e.netlist k) {g : Fusion.FusedGroup} (hg : g ∈ f.groups) {m : NodeId}
    (hm : m ∈ g.members) :
    ∃ info, (d.design.node m).kind = .transaction info ∧
      (f.design.node m).method? = some (Fusion.memberInfo info) ∧
      k.get info.grant = .ok (f.someGroup m (f.design.Granted k)).toUInt64 ∧
      k.get info.runnable = .ok (f.someGroup m (f.design.MayRun k)).toUInt64 ∧
      (f.design.Granted k g.transaction → k.get info.grant = .ok 1 ∧ k.get info.request = .ok 1 ∧
        ∀ x xinfo, Relation.TransGen f.design.Calls m x → (f.design.node x).method? = some xinfo →
          k.get xinfo.ready = .ok 1) ∧
      ∀ m' info', (d.design.node m').kind = .transaction info' →
        (∀ h ∈ f.groups, m ∈ h.members ↔ m' ∈ h.members) → k.get info'.grant = k.get info.grant := by
  obtain ⟨d', l, h, hnetlist⟩ := Design.elaborate_circuit hd.sound he hf hs
  obtain ⟨hsound, -, hfuses⟩ := Design.fused_ok hd.sound hf
  have hstems := hd.stemsFrom hf
  have hu := hstems.unites
  rw [hnetlist] at hk
  obtain ⟨info, htr⟩ := hd.sound.transaction (hu.transactions g hg m hm)
  have hmethod := (hu.member g hg m hm info htr.kind).1
  have hgrant := h.member_grant hk hstems hg hm htr
  refine ⟨info, htr.kind, hmethod, hgrant, h.member_runnable hk hstems hg hm htr, fun hgranted => ?_,
    fun m' info' hinfo' hsame => ?_⟩
  · have ht := hu.transaction hsound hg
    have hone : k.get info.grant = .ok 1 := by
      rw [hgrant, Design.Fused.someGroup_iff.2 ⟨g, hg, hm, hgranted⟩]
      rfl
    refine ⟨hone, h.get_ready hk hmethod hone, fun x xinfo hreach hx => ?_⟩
    obtain ⟨site, hsite, -⟩ := hu.site hg hm
    obtain ⟨callers, hway⟩ := (Design.Way.direct ((hd.callable.fused hd.sound hf).of_sites hsite)).onward hreach
    rw [h.toWired.get_one hk (hsound.run_isBit hx).2]
    exact h.ready_of_way hk ht ((h.toWired.granted_iff hk ht).1 hgranted) hway hx
  · have hm' := (hsame g hg).1 hm
    obtain ⟨info₂, htr'⟩ := hd.sound.transaction (hu.transactions g hg m' hm')
    obtain rfl : info' = info₂ := NodeKind.transaction.inj (hinfo'.symm.trans htr'.kind)
    rw [hgrant, h.member_grant hk hstems hg hm' htr']
    refine congrArg (fun b : Bool => Except.ok b.toUInt64) (Bool.eq_iff_iff.2 ?_)
    rw [Design.Fused.someGroup_iff, Design.Fused.someGroup_iff]
    exact exists_congr fun g' => and_congr_right fun hg' => and_congr_left fun _ => (hsame g' hg').symm

namespace Draft

/-- A transaction that runs together with one of two others, of which the first calls a method. -/
def alternated : List Action :=
  [.transaction "A" .generated, .transaction "B" .generated, .transaction "C" .generated,
    .method { name := "m" } .generated, .alternatives 0 [1, 2], .openModule "",
    .inModule 0 (.openMethod 3 .one none .generated), .inModule 0 .leaveBody,
    .inModule 0 (.openTransaction 0 .one .generated), .inModule 0 .leaveBody,
    .inModule 0 (.openTransaction 1 .one .generated),
    .inModule 0 (.call 3 (.zero 0) .one .generated), .inModule 0 .leaveBody,
    .inModule 0 (.openTransaction 2 .one .generated), .inModule 0 .leaveBody]

end Draft

/-- `A` is in the group of `B` and in that of `C`. The first is granted: `A` and `B` run, and the method that `B`
calls is ready. -/
theorem groups_run_as_units_of_alternated :
    ∃ x : Draft.Trial, ∃ a b m, (Draft.of Draft.alternated).trial? = some x ∧
      x.fused.groups = [⟨4, [0, 1]⟩, ⟨5, [0, 2]⟩] ∧
      ((Draft.of Draft.alternated).design.node 0).kind = .transaction a ∧ x.kernel.get a.grant = .ok 1 ∧
      ((Draft.of Draft.alternated).design.node 1).kind = .transaction b ∧ x.kernel.get b.grant = .ok 1 ∧
      (x.fused.design.node 3).method? = some m ∧ x.kernel.get m.ready = .ok 1 := by
  have hrec : (Draft.of Draft.alternated).Recorded := Draft.recorded_of (by decide +kernel)
  have htrial : ∃ x ∈ (Draft.of Draft.alternated).trial?, x.fused.groups = [⟨4, [0, 1]⟩, ⟨5, [0, 2]⟩] ∧
      x.fused.design.Granted x.kernel 4 ∧ (3 ∈ (x.fused.design.node 1).calls.map (·.1)) ∧
      (x.fused.design.node 3).method?.isSome = true := by
    decide +kernel
  obtain ⟨x, hx, hgroups, hgranted, hcalls, hm⟩ := htrial
  obtain ⟨hf, hs, he, hk⟩ := Draft.trial_ok hx
  have hg : (⟨4, [0, 1]⟩ : Fusion.FusedGroup) ∈ x.fused.groups := hgroups ▸ List.mem_cons_self ..
  obtain ⟨m, hm⟩ := Option.isSome_iff_exists.1 hm
  obtain ⟨⟨_, sites⟩, hcall, rfl⟩ := List.mem_map.1 hcalls
  obtain ⟨a, ha, -, -, -, hunit, -⟩ := groups_run_as_units hrec he hf hs hk hg (m := 0) (by decide)
  obtain ⟨b, hb, -, -, -, hunit', -⟩ := groups_run_as_units hrec he hf hs hk hg (m := 1) (by decide)
  obtain ⟨hbgrant, -, hready⟩ := hunit' hgranted
  exact ⟨x, a, b, m, hx, hgroups, ha, (hunit hgranted).1, hb, hbgrant, hm,
    hready _ m (.single ⟨⟨sites, hcall⟩, m, hm⟩) hm⟩

end Interlock
