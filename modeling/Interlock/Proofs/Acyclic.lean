import Interlock.Proofs.Draft.Local
import Interlock.Proofs.Draft.Script
import Interlock.Proofs.WellFormed

/-! Elaboration adds no loops. Where the expressions of a design read inputs, registers and the argument bus of
their own body, and readiness and results are forwarded from method to method without coming back, every chain of
reads ends. -/

namespace Interlock

namespace Design

open Interlock.Expr (ReadsIn closed_readsIn)

variable {d d' : Design} {f : Fused} {s : Schedule} {l : List GuardedAssign}

/-- The body of `i` is ready where the method `m` is, or gives its result. -/
def Forwards (d : Design) (i m : NodeId) : Prop :=
  i < d.nodes.size ∧ m < d.nodes.size ∧ ∃ a ∈ d.assigns,
    (a.target = (d.node i).entry ∧ ∃ x ∈ a.reads, d.ReadyOf m x) ∨
      (d.ResultOf i a.target ∧ ∃ x ∈ a.reads, d.ResultOf m x)

instance {i m : NodeId} : Decidable (d.Forwards i m) :=
  inferInstanceAs (Decidable (i < d.nodes.size ∧ m < d.nodes.size ∧ ∃ a ∈ d.assigns,
    (a.target = (d.node i).entry ∧ ∃ x ∈ a.reads, d.ReadyOf m x) ∨
      (d.ResultOf i a.target ∧ ∃ x ∈ a.reads, d.ResultOf m x)))

/-- Where methods forward to earlier ones only, none forwards to itself. -/
theorem forwards_acyclic (h : ∀ i < d.nodes.size, ∀ m < d.nodes.size, d.Forwards i m → m < i) :
    ∀ m, ¬ Relation.TransGen d.Forwards m m := by
  have lt_of_chain : ∀ i m, Relation.TransGen d.Forwards i m → m < i := by
    intro i m hchain
    induction hchain with
    | single hm => exact h _ hm.1 _ hm.2.1 hm
    | tail _ hm ih => exact Nat.lt_trans (h _ hm.1 _ hm.2.1 hm) ih
  exact fun m hm => Nat.lt_irrefl m (lt_of_chain m m hm)

/-- A design of this kind, and what it goes through before it is lowered. -/
structure Passes (d : Design) (f : Fused) (s : Schedule) (d' : Design) (l : List GuardedAssign) : Prop where
  sound : d.Sound
  regular : d.Regular
  reads : d.Local
  acyclic : ∀ m, ¬ Relation.TransGen d.Forwards m m
  fused : Attempt.Gives d.fused f
  circuit : Circuit f.design f.map s d' l

namespace Passes

theorem fuses (h : Passes d f s d' l) : Fusion.Fuses d f.design := (fused_ok h.sound h.fused).2.2

theorem final_regular (h : Passes d f s d' l) : d'.Regular := h.circuit.regular (h.regular.fused h.sound h.fused)

theorem source (h : Passes d f s d' l) {x : SignalId} (hx : d.Source x) : d'.Grounded x := by
  obtain ⟨r, hr, hkind⟩ := hx
  exact h.final_regular.grounded (h.circuit.gains.signals _ _ (h.fuses.signals _ _ hr)) hkind

/-- Wires that are not left to elaboration get no assignment from it. -/
theorem not_added (h : Passes d f s d' l) {i : NodeId} {x : SignalId} (hx : f.design.Recordable i x) :
    ∀ a ∈ l, a.target ≠ x := by
  rintro a ha rfl
  rcases h.circuit.logic.undriven a ha with hle | ⟨j, m, hm, hgen⟩
  · obtain ⟨n, hn, hmem, -⟩ := hx
    exact absurd ((h.circuit.sound.nodes i n hn).declared _ hmem) (Nat.not_lt.2 hle)
  · exact hx.not_generated h.circuit.sound j m hm hgen

/-- The assignments of the final design: recorded ones, those of fusion and those of the generated logic. -/
theorem assigns_cases (h : Passes d f s d' l) {a : GuardedAssign} (ha : a ∈ d'.assigns) :
    a ∈ d.assigns ∨ (∃ g ∈ f.groups, a = Fusion.requestOf f.design g) ∨
      (∃ m g, g ∈ f.groups ∧ m ∈ g.members ∧ Fusion.runnableOf f.groups f.design m = some a) ∨ a ∈ l := by
  obtain ⟨members, -, hmembers, hassigns⟩ := fused_assigns h.fused h.sound
  rw [h.circuit.gains.assigns, hassigns] at ha
  simp only [List.mem_append, List.mem_map, List.mem_filterMap] at ha
  obtain ((ha | ⟨g, hg, rfl⟩) | ⟨m, hm, ha⟩) | ha := ha
  · exact .inl ha
  · exact .inr (.inl ⟨g, hg, rfl⟩)
  · obtain ⟨g, hg, hmg⟩ := (hmembers m).1 hm
    exact .inr (.inr (.inl ⟨m, g, hg, hmg, ha⟩))
  · exact .inr (.inr (.inr ha))

/-! ### Requests, readiness and conditions -/

theorem entry (h : Passes d f s d' l) {i : NodeId} {n : Node}
    (hn : d.nodes.get? i = some n) : d'.Grounded n.entry := by
  induction acc_of_acyclic (fun _ _ hab => hab.1) h.acyclic i generalizing n with
  | intro i _ ih =>
    obtain ⟨n', hn', hsame⟩ := h.fuses.old i n hn
    have hentry : n'.entry = n.entry := hsame.wires.2.2.1
    obtain ⟨added, hassigns, hadded⟩ := h.fuses.assigns
    refine grounded_of fun a ha _ hx y hy => ?_
    have ha : a ∈ d.assigns := by
      rw [h.circuit.gains.assigns, hassigns] at ha
      simp only [List.mem_append] at ha
      rcases ha with (ha | ha) | ha
      · exact ha
      · exact absurd hx (hadded a ha i n hn)
      · exact absurd hx (h.not_added (hentry ▸ entry_recordable h.circuit.sound hn') a ha)
    have hlt := Arena.lt_of_get? hn
    have htarget : a.target = (d.node i).entry := by rw [hx, node_of_get? hn]
    rcases (h.reads.assigns a ha).entries ⟨i, hlt, htarget.symm⟩ y hy with hy' | ⟨m, hm, info, hinfo, rfl⟩
    · exact h.source hy'
    · obtain ⟨nm, hnm, -, hk⟩ := get?_of_method hinfo
      have hready : nm.entry = info.ready := by rw [Node.entry, hk]
      exact hready ▸ ih m ⟨hlt, hm, a, ha, .inl ⟨htarget, _, hy, info, hinfo, rfl⟩⟩ hnm

/-- The request wire of a group is driven by a constant. -/
theorem request (h : Passes d f s d' l) {g : Fusion.FusedGroup} (hg : g ∈ f.groups) :
    d'.Grounded (f.design.node g.transaction).entry := by
  obtain ⟨n, info, _, hn, hk, -⟩ := (fused_unites h.sound h.fused).calls g hg
  have hnode : f.design.node g.transaction = n := node_of_get? hn
  refine grounded_of fun a ha _ hx y hy => ?_
  rcases h.assigns_cases ha with ha | ⟨g', -, rfl⟩ | ⟨m, _, -, -, ha⟩ | ha
  · exact absurd (h.sound.targets a ha) (Nat.not_lt.2 (hx ▸ fused_request h.fused hg))
  · exact absurd hy List.not_mem_nil
  · -- A member is a method, and the transaction of a group is none.
    obtain ⟨nm, hnm, hwire⟩ := Fusion.runnableOf_wire ha
    rw [hx, hnode] at hwire
    obtain rfl := h.circuit.sound.distinct m g.transaction nm n hnm hn _ hwire (Node.control_subset n.entry_mem_control)
    rw [Fusion.runnableOf, hnode, Node.method?, hk] at ha
    cases ha
  · exact absurd (hx.trans (by rw [hnode])) (h.not_added (entry_recordable h.circuit.sound hn) a ha)

/-- Every transaction that is scheduled has a grounded request. -/
theorem wanted (h : Passes d f s d' l) {t : NodeId} {info : TransactionInfo} (ht : f.design.HasTransaction t info) :
    d'.Grounded info.request := by
  have hentry : (f.design.node t).entry = info.request := by rw [Node.entry, ht.kind]
  rw [← hentry]
  rcases Nat.lt_or_ge t d.nodes.size with hlt | hge
  · obtain ⟨n, hn⟩ := Arena.exists_get? hlt
    obtain ⟨n', hn', hsame⟩ := h.fuses.old t n hn
    rw [node_of_get? hn', hsame.wires.2.2.1]
    exact h.entry hn
  · obtain ⟨g, hg, rfl⟩ := (fused_unites h.sound h.fused).new t _ ht.get? hge
    exact h.request hg

theorem ready (h : Passes d f s d' l) {m : NodeId} {info : MethodInfo}
    (hinfo : (f.design.node m).method? = some info) : d'.Grounded info.ready := by
  rcases fused_method_cases h.fused h.sound hinfo with hm | ⟨⟨g, hg, hmg⟩, t, hk, rfl⟩
  · obtain ⟨n, hn, -, hk⟩ := get?_of_method hm
    have hentry : n.entry = info.ready := by rw [Node.entry, hk]
    exact hentry ▸ h.entry hn
  · obtain ⟨_, htr⟩ := h.sound.transaction ((fused_unites h.sound h.fused).transactions g hg m hmg)
    have hentry : (d.node m).entry = (Fusion.memberInfo t).ready := by rw [Node.entry, hk, Fusion.memberInfo]
    exact hentry ▸ h.entry htr.get?

/-- Calls of the fused design read what those of the recorded one read. -/
theorem sites (h : Passes d f s d' l) {c m : NodeId} {sites : List CallSite}
    (hc : (m, sites) ∈ (f.design.node c).calls) {site : CallSite} (hsite : site ∈ sites) {x : SignalId}
    (hx : x ∈ site.enable.reads ++ site.arg.reads) : d.Source x ∨ f.design.ArgumentOf c x := by
  rcases fused_calls_cases h.fused h.sound hc with hc | ⟨_, -, -, -, module, he⟩
  · obtain ⟨n, hn, -⟩ := get?_of_calls hc
    refine (h.reads.calls c (Arena.lt_of_get? hn) (m, sites) hc site hsite x hx).imp_right fun hbus => ?_
    obtain ⟨info, hinfo, hbus⟩ := hbus
    exact ⟨info, h.fuses.method hinfo, hbus⟩
  · -- The call of a member passes nothing, and is always made.
    obtain ⟨-, rfl⟩ := Prod.mk.inj he
    obtain rfl := List.mem_singleton.1 hsite
    exact absurd hx List.not_mem_nil

/-- Once arguments stand for buses, calls read inputs and registers. -/
theorem sitesSatisfy (h : Passes d f s d' l) :
    CallMap.SitesSatisfy (ReadsIn d.Source) f.design := by
  intro c m sites hc site hsite bound hvalues hbus
  have hstays : ∀ x ∈ site.enable.reads ++ site.arg.reads, bound x = none → d.Source x := by
    intro x hx hnone
    rcases h.sites hc hsite hx with hx | ⟨info, hinfo, hx⟩
    · exact hx
    · have hsome := hbus info x hinfo hx
      rw [hnone] at hsome
      cases hsome
  exact ⟨Expr.readsIn_substitute hvalues fun x hx => hstays x (List.mem_append_left _ hx),
    Expr.readsIn_substitute hvalues fun x hx => hstays x (List.mem_append_right _ hx)⟩

/-- Conditions of transactions read ready wires, inputs and registers. -/
theorem conditions (h : Passes d f s d' l) :
    ∀ r ∈ f.map.reaches, ReadsIn d'.Grounded r.readiness := by
  obtain ⟨-, -, -, -, -, -, hmap⟩ := fused_steps h.fused
  have hle : ∀ e, ReadsIn d.Source e → ReadsIn d'.Grounded e := fun e he => he.mono fun _ => h.source
  refine CallMap.build_satisfies h.circuit.sound (closed_readsIn _) (closed_readsIn _) hle (h.sitesSatisfy)
    (fun m info hinfo => ⟨trivial, readsIn_read (h.ready hinfo), fun v hv arg check harg hcheck => ?_⟩) hmap
  rcases fused_method_cases h.fused h.sound hinfo with hm | ⟨-, t, -, rfl⟩
  · exact fun x hx => h.source ((h.reads.validators m info hm v hv arg check hcheck x hx).elim (harg x) id)
  · cases hv

/-! ### Grants, runs and results -/

theorem runnable (h : Passes d f s d' l) {t : NodeId} {info : TransactionInfo} (ht : f.design.HasTransaction t info) :
    d'.Grounded info.runnable := by
  have hmem : f.design.node t ∈ f.design.nodeList := Arena.mem_toList.2 ⟨t, ht.get?⟩
  exact h.circuit.grounded (h.circuit.transactions _ hmem info ht.transaction?)
    (CallLogic.closed_conditions (closed_readsIn _) (h.conditions) _)

theorem body (h : Passes d f s d' l) {c : NodeId} {n : Node} (hn : f.design.nodes.get? c = some n) :
    BodyGrounded f.design d' c := by
  refine h.circuit.grounded_body (fun c m sites hc site hsite x hx => ?_)
    (fun m info hinfo g hg args runs hargs hruns x hx => ?_)
    (fun t ht => h.circuit.grounded_grant h.final_regular (fun u hu => ?_) ht) c ?_
  · exact (h.sites hc hsite hx).imp_left h.source
  · rcases fused_method_cases h.fused h.sound hinfo with hm | ⟨-, t, -, rfl⟩
    · rcases h.reads.combiners m info hm g hg args runs x hx with ⟨e, he, hxe⟩ | hx
      · exact (List.mem_append.1 he).elim (fun he => hargs e he x hxe) fun he => hruns e he x hxe
      · exact h.source hx
    · cases hg
  · obtain ⟨info, htr⟩ := h.circuit.sound.transaction hu
    exact Arbiter.closed_wants (closed_readsIn _) htr (readsIn_read (h.wanted htr))
      (readsIn_read (h.runnable htr))
  · cases hk : n.kind with
    | transaction info => exact .inl (h.circuit.sound.mem_transactions.2 ⟨n, info, hn, hk⟩)
    | method info => exact .inr ⟨info, by rw [node_of_get? hn, Node.method?, hk]⟩

/-- Bodies are grounded also as they were recorded. -/
theorem recorded_body (h : Passes d f s d' l) {c : NodeId} (hc : c < d.nodes.size) : BodyGrounded d d' c := by
  obtain ⟨n, hn⟩ := Arena.exists_get? hc
  obtain ⟨n', hn', hsame⟩ := h.fuses.old c n hn
  obtain ⟨hruns, hbus⟩ := h.body hn'
  rw [node_of_get? hn', hsame.wires.2.2.2.1, ← node_of_get? hn] at hruns
  refine ⟨hruns, fun x hx => hbus x ?_⟩
  obtain ⟨info, hinfo, hx⟩ := hx
  exact ⟨info, h.fuses.method hinfo, hx⟩

/-- What fusion and the generated logic assign reads what is grounded. -/
theorem added (h : Passes d f s d' l) {a : GuardedAssign} (ha : a ∈ d'.assigns) (hdomain : a.domain = .comb) :
    a ∈ d.assigns ∨ ∀ y ∈ a.reads, d'.Grounded y := by
  have target : d'.Grounded a.target → ∀ y ∈ a.reads, d'.Grounded y := fun hx y hy => hx.inv ⟨a, ha, hdomain, rfl, hy⟩
  rcases h.assigns_cases ha with hmem | ⟨g, -, rfl⟩ | ⟨m, _, -, -, hrun⟩ | hmem
  · exact .inl hmem
  · exact .inr fun y hy => absurd hy List.not_mem_nil
  · -- The old runnable wire of a member reads those of the transactions of its groups.
    obtain ⟨origin, -, rfl⟩ := Option.map_eq_some_iff.1 hrun
    refine .inr fun y hy => (closed_readsIn d'.Grounded).any (fun e he => ?_) y
      ((List.mem_append.1 hy).resolve_left List.not_mem_nil)
    obtain ⟨g, hg, rfl⟩ := List.mem_map.1 he
    obtain ⟨n, info, _, hn, hk, -⟩ := (fused_unites h.sound h.fused).calls g (List.mem_filter.1 hg).1
    obtain ⟨info, htr⟩ := h.circuit.sound.transaction (h.circuit.sound.mem_transactions.2 ⟨n, info, hn, hk⟩)
    rw [transactionSignal, htr.kind]
    exact readsIn_read (h.runnable htr)
  · refine .inr ?_
    rcases h.circuit.logic.undriven a hmem with hle | ⟨c, n, hn, hgen⟩
    · -- The registers that are added are not driven combinationally.
      obtain ⟨_, -, hturns⟩ := h.circuit.registers a.target hle (.inr (List.mem_map_of_mem hmem))
      rw [h.circuit.only ha hturns.turn rfl] at hdomain
      cases hdomain
    · obtain ⟨hruns, hbus⟩ := h.body hn
      rw [node_of_get? hn] at hruns
      refine target ?_
      cases hk : n.kind with
      | transaction info =>
        obtain ⟨info', htr⟩ := h.circuit.sound.transaction (h.circuit.sound.mem_transactions.2 ⟨n, info, hn, hk⟩)
        rw [Node.activator, hk] at hruns
        have hinfo : info = info' := by
          have := htr.kind
          rw [node_of_get? hn, hk] at this
          exact NodeKind.transaction.inj this
        rw [Node.generated, hk] at hgen
        rcases List.mem_cons.1 hgen with he | hgen
        · exact he ▸ hruns
        · rw [List.mem_singleton.1 hgen, hinfo]
          exact h.runnable htr
      | method info =>
        rw [Node.activator, hk] at hruns
        rw [Node.generated, hk] at hgen
        rcases List.mem_cons.1 hgen with he | hgen
        · exact he ▸ hruns
        · exact hbus _ ⟨info, Option.mem_def.2 (by rw [node_of_get? hn, Node.method?, hk]), Option.mem_toList.1 hgen⟩

theorem result (h : Passes d f s d' l) {m : NodeId} {x : SignalId} (hx : d.ResultOf m x) : d'.Grounded x := by
  induction acc_of_acyclic (fun _ _ hab => hab.1) h.acyclic m generalizing x with
  | intro m _ ih =>
    obtain ⟨info, hinfo, hout⟩ := hx
    have hlt := lt_of_method hinfo
    refine grounded_of fun a ha hdomain hax y hy => ?_
    rcases h.added ha hdomain with ha | hreads
    · have hresult : d.ResultOf m a.target := ⟨info, hinfo, hax ▸ hout⟩
      rcases (h.reads.assigns a ha).results m hlt hresult y hy with hy' | hy' | ⟨m', hm', hy'⟩
      · exact h.source hy'
      · exact (h.recorded_body hlt).dataIn y hy'
      · exact ih m' ⟨hlt, hm', a, ha, .inr ⟨hresult, y, hy, hy'⟩⟩ hy'
    · exact hreads y hy

/-- Every chain of reads ends. -/
theorem grounded (h : Passes d f s d' l) (x : SignalId) : d'.Grounded x := by
  refine grounded_of fun a ha hdomain hx y hy => ?_
  rcases h.added ha hdomain with hmem | hreads
  · by_cases hentry : d.IsEntry a.target
    · obtain ⟨i, hlt, he⟩ := hentry
      obtain ⟨n, hn⟩ := Arena.exists_get? hlt
      rw [node_of_get? hn] at he
      exact (h.entry hn).inv ⟨a, ha, hdomain, he.symm, hy⟩
    · by_cases hresult : ∃ m, d.ResultOf m a.target
      · obtain ⟨m, hm⟩ := hresult
        exact (h.result hm).inv ⟨a, ha, hdomain, rfl, hy⟩
      · have hnone : ∀ m < d.nodes.size, ¬ d.ResultOf m a.target := fun m _ hm => hresult ⟨m, hm⟩
        rcases (h.reads.assigns a hmem).others hdomain hentry hnone y hy with hy | ⟨c, hlt, hy⟩
        · exact h.source hy
        · obtain ⟨hruns, hbus⟩ := h.recorded_body hlt
          exact hy.elim (fun he => he ▸ hruns) (hbus y)
  · exact hreads y hy

end Passes

end Design

/-- Where the expressions of a recorded design read inputs, registers and the argument bus of their own body, and no
method forwards to itself, elaboration never reports a loop. -/
theorem elaborate_acyclic {d : Draft} (hd : d.Recorded) (hlocal : d.design.Local)
    (hforwards : ∀ m, ¬ Relation.TransGen d.design.Forwards m m) (sink : DiagnosticSink) :
    ∀ names loc sink', d.design.elaborate sink ≠ .ok (.error (.combinationalCycle names loc), sink') := by
  intro names loc sink' he
  rcases Design.elaborate_error hd.sound he with h | ⟨f, s, d', hf, hs, hd', hlower⟩
  · exact h
  · obtain ⟨l, hcircuit⟩ := Design.circuit_of hd.sound hf hs hd'
    have hpasses : Design.Passes d.design f s d' l := ⟨hd.sound, hd.regular, hlocal, hforwards, hf, hcircuit⟩
    exact Design.lower_raises_none (Design.lowered_regular hd.sound hd.regular hf hs hd')
      (hcircuit.gains.comb.trans hcircuit.sound.comb) ⟨hpasses.grounded⟩ _ hlower

namespace Draft

/-- The method `p` is a proxy of `m`; one transaction calls `p`, another one `m`. -/
def proxied : List Action :=
  [.transaction "A" .generated, .transaction "B" .generated,
    .method { name := "m", input := .bits 4, output := .bits 4 } .generated,
    .method { name := "p", input := .bits 4, output := .bits 4 } .generated, .openModule "",
    .inModule 0 (.signal "r" 4 .reg 0 .generated),
    .inModule 0 (.openMethod 2 .one none .generated), .inModule 0 .leaveBody,
    .inModule 0 (.closeMethod 0 ((Expr.signal 6 4).add (.signal 14 4)) .generated),
    .inModule 0 (.openMethod 3 (.signal 8 1) none .generated),
    .inModule 0 (.call 2 (.signal 10 4) .one .generated), .inModule 0 .leaveBody,
    .inModule 0 (.closeMethod 1 (.signal 7 4) .generated),
    .inModule 0 (.openTransaction 0 .one .generated),
    .inModule 0 (.call 3 (.signal 14 4) .one .generated), .inModule 0 .leaveBody,
    .inModule 0 (.openTransaction 1 .one .generated),
    .inModule 0 (.call 2 (.constant 5 4) .one .generated), .inModule 0 .leaveBody]

end Draft

theorem elaborate_acyclic_of_proxied :
    (Draft.of Draft.proxied).design.Local ∧ (Draft.of Draft.proxied).design.Forwards 3 2 ∧
      (∀ m, ¬ Relation.TransGen (Draft.of Draft.proxied).design.Forwards m m) ∧
      ∀ sink names loc sink',
        (Draft.of Draft.proxied).design.elaborate sink ≠ .ok (.error (.combinationalCycle names loc), sink') := by
  have hrec : (Draft.of Draft.proxied).Recorded := Draft.recorded_of (by decide +kernel)
  have hstock : ∀ action ∈ Draft.proxied, action.stock = true := List.all_eq_true.1 (by decide +kernel)
  have hlocal : (Draft.of Draft.proxied).design.Local := Draft.local_of_run (Draft.run_of (by decide +kernel))
    (by decide +kernel) fun action haction => Draft.Action.localFunctions_of_stock (hstock action haction) _
  have hforwards := Design.forwards_acyclic (d := (Draft.of Draft.proxied).design) (by decide +kernel)
  exact ⟨hlocal, by decide +kernel, hforwards, elaborate_acyclic hrec hlocal hforwards⟩

/-- A method that is made a proxy of itself. -/
def selfProxy : List TopStmt :=
  [.graph (.method "m" { name := "m" } ⟨"a.rs", 1, 1⟩), .module "top" [.proxy "m" "m" ⟨"a.rs", 3, 1⟩]]

/-- The ready wire of the method then reads itself, though the script has no expression at all. -/
theorem cycle_of_selfProxy : ∃ s, Session.run { design := {} } selfProxy = .ok s ∧ s.design.Local ∧
    ∃ sink, s.design.elaborate {} = .ok (.error (.combinationalCycle ["m_ready"] ⟨"a.rs", 1, 1⟩), sink) := by
  have hrun : ∃ s ∈ (Session.run { design := {} } selfProxy).toOption,
      ((∀ a ∈ s.design.assigns, s.design.LocalAssign a) ∧ (∀ c < s.design.nodes.size, s.design.LocalCalls c) ∧
        ∀ n ∈ s.design.nodeList, n.method?.all Design.stock = true) ∧
      ∃ r ∈ (s.design.elaborate {}).toOption, r.1 = .error (.combinationalCycle ["m_ready"] ⟨"a.rs", 1, 1⟩) := by
    decide +kernel
  obtain ⟨s, hs, hlocal, ⟨r, sink⟩, hr, rfl⟩ := hrun
  exact ⟨s, Except.toOption_eq_some.1 hs, .of_stock hlocal, sink, Except.toOption_eq_some.1 hr⟩

end Interlock
