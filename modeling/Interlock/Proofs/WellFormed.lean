import Interlock.Proofs.Draft.Regular
import Interlock.Proofs.Draft.Trial
import Interlock.Proofs.Elaboration.Defined
import Interlock.Proofs.Failure
import Interlock.Proofs.Simulation.Settle

/-! What elaboration gives is well-formed. The assignments of a recorded design and of the logic that is added
to it are in the right domains, so that no rule of netlists is broken but for loops; where every width is
defined a simulation of the result starts; and each wire that is left to elaboration has one assignment, which
is a generated one. -/

namespace Interlock

namespace Design

variable {d d' : Design} {f : Fused} {s : Schedule}

/-- The circuit that the passes before lowering lead to. -/
theorem circuit_of (hd : d.Sound) (hf : Attempt.Gives d.fused f) (hs : f.design.schedule f.map = .ok s)
    (hd' : Attempt.Gives (f.design.withLogic f.map s) d') : ∃ l, Circuit f.design f.map s d' l := by
  obtain ⟨hsound, hmap, -⟩ := fused_ok hd hf
  exact withLogic_ok hsound hmap (Schedule.schedule_ok hsound hmap hs) hd'

theorem lowered_regular (hd : d.Sound) (hr : d.Regular) (hf : Attempt.Gives d.fused f)
    (hs : f.design.schedule f.map = .ok s) (hd' : Attempt.Gives (f.design.withLogic f.map s) d') :
    d'.lowered.Regular := by
  obtain ⟨l, h⟩ := circuit_of hd hf hs hd'
  have hr' := h.regular (hr.fused hd hf)
  exact Drivers.build_regular (h.gains.comb.trans h.sound.comb) (h.gains.sync.trans h.sound.sync) hr'.narrow hr'.domains

/-- The drivers of a design of defined width. -/
theorem lowered_defined (hr : d.Regular) (hdef : d.Defined) (hcomb : d.netlist.comb = []) (hsync : d.netlist.sync = []) :
    ∀ a ∈ d.lowered.comb ++ d.lowered.sync, a.value.Defined := by
  have driver : ∀ domain x, (Drivers.driver d.netlist d.assigns domain x).value.Defined := fun domain x =>
    have hread := defined_read hr x
    Drivers.closed_driver Expr.closed_defined (Expr.Defined.width_lt hread) (fun _ => hread) fun a ha _ _ =>
      hdef.assigns a ha
  intro a ha
  simp only [lowered, Drivers.build, hcomb, hsync, List.nil_append, List.mem_append, List.mem_map] at ha
  rcases ha with ⟨x, -, rfl⟩ | ⟨x, -, rfl⟩ <;> exact driver _ x

/-- So are those of what elaboration gives. -/
theorem elaborate_defined (hd : d.Sound) (hr : d.Regular) (hdef : d.Defined) {sink sink' : DiagnosticSink}
    {e : Elaborated} (he : d.elaborate sink = .ok (.ok e, sink')) :
    ∀ a ∈ e.netlist.comb ++ e.netlist.sync, a.value.Defined := by
  obtain ⟨f, s, d', hf, hs, hd', hlower⟩ := elaborate_steps he
  obtain ⟨l, h⟩ := circuit_of hd hf hs hd'
  obtain ⟨-, -, -, -, -, -, hmap⟩ := fused_steps hf
  have hr' := hr.fused hd hf
  have hdefined := h.defined (hdef.fused hd hr hf) hr' hmap
  have hnetlist : e.netlist = d'.lowered := Drivers.lower_ok hlower
  rw [hnetlist]
  exact lowered_defined (h.regular hr') hdefined (h.gains.comb.trans h.sound.comb) (h.gains.sync.trans h.sound.sync)

/-! ### One assignment for each wire -/

/-- Nothing has been assigned to the signal in the recorded design, and it has one assignment in the end. -/
def GeneratedOnce (d d' : Design) (x : SignalId) : Prop := (∀ a ∈ d.assigns, a.target ≠ x) ∧ d'.AssignedOnce x

/-- The runnable wire that a member had as a transaction has one assignment. -/
theorem runnable_once (hd : d.Sound) (hf : Attempt.Gives d.fused f) {m : NodeId} {n : Node} {info : TransactionInfo}
    (hn : d.nodes.get? m = some n) (hk : n.kind = .transaction info) {g : Fusion.FusedGroup} (hg : g ∈ f.groups)
    (hm : m ∈ g.members) : f.design.AssignedOnce info.runnable := by
  obtain ⟨hsound, -, hfuses⟩ := fused_ok hd hf
  have hunites := fused_unites hd hf
  obtain ⟨members, hnodup, hmembers, hassigns⟩ := fused_assigns hf hd
  have hgen : info.runnable ∈ n.generated := by simp [Node.generated, hk]
  have member : ∀ u ∈ members, ∃ uinfo, (d.node u).kind = .transaction uinfo ∧ d.nodes.get? u = some (d.node u) ∧
      Fusion.runnableOf f.groups f.design u = some (Drivers.always uinfo.runnable (Fusion.mayRun f.groups f.design u)) := by
    intro u hu
    obtain ⟨h, hh, huh⟩ := (hmembers u).1 hu
    obtain ⟨uinfo, htr⟩ := hd.transaction (hunites.transactions h hh u huh)
    refine ⟨uinfo, htr.kind, htr.get?, ?_⟩
    rw [Fusion.runnableOf, (hunites.member h hh u huh uinfo htr.kind).1]
    rfl
  obtain ⟨info', hk', -, hrun⟩ := member m ((hmembers m).2 ⟨g, hg, hm⟩)
  rw [node_of_get? hn, hk] at hk'
  obtain rfl := NodeKind.transaction.inj hk'
  unfold AssignedOnce
  rw [hassigns]
  refine assignedOnce_append (fun a ha he => ?_) ?_ ?_
  · rcases List.mem_append.1 ha with ha | ha
    · exact hd.free a ha m n hn (he ▸ hgen)
    · -- The transaction of a group has wires of its own.
      obtain ⟨h, hh, rfl⟩ := List.mem_map.1 ha
      obtain ⟨t, tinfo, module, ht, htk, -⟩ := hunites.calls h hh
      obtain ⟨n', hn', hsame⟩ := hfuses.old m n hn
      have hentry : (f.design.node h.transaction).entry = info.runnable := he
      rw [node_of_get? ht] at hentry
      have hwire : t.entry ∈ n'.wires := by
        rw [hentry, hsame.wires.2.1]
        exact Node.generated_subset hgen
      obtain rfl := hsound.distinct _ m t n' ht hn' t.entry (Node.control_subset t.entry_mem_control) hwire
      have hmethod := (hunites.member g hg h.transaction hm info (by rw [node_of_get? hn, hk])).1
      rw [node_of_get? ht, Node.method?, htk] at hmethod
      cases hmethod
  · rw [List.map_filterMap]
    refine hnodup.filterMap fun u v x hu hv => ?_
    obtain ⟨a, ha, rfl⟩ := Option.map_eq_some_iff.1 hu
    obtain ⟨b, hb, hba⟩ := Option.map_eq_some_iff.1 hv
    obtain ⟨nu, hnu, hu⟩ := Fusion.runnableOf_wire ha
    obtain ⟨nv, hnv, hv⟩ := Fusion.runnableOf_wire hb
    exact hsound.distinct u v nu nv hnu hnv a.target hu (hba ▸ hv)
  · exact List.mem_map.2 ⟨_, List.mem_filterMap.2 ⟨m, (hmembers m).2 ⟨g, hg, hm⟩, hrun⟩, rfl⟩

theorem generated_once (hd : d.Sound) (hf : Attempt.Gives d.fused f) (hs : f.design.schedule f.map = .ok s)
    (hd' : Attempt.Gives (f.design.withLogic f.map s) d') {i : NodeId} {n : Node}
    (hn : f.design.nodes.get? i = some n) {x : SignalId} (hx : x ∈ n.generated) : d.GeneratedOnce d' x := by
  obtain ⟨l, h⟩ := circuit_of hd hf hs hd'
  obtain ⟨_, hassigns, -⟩ := (fused_ok hd hf).2.2.assigns
  refine ⟨fun a ha => h.sound.undriven (.inr ⟨i, n, hn, hx⟩) a ?_, h.assignedOnce hn hx⟩
  rw [hassigns]
  exact List.mem_append_left _ ha

/-- A wire that a recorded node leaves to elaboration, also where the node has become a member. -/
theorem recorded_once (hd : d.Sound) (hf : Attempt.Gives d.fused f) (hs : f.design.schedule f.map = .ok s)
    (hd' : Attempt.Gives (f.design.withLogic f.map s) d') {i : NodeId} {n : Node} (hn : d.nodes.get? i = some n)
    {x : SignalId} (hx : x ∈ n.generated) : d.GeneratedOnce d' x := by
  rcases fused_node hf hd hn with ⟨⟨g, hg, hi⟩, info, hk, hn'⟩ | ⟨-, hn'⟩
  · have hgen := hx
    rw [Node.generated, hk] at hx
    rcases List.mem_cons.1 hx with rfl | hx
    · exact generated_once hd hf hs hd' hn' (by simp [Node.generated, Fusion.memberInfo])
    · obtain rfl := List.mem_singleton.1 hx
      obtain ⟨l, h⟩ := circuit_of hd hf hs hd'
      exact ⟨fun a ha he => hd.free a ha i n hn (he ▸ hgen), h.keepsOnce (runnable_once hd hf hn hk hg hi)⟩
  · exact generated_once hd hf hs hd' hn' hx

/-- What elaboration gives passes the check, has an order of drivers and a simulation that starts; no signal has
two drivers, and each wire that a node leaves to elaboration, before or after fusion, has one assignment. -/
structure WellFormed (d : Design) (e : Elaborated) : Prop where
  validates : Attempt.Gives e.netlist.validate ()
  ordered : ∃ order, Attempt.Gives e.netlist.combOrder order
  simulates : ∃ k, (Kernel.new e.netlist).Gives k
  distinct : ((e.netlist.comb ++ e.netlist.sync).map (·.target)).Nodup
  generated : ∃ (f : Fused) (s : Schedule) (d' : Design), Attempt.Gives d.fused f ∧
    f.design.schedule f.map = .ok s ∧ Attempt.Gives (f.design.withLogic f.map s) d' ∧ e.netlist = d'.lowered ∧
    (∀ i n, d.nodes.get? i = some n → ∀ x ∈ n.generated, d.GeneratedOnce d' x) ∧
    ∀ i n, f.design.nodes.get? i = some n → ∀ x ∈ n.generated, d.GeneratedOnce d' x

theorem elaborate_gives (hd : d.Sound) (hr : d.Regular) (hdef : d.Defined) {sink sink' : DiagnosticSink}
    {e : Elaborated} (he : d.elaborate sink = .ok (.ok e, sink')) : d.WellFormed e := by
  obtain ⟨f, s, d', hf, hs, hd', hlower⟩ := elaborate_steps he
  have hnetlist : e.netlist = d'.lowered := Drivers.lower_ok hlower
  simp only [Drivers.lower, Attempt.gives_bind, Attempt.gives_adapt] at hlower
  obtain ⟨_, ⟨_, hvalidate, order, horder, -⟩, -⟩ := hlower
  have hvalidate : Attempt.Gives e.netlist.validate () := hnetlist ▸ hvalidate
  have horder : Attempt.Gives e.netlist.combOrder order := hnetlist ▸ horder
  have hregular := lowered_regular hd hr hf hs hd'
  have hcomb : ∀ a ∈ e.netlist.comb, a.value.Defined := fun a ha =>
    elaborate_defined hd hr hdef he a (List.mem_append_left _ ha)
  refine ⟨hvalidate, ⟨order, horder⟩, Kernel.new_gives hvalidate horder hcomb, hnetlist ▸ hregular.distinct,
    f, s, d', hf, hs, hd', hnetlist, fun i n hn x hx => ?_, fun i n hn x hx => ?_⟩
  · exact recorded_once hd hf hs hd' hn hx
  · exact generated_once hd hf hs hd' hn hx

end Design

namespace Draft

end Draft

end Interlock
