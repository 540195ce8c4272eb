import Interlock.Proofs.Draft.Named
import Interlock.Proofs.Draft.Script
import Interlock.Proofs.Draft.Trial
import Interlock.Proofs.WellFormed

/-! Names lead back to what they name. Fusion and the registers of arbiters ask for fresh names as declarations do, so
no two nodes of an elaborated design have one name, and no two signals. A report tells the signals of each node by their
names, and each of these is found in the netlist as the signal that it was taken from. -/

namespace Interlock

open Design

variable {d d' : Design}

/-! ### Names that elaboration makes up -/

namespace Fusion

/-- The transaction of a group is named after its members. -/
theorem addGroup_named (h : d.Named []) (members : Group) : (addGroup d members).2.Named [] := by
  obtain ⟨module, order, loc, hgroup⟩ := addGroup_snd d members
  have hname := h.newName ("_".intercalate (members.map d.name))
  rw [hgroup]
  refine Named.modifyNode ?_ _ fun _ => rfl
  unfold withGroup
  generalize d.newName ("_".intercalate (members.map d.name)) = named at hname ⊢
  obtain ⟨name, d₁⟩ := named
  exact ((hname.newTransactionInfo name).newModule.addNode _ _).drive _ _

theorem addGroups_named (groups : List Group) : ∀ {d : Design}, d.Named [] → (addGroups d groups).2.Named [] := by
  induction groups with
  | nil => exact fun h => h
  | cons g gs ih => exact fun h => ih (addGroup_named h g)

theorem driveRunnable_named (h : d.Named []) (fused : List FusedGroup) (m : NodeId) :
    (driveRunnable fused d m).Named [] := by
  unfold driveRunnable
  split
  · exact h
  · exact h.drive _ _

theorem fuse_named (h : d.Named []) (groups : List Group) : (fuse d groups).2.Named [] := by
  unfold fuse
  simp only
  have hmembers : ((groups.foldl Group.union []).foldl (fun d m => d.modifyNode m toMember) d).Named [] :=
    List.foldlRecOn (motive := fun d : Design => d.Named []) _ _ h fun d hd m _ =>
      hd.modifyNode m fun n => (same_toMember n).fields.2.2.2.2
  exact List.foldlRecOn (motive := fun d : Design => d.Named []) _ _ (addGroups_named groups hmembers) fun d hd m _ =>
    driveRunnable_named hd _ m

end Fusion

namespace Arbiter

variable {s : Schedule}

theorem driveGrant_named (h : d.Named []) {t : NodeId} {value : Expr} (hd : driveGrant d t value = .ok d') :
    d'.Named [] := by
  unfold driveGrant at hd
  split at hd
  · obtain rfl := Except.ok.inj hd
    exact h.drive _ _
  · cases hd

theorem eager_named {rest : List NodeId} : ∀ {earlier : List NodeId} {d : Design}, d.Named [] →
    eager s earlier rest d = .ok d' → d'.Named [] := by
  induction rest with
  | nil => exact fun h hd => Except.ok.inj hd ▸ h
  | cons t rest ih =>
    intro earlier d h hd
    rw [eager, except_bind_ok] at hd
    obtain ⟨d₁, hd₁, hd⟩ := hd
    exact ih (driveGrant_named h hd₁) hd

/-- The register of a class that takes turns is named after its position. -/
theorem roundRobin_named (h : d.Named []) {index : Nat} {members : List NodeId}
    (hd : roundRobin index members d = .ok d') : d'.Named [] := by
  unfold roundRobin at hd
  simp only at hd
  split at hd
  · cases hd
  · obtain ⟨d₁, hd₁, hd⟩ := except_bind_ok.1 hd
    obtain rfl := except_pure_ok.1 hd
    have hdriven := except_foldlM_ok (P := fun d : Design => d.Named [])
      (fun p _ d d' h hd => driveGrant_named h hd) (h.newSignal _ _ .reg _) hd₁
    exact hdriven.assign _

theorem emit_named (h : d.Named []) (hd : emit s d = .ok d') : d'.Named [] := by
  refine except_foldlM_ok (P := fun d : Design => d.Named []) (fun p _ d d' h hd => ?_) h hd
  simp only [emitClass] at hd
  split at hd
  · exact roundRobin_named h hd
  · exact eager_named h hd

end Arbiter

namespace Design

/-- No two nodes have one name, and no two signals. -/
def NamedApart (d : Design) : Prop := d.nodeNames.Nodup ∧ d.netlist.names.Nodup

theorem Named.apart (h : d.Named []) : d.NamedApart := by
  have hnodes := h.nodes.nodup
  rw [List.append_nil] at hnodes
  exact ⟨hnodes, h.signals.nodup⟩

variable {f : Fused} {s : Schedule}

theorem Named.fused (h : d.Named []) (hf : Attempt.Gives d.fused f) : f.design.Named [] := by
  obtain ⟨_, groups, -, -, -, hdesign, -⟩ := fused_steps hf
  have hprune : d.pruneOrderings.Named [] := ⟨h.nodes, h.signals⟩
  rw [hdesign]
  exact Fusion.fuse_named hprune groups

/-- The logic of calls adds no signals to those of the arbiters. -/
theorem Named.withLogic {map : CallMap} (h : d.Named []) (hd : Attempt.Gives (d.withLogic map s) d') :
    d'.netlist.names.Nodup := by
  simp only [Design.withLogic, Attempt.gives_bind, Attempt.gives_ofExcept] at hd
  obtain ⟨d₁, hd₁, hd⟩ := hd
  rw [CallLogic.emit_netlist hd]
  exact (Arbiter.emit_named h hd₁).signals.nodup

/-- Fusion keeps the names of the nodes that were there, and the nodes that it adds come after them. -/
theorem fused_names (hd : d.Sound) (hf : Attempt.Gives d.fused f) : d.nodeNames <+: f.design.nodeNames := by
  refine List.prefix_iff_getElem?.2 fun i hi => ?_
  obtain ⟨n, hn⟩ := Arena.exists_get? (a := d.nodes) (i := i)
    (by simpa [nodeNames, nodeList, Arena.toList, Arena.size] using hi)
  obtain ⟨n', hn', hsame⟩ := (fused_ok hd hf).2.2.old i n hn
  rw [← List.getElem?_eq_getElem hi, getElem?_nodeNames, getElem?_nodeNames, hn, hn', Option.map_some, Option.map_some,
    hsame.fields.2.2.2.2]

end Design

/-! ### Reports -/

theorem find?_of_nodup {α : Type} {key : α → String} {l : List α} (h : (l.map key).Nodup) {x : α} (hx : x ∈ l) :
    (l.find? fun y => key y == key x) = some x := by
  induction l with
  | nil => cases hx
  | cons y l ih =>
    obtain ⟨hy, h⟩ := List.nodup_cons.1 h
    rcases List.mem_cons.1 hx with rfl | hx
    · rw [List.find?_cons_of_pos (by simp)]
    · have hne : key y ≠ key x := fun he => hy (he ▸ List.mem_map_of_mem hx)
      rw [List.find?_cons_of_neg (by simpa using hne)]
      exact ih h hx

theorem lookup_of_nodup {α : Type} {l : List (String × α)} (h : (l.map (·.1)).Nodup) {k : String} {v : α}
    (hm : (k, v) ∈ l) : l.lookup k = some v := by
  obtain ⟨before, after, rfl⟩ := List.append_of_mem hm
  rw [List.map_append, List.map_cons, List.nodup_append] at h
  refine List.lookup_eq_some_iff.2 ⟨before, after, rfl, fun p hp => bne_iff_ne.2 (Ne.symm ?_)⟩
  exact h.2.2 p.1 (List.mem_map_of_mem hp) k (List.mem_cons_self ..)

theorem Netlist.find?_of_nodup {n : Netlist} (h : n.names.Nodup) {i : SignalId} {s : Signal}
    (hs : n.signals.get? i = some s) : n.find? s.name = some i := by
  have hget : n.signals.toList[i]? = some s := (Array.getElem?_toList).trans hs
  obtain ⟨hi, hitem⟩ := List.getElem?_eq_some_iff.1 hget
  refine List.findIdx?_eq_some_iff_getElem.2 ⟨hi, by rw [hitem]; exact beq_self_eq_true _, fun j hj hname => ?_⟩
  have hj' : j < n.signals.toList.length := Nat.lt_trans hj hi
  have hsame : n.names[j]? = n.names[i]? := by
    rw [Netlist.names, List.getElem?_map, List.getElem?_map, hget, List.getElem?_eq_getElem hj', Option.map_some,
      Option.map_some, beq_iff_eq.1 hname]
  have hlt : j < n.names.length := by rwa [Netlist.names, List.length_map]
  exact absurd ((List.getElem?_inj hlt h).1 hsame) (Nat.ne_of_lt hj)

namespace Node

/-- What the signals of a node are for. A transaction that has become part of a group still has the signal that tells
whether it can run. -/
inductive Plays (n : Node) : String → SignalId → Prop
  | request {info : TransactionInfo} (h : n.kind = .transaction info) : Plays n "request" info.request
  | runnable {info : TransactionInfo} (h : n.kind = .transaction info) : Plays n "runnable" info.runnable
  | grant {info : TransactionInfo} (h : n.kind = .transaction info) : Plays n "grant" info.grant
  | ready {info : MethodInfo} (h : n.kind = .method info) : Plays n "ready" info.ready
  | run {info : MethodInfo} (h : n.kind = .method info) : Plays n "run" info.run
  | dataIn {info : MethodInfo} {bus : SignalId} (h : n.kind = .method info) (hbus : info.dataIn = some bus) :
      Plays n "data_in" bus
  | dataOut {info : MethodInfo} {bus : SignalId} (h : n.kind = .method info) (hbus : info.dataOut = some bus) :
      Plays n "data_out" bus
  | member {info : MethodInfo} {origin : TransactionInfo} (h : n.kind = .method info)
      (horigin : info.fusedFrom = some origin) : Plays n "runnable" origin.runnable

/-- The ports of a node are its signals with what they are for. -/
theorem mem_ports_iff {n : Node} {role : String} {id : SignalId} : (role, id) ∈ n.ports ↔ n.Plays role id := by
  constructor
  · intro h
    unfold ports at h
    split at h
    · rename_i hk
      simp only [List.mem_cons, Prod.mk.injEq, List.not_mem_nil, or_false] at h
      rcases h with ⟨rfl, rfl⟩ | ⟨rfl, rfl⟩ | ⟨rfl, rfl⟩
      exacts [.grant hk, .request hk, .runnable hk]
    · rename_i hk
      simp only [List.mem_append, List.mem_map, Option.mem_toList, List.mem_cons, Prod.mk.injEq, List.not_mem_nil,
        or_false] at h
      rcases h with ((⟨_, hbus, rfl, rfl⟩ | ⟨_, hbus, rfl, rfl⟩) | ⟨rfl, rfl⟩ | ⟨rfl, rfl⟩) | ⟨_, horigin, rfl, rfl⟩
      exacts [.dataIn hk hbus, .dataOut hk hbus, .ready hk, .run hk, .member hk horigin]
  · intro h
    unfold ports
    cases h <;> simp_all

/-- The ports come in the order of the words. -/
theorem ports_sorted (n : Node) : (n.ports.map (·.1)).Pairwise (· < ·) := by
  unfold ports
  split
  · simp only [List.map_cons, List.map_nil]
    decide
  · rename_i info _
    cases info.dataIn <;> cases info.dataOut <;> cases info.fusedFrom <;>
      simp only [Option.toList, List.map_cons, List.map_nil, List.cons_append, List.nil_append] <;> decide

/-- A node has one signal for each purpose. -/
theorem nodup_ports (n : Node) : (n.ports.map (·.1)).Nodup :=
  n.ports_sorted.imp fun h => String.ne_of_lt h

theorem ports_wires {n : Node} {p : String × SignalId} (hp : p ∈ n.ports) : p.2 ∈ n.wires := by
  unfold ports at hp
  unfold wires control buses
  cases hk : n.kind with
  | transaction info =>
    rw [hk] at hp
    simp only [List.mem_cons, List.not_mem_nil, or_false] at hp
    rcases hp with rfl | rfl | rfl <;> simp
  | method info =>
    rw [hk] at hp
    simp only [List.mem_append, List.mem_map, Option.mem_toList, List.mem_cons, List.not_mem_nil, or_false] at hp
    rcases hp with ((⟨x, hx, rfl⟩ | ⟨x, hx, rfl⟩) | rfl | rfl) | ⟨origin, ho, rfl⟩
    · simp [hx]
    · simp [hx]
    · simp
    · simp
    · simp [ho]

end Node

namespace ScheduleReport

variable {s : Schedule} {groups : List Fusion.FusedGroup}

theorem node?_ofSchedule (h : d.nodeNames.Nodup) {n : Node} (hn : n ∈ d.nodeList) :
    (ofSchedule d s groups).node? n.name = some (ofNode d n) := by
  show (d.nodeList.map (ofNode d)).find? _ = _
  rw [List.find?_map]
  have hfind := find?_of_nodup h hn
  exact congrArg (Option.map (ofNode d)) hfind

theorem signal?_ofSchedule (h : d.nodeNames.Nodup) {n : Node} (hn : n ∈ d.nodeList) {port : String} {id : SignalId}
    (hp : (port, id) ∈ n.ports) {g : Signal} (hg : d.netlist.signals.get? id = some g) :
    (ofSchedule d s groups).signal? n.name port = some g.name := by
  rw [signal?, node?_ofSchedule h hn, Option.bind_some]
  have hkeys : (ofNode d n).signals.map (·.1) = n.ports.map (·.1) := List.map_map
  refine lookup_of_nodup (hkeys ▸ n.nodup_ports) (List.mem_map.2 ⟨(port, id), hp, ?_⟩)
  simp only [hg, Option.map_some, Option.getD_some]

end ScheduleReport

/-- The entry of a node: what its signals are for, each purpose once and in the order of the words, and nothing else. -/
structure NodeReport.Lists (r : NodeReport) (n : Node) : Prop where
  name : r.name = n.name
  sorted : (r.signals.map (·.1)).Pairwise (· < ·)
  roles : ∀ role, role ∈ r.signals.map (·.1) ↔ ∃ id, n.Plays role id

theorem ScheduleReport.ofNode_lists (d : Design) (n : Node) : (ofNode d n).Lists n := by
  have hkeys : (ofNode d n).signals.map (·.1) = n.ports.map (·.1) := List.map_map
  refine ⟨rfl, hkeys ▸ n.ports_sorted, fun role => ?_⟩
  simp only [hkeys, List.mem_map, Prod.exists, exists_and_right, exists_eq_right, Node.mem_ports_iff]

/-- What the report says leads back to the netlist: it has an entry for each node, and the name that it gives for a
purpose is found as the signal that serves it. -/
structure Elaborated.LeadsBack (e : Elaborated) (d : Design) : Prop where
  lists : List.Forall₂ NodeReport.Lists e.report.nodes d.nodeList
  finds : ∀ n ∈ d.nodeList, ∀ role id, n.Plays role id →
    ∃ name, e.report.signal? n.name role = some name ∧ e.netlist.find? name = some id

theorem Design.elaborate_leadsBack (hd : d.Sound) (h : d.Named []) {sink sink' : DiagnosticSink} {e : Elaborated}
    (he : d.elaborate sink = .ok (.ok e, sink')) :
    e.netlist.names.Nodup ∧ ∃ f, Attempt.Gives d.fused f ∧ e.LeadsBack f.design := by
  obtain ⟨f, s, d', hf, hs, hd', hlower, hreport⟩ := elaborate_passes he
  obtain ⟨l, hcircuit⟩ := circuit_of hd hf hs hd'
  have hfused := h.fused hf
  have hnames := hfused.withLogic hd'
  have hnodes : d'.nodeList = f.design.nodeList := hcircuit.gains.nodeList
  have hnodeNames : d'.nodeNames.Nodup := by
    have hnodup := hfused.apart.1
    rwa [nodeNames, ← hnodes] at hnodup
  have hsignals : e.netlist.signals = d'.netlist.signals := by rw [Drivers.lower_ok hlower, Drivers.build]
  have hnetlist : e.netlist.names = d'.netlist.names := by rw [Netlist.names, hsignals, Netlist.names]
  refine ⟨hnetlist ▸ hnames, f, hf, ?_, fun n hn role id hplays => ?_⟩
  · rw [hreport, ← hnodes]
    show List.Forall₂ _ (d'.nodeList.map (ScheduleReport.ofNode d')) _
    exact List.forall₂_map_left_iff.2 (List.forall₂_same.2 fun n _ => ScheduleReport.ofNode_lists d' n)
  · -- The signal is one of the wires of the node, and they are there.
    have hp := Node.mem_ports_iff.2 hplays
    obtain ⟨i, hi⟩ := Arena.mem_toList.1 hn
    have hlt := (hcircuit.sound.nodes i n hi).declared id (Node.ports_wires hp)
    obtain ⟨g, hg⟩ := Arena.exists_get? hlt
    have hg := hcircuit.gains.signals id g hg
    refine ⟨g.name, ?_, ?_⟩
    · rw [hreport]
      exact ScheduleReport.signal?_ofSchedule hnodeNames (hnodes ▸ hn) hp hg
    · exact Netlist.find?_of_nodup (hnetlist ▸ hnames) (hsignals ▸ hg)

/-- In a design that users arrive at, and once it is fused, no two nodes have one name, and no two signals, whatever
names and prefix have been asked for: a fresh name is found after at most as many candidates as there are names. So the
names in the report of a successful elaboration lead back to the signals of the nodes. -/
theorem names_lead_back {design : Design} (hdesign : design.Described) :
    (∀ (t : Names) (base : String), ∃ n ≤ t.size, t.freshName base = Names.candidate base n ∧
      (∀ m < n, Names.candidate base m ∈ t.taken) ∧ t.freshName base ∉ t.taken ∧
      (t.fresh base).2.taken = t.taken ++ [t.freshName base]) ∧
    design.NamedApart ∧
    (∀ f, Attempt.Gives design.fused f → f.design.NamedApart ∧ design.nodeNames <+: f.design.nodeNames) ∧
    ∀ sink e sink', design.elaborate sink = .ok (.ok e, sink') →
      e.netlist.names.Nodup ∧ ∃ f, Attempt.Gives design.fused f ∧ e.LeadsBack f.design := by
  obtain ⟨d, hd, rfl⟩ := hdesign.recorded
  refine ⟨fun t base => ?_, hd.named.apart, fun f hf => ⟨(hd.named.fused hf).apart, fused_names hd.sound hf⟩,
    fun sink e sink' he => elaborate_leadsBack hd.sound hd.named he⟩
  obtain ⟨n, hn, hname, -, hbefore⟩ := Names.freshName_spec t base
  have hfree := Names.freshName_free t base
  exact ⟨n, hn, hname, hbefore, hfree, Names.taken_intern hfree⟩

namespace Draft

/-- Names that are asked for twice, or that look like made-up ones. -/
def namesakes : List Action :=
  [.transaction "t_1" .generated, .transaction "t" .generated, .transaction "t" .generated,
    .method { name := "t_1_t", input := .bits 4 } .generated, .simultaneous 0 [1], .openModule "",
    .inModule 0 (.signal "t_grant" 1 .wire 0 .generated), .inModule 0 (.signal "rr0_last" 2 .reg 0 .generated),
    .inModule 0 (.openMethod 3 .one none .generated), .inModule 0 .leaveBody,
    .inModule 0 (.openTransaction 0 .one .generated),
    .inModule 0 (.call 3 (.constant 5 4) .one .generated), .inModule 0 .leaveBody,
    .inModule 0 (.openTransaction 1 .one .generated), .inModule 0 .leaveBody,
    .inModule 0 (.openTransaction 2 .one .generated),
    .inModule 0 (.call 3 (.constant 6 4) .one .generated), .inModule 0 .leaveBody]

end Draft

/-- The second `t` and the group of the first one with `t_1` get numbers, and so do the wire and the register of the
names that are taken. -/
theorem names_lead_back_of_namesakes :
    ∃ x : Draft.Trial, (Draft.under { scheduler := .roundRobin, namePrefix := "p_" } Draft.namesakes).trial? = some x ∧
      x.fused.design.nodeNames = ["t_1", "t", "t_2", "t_1_t", "t_1_t_1"] ∧
      x.elaborated.netlist.names.Nodup ∧ x.elaborated.LeadsBack x.fused.design := by
  have hrec : (Draft.under { scheduler := .roundRobin, namePrefix := "p_" } Draft.namesakes).Recorded :=
    Draft.recorded_under (by decide +kernel)
  have htrial : ∃ x ∈ (Draft.under { scheduler := .roundRobin, namePrefix := "p_" } Draft.namesakes).trial?,
      x.fused.design.nodeNames = ["t_1", "t", "t_2", "t_1_t", "t_1_t_1"] := by
    decide +kernel
  obtain ⟨x, hx, hnames⟩ := htrial
  obtain ⟨hf, -, he, -⟩ := Draft.trial_ok hx
  obtain ⟨-, -, -, hback⟩ := names_lead_back (.actions hrec)
  obtain ⟨hnodup, f, hf', hleads⟩ := hback _ _ _ he
  obtain rfl := hf.unique hf'
  exact ⟨x, hx, hnames, hnodup, hleads⟩

end Interlock
