import Interlock.Elaboration
import Interlock.Proofs.Design.Declare
import Interlock.Proofs.Design.Gains
import Interlock.Proofs.Reach.Ways
import Interlock.Proofs.Relations

/-! What fusion leaves as it was: a node stays what it is, or is a transaction that has become a method
with the same wires. What it adds are transactions without a path, wires of theirs, and assignments to
wires that nobody else assigns to. -/

namespace Interlock

namespace Fusion

open Design

variable {d d' : Design}

/-! ### Transactions as methods -/

theorem toMember_cases (n : Node) : toMember n = n ∨
    ∃ info, n.kind = .transaction info ∧ toMember n = { n with kind := .method (memberInfo info) } := by
  unfold toMember
  split
  · exact .inr ⟨_, ‹_›, rfl⟩
  · exact .inl rfl

/-- A node is the same, or was a transaction and is now a method. -/
def Same (n n' : Node) : Prop :=
  n' = n ∨ ∃ info, n.kind = .transaction info ∧ n' = { n with kind := .method (memberInfo info) }

theorem Same.trans {n₁ n₂ n₃ : Node} (h : Same n₁ n₂) (h' : Same n₂ n₃) : Same n₁ n₃ := by
  rcases h with rfl | ⟨info, hk, rfl⟩
  · exact h'
  · rcases h' with rfl | ⟨info', hk', -⟩
    · exact .inr ⟨info, hk, rfl⟩
    · exact nomatch hk'

theorem Same.fields {n n' : Node} (h : Same n n') : n'.id = n.id ∧ n'.path = n.path ∧ n'.calls = n.calls ∧
    n'.simultaneous = n.simultaneous ∧ n'.name = n.name := by
  rcases h with rfl | ⟨info, -, rfl⟩ <;> exact ⟨rfl, rfl, rfl, rfl, rfl⟩

theorem Same.wires {n n' : Node} (h : Same n n') : n'.control = n.control ∧ n'.wires = n.wires ∧
    n'.entry = n.entry ∧ n'.activator = n.activator ∧ ∀ x ∈ n'.generated, x ∈ n.generated := by
  rcases h with rfl | ⟨info, hk, rfl⟩
  · exact ⟨rfl, rfl, rfl, rfl, fun _ h => h⟩
  · simp only [Node.wires, Node.control, Node.buses, Node.entry, Node.activator, Node.generated, hk, memberInfo]
    simp

theorem Same.nodeSound {n n' : Node} {i : NodeId} (h : Same n n') (hn : d.NodeSound i n) :
    d.NodeSound i n' := by
  obtain ⟨hid, hnodup, hdecl, hsingle, hsim, hfused⟩ := hn
  obtain ⟨hid', -, -, hsim', -⟩ := h.fields
  obtain ⟨hc, hw, -, -, -⟩ := h.wires
  refine ⟨hid'.trans hid, hw ▸ hnodup, hw ▸ hdecl, hc ▸ hsingle, hsim' ▸ hsim, ?_⟩
  rcases h with rfl | ⟨info, hk, rfl⟩
  · exact hfused
  · rintro _ h o ho
    obtain rfl := NodeKind.method.inj h
    obtain rfl := Option.some.inj ho
    exact ⟨rfl, rfl⟩

/-! ### What fusion keeps -/

/-- Fusion keeps the nodes of a design and the wires that its bodies drive; bodies that it adds have no
path, and call their members in every cycle. -/
structure Fuses (d d' : Design) : Prop where
  size : d.nodes.size ≤ d'.nodes.size
  old : ∀ i n, d.nodes.get? i = some n → ∃ n', d'.nodes.get? i = some n' ∧ Same n n'
  new : ∀ i n', d'.nodes.get? i = some n' → d.nodes.size ≤ i →
    n'.path = none ∧ ∃ (module : ModuleId) (members : Group), n'.calls = members.map (memberCall module)
  wires : d.netlist.signals.size ≤ d'.netlist.signals.size
  signals : ∀ x s, d.netlist.signals.get? x = some s → d'.netlist.signals.get? x = some s
  assigns : ∃ added, d'.assigns = d.assigns ++ added ∧
    ∀ a ∈ added, ∀ i n, d.nodes.get? i = some n → a.target ≠ n.entry

/-- A method stays what it is. -/
theorem Fuses.method (h : Fuses d d') {m : NodeId} {info : MethodInfo} (hm : (d.node m).method? = some info) :
    (d'.node m).method? = some info := by
  obtain ⟨n, hn, hnode, hkind⟩ := get?_of_method hm
  obtain ⟨n', hn', hsame⟩ := h.old m n hn
  rcases hsame with rfl | ⟨tinfo, htr, -⟩
  · rw [node_of_get? hn', ← hnode]
    exact hm
  · rw [hkind] at htr
    exact nomatch htr

theorem Fuses.isBit (h : Fuses d d') {x : SignalId} (hx : d.netlist.IsBit x) : d'.netlist.IsBit x := by
  obtain ⟨s, hs, hbit⟩ := hx
  exact ⟨s, h.signals x s hs, hbit⟩

theorem Fuses.of_nodes (hn : d'.nodes = d.nodes) (hw : d.netlist.signals.size ≤ d'.netlist.signals.size)
    (hs : ∀ x s, d.netlist.signals.get? x = some s → d'.netlist.signals.get? x = some s)
    (ha : ∃ added, d'.assigns = d.assigns ++ added ∧
      ∀ a ∈ added, ∀ i n, d.nodes.get? i = some n → a.target ≠ n.entry) : Fuses d d' := by
  refine ⟨Nat.le_of_eq (by rw [hn]), fun i n hi => ⟨n, hn ▸ hi, .inl rfl⟩, fun i n' hi hle => ?_, hw, hs, ha⟩
  rw [hn] at hi
  exact absurd (Arena.lt_of_get? hi) (Nat.not_lt.2 hle)

theorem Fuses.refl (d : Design) : Fuses d d :=
  .of_nodes rfl (Nat.le_refl _) (fun _ _ h => h) ⟨[], (List.append_nil _).symm, fun _ h => nomatch h⟩

theorem Fuses.trans {d₁ d₂ d₃ : Design} (h : Fuses d₁ d₂) (h' : Fuses d₂ d₃) : Fuses d₁ d₃ := by
  refine ⟨Nat.le_trans h.size h'.size, fun i n hi => ?_, fun i n hi hle => ?_, Nat.le_trans h.wires h'.wires,
    fun x s hx => h'.signals x s (h.signals x s hx), ?_⟩
  · obtain ⟨n₂, hi₂, hs₂⟩ := h.old i n hi
    obtain ⟨n₃, hi₃, hs₃⟩ := h'.old i n₂ hi₂
    exact ⟨n₃, hi₃, hs₂.trans hs₃⟩
  · rcases Nat.lt_or_ge i d₂.nodes.size with hlt | hge
    · obtain ⟨n₂, hi₂⟩ := Arena.exists_get? hlt
      obtain ⟨n₃, hi₃, hs₃⟩ := h'.old i n₂ hi₂
      obtain rfl : n = n₃ := Option.some.inj (hi.symm.trans hi₃)
      obtain ⟨-, hpath, hcalls, -, -⟩ := hs₃.fields
      rw [hpath, hcalls]
      exact h.new i n₂ hi₂ hle
    · exact h'.new i n hi hge
  · obtain ⟨l, hl, hkeep⟩ := h.assigns
    obtain ⟨l', hl', hkeep'⟩ := h'.assigns
    refine ⟨l ++ l', by rw [hl', hl, List.append_assoc], fun a ha i n hi => ?_⟩
    rcases List.mem_append.1 ha with ha | ha
    · exact hkeep a ha i n hi
    · obtain ⟨n₂, hi₂, hs₂⟩ := h.old i n hi
      rw [← hs₂.wires.2.2.1]
      exact hkeep' a ha i n₂ hi₂

theorem assign_fuses {a : GuardedAssign} (ha : ∀ i n, d.nodes.get? i = some n → a.target ≠ n.entry) :
    Fuses d (d.assign a) :=
  .of_nodes rfl (Nat.le_refl _) (fun _ _ h => h) ⟨[a], rfl, fun b hb => by rwa [List.mem_singleton.1 hb]⟩

/-! ### Steps -/

theorem same_toMember (n : Node) : Same n (toMember n) := toMember_cases n

theorem toMember_ok (hd : d.Sound) (m : NodeId) :
    (d.modifyNode m toMember).Sound ∧ Fuses d (d.modifyNode m toMember) := by
  refine ⟨hd.modifyNode m fun n hn => ?_, ?_⟩
  · have hsame := same_toMember n
    exact ⟨hsame.nodeSound (hd.nodes m n hn), hsame.wires.2.1, hsame.wires.2.2.2.2⟩
  · refine ⟨by simp, fun i n hi => ?_, fun i n' hi hle => ?_, Nat.le_refl _, fun _ _ h => h,
      ⟨[], (List.append_nil _).symm, fun _ h => nomatch h⟩⟩
    · rw [get?_modifyNode]
      split
      · exact ⟨_, by rw [hi]; rfl, same_toMember n⟩
      · exact ⟨n, hi, .inl rfl⟩
    · have hlt := Arena.lt_of_get? hi
      rw [size_modifyNode] at hlt
      exact absurd hlt (Nat.not_lt.2 hle)

/-- The design with the node of a group's transaction, before it is told whom it calls. -/
def withGroup (d : Design) (members : Group) : Design :=
  let named := d.newName ("_".intercalate (members.map d.name))
  let wired := named.2.newTransactionInfo named.1
  let node := wired.2.newModule.2.addNode named.1 (d.node (members.headD 0)).loc (.transaction wired.1)
  node.2.drive wired.1.request .one

theorem withGroup_ok (hd : d.Sound) (members : Group) :
    (withGroup d members).Sound ∧ (withGroup d members).nodes.size = d.nodes.size + 1 ∧
      d.netlist.signals.size ≤ (withGroup d members).netlist.signals.size ∧
      (∀ x s, d.netlist.signals.get? x = some s → (withGroup d members).netlist.signals.get? x = some s) ∧
      (∃ n, (withGroup d members).nodes.get? d.nodes.size = some n ∧ n.path = none ∧ n.simultaneous = []) ∧
      (∀ i n, d.nodes.get? i = some n → (withGroup d members).nodes.get? i = some n) ∧
      ∃ added, (withGroup d members).assigns = d.assigns ++ added ∧
        ∀ a ∈ added, ∀ i n, d.nodes.get? i = some n → a.target ≠ n.entry := by
  unfold withGroup
  have hname := newName_widens d ("_".intercalate (members.map d.name))
  generalize d.newName ("_".intercalate (members.map d.name)) = named at hname ⊢
  obtain ⟨name, d₁⟩ := named
  simp only at hname ⊢
  obtain ⟨hinfo, hfst, hsize, hbits⟩ := newTransactionInfo_spec d₁ name
  generalize d₁.newTransactionInfo name = wired at hinfo hfst hsize hbits ⊢
  obtain ⟨info, d₂⟩ := wired
  simp only at hinfo hfst hsize hbits ⊢
  subst hfst
  have hmodule : Widens d₂ d₂.newModule.2 :=
    ⟨rfl, rfl, rfl, rfl, rfl, Nat.le_refl _, fun _ _ h => h⟩
  have hw := hname.trans (hinfo.trans hmodule)
  generalize hd₃ : d₂.newModule.2 = d₃ at hmodule hw ⊢
  have hsize : d₃.netlist.signals.size = d₁.netlist.signals.size + 3 := by rw [← hd₃]; exact hsize
  have hbits : ∀ x : Nat, d₁.netlist.signals.size ≤ x → x < d₁.netlist.signals.size + 3 →
      d₃.netlist.IsBit x := by rw [← hd₃]; exact hbits
  generalize (d.node (members.headD 0)).loc = loc
  have hsound := Adds.sound ⟨d₃, name, loc, _, hw, rfl, nodeSound_transaction hsize hbits _ name loc, fun x hx => by
    simp only [Node.wires, Node.control, Node.buses, List.append_nil, List.mem_cons, List.not_mem_nil,
      or_false] at hx
    have := hname.size
    omega⟩ hd
  generalize hnew : (⟨d₁.netlist.signals.size, _, _⟩ : TransactionInfo) = info at hsound ⊢
  have hreq : info.request = d₁.netlist.signals.size := by rw [← hnew]
  have hnodes : ∀ j, (d₃.addNode name loc (.transaction info)).2.nodes.get? j =
      if j = d.nodes.size then some { id := j, name, loc, kind := .transaction info } else d.nodes.get? j := by
    intro j
    rw [get?_addNode, hw.nodes]
  have hself := hnodes d.nodes.size
  rw [if_pos rfl] at hself
  refine ⟨?_, ?_, hw.size, hw.signals, ⟨_, hself, rfl, rfl⟩, fun i n hi => ?_, [Drivers.always info.request .one], ?_,
    fun a ha i n hi => ?_⟩
  · exact hsound.assignRecordable (entry_recordable hsound hself)
  · show (d₃.addNode _ _ _).2.nodes.size = _
    rw [size_addNode, hw.nodes]
  · show (d₃.addNode _ _ _).2.nodes.get? i = _
    rw [hnodes, if_neg (Nat.ne_of_lt (Arena.lt_of_get? hi)), hi]
  · show d₃.assigns ++ _ = _
    rw [hw.assigns]
  · -- The wire is newer than any of the wires of the nodes that were there.
    obtain rfl := List.mem_singleton.1 ha
    have hlt := (hd.nodes i n hi).declared _ (Node.control_subset n.entry_mem_control)
    have hle := Nat.lt_of_lt_of_le hlt hname.size
    exact fun he => absurd (hreq.symm.trans he) (Nat.ne_of_gt hle)

theorem addGroup_snd (d : Design) (members : Group) : ∃ module order loc,
    (addGroup d members).2 = (withGroup d members).modifyNode d.nodes.size fun n =>
      { n with defOrder := order, defLoc := loc, calls := members.map (memberCall module) } :=
  ⟨_, _, _, rfl⟩

theorem addGroup_ok (hd : d.Sound) (members : Group) :
    (addGroup d members).2.Sound ∧ Fuses d (addGroup d members).2 := by
  obtain ⟨module, order, loc, heq⟩ := addGroup_snd d members
  obtain ⟨hsound, hsize, hwires, hsignals, ⟨n₀, hn₀, hpath, hsim⟩, hold, hassigns⟩ := withGroup_ok hd members
  have hmild : Mild (withGroup d members) d.nodes.size fun n =>
      { n with defOrder := order, defLoc := loc, calls := members.map (memberCall module) } :=
    hsound.mild _ (fun _ => rfl) (fun _ => rfl) fun _ => rfl
  rw [heq]
  refine ⟨hmild.sound hsound, ?_, fun i n hi => ?_, fun i n' hi hle => ?_, hwires, hsignals, hassigns⟩
  · rw [size_modifyNode, hsize]
    exact Nat.le_succ _
  · refine ⟨n, ?_, .inl rfl⟩
    rw [get?_modifyNode, if_neg (Nat.ne_of_lt (Arena.lt_of_get? hi)), hold i n hi]
  · have hlt := Arena.lt_of_get? hi
    rw [size_modifyNode, hsize] at hlt
    obtain rfl : i = d.nodes.size := Nat.le_antisymm (Nat.le_of_lt_succ hlt) hle
    rw [get?_modifyNode, if_pos rfl, hn₀, Option.map_some, Option.some.injEq] at hi
    subst hi
    exact ⟨hpath, module, members, rfl⟩

theorem addGroups_ok (groups : List Group) :
    ∀ {d : Design}, d.Sound → (addGroups d groups).2.Sound ∧ Fuses d (addGroups d groups).2 := by
  induction groups with
  | nil => exact fun {d} hd => ⟨hd, .refl d⟩
  | cons g gs ih =>
    intro d hd
    obtain ⟨hs, hf⟩ := addGroup_ok hd g
    obtain ⟨hs', hf'⟩ := ih hs
    exact ⟨hs', hf.trans hf'⟩

/-- The runnable wire of a former transaction is nobody's entry, and is not driven otherwise. -/
theorem driveRunnable_ok (hd : d.Sound) (fused : List FusedGroup) (m : NodeId) :
    (driveRunnable fused d m).Sound ∧ Fuses d (driveRunnable fused d m) := by
  unfold driveRunnable
  split
  · exact ⟨hd, .refl d⟩
  · rename_i origin horigin
    obtain ⟨info, hinfo, hfrom⟩ := Option.bind_eq_some_iff.1 horigin
    obtain ⟨n, hn, -, hk⟩ := get?_of_method hinfo
    have hnodup := (hd.nodes m n hn).nodup
    unfold Node.wires Node.control Node.buses at hnodup
    simp only [hk, hfrom, Option.map_some, Option.toList_some, List.cons_append, List.nil_append,
      List.nodup_cons, List.mem_cons, List.mem_append, not_or] at hnodup
    have hmem : origin.runnable ∈ n.wires := Node.control_subset (by
      unfold Node.control
      simp [hk, hfrom])
    have hrec : d.Recordable m origin.runnable := by
      refine ⟨n, hn, hmem, ?_⟩
      unfold Node.generated
      simp only [hk, List.mem_cons, not_or]
      exact ⟨fun h => hnodup.2.1.1 h.symm, hnodup.2.2.1.1⟩
    refine ⟨hd.assignRecordable hrec, assign_fuses fun j n' hj he => ?_⟩
    have he : origin.runnable = n'.entry := he
    obtain rfl := hd.distinct m j n n' hn hj _ hmem (he ▸ Node.control_subset n'.entry_mem_control)
    obtain rfl : n = n' := Option.some.inj (hn.symm.trans hj)
    simp only [Node.entry, hk] at he
    exact hnodup.1.2.1 he.symm

theorem foldl_ok {α : Type} {f : Design → α → Design}
    (hf : ∀ d x, d.Sound → (f d x).Sound ∧ Fuses d (f d x)) {l : List α} :
    ∀ {d : Design}, d.Sound → (l.foldl f d).Sound ∧ Fuses d (l.foldl f d) := by
  induction l with
  | nil => exact fun {d} hd => ⟨hd, .refl d⟩
  | cons x xs ih =>
    intro d hd
    obtain ⟨hs, hfu⟩ := hf d x hd
    obtain ⟨hs', hfu'⟩ := ih hs
    exact ⟨hs', hfu.trans hfu'⟩

theorem fuse_ok (hd : d.Sound) (groups : List Group) :
    (fuse d groups).2.Sound ∧ Fuses d (fuse d groups).2 := by
  unfold fuse
  obtain ⟨h₁, f₁⟩ := foldl_ok (f := fun d m => d.modifyNode m toMember) (fun d m hd => toMember_ok hd m)
    (l := groups.foldl Group.union []) hd
  obtain ⟨h₂, f₂⟩ := addGroups_ok groups h₁
  obtain ⟨h₃, f₃⟩ := foldl_ok (fun d m hd => driveRunnable_ok hd _ m) (l := groups.foldl Group.union []) h₂
  exact ⟨h₃, f₁.trans (f₂.trans f₃)⟩

end Fusion

namespace CallMap

/-- Orderings do not matter to what is reached. -/
theorem build_prune (d : Design) : build d.pruneOrderings = build d := build_withRelations d _

end CallMap

namespace Design

theorem Sound.prune {d : Design} (h : d.Sound) : d.pruneOrderings.Sound := by
  refine ⟨h.comb, h.sync, fun i n hn => ?_, h.distinct, h.targets, h.free,
    fun r hr => h.relations r (List.mem_filter.1 hr).1⟩
  obtain ⟨hid, hnodup, hdecl, hsingle, hsim, hfused⟩ := h.nodes i n hn
  exact ⟨hid, hnodup, hdecl, hsingle, hsim, hfused⟩

/-- The steps of fusion: orderings are dropped, the transactions that have to run together are grouped by what
they reach, and the map of the fused design is built anew. -/
theorem fused_steps {d : Design} {f : Fused} (h : Attempt.Gives d.fused f) :
    ∃ map groups, Attempt.Gives (CallMap.build d.pruneOrderings) map ∧
      Fusion.groups d.pruneOrderings map = .ok groups ∧ f.groups = (Fusion.fuse d.pruneOrderings groups).1 ∧
      f.design = (Fusion.fuse d.pruneOrderings groups).2 ∧ Attempt.Gives (CallMap.build f.design) f.map := by
  simp only [fused, Attempt.gives_bind, Attempt.gives_ofExcept] at h
  obtain ⟨map, hmap, -, -, groups, hgroups, h⟩ := h
  rw [← CallMap.build_prune] at hmap
  refine ⟨map, groups, hmap, hgroups, ?_⟩
  split at h
  · rename_i hempty
    obtain rfl := Attempt.gives_pure.1 h
    have hnil : groups = [] := by
      rcases groups with _ | ⟨g, gs⟩
      · rfl
      · simp [Fusion.fuse, Fusion.addGroups] at hempty
    subst hnil
    exact ⟨rfl, rfl, hmap⟩
  · simp only [Attempt.gives_bind, Attempt.gives_pure] at h
    obtain ⟨map', hmap', rfl⟩ := h
    exact ⟨rfl, rfl, hmap'⟩

/-- A fused design is sound, and its map says what its transactions reach. -/
theorem fused_ok {d : Design} {f : Fused} (hd : d.Sound) (h : Attempt.Gives d.fused f) :
    f.design.Sound ∧ f.map.Describes f.design ∧ Fusion.Fuses d f.design := by
  obtain ⟨-, groups, -, -, -, hdesign, hmap⟩ := fused_steps h
  have hprune : Fusion.Fuses d d.pruneOrderings :=
    .of_nodes rfl (Nat.le_refl _) (fun _ _ h => h) ⟨[], (List.append_nil _).symm, fun _ h => absurd h List.not_mem_nil⟩
  obtain ⟨hs, hfu⟩ := Fusion.fuse_ok hd.prune groups
  rw [← hdesign] at hs hfu
  exact ⟨hs, CallMap.build_ok hmap, hprune.trans hfu⟩

end Design

end Interlock
