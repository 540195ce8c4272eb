import Interlock.Design.Basic
import Interlock.Proofs.Arena

/-! What every design keeps while it is described and fused. Its nodes are named by their places, the
wires of a node belong to it alone, and no assignment goes to a wire that elaboration has yet to drive. -/

namespace Interlock

namespace Node

/-- The single-bit wires of a node. A transaction that has become a method keeps its three. -/
def control (n : Node) : List Nat :=
  match n.kind with
  | .transaction info => [info.request, info.grant, info.runnable]
  | .method info => [info.ready, info.run] ++ (info.fusedFrom.map (·.runnable)).toList

def buses (n : Node) : List Nat :=
  match n.kind with
  | .transaction _ => []
  | .method info => info.dataIn.toList ++ info.dataOut.toList

def wires (n : Node) : List Nat := n.control ++ n.buses

/-- The wire that tells whether the body may run. -/
def entry (n : Node) : SignalId :=
  match n.kind with
  | .transaction info => info.request
  | .method info => info.ready

/-- The wires that elaboration drives. -/
def generated (n : Node) : List Nat :=
  match n.kind with
  | .transaction info => [info.grant, info.runnable]
  | .method info => info.run :: info.dataIn.toList

theorem control_subset {n : Node} {x : Nat} (h : x ∈ n.control) : x ∈ n.wires :=
  List.mem_append_left _ h

/-- The entry is not among the wires that elaboration drives. -/
theorem entry_generated_sublist (n : Node) : (n.entry :: n.generated).Sublist n.wires := by
  unfold entry generated wires control buses
  cases n.kind with
  | transaction info => exact List.Sublist.refl _
  | method info =>
    refine (List.Sublist.refl [info.ready, info.run]).append (.trans ?_ (List.sublist_append_right ..))
    exact List.sublist_append_left ..

theorem entry_mem_control (n : Node) : n.entry ∈ n.control := by
  unfold entry control
  split <;> simp

theorem activator_mem_control (n : Node) : n.activator ∈ n.control := by
  unfold activator control
  cases n.kind <;> simp

theorem generated_subset {n : Node} {x : Nat} (h : x ∈ n.generated) : x ∈ n.wires := by
  unfold generated at h
  unfold wires control buses
  split at h
  · simp only [List.mem_cons, List.not_mem_nil, or_false] at h
    simp only [List.append_nil, List.mem_cons, List.not_mem_nil, or_false]
    tauto
  · simp only [List.mem_cons] at h
    simp only [List.mem_append, List.mem_cons, List.not_mem_nil, or_false]
    tauto

theorem mem_calls_of_sites {n : Node} {m : NodeId} {s : CallSite} (h : s ∈ n.sitesTo m) :
    ∃ sites, (m, sites) ∈ n.calls ∧ s ∈ sites := by
  unfold sitesTo at h
  cases hl : n.calls.lookup m with
  | none =>
    rw [hl] at h
    exact nomatch h
  | some sites =>
    rw [hl] at h
    obtain ⟨l, l', hcalls, -⟩ := List.lookup_eq_some_iff.1 hl
    exact ⟨sites, by rw [hcalls]; simp, h⟩

end Node

/-- A wire of one bit. -/
def Netlist.IsBit (n : Netlist) (x : SignalId) : Prop :=
  ∃ s, n.signals.get? x = some s ∧ s.width = 1 ∧ s.kind = .wire

theorem Netlist.widthOf_eq {n : Netlist} {x : SignalId} {s : Signal} (h : n.signals.get? x = some s) :
    n.widthOf x = s.width := by
  unfold Netlist.widthOf
  rw [h]

theorem Netlist.IsBit.widthOf {n : Netlist} {x : SignalId} (h : n.IsBit x) : n.widthOf x = 1 := by
  obtain ⟨s, hs, hw, -⟩ := h
  rw [Netlist.widthOf_eq hs, hw]

namespace Design

/-- Wires are added, and nothing else changes that elaboration looks at. -/
structure Widens (d d' : Design) : Prop where
  nodes : d'.nodes = d.nodes
  assigns : d'.assigns = d.assigns
  relations : d'.relations = d.relations
  comb : d'.netlist.comb = d.netlist.comb
  sync : d'.netlist.sync = d.netlist.sync
  size : d.netlist.signals.size ≤ d'.netlist.signals.size
  signals : ∀ x s, d.netlist.signals.get? x = some s → d'.netlist.signals.get? x = some s

theorem Widens.refl (d : Design) : Widens d d :=
  ⟨rfl, rfl, rfl, rfl, rfl, Nat.le_refl _, fun _ _ h => h⟩

theorem Widens.trans {d₁ d₂ d₃ : Design} (h : Widens d₁ d₂) (h' : Widens d₂ d₃) : Widens d₁ d₃ :=
  ⟨h'.nodes.trans h.nodes, h'.assigns.trans h.assigns, h'.relations.trans h.relations,
    h'.comb.trans h.comb, h'.sync.trans h.sync, Nat.le_trans h.size h'.size,
    fun x s hx => h'.signals x s (h.signals x s hx)⟩

theorem Widens.isBit {d d' : Design} (h : Widens d d') {x : SignalId} (hx : d.netlist.IsBit x) :
    d'.netlist.IsBit x := by
  obtain ⟨s, hs, hbit⟩ := hx
  exact ⟨s, h.signals x s hs, hbit⟩

theorem newName_widens (d : Design) (base : String) : Widens d (d.newName base).2 :=
  ⟨rfl, rfl, rfl, rfl, rfl, Nat.le_refl _, fun _ _ h => h⟩

theorem newSignal_fst (d : Design) (base : String) (width : Nat) (kind : SignalKind) (init : Word) :
    (d.newSignal base width kind init).1 = d.netlist.signals.size := rfl

theorem size_newSignal (d : Design) (base : String) (width : Nat) (kind : SignalKind) (init : Word) :
    (d.newSignal base width kind init).2.netlist.signals.size = d.netlist.signals.size + 1 := by
  simp only [newSignal, Netlist.addSignal, Arena.size_allocWith]

theorem get?_newSignal (d : Design) (base : String) (width : Nat) (kind : SignalKind) (init : Word)
    (x : Nat) :
    (d.newSignal base width kind init).2.netlist.signals.get? x =
      if x = d.netlist.signals.size then
        some ⟨x, d.signalNames.freshName (d.config.namePrefix ++ base), width, kind, init &&& mask width⟩
      else d.netlist.signals.get? x := by
  simp only [newSignal, Netlist.addSignal, Arena.get?_allocWith]

/-- The new signal itself. -/
theorem exists_newSignal (d : Design) (base : String) (width : Nat) (kind : SignalKind) (init : Word) :
    ∃ s, (d.newSignal base width kind init).2.netlist.signals.get? (d.newSignal base width kind init).1 = some s ∧
      s.width = width ∧ s.kind = kind :=
  ⟨_, (get?_newSignal d base width kind init _).trans (if_pos rfl), rfl, rfl⟩

theorem newSignal_widens (d : Design) (base : String) (width : Nat) (kind : SignalKind) (init : Word) :
    Widens d (d.newSignal base width kind init).2 := by
  refine ⟨rfl, rfl, rfl, rfl, rfl, ?_, fun x s hx => ?_⟩
  · rw [size_newSignal]
    exact Nat.le_succ _
  · rw [get?_newSignal, if_neg (Nat.ne_of_lt (Arena.lt_of_get? hx)), hx]

/-- What a design keeps of the node at one place. -/
structure NodeSound (d : Design) (i : NodeId) (n : Node) : Prop where
  id : n.id = i
  nodup : n.wires.Nodup
  declared : ∀ x ∈ n.wires, x < d.netlist.signals.size
  single : ∀ x ∈ n.control, d.netlist.IsBit x
  simultaneous : ∀ j ∈ n.simultaneous, j < d.nodes.size
  fused : ∀ info, n.kind = .method info → ∀ o, info.fusedFrom = some o →
    info.ready = o.request ∧ info.run = o.grant

/-- What a design keeps. -/
structure Sound (d : Design) : Prop where
  comb : d.netlist.comb = []
  sync : d.netlist.sync = []
  nodes : ∀ i n, d.nodes.get? i = some n → d.NodeSound i n
  distinct : ∀ i j n m, d.nodes.get? i = some n → d.nodes.get? j = some m → ∀ x ∈ n.wires,
    x ∈ m.wires → i = j
  targets : ∀ a ∈ d.assigns, a.target < d.netlist.signals.size
  free : ∀ a ∈ d.assigns, ∀ i n, d.nodes.get? i = some n → a.target ∉ n.generated
  relations : ∀ r ∈ d.relations, r.source < d.nodes.size ∧ r.target < d.nodes.size

variable {d d' : Design}

theorem node_of_get? {i : NodeId} {n : Node} (h : d.nodes.get? i = some n) : d.node i = n := by
  unfold node
  rw [h, Option.getD_some]

/-- Nodes are numbered in the order of declaration. -/
theorem Sound.nodeList_ids (h : d.Sound) : d.nodeList.map (·.id) = List.range d.nodes.size := by
  refine List.ext_getElem? fun i => ?_
  rw [List.getElem?_map]
  rcases Nat.lt_or_ge i d.nodes.size with hlt | hge
  · obtain ⟨n, hn⟩ := Arena.exists_get? hlt
    have hi : d.nodeList[i]? = some n := by
      rw [← hn]
      exact Array.getElem?_toList ..
    rw [hi, List.getElem?_range hlt, Option.map_some, (h.nodes i n hn).id]
  · have hi : d.nodeList[i]? = none := List.getElem?_eq_none hge
    rw [hi, List.getElem?_eq_none (by rwa [List.length_range])]
    rfl

theorem Sound.widens (h : d.Sound) (hw : Widens d d') : d'.Sound := by
  refine ⟨hw.comb.trans h.comb, hw.sync.trans h.sync, fun i n hn => ?_, ?_, ?_, ?_, ?_⟩
  · rw [hw.nodes] at hn
    obtain ⟨hid, hnodup, hdecl, hsingle, hsim, hfused⟩ := h.nodes i n hn
    refine ⟨hid, hnodup, fun x hx => Nat.lt_of_lt_of_le (hdecl x hx) hw.size,
      fun x hx => hw.isBit (hsingle x hx), ?_, hfused⟩
    rw [hw.nodes]
    exact hsim
  · rw [hw.nodes]
    exact h.distinct
  · rw [hw.assigns]
    exact fun a ha => Nat.lt_of_lt_of_le (h.targets a ha) hw.size
  · rw [hw.assigns, hw.nodes]
    exact h.free
  · rw [hw.relations, hw.nodes]
    exact h.relations

theorem Sound.start (config : Config) : ({ config } : Design).Sound := by
  refine ⟨rfl, rfl, fun i n hn => ?_, fun i j n m hn => ?_, fun a ha => (nomatch ha), fun a ha => (nomatch ha),
    fun r hr => (nomatch hr)⟩
  · simp [Arena.get?] at hn
  · simp [Arena.get?] at hn

theorem Sound.assign (h : d.Sound) {a : GuardedAssign} (hlt : a.target < d.netlist.signals.size)
    (hfree : ∀ i n, d.nodes.get? i = some n → a.target ∉ n.generated) : (d.assign a).Sound := by
  refine ⟨h.comb, h.sync, fun i n hn => ?_, h.distinct, fun b hb => ?_, fun b hb => ?_, h.relations⟩
  · obtain ⟨hid, hnodup, hdecl, hsingle, hsim, hfused⟩ := h.nodes i n hn
    exact ⟨hid, hnodup, hdecl, hsingle, hsim, hfused⟩
  · exact forall_mem_snoc h.targets hlt b hb
  · exact forall_mem_snoc h.free hfree b hb

theorem Sound.relate (h : d.Sound) {r : Relation} (hs : r.source < d.nodes.size)
    (ht : r.target < d.nodes.size) : (d.relate r).Sound := by
  refine ⟨h.comb, h.sync, fun i n hn => ?_, h.distinct, h.targets, h.free, fun r' hr' => ?_⟩
  · obtain ⟨hid, hnodup, hdecl, hsingle, hsim, hfused⟩ := h.nodes i n hn
    exact ⟨hid, hnodup, hdecl, hsingle, hsim, hfused⟩
  · exact forall_mem_snoc h.relations ⟨hs, ht⟩ r' hr'

theorem get?_modifyNode (d : Design) (id : NodeId) (f : Node → Node) (j : NodeId) :
    (d.modifyNode id f).nodes.get? j = if j = id then (d.nodes.get? j).map f else d.nodes.get? j :=
  Arena.get?_modify ..

theorem exists_of_modifyNode {d : Design} {id i : NodeId} {f : Node → Node} {n' : Node}
    (h : (d.modifyNode id f).nodes.get? i = some n') :
    (i ≠ id ∧ d.nodes.get? i = some n') ∨ (i = id ∧ ∃ n, d.nodes.get? id = some n ∧ n' = f n) := by
  rw [get?_modifyNode] at h
  split at h
  · rename_i he
    subst he
    obtain ⟨n, hn, rfl⟩ := Option.map_eq_some_iff.1 h
    exact .inr ⟨rfl, n, hn, rfl⟩
  · exact .inl ⟨‹_›, h⟩

theorem node_modifyNode (d : Design) (id : NodeId) (f : Node → Node) (j : NodeId) :
    (d.modifyNode id f).node j = if j = id ∧ j < d.nodes.size then f (d.node j) else d.node j := by
  unfold modifyNode node Arena.modify Arena.get? Arena.size
  simp only [Array.getElem?_modify]
  by_cases hij : j = id
  · subst hij
    by_cases hlt : j < d.nodes.items.size
    · simp [hlt]
    · simp [hlt]
  · rw [if_neg (Ne.symm hij), if_neg fun h => hij h.1]

@[simp] theorem size_modifyNode (d : Design) (id : NodeId) (f : Node → Node) :
    (d.modifyNode id f).nodes.size = d.nodes.size :=
  Arena.size_modify ..

/-- A change of a node that leaves its wires to it. -/
theorem Sound.modifyNode (h : d.Sound) (id : NodeId) {f : Node → Node}
    (hf : ∀ n, d.nodes.get? id = some n → d.NodeSound id (f n) ∧ (f n).wires = n.wires ∧
      ∀ x ∈ (f n).generated, x ∈ n.generated) : (d.modifyNode id f).Sound := by
  have wires_of : ∀ j m, (d.modifyNode id f).nodes.get? j = some m →
      ∃ n, d.nodes.get? j = some n ∧ n.wires = m.wires := by
    intro j m hm
    rcases exists_of_modifyNode hm with ⟨-, hm⟩ | ⟨rfl, n, hn, rfl⟩
    · exact ⟨m, hm, rfl⟩
    · exact ⟨n, hn, (hf n hn).2.1.symm⟩
  refine ⟨h.comb, h.sync, fun j m hm => ?_, fun i j n m hn hm x hx hx' => ?_, h.targets,
    fun a ha j m hm => ?_, ?_⟩
  · obtain ⟨hid, hnodup, hdecl, hsingle, hsim, hfused⟩ : d.NodeSound j m := by
      rcases exists_of_modifyNode hm with ⟨-, hm⟩ | ⟨rfl, n, hn, rfl⟩
      · exact h.nodes j m hm
      · exact (hf n hn).1
    refine ⟨hid, hnodup, hdecl, hsingle, ?_, hfused⟩
    rw [size_modifyNode]
    exact hsim
  · obtain ⟨n', hn', hnw⟩ := wires_of i n hn
    obtain ⟨m', hm', hmw⟩ := wires_of j m hm
    exact h.distinct i j n' m' hn' hm' x (hnw ▸ hx) (hmw ▸ hx')
  · rcases exists_of_modifyNode hm with ⟨-, hm⟩ | ⟨rfl, n, hn, rfl⟩
    · exact h.free a ha j m hm
    · exact fun hx => h.free a ha _ n hn ((hf n hn).2.2 _ hx)
  · rw [size_modifyNode]
    exact h.relations

theorem get?_addNode (d : Design) (name : String) (loc : Location) (kind : NodeKind) (j : NodeId) :
    (d.addNode name loc kind).2.nodes.get? j =
      if j = d.nodes.size then some { id := j, name, loc, kind } else d.nodes.get? j := by
  simp only [addNode, Arena.get?_allocWith]

@[simp] theorem size_addNode (d : Design) (name : String) (loc : Location) (kind : NodeKind) :
    (d.addNode name loc kind).2.nodes.size = d.nodes.size + 1 := by
  simp only [addNode, Arena.size_allocWith]

/-- A new node whose wires are new as well: they were added to `d` by way of `d'`. -/
theorem Sound.addNode (h : d.Sound) (hw : Widens d d') (name : String) (loc : Location) (kind : NodeKind)
    (hnode : d'.NodeSound d.nodes.size { id := d.nodes.size, name, loc, kind })
    (hnew : ∀ x ∈ ({ id := d.nodes.size, name, loc, kind } : Node).wires, d.netlist.signals.size ≤ x) :
    (d'.addNode name loc kind).2.Sound := by
  have h' := h.widens hw
  have hsize : d'.nodes.size = d.nodes.size := by rw [hw.nodes]
  have cases_node : ∀ j m, (d'.addNode name loc kind).2.nodes.get? j = some m →
      d.nodes.get? j = some m ∨ (j = d.nodes.size ∧ m = { id := d.nodes.size, name, loc, kind }) := by
    intro j m hm
    rw [get?_addNode, hsize, hw.nodes] at hm
    split at hm
    · rename_i hj
      subst hj
      exact .inr ⟨rfl, (Option.some.inj hm).symm⟩
    · exact .inl hm
  refine ⟨h'.comb, h'.sync, fun j m hm => ?_, fun i j n m hn hm x hx hx' => ?_, h'.targets,
    fun a ha j m hm => ?_, fun r hr => ?_⟩
  · obtain ⟨hid, hnodup, hdecl, hsingle, hsim, hfused⟩ : d'.NodeSound j m := by
      rcases cases_node j m hm with hm | ⟨rfl, rfl⟩
      · exact h'.nodes j m (by rw [hw.nodes]; exact hm)
      · exact hnode
    refine ⟨hid, hnodup, hdecl, hsingle, fun k hk => ?_, hfused⟩
    rw [size_addNode]
    exact Nat.lt_succ_of_lt (hsim k hk)
  · rcases cases_node i n hn with hn | ⟨rfl, rfl⟩ <;> rcases cases_node j m hm with hm | ⟨rfl, rfl⟩
    · exact h.distinct i j n m hn hm x hx hx'
    · exact absurd ((h.nodes i n hn).declared x hx) (Nat.not_lt.2 (hnew x hx'))
    · exact absurd ((h.nodes j m hm).declared x hx') (Nat.not_lt.2 (hnew x hx))
    · rfl
  · rcases cases_node j m hm with hm | ⟨rfl, rfl⟩
    · exact h'.free a ha j m (by rw [hw.nodes]; exact hm)
    · intro hx
      have ha : a ∈ d.assigns := hw.assigns ▸ ha
      exact absurd (h.targets a ha) (Nat.not_lt.2 (hnew _ (Node.generated_subset hx)))
  · rw [size_addNode]
    have := h'.relations r hr
    exact ⟨Nat.lt_succ_of_lt this.1, Nat.lt_succ_of_lt this.2⟩

/-! ### Growth -/

/-- A design grows: each node keeps its wires, and may lose some that elaboration is to drive; the wires
of new nodes are new. -/
structure Grows (d d' : Design) : Prop where
  nodes : d.nodes.size ≤ d'.nodes.size
  signals : d.netlist.signals.size ≤ d'.netlist.signals.size
  old : ∀ i n', d'.nodes.get? i = some n' → i < d.nodes.size → ∃ n, d.nodes.get? i = some n ∧
    n'.wires = n.wires ∧ ∀ x ∈ n'.generated, x ∈ n.generated
  new : ∀ i n', d'.nodes.get? i = some n' → d.nodes.size ≤ i → ∀ x ∈ n'.wires, d.netlist.signals.size ≤ x

theorem Grows.of_nodes (hn : d'.nodes = d.nodes) (hs : d.netlist.signals.size ≤ d'.netlist.signals.size) :
    Grows d d' := by
  refine ⟨Nat.le_of_eq (by rw [hn]), hs, fun i n' hi hlt => ⟨n', hn ▸ hi, rfl, fun x hx => hx⟩, ?_⟩
  intro i n' hi hle
  rw [hn] at hi
  exact absurd (Arena.lt_of_get? hi) (Nat.not_lt.2 hle)

theorem Widens.grows (h : Widens d d') : Grows d d' := .of_nodes h.nodes h.size

theorem assign_grows (d : Design) (a : GuardedAssign) : Grows d (d.assign a) := .of_nodes rfl (Nat.le_refl _)

theorem modifyNode_grows (d : Design) (id : NodeId) {f : Node → Node}
    (hf : ∀ n, d.nodes.get? id = some n → (f n).wires = n.wires ∧ ∀ x ∈ (f n).generated, x ∈ n.generated) :
    Grows d (d.modifyNode id f) := by
  refine ⟨by simp, Nat.le_refl _, fun i n' hi hlt => ?_, fun i n' hi hle => ?_⟩
  · rcases exists_of_modifyNode hi with ⟨-, hi⟩ | ⟨rfl, n, hn, rfl⟩
    · exact ⟨n', hi, rfl, fun x hx => hx⟩
    · exact ⟨n, hn, hf n hn⟩
  · have hlt := Arena.lt_of_get? hi
    rw [size_modifyNode] at hlt
    exact absurd hlt (Nat.not_lt.2 hle)

theorem addNode_grows (hw : Widens d d') (name : String) (loc : Location) (kind : NodeKind)
    (hnew : ∀ x ∈ ({ id := d.nodes.size, name, loc, kind } : Node).wires, d.netlist.signals.size ≤ x) :
    Grows d (d'.addNode name loc kind).2 := by
  have hsize : d'.nodes.size = d.nodes.size := by rw [hw.nodes]
  refine ⟨?_, hw.size, fun i n' hi hlt => ?_, fun i n' hi hle => ?_⟩
  · rw [size_addNode, hsize]
    exact Nat.le_succ _
  · rw [get?_addNode, hsize, if_neg (Nat.ne_of_lt hlt), hw.nodes] at hi
    exact ⟨n', hi, rfl, fun x hx => hx⟩
  · have hlt := Arena.lt_of_get? hi
    rw [size_addNode, hsize] at hlt
    rw [get?_addNode, hsize, if_pos (Nat.le_antisymm (Nat.le_of_lt_succ hlt) hle), Option.some.injEq] at hi
    subst hi
    exact hnew

/-- A signal that is not a wire of any node. -/
def Foreign (d : Design) (x : Nat) : Prop :=
  x < d.netlist.signals.size ∧ ∀ i n, d.nodes.get? i = some n → x ∉ n.wires

/-- A wire of a node that elaboration does not drive. -/
def Recordable (d : Design) (i : NodeId) (x : Nat) : Prop :=
  ∃ n, d.nodes.get? i = some n ∧ x ∈ n.wires ∧ x ∉ n.generated

theorem Foreign.grows {x : Nat} (hx : d.Foreign x) (h : Grows d d') : d'.Foreign x := by
  refine ⟨Nat.lt_of_lt_of_le hx.1 h.signals, fun i n hi hmem => ?_⟩
  rcases Nat.lt_or_ge i d.nodes.size with hlt | hge
  · obtain ⟨m, hm, hw, -⟩ := h.old i n hi hlt
    exact hx.2 i m hm (hw ▸ hmem)
  · exact absurd hx.1 (Nat.not_lt.2 (h.new i n hi hge x hmem))

theorem Recordable.grows {i : NodeId} {x : Nat} (hx : d.Recordable i x) (h : Grows d d') :
    d'.Recordable i x := by
  obtain ⟨n, hn, hmem, hgen⟩ := hx
  obtain ⟨n', hn'⟩ := Arena.exists_get? (Nat.lt_of_lt_of_le (Arena.lt_of_get? hn) h.nodes)
  obtain ⟨m, hm, hw, hg⟩ := h.old i n' hn' (Arena.lt_of_get? hn)
  obtain rfl : n = m := Option.some.inj (hn.symm.trans hm)
  exact ⟨n', hn', hw ▸ hmem, fun hx => hgen (hg x hx)⟩

theorem Foreign.not_generated {x : Nat} (hx : d.Foreign x) (i : NodeId) (n : Node)
    (hn : d.nodes.get? i = some n) : x ∉ n.generated :=
  fun h => hx.2 i n hn (Node.generated_subset h)

theorem Recordable.not_generated (h : d.Sound) {i : NodeId} {x : Nat} (hx : d.Recordable i x) (j : NodeId)
    (m : Node) (hm : d.nodes.get? j = some m) : x ∉ m.generated := by
  obtain ⟨n, hn, hmem, hgen⟩ := hx
  intro hmx
  obtain rfl := h.distinct i j n m hn hm x hmem (Node.generated_subset hmx)
  obtain rfl : n = m := Option.some.inj (hn.symm.trans hm)
  exact hgen hmx

theorem Sound.assignForeign (h : d.Sound) {a : GuardedAssign} (ha : d.Foreign a.target) :
    (d.assign a).Sound := h.assign ha.1 ha.not_generated

theorem Sound.assignRecordable (h : d.Sound) {a : GuardedAssign} {i : NodeId}
    (ha : d.Recordable i a.target) : (d.assign a).Sound := by
  obtain ⟨n, hn, hmem, -⟩ := id ha
  exact h.assign ((h.nodes i n hn).declared _ hmem) (ha.not_generated h)

theorem entry_recordable (h : d.Sound) {i : NodeId} {n : Node} (hn : d.nodes.get? i = some n) :
    d.Recordable i n.entry := by
  have hnodup := (h.nodes i n hn).nodup.sublist n.entry_generated_sublist
  exact ⟨n, hn, Node.control_subset n.entry_mem_control, (List.nodup_cons.1 hnodup).1⟩

theorem result_recordable (h : d.Sound) {i : NodeId} {n : Node} (hn : d.nodes.get? i = some n) {info : MethodInfo}
    (hk : n.kind = .method info) {bus : SignalId} (hbus : info.dataOut = some bus) : d.Recordable i bus := by
  have hnodup := (h.nodes i n hn).nodup
  refine ⟨n, hn, ?_, ?_⟩
  · simp [Node.wires, Node.buses, hk, hbus]
  · simp only [Node.wires, Node.control, Node.buses, hk, hbus, Option.toList_some] at hnodup
    simp only [Node.generated, hk, List.mem_cons, not_or]
    simp only [List.nodup_append, List.nodup_cons, List.mem_append, List.mem_cons, List.not_mem_nil,
      or_false] at hnodup
    obtain ⟨-, ⟨-, -, hin⟩, hcb⟩ := hnodup
    exact ⟨fun he => hcb info.run (.inl (.inr rfl)) bus (.inr rfl) he.symm, fun hmem => hin bus hmem bus rfl rfl⟩

end Design

end Interlock
