import Interlock.Proofs.Design.Declare
import Interlock.Proofs.Expr.Width

/-! What a call can rely on: whatever is called is a method, the argument has the width of its input, and
an input that is not empty has a wire of its own that carries it. -/

namespace Interlock

/-- The input of a method, and the wire that carries it. -/
def Node.port? (n : Node) : Option (Layout × Option SignalId) :=
  n.method?.map fun info => (info.input, info.dataIn)

/-- An input that is not empty has a wire of its width. -/
def Netlist.Carries (n : Netlist) (port : Layout × Option SignalId) : Prop :=
  port.1.isEmpty = false → ∃ bus s, port.2 = some bus ∧ n.signals.get? bus = some s ∧ s.kind = .wire ∧
    s.width = port.1.width

theorem Netlist.Carries.mono {n n' : Netlist} {port : Layout × Option SignalId} (h : n.Carries port)
    (hs : ∀ x s, n.signals.get? x = some s → n'.signals.get? x = some s) : n'.Carries port := by
  intro hport
  obtain ⟨bus, s, hbus, hget, hwire⟩ := h hport
  exact ⟨bus, s, hbus, hs bus s hget, hwire⟩

namespace Design

variable {d d' : Design}

/-- The calls of a design can be made. -/
structure Callable (d : Design) : Prop where
  buses : ∀ m port, (d.node m).port? = some port → d.netlist.Carries port
  calls : ∀ c m, ∀ s ∈ (d.node c).sitesTo m, ∃ port, (d.node m).port? = some port ∧ s.arg.width = port.1.width

/-- Arguments have the width of the input. -/
theorem Callable.arg_width (hc : d.Callable) {c m : NodeId} {info : MethodInfo}
    (hm : (d.node m).method? = some info) {site : CallSite} (hsite : site ∈ (d.node c).sitesTo m) :
    site.arg.width = info.input.width := by
  obtain ⟨port, hport, hw⟩ := hc.calls c m site hsite
  rw [Node.port?, hm, Option.map_some, Option.some.injEq] at hport
  rw [hw, ← hport]

/-- Methods stay, and so do their calls; new ones are fine by themselves. -/
theorem Callable.transfer (h : d.Callable)
    (hs : ∀ x s, d.netlist.signals.get? x = some s → d'.netlist.signals.get? x = some s)
    (hold : ∀ m port, (d.node m).port? = some port → (d'.node m).port? = some port)
    (hport : ∀ m port, (d'.node m).port? = some port → (d.node m).port? = some port ∨ d'.netlist.Carries port)
    (hcalls : ∀ c m, ∀ s ∈ (d'.node c).sitesTo m, s ∈ (d.node c).sitesTo m ∨
      ∃ port, (d'.node m).port? = some port ∧ s.arg.width = port.1.width) : d'.Callable := by
  refine ⟨fun m port hm => ?_, fun c m s hsite => ?_⟩
  · rcases hport m port hm with hm | hcarries
    · exact (h.buses m port hm).mono hs
    · exact hcarries
  · rcases hcalls c m s hsite with hsite | hnew
    · obtain ⟨port, hm, hw⟩ := h.calls c m s hsite
      exact ⟨port, hold m port hm, hw⟩
    · exact hnew

theorem Callable.of_nodes (h : d.Callable) (hn : d'.nodes = d.nodes)
    (hs : ∀ x s, d.netlist.signals.get? x = some s → d'.netlist.signals.get? x = some s) : d'.Callable := by
  have hnode : ∀ i, d'.node i = d.node i := fun i => by rw [node, node, hn]
  refine h.transfer hs (fun m port hm => ?_) (fun m port hm => ?_) fun c m s hsite => ?_
  · rw [hnode]
    exact hm
  · exact .inl (hnode m ▸ hm)
  · exact .inl (hnode c ▸ hsite)

theorem Callable.widens (h : d.Callable) (hw : Widens d d') : d'.Callable := h.of_nodes hw.nodes hw.signals

theorem Callable.assign (h : d.Callable) (a : GuardedAssign) : (d.assign a).Callable :=
  h.of_nodes rfl fun _ _ hx => hx

/-- A change of a node that leaves its calls, and its port if it has one. -/
theorem Callable.modifyNode (h : d.Callable) (id : NodeId) {f : Node → Node}
    (hcalls : (f (d.node id)).calls = (d.node id).calls)
    (hold : ∀ port, (d.node id).port? = some port → (f (d.node id)).port? = some port)
    (hport : ∀ port, (f (d.node id)).port? = some port → (d.node id).port? = some port ∨ d.netlist.Carries port) :
    (d.modifyNode id f).Callable := by
  have hnode : ∀ i, (d.modifyNode id f).node i = d.node i ∨
      (i = id ∧ (d.modifyNode id f).node i = f (d.node id)) := by
    intro i
    rw [node_modifyNode]
    split
    · rename_i hi
      exact .inr ⟨hi.1, by rw [hi.1]⟩
    · exact .inl rfl
  refine h.transfer (fun _ _ hx => hx) (fun m port hm => ?_) (fun m port hm => ?_) fun c m s hsite => ?_
  · rcases hnode m with he | ⟨rfl, he⟩
    · exact he ▸ hm
    · exact he ▸ hold port hm
  · rcases hnode m with he | ⟨rfl, he⟩
    · exact .inl (he ▸ hm)
    · exact hport port (he ▸ hm)
  · rcases hnode c with he | ⟨rfl, he⟩
    · exact .inl (he ▸ hsite)
    · rw [he, Node.sitesTo, hcalls] at hsite
      exact .inl hsite

/-- A change that leaves the kind as well. -/
theorem Callable.sameKind (h : d.Callable) (id : NodeId) {f : Node → Node} (hkind : ∀ n, (f n).kind = n.kind)
    (hcalls : ∀ n, (f n).calls = n.calls) : (d.modifyNode id f).Callable := by
  have hsame : (f (d.node id)).port? = (d.node id).port? := by
    unfold Node.port? Node.method?
    rw [hkind]
  refine h.modifyNode id (hcalls _) (fun port hp => ?_) fun port hp => ?_
  · rw [hsame, hp]
  · exact .inl (hsame ▸ hp)

theorem node_addNode (d : Design) (name : String) (loc : Location) (kind : NodeKind) (i : NodeId) :
    (d.addNode name loc kind).2.node i = if i = d.nodes.size then { id := i, name, loc, kind } else d.node i := by
  unfold node
  rw [get?_addNode]
  split <;> rfl

/-- A new node, which calls nothing yet. -/
theorem Callable.addNode (h : d.Callable) (name : String) (loc : Location) (kind : NodeKind)
    (hport : ∀ port, ({ id := d.nodes.size, name, loc, kind } : Node).port? = some port → d.netlist.Carries port) :
    (d.addNode name loc kind).2.Callable := by
  refine h.transfer (fun _ _ hx => hx) (fun m port hm => ?_) (fun m port hm => ?_) fun c m s hsite => ?_
  · rw [node_addNode, if_neg, hm]
    rintro rfl
    -- There was no node at this place.
    have hnone : d.nodes.get? d.nodes.size = none := Array.getElem?_eq_none (Nat.le_refl _)
    rw [node, hnone] at hm
    exact nomatch hm
  · rw [node_addNode] at hm
    split at hm
    · exact .inr (hport port hm)
    · exact .inl hm
  · rw [node_addNode] at hsite
    split at hsite
    · exact nomatch hsite
    · exact .inl hsite

theorem declareTransaction_callable (h : d.Callable) (name : String) (loc : Location) :
    (d.declareTransaction name loc).2.Callable :=
  ((h.widens (newName_widens d _)).widens (newTransactionInfo_spec _ _).1).addNode _ _ _ fun _ hp => nomatch hp

/-- The wire of a new input carries it. -/
theorem newBus_carries (d : Design) (name : String) (l : Layout) :
    (d.newBus name l).2.netlist.Carries (l, (d.newBus name l).1) := by
  intro hl
  have hl : l.isEmpty = false := hl
  unfold newBus
  rw [if_neg (by simp [hl])]
  exact ⟨_, _, rfl, by rw [newWire, get?_newSignal, newSignal_fst, if_pos rfl], rfl, rfl⟩

theorem addMethod_callable (h : d.Callable) (decl : MethodDecl) (loc : Location) :
    (d.addMethod decl loc).2.Callable := by
  unfold addMethod
  simp only
  have hname := newName_widens d (nameOr decl.name "method")
  generalize d.newName (nameOr decl.name "method") = named at hname ⊢
  obtain ⟨name, d₁⟩ := named
  have hin := (newBus_spec d₁ (name ++ "_data_in") decl.input).1
  have hcarries := newBus_carries d₁ (name ++ "_data_in") decl.input
  generalize d₁.newBus (name ++ "_data_in") decl.input = bus at hin hcarries ⊢
  obtain ⟨dataIn, d₂⟩ := bus
  have hout := (newBus_spec d₂ (name ++ "_data_out") decl.output).1
  generalize d₂.newBus (name ++ "_data_out") decl.output = bus at hout ⊢
  obtain ⟨dataOut, d₃⟩ := bus
  simp only at hname hin hcarries hout ⊢
  have hwires := (hout.trans (newWire_widens d₃ (name ++ "_ready") 1)).trans (newWire_widens _ (name ++ "_run") 1)
  refine (h.widens (hname.trans (hin.trans hwires))).addNode _ _ _ fun port hp => ?_
  obtain rfl := Option.some.inj hp
  exact hcarries.mono hwires.signals

end Design

end Interlock
