import Interlock.Netlist.Check
import Interlock.Proofs.Design.Declare

/-! What the rules of netlists ask of a design before it is lowered: nothing is wider than a word, the buses of
methods are wires, and each assignment is in the domain of the kind of signal that it goes to. -/

namespace Interlock

/-- There is such a signal, and it may be driven in this domain. -/
def Netlist.Accepts (n : Netlist) (x : SignalId) (domain : Domain) : Prop :=
  ∃ s, n.signals.get? x = some s ∧ Netlist.SignalKind.accepts s.kind domain = true

theorem Netlist.IsBit.accepts {n : Netlist} {x : SignalId} (h : n.IsBit x) : n.Accepts x .comb := by
  obtain ⟨s, hs, -, hkind⟩ := h
  exact ⟨s, hs, by rw [hkind]; rfl⟩

namespace Design

variable {d d' : Design}

/-- Signals that were there are there still. -/
def Retains (d d' : Design) : Prop := ∀ x s, d.netlist.signals.get? x = some s → d'.netlist.signals.get? x = some s

theorem Retains.accepts (h : Retains d d') {x : SignalId} {domain : Domain} (hx : d.netlist.Accepts x domain) :
    d'.netlist.Accepts x domain := by
  obtain ⟨s, hs, ha⟩ := hx
  exact ⟨s, h x s hs, ha⟩

/-- What the rules ask of one node. -/
structure NodeRegular (d : Design) (n : Node) : Prop where
  buses : ∀ x ∈ n.buses, d.netlist.Accepts x .comb
  input : ∀ info, n.kind = .method info → info.input.width ≤ maxWidth

/-- What the rules ask of a design. -/
structure Regular (d : Design) : Prop where
  narrow : ∀ x s, d.netlist.signals.get? x = some s → s.width ≤ maxWidth
  domains : ∀ a ∈ d.assigns, d.netlist.Accepts a.target a.domain
  nodes : ∀ i n, d.nodes.get? i = some n → d.NodeRegular n

theorem NodeRegular.mono {n : Node} (h : d.NodeRegular n) (hk : Retains d d') : d'.NodeRegular n :=
  ⟨fun x hx => hk.accepts (h.buses x hx), h.input⟩

/-- No wire of a node is a register. -/
theorem Regular.wire (h : d.Regular) (hd : d.Sound) {i : NodeId} {n : Node} (hn : d.nodes.get? i = some n) {x : SignalId}
    (hx : x ∈ n.wires) : d.netlist.Accepts x .comb := by
  rcases List.mem_append.1 hx with hx | hx
  · exact ((hd.nodes i n hn).single x hx).accepts
  · exact (h.nodes i n hn).buses x hx

/-- Changes that leave nodes, signals and assignments alone. -/
theorem Regular.same (h : d.Regular) (hn : d'.nodes = d.nodes) (hs : d'.netlist.signals = d.netlist.signals)
    (ha : d'.assigns = d.assigns) : d'.Regular := by
  have hk : Retains d d' := fun x s hx => by rwa [hs]
  refine ⟨fun x s hx => h.narrow x s (hs ▸ hx), fun a ha' => hk.accepts (h.domains a (ha ▸ ha')), fun i n hi => ?_⟩
  rw [hn] at hi
  exact (h.nodes i n hi).mono hk

theorem Regular.newSignal (h : d.Regular) (base : String) {width : Nat} (kind : SignalKind) (init : Word)
    (hw : width ≤ maxWidth) : (d.newSignal base width kind init).2.Regular := by
  have hwide := newSignal_widens d base width kind init
  have hk : Retains d (d.newSignal base width kind init).2 := hwide.signals
  refine ⟨fun x s hx => ?_, fun a ha => hk.accepts (h.domains a (hwide.assigns ▸ ha)), fun i n hi => ?_⟩
  · rw [get?_newSignal] at hx
    split at hx
    · rw [← Option.some.inj hx]
      exact hw
    · exact h.narrow x s hx
  · rw [hwide.nodes] at hi
    exact (h.nodes i n hi).mono hk

theorem Regular.assign (h : d.Regular) {a : GuardedAssign} (ha : d.netlist.Accepts a.target a.domain) :
    (d.assign a).Regular :=
  ⟨h.narrow, forall_mem_snoc h.domains ha, fun i n hi => (h.nodes i n hi).mono fun _ _ hx => hx⟩

theorem Regular.drive (h : d.Regular) {x : SignalId} (hx : d.netlist.IsBit x) (e : Expr) : (d.drive x e).Regular :=
  h.assign (a := ⟨x, .one, e, .comb⟩) hx.accepts

/-- A change of a node that is fine by itself. -/
theorem Regular.modifyNode (h : d.Regular) (id : NodeId) {f : Node → Node}
    (hf : ∀ n, d.nodes.get? id = some n → d.NodeRegular n → d.NodeRegular (f n)) : (d.modifyNode id f).Regular := by
  refine ⟨h.narrow, h.domains, fun i n hi => ?_⟩
  have hk : Retains d (d.modifyNode id f) := fun _ _ hx => hx
  rcases exists_of_modifyNode hi with ⟨-, hi⟩ | ⟨rfl, n₀, hn₀, rfl⟩
  · exact (h.nodes i n hi).mono hk
  · exact (hf n₀ hn₀ (h.nodes i n₀ hn₀)).mono hk

/-- One that leaves its kind alone. -/
theorem Regular.sameKind (h : d.Regular) (id : NodeId) {f : Node → Node} (hkind : ∀ n, (f n).kind = n.kind) :
    (d.modifyNode id f).Regular := by
  refine h.modifyNode id fun n _ hn => ⟨fun x hx => hn.buses x ?_, fun info hinfo => hn.input info (hkind n ▸ hinfo)⟩
  unfold Node.buses at hx ⊢
  rwa [hkind] at hx

theorem Regular.addNode (h : d.Regular) (name : String) (loc : Location) (kind : NodeKind)
    (hn : d.NodeRegular { id := d.nodes.size, name, loc, kind }) : (d.addNode name loc kind).2.Regular := by
  refine ⟨h.narrow, h.domains, fun i n hi => ?_⟩
  rw [get?_addNode] at hi
  have hk : Retains d (d.addNode name loc kind).2 := fun _ _ hx => hx
  split at hi
  · rename_i he
    subst he
    rw [← Option.some.inj hi]
    exact hn.mono hk
  · exact (h.nodes i n hi).mono hk

theorem nodeRegular_transaction (info : TransactionInfo) {n : Node} (hn : n.kind = .transaction info) :
    d.NodeRegular n := by
  refine ⟨fun x hx => ?_, fun minfo hm => ?_⟩
  · rw [Node.buses, hn] at hx
    cases hx
  · rw [hn] at hm
    cases hm

theorem Regular.newWire (h : d.Regular) (base : String) {width : Nat} (hw : width ≤ maxWidth) :
    (d.newWire base width).2.Regular := h.newSignal base .wire 0 hw

theorem Regular.newTransactionInfo (h : d.Regular) (name : String) : (d.newTransactionInfo name).2.Regular :=
  ((h.newWire (name ++ "_request") (by decide)).newWire (name ++ "_runnable") (by decide)).newWire
    (name ++ "_grant") (by decide)

theorem declareTransaction_regular (h : d.Regular) (name : String) (loc : Location) :
    (d.declareTransaction name loc).2.Regular := by
  have h₁ : (d.newName (nameOr name "transaction")).2.Regular := h.same rfl rfl rfl
  exact (h₁.newTransactionInfo _).addNode _ _ _ (nodeRegular_transaction _ rfl)

/-- A bus is a wire of the width of its layout. -/
theorem Regular.newBus (h : d.Regular) (name : String) {l : Layout} (hl : l.width ≤ maxWidth) :
    (d.newBus name l).2.Regular ∧
      ∀ x, (d.newBus name l).1 = some x → (d.newBus name l).2.netlist.Accepts x .comb := by
  unfold Design.newBus
  split
  · exact ⟨h, fun x hx => nomatch hx⟩
  · refine ⟨h.newWire name hl, fun x hx => ?_⟩
    obtain rfl := Option.some.inj hx
    obtain ⟨g, hg, -, hkind⟩ := exists_newSignal d name l.width .wire 0
    exact ⟨g, hg, by rw [hkind]; rfl⟩

theorem addMethod_regular (h : d.Regular) {decl : MethodDecl} (hin : decl.input.width ≤ maxWidth)
    (hout : decl.output.width ≤ maxWidth) (loc : Location) : (d.addMethod decl loc).2.Regular := by
  unfold Design.addMethod
  simp only
  have h₁ : (d.newName (nameOr decl.name "method")).2.Regular := h.same rfl rfl rfl
  generalize d.newName (nameOr decl.name "method") = named at h₁ ⊢
  obtain ⟨name, d₁⟩ := named
  simp only at h₁ ⊢
  obtain ⟨h₂, hdataIn⟩ := h₁.newBus (name ++ "_data_in") hin
  generalize d₁.newBus (name ++ "_data_in") decl.input = bus at h₂ hdataIn ⊢
  obtain ⟨dataIn, d₂⟩ := bus
  simp only at h₂ hdataIn ⊢
  obtain ⟨h₃, hdataOut⟩ := h₂.newBus (name ++ "_data_out") hout
  have hk : Retains d₂ (d₂.newBus (name ++ "_data_out") decl.output).2 := (newBus_spec d₂ _ _).1.signals
  generalize d₂.newBus (name ++ "_data_out") decl.output = bus at h₃ hdataOut hk ⊢
  obtain ⟨dataOut, d₃⟩ := bus
  simp only at h₃ hdataOut hk ⊢
  have hwires := ((newWire_widens d₃ (name ++ "_ready") 1).trans (newWire_widens _ (name ++ "_run") 1)).signals
  refine ((h₃.newWire (name ++ "_ready") (by decide)).newWire (name ++ "_run") (by decide)).addNode _ _ _
    ⟨fun x hx => ?_, fun info hinfo => ?_⟩
  · have hx : x ∈ dataIn.toList ++ dataOut.toList := hx
    rcases List.mem_append.1 hx with hx | hx
    · exact Retains.accepts (d := d₃) hwires (hk.accepts (hdataIn x (Option.mem_toList.1 hx)))
    · exact Retains.accepts (d := d₃) hwires (hdataOut x (Option.mem_toList.1 hx))
  · obtain rfl := NodeKind.method.inj hinfo
    exact hin

theorem checkWidth_ok {l : Layout} {what : String} {loc : Location} (h : (l.checkWidth what loc).Gives ()) :
    l.width ≤ maxWidth := by
  simp only [Layout.checkWidth, Layout.checkedWidth, Attempt.gives_bind, Attempt.gives_ofChecked, except_bind_ok,
    except_pure_ok] at h
  obtain ⟨_, ⟨_, -, rfl⟩, h⟩ := h
  by_contra hlt
  rw [if_pos (Nat.lt_of_not_le hlt)] at h
  exact Attempt.not_gives_throw h

theorem declareMethod_narrow {decl : MethodDecl} {loc : Location} {r : NodeId × Design}
    (h : (d.declareMethod decl loc).Gives r) : decl.input.width ≤ maxWidth ∧ decl.output.width ≤ maxWidth := by
  simp only [declareMethod, Attempt.gives_bind] at h
  obtain ⟨_, hin, _, hout, _⟩ := h
  exact ⟨checkWidth_ok hin, checkWidth_ok hout⟩

theorem declareMethod_regular (h : d.Regular) {decl : MethodDecl} {loc : Location} {m : NodeId} {d' : Design}
    (hm : (d.declareMethod decl loc).Gives (m, d')) : d'.Regular := by
  obtain ⟨hin, hout⟩ := declareMethod_narrow hm
  obtain rfl : d' = (d.addMethod decl loc).2 := congrArg Prod.snd (declareMethod_ok hm)
  exact addMethod_regular h hin hout loc

end Design

end Interlock
