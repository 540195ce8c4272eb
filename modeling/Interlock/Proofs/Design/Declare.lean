import Interlock.Proofs.Attempt
import Interlock.Proofs.Design.Sound

/-! Declarations keep a design sound: a new node brings its own wires. -/

namespace Interlock.Design

variable {d : Design}

theorem newWire_widens (d : Design) (base : String) (width : Nat) : Widens d (d.newWire base width).2 :=
  newSignal_widens ..

theorem newTransactionInfo_spec (d : Design) (name : String) :
    Widens d (d.newTransactionInfo name).2 ∧
      (d.newTransactionInfo name).1 =
        ⟨d.netlist.signals.size, d.netlist.signals.size + 1, d.netlist.signals.size + 2⟩ ∧
      (d.newTransactionInfo name).2.netlist.signals.size = d.netlist.signals.size + 3 ∧
      ∀ x : Nat, d.netlist.signals.size ≤ x → x < d.netlist.signals.size + 3 →
        (d.newTransactionInfo name).2.netlist.IsBit x := by
  have hw := ((newWire_widens d (name ++ "_request") 1).trans
    (newWire_widens _ (name ++ "_runnable") 1)).trans (newWire_widens _ (name ++ "_grant") 1)
  refine ⟨hw, ?_, ?_, fun x hle hlt => ?_⟩
  · simp only [newTransactionInfo, newWire, newSignal_fst, size_newSignal]
  · simp only [newTransactionInfo, newWire, size_newSignal]
  · simp only [Netlist.IsBit, newTransactionInfo, newWire, get?_newSignal, size_newSignal]
    split
    · exact ⟨_, rfl, rfl, rfl⟩
    · split
      · exact ⟨_, rfl, rfl, rfl⟩
      · rw [if_pos (by omega)]
        exact ⟨_, rfl, rfl, rfl⟩

/-- The node of a new transaction. -/
theorem nodeSound_transaction {d' : Design} {s : Nat} (hs : d'.netlist.signals.size = s + 3)
    (hone : ∀ x : Nat, s ≤ x → x < s + 3 → d'.netlist.IsBit x) (i : NodeId) (name : String) (loc : Location) :
    d'.NodeSound i { id := i, name, loc, kind := .transaction ⟨s, s + 1, s + 2⟩ } := by
  refine ⟨rfl, ?_, fun x hx => ?_, fun x hx => ?_, fun j hj => (nomatch hj), fun info h => (nomatch h)⟩
  · simp [Node.wires, Node.control, Node.buses]
  · simp only [Node.wires, Node.control, Node.buses, List.append_nil, List.mem_cons, List.not_mem_nil,
      or_false] at hx
    omega
  · simp only [Node.control, List.mem_cons, List.not_mem_nil, or_false] at hx
    exact hone x (by omega) (by omega)

/-- A node is added, with wires that are added for it. -/
def Adds (d d' : Design) : Prop :=
  ∃ d₁ name loc kind, Widens d d₁ ∧ d' = (d₁.addNode name loc kind).2 ∧
    d₁.NodeSound d.nodes.size { id := d.nodes.size, name, loc, kind } ∧
    ∀ x ∈ ({ id := d.nodes.size, name, loc, kind } : Node).wires, d.netlist.signals.size ≤ x

theorem Adds.sound {d' : Design} (h : Adds d d') (hd : d.Sound) : d'.Sound := by
  obtain ⟨d₁, name, loc, kind, hw, rfl, hnode, hnew⟩ := h
  exact hd.addNode hw name loc kind hnode hnew

theorem Adds.grows {d' : Design} (h : Adds d d') : Grows d d' := by
  obtain ⟨d₁, name, loc, kind, hw, rfl, -, hnew⟩ := h
  exact addNode_grows hw name loc kind hnew

theorem Adds.signals {d' : Design} (h : Adds d d') :
    ∀ x s, d.netlist.signals.get? x = some s → d'.netlist.signals.get? x = some s := by
  obtain ⟨d₁, name, loc, kind, hw, rfl, -⟩ := h
  exact hw.signals

theorem Widens.adds {d₀ d₁ d' : Design} (hw : Widens d₀ d₁) (h : Adds d₁ d') : Adds d₀ d' := by
  obtain ⟨d₂, name, loc, kind, hw', rfl, hnode, hnew⟩ := h
  rw [hw.nodes] at hnode hnew
  exact ⟨d₂, name, loc, kind, hw.trans hw', rfl, hnode, fun x hx => Nat.le_trans hw.size (hnew x hx)⟩

/-- Adding the node of a transaction whose wires have just been added. -/
theorem addTransaction_adds (d : Design) (base name : String) (loc : Location) :
    Adds d ((d.newTransactionInfo base).2.addNode name loc (.transaction (d.newTransactionInfo base).1)).2 := by
  obtain ⟨hw, hinfo, hsize, hone⟩ := newTransactionInfo_spec d base
  rw [hinfo]
  refine ⟨_, name, loc, _, hw, rfl, nodeSound_transaction hsize hone _ name loc, fun x hx => ?_⟩
  simp only [Node.wires, Node.control, Node.buses, List.append_nil, List.mem_cons, List.not_mem_nil,
    or_false] at hx
  omega

theorem declareTransaction_adds (d : Design) (name : String) (loc : Location) :
    Adds d (d.declareTransaction name loc).2 :=
  (newName_widens d _).adds (addTransaction_adds _ _ _ loc)

theorem newBus_spec (d : Design) (name : String) (l : Layout) :
    Widens d (d.newBus name l).2 ∧
      (((d.newBus name l).1 = none ∧ (d.newBus name l).2.netlist.signals.size = d.netlist.signals.size) ∨
        ((d.newBus name l).1 = some d.netlist.signals.size ∧
          (d.newBus name l).2.netlist.signals.size = d.netlist.signals.size + 1)) := by
  unfold newBus
  split
  · exact ⟨.refl d, .inl ⟨rfl, rfl⟩⟩
  · exact ⟨newWire_widens .., .inr ⟨rfl, size_newSignal ..⟩⟩

/-- The node of a new method, whose buses come right before its two other wires. -/
theorem nodeSound_method {d' : Design} {s : Nat} {info : MethodInfo} (hready : info.ready = s)
    (hrun : info.run = s + 1) (hfused : info.fusedFrom = none)
    (hbuses : (info.dataIn.toList ++ info.dataOut.toList).Nodup)
    (hbefore : ∀ x : Nat, x ∈ info.dataIn.toList ++ info.dataOut.toList → x < s)
    (hsize : d'.netlist.signals.size = s + 1 + 1)
    (hone : ∀ x : Nat, s ≤ x → x < s + 1 + 1 → d'.netlist.IsBit x)
    (i : NodeId) (name : String) (loc : Location) :
    d'.NodeSound i { id := i, name, loc, kind := .method info } := by
  have hcontrol : ({ id := i, name, loc, kind := .method info } : Node).control = [s, s + 1] := by
    simp only [Node.control, hfused, hready, hrun, Option.map_none, Option.toList_none, List.append_nil]
  refine ⟨rfl, ?_, fun x hx => ?_, fun x hx => ?_, fun j hj => absurd hj List.not_mem_nil, fun info' h o ho => ?_⟩
  · rw [Node.wires, hcontrol, List.nodup_append]
    refine ⟨by simp, hbuses, fun x hx y hy he => ?_⟩
    have := hbefore x (he ▸ hy)
    simp only [List.mem_cons, List.not_mem_nil, or_false] at hx
    omega
  · rw [Node.wires, hcontrol, List.mem_append] at hx
    rcases hx with hx | hx
    · simp only [List.mem_cons, List.not_mem_nil, or_false] at hx
      omega
    · have := hbefore x hx
      omega
  · rw [hcontrol] at hx
    simp only [List.mem_cons, List.not_mem_nil, or_false] at hx
    exact hone x (by omega) (by omega)
  · obtain rfl : info = info' := by simpa using h
    rw [hfused] at ho
    cases ho

theorem addMethod_adds (d : Design) (decl : MethodDecl) (loc : Location) :
    Adds d (d.addMethod decl loc).2 := by
  unfold Design.addMethod
  simp only
  generalize nameOr decl.name "method" = base
  have hname := newName_widens d base
  have hsize : (d.newName base).2.netlist.signals.size = d.netlist.signals.size := rfl
  generalize d.newName base = named at hname hsize ⊢
  obtain ⟨name, d₁⟩ := named
  obtain ⟨hin, hinBus⟩ := newBus_spec d₁ (name ++ "_data_in") decl.input
  generalize d₁.newBus (name ++ "_data_in") decl.input = bus at hin hinBus ⊢
  obtain ⟨dataIn, d₂⟩ := bus
  obtain ⟨hout, houtBus⟩ := newBus_spec d₂ (name ++ "_data_out") decl.output
  generalize d₂.newBus (name ++ "_data_out") decl.output = bus at hout houtBus ⊢
  obtain ⟨dataOut, d₃⟩ := bus
  simp only at hname hsize hin hinBus hout houtBus ⊢
  have hready := newWire_widens d₃ (name ++ "_ready") 1
  have hrun := newWire_widens (d₃.newWire (name ++ "_ready") 1).2 (name ++ "_run") 1
  have hbuses : (dataIn.toList ++ dataOut.toList).Nodup ∧
      ∀ x : Nat, x ∈ dataIn.toList ++ dataOut.toList →
        d.netlist.signals.size ≤ x ∧ x < d₃.netlist.signals.size := by
    rcases hinBus with ⟨rfl, h₂⟩ | ⟨rfl, h₂⟩ <;> rcases houtBus with ⟨rfl, h₃⟩ | ⟨rfl, h₃⟩
    · simp
    · simp [← hsize, h₃, h₂]
    · simp [← hsize, h₃, h₂]
    · simp only [Option.toList_some, List.cons_append, List.nil_append, h₃, h₂, ← hsize]
      refine ⟨by simp, fun x hx => ?_⟩
      simp only [List.mem_cons, List.not_mem_nil, or_false] at hx
      rcases hx with rfl | rfl
      · exact ⟨Nat.le_refl _, by omega⟩
      · exact ⟨Nat.le_succ _, Nat.lt_succ_self _⟩
  have hle := Nat.le_trans hin.size hout.size
  refine ⟨_, name, loc, _, hname.trans (hin.trans (hout.trans (hready.trans hrun))), rfl,
    nodeSound_method (s := d₃.netlist.signals.size) rfl (size_newSignal ..) rfl hbuses.1
      (fun x hx => (hbuses.2 x hx).2) ?_ (fun x hle hlt => ?_) _ name loc, fun x hx => ?_⟩
  · simp only [newWire, size_newSignal]
  · simp only [Netlist.IsBit, newWire, get?_newSignal, size_newSignal]
    split
    · exact ⟨_, rfl, rfl, rfl⟩
    · rw [if_pos (by omega)]
      exact ⟨_, rfl, rfl, rfl⟩
  · simp only [Node.wires, Node.control, Node.buses, newWire, newSignal_fst, size_newSignal, Option.map_none,
      Option.toList_none, List.append_nil, List.cons_append, List.nil_append, List.mem_cons] at hx
    rcases hx with rfl | rfl | hx
    · omega
    · omega
    · exact (hbuses.2 x hx).1

theorem declareMethod_ok {decl : MethodDecl} {loc : Location} {m : NodeId} {d' : Design}
    (h : (d.declareMethod decl loc).Gives (m, d')) : (m, d') = d.addMethod decl loc := by
  simp only [declareMethod, Attempt.gives_bind, Attempt.gives_pure] at h
  obtain ⟨_, _, _, _, h⟩ := h
  exact h.symm

theorem nextModule_newBus (d : Design) (name : String) (l : Layout) :
    (d.newBus name l).2.nextModule = d.nextModule := by
  unfold newBus
  split <;> rfl

theorem nextModule_addMethod (d : Design) (decl : MethodDecl) (loc : Location) :
    (d.addMethod decl loc).2.nextModule = d.nextModule := by
  change (newBus (newBus _ _ _).2 _ _).2.nextModule = _
  rw [nextModule_newBus, nextModule_newBus]

/-- Alternatives are required to run with `a`, and the first of them never with another. -/
theorem alternatives_induct {P : Design → Prop} (d : Design) (a : NodeId) (others : List NodeId)
    (hsim : P (d.simultaneous a others)) (hind : ∀ (d : Design) (first : NodeId) (rest : List NodeId), P d →
      P (d.modifyNode first fun n => { n with independent := n.independent ++ rest })) :
    P (d.simultaneousAlternatives a others) := by
  unfold simultaneousAlternatives
  rcases others with _ | ⟨first, rest⟩
  · exact hsim
  · exact hind _ first rest hsim

theorem nextModule_alternatives (d : Design) (a : NodeId) (others : List NodeId) :
    (d.simultaneousAlternatives a others).nextModule = d.nextModule :=
  alternatives_induct (P := fun d' => d'.nextModule = d.nextModule) d a others rfl fun _ _ _ h => h

theorem netlist_alternatives (d : Design) (a : NodeId) (others : List NodeId) :
    (d.simultaneousAlternatives a others).netlist = d.netlist :=
  alternatives_induct (P := fun d' => d'.netlist = d.netlist) d a others rfl fun _ _ _ h => h

theorem size_alternatives (d : Design) (a : NodeId) (others : List NodeId) :
    (d.simultaneousAlternatives a others).nodes.size = d.nodes.size :=
  alternatives_induct (P := fun d' => d'.nodes.size = d.nodes.size) d a others (size_modifyNode ..)
    fun _ _ _ h => (size_modifyNode ..).trans h

/-- A change of a node that leaves its place and kind as they are. -/
structure Mild (d : Design) (i : NodeId) (f : Node → Node) : Prop where
  id : ∀ n, (f n).id = n.id
  kind : ∀ n, (f n).kind = n.kind
  simultaneous : ∀ n, d.nodes.get? i = some n → ∀ j ∈ (f n).simultaneous, j < d.nodes.size

theorem Mild.same {id : NodeId} {f : Node → Node} (hf : Mild d id f) (n : Node) :
    (f n).control = n.control ∧ (f n).wires = n.wires ∧ (f n).generated = n.generated := by
  simp only [Node.control, Node.wires, Node.buses, Node.generated, hf.kind, and_self]

theorem Mild.sound {id : NodeId} {f : Node → Node} (hf : Mild d id f) (h : d.Sound) :
    (d.modifyNode id f).Sound := by
  apply h.modifyNode id
  intro n hn
  obtain ⟨hid, hnodup, hdecl, hsingle, -, hfused⟩ := h.nodes id n hn
  obtain ⟨hc, hw, hg⟩ := hf.same n
  refine ⟨⟨(hf.id n).trans hid, hw ▸ hnodup, hw ▸ hdecl, hc ▸ hsingle, hf.simultaneous n hn, ?_⟩, hw, ?_⟩
  · rw [hf.kind]
    exact hfused
  · rw [hg]
    exact fun x hx => hx

theorem Mild.grows {id : NodeId} {f : Node → Node} (hf : Mild d id f) : Grows d (d.modifyNode id f) := by
  apply modifyNode_grows d id
  intro n _
  obtain ⟨-, hw, hg⟩ := hf.same n
  exact ⟨hw, fun x hx => hg ▸ hx⟩

theorem simultaneous_mild (h : d.Sound) (a : NodeId) {others : List NodeId}
    (ho : ∀ j ∈ others, j < d.nodes.size) :
    Mild d a fun n => { n with simultaneous := n.simultaneous ++ others } := by
  refine ⟨fun _ => rfl, fun _ => rfl, fun n hn j hj => ?_⟩
  rcases List.mem_append.1 hj with hj | hj
  · exact (h.nodes a n hn).simultaneous j hj
  · exact ho j hj

/-- A change that leaves the wishes of simultaneity as well. -/
theorem Sound.mild (h : d.Sound) (id : NodeId) {f : Node → Node} (hid : ∀ n, (f n).id = n.id)
    (hkind : ∀ n, (f n).kind = n.kind) (hsim : ∀ n, (f n).simultaneous = n.simultaneous) : Mild d id f := by
  refine ⟨hid, hkind, fun n hn => ?_⟩
  rw [hsim]
  exact (h.nodes id n hn).simultaneous

end Interlock.Design
