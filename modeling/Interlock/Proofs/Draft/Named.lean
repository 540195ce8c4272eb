import Interlock.Proofs.Draft.Effect
import Interlock.Proofs.Names

/-! Names in a design. Every operation that adds a node or a signal gives it a fresh name, so nodes are named apart,
and so are signals; the two have tables of their own. -/

namespace Interlock

/-- The names of the signals, in their order. -/
def Netlist.names (n : Netlist) : List String := n.signals.toList.map (·.name)

namespace Design

variable {d : Design} {pending : List String} {name : String}

/-- The names of the nodes, in their order. -/
def nodeNames (d : Design) : List String := d.nodeList.map (·.name)

theorem nodeNames_addNode (d : Design) (name : String) (loc : Location) (kind : NodeKind) :
    (d.addNode name loc kind).2.nodeNames = d.nodeNames ++ [name] := by
  simp only [nodeNames, nodeList, Arena.toList, addNode, Arena.allocWith, Array.toList_push, List.map_append,
    List.map_cons, List.map_nil]

theorem getElem?_nodeNames (d : Design) (i : NodeId) : d.nodeNames[i]? = (d.nodes.get? i).map (·.name) := by
  rw [nodeNames, List.getElem?_map, nodeList, Arena.toList, Array.getElem?_toList]
  rfl

theorem nodeNames_modifyNode (d : Design) (id : NodeId) {f : Node → Node} (hf : ∀ n, (f n).name = n.name) :
    (d.modifyNode id f).nodeNames = d.nodeNames := by
  refine List.ext_getElem? fun i => ?_
  rw [getElem?_nodeNames, getElem?_nodeNames, get?_modifyNode]
  split
  · simp only [Option.map_map, Function.comp_def, hf]
  · rfl

theorem names_newSignal (d : Design) (base : String) (width : Nat) (kind : SignalKind) (init : Word) :
    (d.newSignal base width kind init).2.netlist.names =
      d.netlist.names ++ [d.signalNames.freshName (d.config.namePrefix ++ base)] := by
  simp only [newSignal, Netlist.addSignal, Netlist.names, Arena.toList, Arena.allocWith, Array.toList_push,
    List.map_append, List.map_cons, List.map_nil]

/-- Nodes and signals have names of their own, which are taken. Names that are pending are those of nodes to come. -/
structure Named (d : Design) (pending : List String) : Prop where
  nodes : d.names.Knows (d.nodeNames ++ pending)
  signals : d.signalNames.Knows d.netlist.names

theorem Named.start (config : Config) : ({ config } : Design).Named [] := ⟨.nil _, .nil _⟩

theorem Named.newName (h : d.Named []) (base : String) : (d.newName base).2.Named [(d.newName base).1] := by
  have hfresh := h.nodes.fresh base
  rw [List.append_nil] at hfresh
  exact ⟨hfresh, h.signals⟩

theorem Named.newSignal (h : d.Named pending) (base : String) (width : Nat) (kind : SignalKind) (init : Word) :
    (d.newSignal base width kind init).2.Named pending := by
  refine ⟨h.nodes, ?_⟩
  rw [names_newSignal]
  exact h.signals.fresh _

theorem Named.addNode (h : d.Named [name]) (loc : Location) (kind : NodeKind) :
    (d.addNode name loc kind).2.Named [] := by
  refine ⟨?_, h.signals⟩
  rw [nodeNames_addNode, List.append_nil]
  exact h.nodes

theorem Named.modifyNode (h : d.Named pending) (id : NodeId) {f : Node → Node} (hf : ∀ n, (f n).name = n.name) :
    (d.modifyNode id f).Named pending := by
  refine ⟨?_, h.signals⟩
  rw [nodeNames_modifyNode d id hf]
  exact h.nodes

theorem Named.assign (h : d.Named pending) (a : GuardedAssign) : (d.assign a).Named pending := ⟨h.nodes, h.signals⟩

theorem Named.drive (h : d.Named pending) (x : SignalId) (e : Expr) : (d.drive x e).Named pending := h.assign _

theorem Named.newModule (h : d.Named pending) : d.newModule.2.Named pending := ⟨h.nodes, h.signals⟩

theorem Named.newWire (h : d.Named pending) (base : String) (width : Nat) : (d.newWire base width).2.Named pending :=
  h.newSignal base width .wire 0

theorem Named.newTransactionInfo (h : d.Named pending) (name : String) : (d.newTransactionInfo name).2.Named pending :=
  ((h.newWire (name ++ "_request") 1).newWire (name ++ "_runnable") 1).newWire (name ++ "_grant") 1

theorem Named.newBus (h : d.Named pending) (name : String) (l : Layout) : (d.newBus name l).2.Named pending := by
  unfold Design.newBus
  split
  · exact h
  · exact h.newWire name l.width

theorem Named.declareTransaction (h : d.Named []) (name : String) (loc : Location) :
    (d.declareTransaction name loc).2.Named [] :=
  ((h.newName (nameOr name "transaction")).newTransactionInfo _).addNode loc _

theorem Named.addMethod (h : d.Named []) (decl : MethodDecl) (loc : Location) : (d.addMethod decl loc).2.Named [] := by
  have hname := h.newName (nameOr decl.name "method")
  generalize hnew : d.newName (nameOr decl.name "method") = named at hname
  obtain ⟨name, d₁⟩ := named
  have hbuses := (hname.newBus (name ++ "_data_in") decl.input).newBus (name ++ "_data_out") decl.output
  simp only [Design.addMethod, hnew]
  exact ((hbuses.newWire (name ++ "_ready") 1).newWire (name ++ "_run") 1).addNode loc _

theorem Named.simultaneousAlternatives (h : d.Named []) (a : NodeId) (others : List NodeId) :
    (d.simultaneousAlternatives a others).Named [] := by
  have hsimultaneous : (d.simultaneous a others).Named [] := h.modifyNode a fun _ => rfl
  unfold Design.simultaneousAlternatives
  cases others with
  | nil => exact hsimultaneous
  | cons first rest => exact hsimultaneous.modifyNode first fun _ => rfl

end Design

end Interlock

/-! ### Drafts -/

namespace Interlock.Draft

open Design

theorem named_opened {r : Recording} (h : r.design.Named []) (id : NodeId) (loc : Location) :
    (r.opened id loc).Named [] := by
  have hnext : Named { r.design with nextDefOrder := r.design.nextDefOrder + 1 } [] := ⟨h.nodes, h.signals⟩
  exact hnext.modifyNode id fun _ => rfl

theorem effect_named {d d' : Draft} {i : Nat} {r : Recording} (h : r.design.Named []) {op : Operation} (he : Effect d i r op d') :
    d'.design.Named [] := by
  cases he with
  | submodule scope => exact h.newModule
  | signal name width kind init hw => exact h.newSignal name width kind init
  | assign s guard value domain hs hkind => exact h.assign _
  | «when» wanted hw => exact h
  | branches => exact h
  | branch j b arms cond hj hw => exact h
  | leave => exact h
  | machine name m hw hstates hstate hchain hpath => exact h.newSignal name m.state.width .reg 0
  | state j path m arms index hj hpath hi => exact h
  | next c m guard value hc hm => exact h.assign _
  | openTransaction t loc info wanted ht hnew hinfo => exact (named_opened h t loc).drive info.request _
  | openMethod m loc old validator wanted activator hnew hinfo =>
    have hbody := (named_opened h m loc).modifyNode m (f := fun n => { n with kind := .method { old with validator } })
      fun _ => rfl
    exact hbody.drive old.ready _
  | leaveBody => exact h
  | closeMethod m info bus value hm hbus => exact h.assign _
  | stay => exact h
  | call m frame site enabled hbody hpath henable hw hapart hcallee => exact h.modifyNode frame.node fun _ => rfl

theorem step_named {d d' : Draft} {action : Action} (h : d.design.Named []) (hd : d.step action = some d') :
    d'.design.Named [] := by
  cases action with
  | transaction name loc =>
    simp only [step, Option.some.injEq] at hd
    subst hd
    exact h.declareTransaction name loc
  | method decl loc =>
    simp only [step, Option.bind_eq_bind, Option.bind_eq_some_iff, Option.pure_def, Option.some.injEq,
      Attempt.result?_eq_some] at hd
    obtain ⟨⟨m, design⟩, hm, rfl⟩ := hd
    have hdesign : design = (d.design.addMethod decl loc).2 := congrArg Prod.snd (declareMethod_ok hm)
    rw [hdesign]
    exact h.addMethod decl loc
  | conflict a b priority loc =>
    simp only [step, Option.ite_none_right_eq_some, Option.some.injEq] at hd
    obtain ⟨-, rfl⟩ := hd
    exact ⟨h.nodes, h.signals⟩
  | before a b silenced loc =>
    simp only [step, Option.ite_none_right_eq_some, Option.some.injEq] at hd
    obtain ⟨-, rfl⟩ := hd
    exact ⟨h.nodes, h.signals⟩
  | simultaneous a others =>
    simp only [step, Option.ite_none_right_eq_some, Option.some.injEq] at hd
    obtain ⟨-, rfl⟩ := hd
    exact h.modifyNode a fun _ => rfl
  | alternatives a others =>
    simp only [step, Option.ite_none_right_eq_some, Option.some.injEq] at hd
    obtain ⟨-, rfl⟩ := hd
    exact h.simultaneousAlternatives a others
  | openModule scope =>
    simp only [step, Option.some.injEq] at hd
    subst hd
    exact h.newModule
  | inModule i op =>
    simp only [step, Option.bind_eq_bind, Option.bind_eq_some_iff] at hd
    obtain ⟨r, hr, hop⟩ := hd
    have hdesign := place?_design hr
    exact effect_named (hdesign ▸ h) (operate_effect hdesign hop)

/-- Names are distinct in every recorded draft, whatever names and prefix are asked for. -/
theorem Recorded.named {d : Draft} (h : d.Recorded) : d.design.Named [] :=
  h.induct (P := fun d => d.design.Named []) Named.start fun _ _ _ => step_named

end Interlock.Draft
