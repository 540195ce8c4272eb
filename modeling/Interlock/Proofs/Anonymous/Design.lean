import Interlock.Proofs.Agree
import Interlock.Proofs.Arena
import Interlock.Proofs.Design.Sound

/-! Designs without names. Designs are alike where they are the same once names, the prefix of names and places in
the source are left out; declarations and assignments keep them alike, whatever names they are given. -/

namespace Interlock

/-! ### Leaving names out -/

namespace Arena

variable {α β : Type}

def map (f : α → β) (a : Arena α) : Arena β := ⟨a.items.map f⟩

@[simp] theorem get?_map (f : α → β) (a : Arena α) (i : Nat) : (a.map f).get? i = (a.get? i).map f := by
  simp [map, get?]

@[simp] theorem size_map (f : α → β) (a : Arena α) : (a.map f).size = a.size := by
  simp [map, size]

@[simp] theorem toList_map (f : α → β) (a : Arena α) : (a.map f).toList = a.toList.map f := by
  simp [map, toList]

end Arena

def Config.anonymous (c : Config) : Config := { c with namePrefix := "" }

def Relation.anonymous (r : Relation) : Relation := { r with loc := .generated }

def CallSite.anonymous (s : CallSite) : CallSite := { s with loc := .generated }

/-- The calls of one method. -/
def CallSite.allAnonymous (call : NodeId × List CallSite) : NodeId × List CallSite :=
  (call.1, call.2.map CallSite.anonymous)

def Node.anonymous (n : Node) : Node :=
  { n with
    name := ""
    loc := .generated
    defLoc := n.defLoc.map fun _ => .generated
    calls := n.calls.map CallSite.allAnonymous }

/-- What does not depend on names and places is the same for nodes that differ in these only. -/
theorem Node.same {α : Type} {n n' : Node} (h : n.anonymous = n'.anonymous) {f : Node → α}
    (hf : ∀ n : Node, f n.anonymous = f n) : f n = f n' := by
  rw [← hf n, ← hf n', h]

def Signal.anonymous (s : Signal) : Signal := { s with name := "" }

def Netlist.anonymous (n : Netlist) : Netlist := { n with signals := n.signals.map Signal.anonymous }

def MethodDecl.anonymous (decl : MethodDecl) : MethodDecl := { decl with name := "" }

namespace Design

/-- The design without names and places. -/
def anonymous (d : Design) : Design :=
  { d with
    config := d.config.anonymous
    nodes := d.nodes.map Node.anonymous
    relations := d.relations.map Relation.anonymous
    names := {}
    signalNames := {}
    netlist := d.netlist.anonymous }

/-- The designs differ in names and places only. -/
def Alike (d d' : Design) : Prop := d.anonymous = d'.anonymous

variable {d d' : Design}

/-! ### Reading -/

theorem node_anonymous (d : Design) (i : NodeId) : d.anonymous.node i = (d.node i).anonymous := by
  rw [node, node, anonymous, Arena.get?_map]
  cases d.nodes.get? i <;> rfl

theorem widthOf_anonymous (n : Netlist) (x : SignalId) : n.anonymous.widthOf x = n.widthOf x := by
  rw [Netlist.widthOf, Netlist.widthOf, Netlist.anonymous, Arena.get?_map]
  cases n.signals.get? x <;> rfl

theorem nodeList_anonymous (d : Design) : d.anonymous.nodeList = d.nodeList.map Node.anonymous := Arena.toList_map ..

theorem transactions_anonymous (d : Design) : d.anonymous.transactions = d.transactions := by
  rw [transactions, nodeList_anonymous, List.filter_map, List.map_map]
  rfl

namespace Alike

theorem symm (h : Alike d d') : Alike d' d := Eq.symm h

/-- What does not depend on names and places is the same for both. -/
theorem same {α : Type} (h : Alike d d') {f : Design → α} (hf : ∀ d : Design, f d.anonymous = f d) : f d = f d' := by
  rw [← hf d, ← hf d', h]

theorem node (h : Alike d d') (i : NodeId) : (d.node i).anonymous = (d'.node i).anonymous := by
  rw [← node_anonymous, ← node_anonymous, h]

theorem kind (h : Alike d d') (i : NodeId) : (d.node i).kind = (d'.node i).kind :=
  Node.same (h.node i) (f := Node.kind) fun _ => rfl

theorem method (h : Alike d d') (i : NodeId) : (d.node i).method? = (d'.node i).method? :=
  Node.same (h.node i) (f := Node.method?) fun _ => rfl

theorem transaction (h : Alike d d') (i : NodeId) : (d.node i).transaction? = (d'.node i).transaction? :=
  Node.same (h.node i) (f := Node.transaction?) fun _ => rfl

theorem read (h : Alike d d') (x : SignalId) : d.read x = d'.read x :=
  h.same (f := fun d => d.read x) fun d => congrArg (Expr.signal x) (widthOf_anonymous d.netlist x)

theorem transactions (h : Alike d d') : d.transactions = d'.transactions := h.same transactions_anonymous

theorem size (h : Alike d d') : d.nodes.size = d'.nodes.size := h.same (f := fun d => d.nodes.size) fun _ => Arena.size_map ..

theorem signals (h : Alike d d') : d.netlist.signals.size = d'.netlist.signals.size :=
  h.same (f := fun d => d.netlist.signals.size) fun _ => Arena.size_map ..

theorem nodeList (h : Alike d d') : d.nodeList.map Node.anonymous = d'.nodeList.map Node.anonymous := by
  rw [← nodeList_anonymous, ← nodeList_anonymous, h]

theorem assigns (h : Alike d d') : d.assigns = d'.assigns := h.same (f := Design.assigns) fun _ => rfl

theorem transactionSignal (h : Alike d d') (t : NodeId) (pick : TransactionInfo → SignalId) :
    d.transactionSignal t pick = d'.transactionSignal t pick := by
  unfold Design.transactionSignal
  rw [h.kind]
  split
  · exact h.read _
  · split
    · exact h.read _
    · rfl

theorem methodSignal (h : Alike d d') (m : NodeId) (pick : MethodInfo → Option SignalId) :
    d.methodSignal m pick = d'.methodSignal m pick := by
  unfold Design.methodSignal
  rw [h.method]
  split
  · exact h.read _
  · rfl

/-! ### Changing -/

theorem assign (h : Alike d d') (a : GuardedAssign) : Alike (d.assign a) (d'.assign a) :=
  congrArg (Design.assign · a) h

theorem drive (h : Alike d d') (x : SignalId) (e : Expr) : Alike (d.drive x e) (d'.drive x e) := h.assign _

theorem newModule (h : Alike d d') : d.newModule.1 = d'.newModule.1 ∧ Alike d.newModule.2 d'.newModule.2 :=
  ⟨h.same (f := Design.nextModule) fun _ => rfl, congrArg (fun d : Design => d.newModule.2) h⟩

theorem nextBody (h : Alike d d') : Alike { d with nextDefOrder := d.nextDefOrder + 1 }
    { d' with nextDefOrder := d'.nextDefOrder + 1 } := by
  have hnext := congrArg (fun d : Design => { d with nextDefOrder := d.nextDefOrder + 1 }) h
  exact hnext

theorem relate (h : Alike d d') {r r' : Relation} (hr : r.anonymous = r'.anonymous) :
    Alike (d.relate r) (d'.relate r') := by
  have hrelate : ∀ (d : Design) (r : Relation), (d.relate r).anonymous = d.anonymous.relate r.anonymous := fun d r => by
    simp [Design.relate, anonymous]
  rw [Alike, hrelate, hrelate, h, hr]

theorem newName (h : Alike d d') (base base' : String) : Alike (d.newName base).2 (d'.newName base').2 := h

theorem newSignal (h : Alike d d') (base base' : String) (width : Nat) (kind : SignalKind) (init : Word) :
    (d.newSignal base width kind init).1 = (d'.newSignal base' width kind init).1 ∧
      Alike (d.newSignal base width kind init).2 (d'.newSignal base' width kind init).2 := by
  have hsize := h.signals
  refine ⟨hsize, ?_⟩
  have hsignals : ∀ i, (d.netlist.signals.get? i).map Signal.anonymous = (d'.netlist.signals.get? i).map Signal.anonymous :=
    fun i => by rw [← Arena.get?_map, ← Arena.get?_map]; exact congrArg (fun d => d.netlist.signals.get? i) h
  have hnew : (d.newSignal base width kind init).2.netlist.signals.map Signal.anonymous =
      (d'.newSignal base' width kind init).2.netlist.signals.map Signal.anonymous := Arena.ext_get? fun i => by
    rw [Arena.get?_map, Arena.get?_map, get?_newSignal, get?_newSignal, hsize]
    split
    · rfl
    · exact hsignals i
  exact congrArg₂ (fun (d : Design) signals => { d with netlist := { d.netlist with signals } }) h hnew

theorem newWire (h : Alike d d') (base base' : String) (width : Nat) :
    (d.newWire base width).1 = (d'.newWire base' width).1 ∧ Alike (d.newWire base width).2 (d'.newWire base' width).2 :=
  h.newSignal base base' width .wire 0

/-- Nodes that are changed alike. -/
theorem setNodes (h : Alike d d') {nodes nodes' : Arena Node}
    (hn : ∀ i, (nodes.get? i).map Node.anonymous = (nodes'.get? i).map Node.anonymous) :
    Alike { d with nodes } { d' with nodes := nodes' } := by
  have hmap : nodes.map Node.anonymous = nodes'.map Node.anonymous := Arena.ext_get? fun i => by
    rw [Arena.get?_map, Arena.get?_map, hn]
  exact congrArg₂ (fun (d : Design) nodes => { d with nodes }) h hmap

theorem get? (h : Alike d d') (i : NodeId) : (d.nodes.get? i).map Node.anonymous = (d'.nodes.get? i).map Node.anonymous := by
  rw [← Arena.get?_map, ← Arena.get?_map]
  exact congrArg (fun d : Design => d.nodes.get? i) h

theorem modifyNode (h : Alike d d') (i : NodeId) {f f' : Node → Node}
    (hf : ∀ n n', n.anonymous = n'.anonymous → (f n).anonymous = (f' n').anonymous) :
    Alike (d.modifyNode i f) (d'.modifyNode i f') := by
  refine h.setNodes fun j => ?_
  have hj := h.get? j
  rw [Arena.get?_modify, Arena.get?_modify]
  split
  · have hnode := rel_of_map hj
    generalize d.nodes.get? j = o at hnode ⊢
    generalize d'.nodes.get? j = o' at hnode ⊢
    cases hnode with
    | none => rfl
    | some hn => exact congrArg some (hf _ _ hn)
  · exact hj

theorem addNode (h : Alike d d') (name name' : String) (loc loc' : Location) (kind : NodeKind) :
    (d.addNode name loc kind).1 = (d'.addNode name' loc' kind).1 ∧
      Alike (d.addNode name loc kind).2 (d'.addNode name' loc' kind).2 := by
  have hget : ∀ i, ((d.addNode name loc kind).2.nodes.get? i).map Node.anonymous =
      ((d'.addNode name' loc' kind).2.nodes.get? i).map Node.anonymous := fun i => by
    rw [get?_addNode, get?_addNode, h.size]
    split
    · rfl
    · exact h.get? i
  exact ⟨h.size, h.setNodes hget⟩

/-! ### Declarations -/

theorem newTransactionInfo (h : Alike d d') (name name' : String) :
    (d.newTransactionInfo name).1 = (d'.newTransactionInfo name').1 ∧
      Alike (d.newTransactionInfo name).2 (d'.newTransactionInfo name').2 := by
  obtain ⟨h₁, hd₁⟩ := h.newWire (name ++ "_request") (name' ++ "_request") 1
  obtain ⟨h₂, hd₂⟩ := hd₁.newWire (name ++ "_runnable") (name' ++ "_runnable") 1
  obtain ⟨h₃, hd₃⟩ := hd₂.newWire (name ++ "_grant") (name' ++ "_grant") 1
  refine ⟨?_, hd₃⟩
  simp only [Design.newTransactionInfo, h₁, h₂, h₃]

theorem declareTransaction (h : Alike d d') (name name' : String) (loc loc' : Location) :
    (d.declareTransaction name loc).1 = (d'.declareTransaction name' loc').1 ∧
      Alike (d.declareTransaction name loc).2 (d'.declareTransaction name' loc').2 := by
  have h₁ := h.newName (nameOr name "transaction") (nameOr name' "transaction")
  obtain ⟨hinfo, h₂⟩ := h₁.newTransactionInfo (d.newName (nameOr name "transaction")).1
    (d'.newName (nameOr name' "transaction")).1
  unfold Design.declareTransaction
  simp only [hinfo]
  exact h₂.addNode ..

theorem newBus (h : Alike d d') (name name' : String) (l : Layout) :
    (d.newBus name l).1 = (d'.newBus name' l).1 ∧ Alike (d.newBus name l).2 (d'.newBus name' l).2 := by
  unfold Design.newBus
  split
  · exact ⟨rfl, h⟩
  · obtain ⟨h₁, hd₁⟩ := h.newWire name name' l.width
    exact ⟨congrArg some h₁, hd₁⟩

theorem addMethod (h : Alike d d') {decl decl' : MethodDecl} (hdecl : decl.anonymous = decl'.anonymous)
    (loc loc' : Location) : (d.addMethod decl loc).1 = (d'.addMethod decl' loc').1 ∧
      Alike (d.addMethod decl loc).2 (d'.addMethod decl' loc').2 := by
  obtain ⟨name, input, output, nonexclusive, singleCaller, combiner⟩ := decl
  obtain ⟨name', _, _, _, _, _⟩ := decl'
  simp only [MethodDecl.anonymous, MethodDecl.mk.injEq, true_and] at hdecl
  obtain ⟨rfl, rfl, rfl, rfl, rfl⟩ := hdecl
  have h₀ := h.newName (nameOr name "method") (nameOr name' "method")
  unfold Design.addMethod
  simp only
  generalize d.newName (nameOr name "method") = p at h₀ ⊢
  generalize d'.newName (nameOr name' "method") = p' at h₀ ⊢
  obtain ⟨hin, h₁⟩ := h₀.newBus (p.1 ++ "_data_in") (p'.1 ++ "_data_in") input
  obtain ⟨hout, h₂⟩ := h₁.newBus (p.1 ++ "_data_out") (p'.1 ++ "_data_out") output
  obtain ⟨hready, h₃⟩ := h₂.newWire (p.1 ++ "_ready") (p'.1 ++ "_ready") 1
  obtain ⟨hrun, h₄⟩ := h₃.newWire (p.1 ++ "_run") (p'.1 ++ "_run") 1
  simp only [hin, hout, hready, hrun]
  exact h₄.addNode ..

theorem simultaneous (h : Alike d d') (a : NodeId) (others : List NodeId) :
    Alike (d.simultaneous a others) (d'.simultaneous a others) :=
  h.modifyNode a fun _ _ hn => congrArg (fun n : Node => { n with simultaneous := n.simultaneous ++ others }) hn

theorem simultaneousAlternatives (h : Alike d d') (a : NodeId) (others : List NodeId) :
    Alike (d.simultaneousAlternatives a others) (d'.simultaneousAlternatives a others) := by
  have h₁ := h.simultaneous a others
  cases others with
  | nil => exact h₁
  | cons first rest =>
    exact h₁.modifyNode first fun _ _ hn => congrArg (fun n : Node => { n with independent := n.independent ++ rest }) hn

end Alike

/-! ### Declarations that may fail -/

open Attempt DesignError

theorem checkWidth_agrees (l : Layout) (what what' : String) (loc loc' : Location) :
    Attempt.Agrees SameKind (fun _ _ => True) (l.checkWidth what loc) (l.checkWidth what' loc') := by
  refine Agrees.bind (R := Eq) (agrees_ofChecked (.refl fun _ => rfl)) fun width _ hw => ?_
  subst hw
  split
  · exact agrees_throw rfl
  · exact agrees_pure trivial

theorem declareMethod_alike (h : Alike d d') {decl decl' : MethodDecl} (hdecl : decl.anonymous = decl'.anonymous)
    (loc loc' : Location) : Attempt.Agrees SameKind (fun p p' => p.1 = p'.1 ∧ Alike p.2 p'.2)
      (d.declareMethod decl loc) (d'.declareMethod decl' loc') := by
  have hin : decl.anonymous.input = decl'.anonymous.input := by rw [hdecl]
  have hout : decl.anonymous.output = decl'.anonymous.output := by rw [hdecl]
  unfold Design.declareMethod
  rw [show decl.input = decl'.input from hin, show decl.output = decl'.output from hout]
  refine (checkWidth_agrees ..).bind fun _ _ _ => (checkWidth_agrees ..).bind fun _ _ _ => agrees_pure ?_
  exact h.addMethod hdecl loc loc'

end Design

end Interlock
