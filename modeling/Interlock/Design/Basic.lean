import Interlock.Config.Basic
import Interlock.Design.Node
import Interlock.Names
import Interlock.Netlist.Basic

/-! A design while it is described: its transactions, methods and relations, the signals of the
netlist to be, and the assignments recorded so far. Names of nodes and names of signals are kept
distinct, each among themselves. -/

namespace Interlock

/-- An assignment that takes effect where its guard holds. -/
structure GuardedAssign where
  target : SignalId
  guard : Expr
  value : Expr
  domain : Domain
deriving DecidableEq, Repr

/-- What a method is declared to be. -/
structure MethodDecl where
  name : String := ""
  input : Layout := .empty
  output : Layout := .empty
  nonexclusive : Bool := false
  singleCaller : Bool := false
  combiner : Option Combiner := none

structure Design where
  config : Config := {}
  nodes : Arena Node := {}
  relations : List Relation := []
  names : Names := {}
  signalNames : Names := {}
  netlist : Netlist := ⟨"top", {}, [], []⟩
  /-- In the order of recording: a later assignment to a signal overrides an earlier one. -/
  assigns : List GuardedAssign := []
  nextDefOrder : Nat := 0
  nextModule : ModuleId := 0

instance : Inhabited Design := ⟨{}⟩

namespace Design

def node (d : Design) (id : NodeId) : Node := (d.nodes.get? id).getD .absent

def name (d : Design) (id : NodeId) : String := (d.node id).name

def nodeList (d : Design) : List Node := d.nodes.toList

/-- The current transactions, in the order of declaration. -/
def transactions (d : Design) : List NodeId :=
  (d.nodeList.filter (·.isTransaction)).map (·.id)

def modifyNode (d : Design) (id : NodeId) (f : Node → Node) : Design :=
  { d with nodes := d.nodes.modify id f }

/-- Creates a signal under a name that is not taken yet. -/
def newSignal (d : Design) (base : String) (width : Nat) (kind : SignalKind) (init : Word) :
    SignalId × Design :=
  let name := d.signalNames.freshName (d.config.namePrefix ++ base)
  let (id, netlist) := d.netlist.addSignal name width kind init
  (id, { d with signalNames := (d.signalNames.intern name).2, netlist })

def newWire (d : Design) (base : String) (width : Nat) : SignalId × Design :=
  d.newSignal base width .wire 0

/-- Takes a name for a node that is not taken yet. -/
def newName (d : Design) (base : String) : String × Design :=
  let name := d.names.freshName base
  (name, { d with names := (d.names.intern name).2 })

def addNode (d : Design) (name : String) (loc : Location) (kind : NodeKind) : NodeId × Design :=
  let (id, nodes) := d.nodes.allocWith fun id => { id, name, loc, kind }
  (id, { d with nodes })

/-- The three control signals of a transaction. -/
def newTransactionInfo (d : Design) (name : String) : TransactionInfo × Design :=
  let (request, d) := d.newWire (name ++ "_request") 1
  let (runnable, d) := d.newWire (name ++ "_runnable") 1
  let (grant, d) := d.newWire (name ++ "_grant") 1
  (⟨request, runnable, grant⟩, d)

def nameOr (name base : String) : String := if name = "" then base else name

/-- Declares a transaction; without a name it gets one of its own. -/
def declareTransaction (d : Design) (name : String) (loc : Location) : NodeId × Design :=
  let (name, d) := d.newName (nameOr name "transaction")
  let (info, d) := d.newTransactionInfo name
  d.addNode name loc (.transaction info)

/-- The wire that carries a value of a layout; none for an empty layout. -/
def newBus (d : Design) (name : String) (l : Layout) : Option SignalId × Design :=
  if l.isEmpty then (none, d)
  else
    let (id, d) := d.newWire name l.width
    (some id, d)

/-- Declares a method whose layouts fit. -/
def addMethod (d : Design) (decl : MethodDecl) (loc : Location) : NodeId × Design :=
  let (name, d) := d.newName (nameOr decl.name "method")
  let (dataIn, d) := d.newBus (name ++ "_data_in") decl.input
  let (dataOut, d) := d.newBus (name ++ "_data_out") decl.output
  let (ready, d) := d.newWire (name ++ "_ready") 1
  let (run, d) := d.newWire (name ++ "_run") 1
  d.addNode name loc <| .method
    { input := decl.input, output := decl.output, ready, run, dataIn, dataOut
      nonexclusive := decl.nonexclusive, singleCaller := decl.singleCaller
      combiner := decl.combiner }

/-- Declares a method; without a name it gets one of its own. -/
def declareMethod (d : Design) (decl : MethodDecl) (loc : Location) :
    Attempt DesignError (NodeId × Design) := do
  let base := nameOr decl.name "method"
  decl.input.checkWidth ("input of `" ++ base ++ "`") loc
  decl.output.checkWidth ("output of `" ++ base ++ "`") loc
  return d.addMethod decl loc

def relate (d : Design) (r : Relation) : Design := { d with relations := d.relations ++ [r] }

/-- Forbids two nodes to run in one cycle. -/
def addConflict (d : Design) (a b : NodeId) (priority : Priority) (loc : Location) : Design :=
  d.relate ⟨a, b, priority, true, false, loc⟩

/-- Prefers `a` where both could run. -/
def scheduleBefore (d : Design) (a b : NodeId) (silenced : Bool) (loc : Location) : Design :=
  d.relate ⟨a, b, .left, false, silenced, loc⟩

/-- Requires `a` to run exactly in the cycles in which all others run. -/
def simultaneous (d : Design) (a : NodeId) (others : List NodeId) : Design :=
  d.modifyNode a fun n => { n with simultaneous := n.simultaneous ++ others }

/-- Requires `a` to run together with one of the others, never with two. -/
def simultaneousAlternatives (d : Design) (a : NodeId) (others : List NodeId) : Design :=
  let d := d.simultaneous a others
  match others with
  | [] => d
  | first :: rest => d.modifyNode first fun n => { n with independent := n.independent ++ rest }

def read (d : Design) (id : SignalId) : Expr := d.netlist.read id

/-- One of the control signals of a transaction, also after it has been fused. -/
def transactionSignal (d : Design) (t : NodeId) (pick : TransactionInfo → SignalId) : Expr :=
  match (d.node t).kind with
  | .transaction info => d.read (pick info)
  | .method info =>
    match info.fusedFrom with
    | some origin => d.read (pick origin)
    | none => .zero 1

/-- One of the signals of a method; zero bits for a bus that it does not have. -/
def methodSignal (d : Design) (m : NodeId) (pick : MethodInfo → Option SignalId) : Expr :=
  match (d.node m).method?.bind pick with
  | some id => d.read id
  | none => .zero 0

def ready (d : Design) (m : NodeId) : Expr := d.methodSignal m fun info => some info.ready

def dataIn (d : Design) (m : NodeId) : Expr := d.methodSignal m (·.dataIn)

def dataOut (d : Design) (m : NodeId) : Expr := d.methodSignal m (·.dataOut)

def assign (d : Design) (a : GuardedAssign) : Design := { d with assigns := d.assigns ++ [a] }

/-- Drives a wire in every cycle. -/
def drive (d : Design) (target : SignalId) (value : Expr) : Design :=
  d.assign ⟨target, .one, value, .comb⟩

def newModule (d : Design) : ModuleId × Design :=
  (d.nextModule, { d with nextModule := d.nextModule + 1 })

end Design

end Interlock
