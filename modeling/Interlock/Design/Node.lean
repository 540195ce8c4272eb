import Interlock.Combiner
import Interlock.ControlPath
import Interlock.Layout

/-! Transactions and methods. Both have a body that calls methods; a transaction starts on its own,
a method runs where it is called. -/

namespace Interlock

/-- Transactions and methods are named by the order of their declaration. -/
abbrev NodeId := Nat

inductive Priority where
  | undefined | left | right
deriving DecidableEq, Repr

/-- A wish about two nodes: that they never run in one cycle, that one goes first, or both. -/
structure Relation where
  source : NodeId
  target : NodeId
  /-- `left` prefers the source, `right` the target. -/
  priority : Priority
  conflict : Bool
  /-- Leaves the order of definition unchecked. -/
  silenced : Bool
  loc : Location
deriving DecidableEq, Repr

/-- One call in a body. -/
structure CallSite where
  path : ControlPath
  /-- The argument, at the width of the method's input. -/
  arg : Expr
  /-- A single bit that includes the conditions around the call. -/
  enable : Expr
  loc : Location
deriving DecidableEq, Repr

/-- A check on the arguments of every call of a method. -/
structure Validator where
  check : Expr → Except Fault Expr

namespace Validator

/-- The single bit that must hold for a call with this argument. -/
def validate (v : Validator) (arg : Expr) : Except Fault Expr := do
  Expr.Checked.anyBit (← v.check arg)

def render (_ : Validator) : String := "Validator(..)"

end Validator

/-- The control signals of a transaction. -/
structure TransactionInfo where
  /-- Its body wants it to run. -/
  request : SignalId
  /-- Every method it reaches is ready. -/
  runnable : SignalId
  /-- It runs in this cycle. -/
  grant : SignalId
deriving DecidableEq, Repr

/-- The shape and signals of a method. -/
structure MethodInfo where
  input : Layout
  output : Layout
  /-- It may be called. -/
  ready : SignalId
  /-- It runs in this cycle. -/
  run : SignalId
  dataIn : Option SignalId
  dataOut : Option SignalId
  /-- Several callers may call it in one cycle. -/
  nonexclusive : Bool
  /-- Only one node may call it. -/
  singleCaller : Bool
  combiner : Option Combiner
  validator : Option Validator := none
  /-- The signals of the transaction that it was, if it was one. -/
  fusedFrom : Option TransactionInfo := none

inductive NodeKind where
  | transaction (info : TransactionInfo)
  | method (info : MethodInfo)

structure Node where
  id : NodeId
  name : String
  loc : Location
  /-- The position of its body among all bodies. -/
  defOrder : Option Nat := none
  defLoc : Option Location := none
  /-- The path at which its body was opened. -/
  path : Option ControlPath := none
  /-- Nodes that have to run in the same cycles. -/
  simultaneous : List NodeId := []
  /-- Nodes that must not be fused with this one or with one another. -/
  independent : List NodeId := []
  /-- The methods it calls, in the order of the first call, each with its call sites. -/
  calls : List (NodeId × List CallSite) := []
  kind : NodeKind

namespace Node

/-- Stands for a node that does not exist. -/
def absent : Node :=
  { id := 0, name := "", loc := .generated, kind := .transaction ⟨0, 0, 0⟩ }

instance : Inhabited Node := ⟨absent⟩

def method? (n : Node) : Option MethodInfo :=
  match n.kind with
  | .method info => some info
  | .transaction _ => none

def transaction? (n : Node) : Option TransactionInfo :=
  match n.kind with
  | .transaction info => some info
  | .method _ => none

def isTransaction (n : Node) : Bool := n.transaction?.isSome

def isDefined (n : Node) : Bool := n.defOrder.isSome

def isNonexclusive (n : Node) : Bool := n.method?.any (·.nonexclusive)

/-- The signal that is one while the body runs. -/
def activator (n : Node) : SignalId :=
  match n.kind with
  | .transaction info => info.grant
  | .method info => info.run

/-- Where the body calls a method. -/
def sitesTo (n : Node) (callee : NodeId) : List CallSite := (n.calls.lookup callee).getD []

end Node

end Interlock
