import Interlock.Schedule.Basic

/-! What an elaborated design looks like from outside: the schedule by names, the fused groups, and
for each node its role and the names of its signals. -/

namespace Interlock

inductive Role where
  | transaction
  | method
  /-- A transaction that has become part of a group. -/
  | fused
deriving DecidableEq, Repr

namespace Role

/-- The role as reports write it. -/
def word : Role → String
  | transaction => "transaction"
  | method => "method"
  | fused => "fused"

def name : Role → String
  | transaction => "Transaction"
  | method => "Method"
  | fused => "Fused"

end Role

structure NodeReport where
  name : String
  role : Role
  defOrder : Option Nat
  loc : Location
  /-- The name of each signal by what the signal is for. -/
  signals : List (String × String)
deriving DecidableEq, Repr

structure FusedReport where
  transaction : String
  members : List String
deriving DecidableEq, Repr

structure ScheduleReport where
  order : List String
  conflicts : List (String × String)
  components : List (List String)
  fused : List FusedReport
  nodes : List NodeReport
deriving DecidableEq, Repr

namespace Node

def role (n : Node) : Role :=
  match n.method? with
  | none => .transaction
  | some info => if info.fusedFrom.isSome then .fused else .method

/-- The signals of a node by what they are for, in the order of the words. -/
def ports (n : Node) : List (String × SignalId) :=
  match n.kind with
  | .transaction info =>
    [("grant", info.grant), ("request", info.request), ("runnable", info.runnable)]
  | .method info =>
    (info.dataIn.toList.map fun id => ("data_in", id))
      ++ (info.dataOut.toList.map fun id => ("data_out", id))
      ++ [("ready", info.ready), ("run", info.run)]
      ++ (info.fusedFrom.toList.map fun origin => ("runnable", origin.runnable))

end Node

namespace ScheduleReport

def ofNode (d : Design) (n : Node) : NodeReport :=
  { name := n.name, role := n.role, defOrder := n.defOrder, loc := n.loc
    signals := n.ports.map fun (port, id) =>
      (port, ((d.netlist.signals.get? id).map (·.name)).getD "") }

def ofSchedule (d : Design) (s : Schedule) (groups : List Fusion.FusedGroup) : ScheduleReport :=
  { order := s.order.map d.name
    conflicts := s.conflicts.map fun (t, u) => (d.name t, d.name u)
    components := s.components.map (·.map d.name)
    fused := groups.map fun g => ⟨d.name g.transaction, g.members.map d.name⟩
    nodes := d.nodeList.map (ofNode d) }

/-- The position of a transaction in the order of priority. -/
def position? (r : ScheduleReport) (t : String) : Option Nat := r.order.idxOf? t

def conflict (r : ScheduleReport) (t u : String) : Bool :=
  r.conflicts.any fun p => p == (t, u) || p == (u, t)

/-- The position of the class of a transaction. -/
def componentOf? (r : ScheduleReport) (t : String) : Option Nat :=
  r.components.findIdx? (·.contains t)

def node? (r : ScheduleReport) (name : String) : Option NodeReport :=
  r.nodes.find? fun n => n.name == name

/-- The name of a signal of a node. -/
def signal? (r : ScheduleReport) (node port : String) : Option String :=
  (r.node? node).bind fun n => n.signals.lookup port

end ScheduleReport

end Interlock
