import Interlock.Digraph.Basic
import Interlock.Fusion

/-! The priority order of the transactions: preferred transactions first, and otherwise in the order
in which their bodies are defined. -/

namespace Interlock

/-- The order of two keys, the first component first. -/
def keyLe (a b : Nat × Nat) : Bool := a.1 < b.1 || (a.1 == b.1 && a.2 ≤ b.2)

/-- The first of the candidates with the least key. -/
def leastBy (key : NodeId → Nat × Nat) : List NodeId → Option NodeId
  | [] => none
  | x :: xs =>
    match leastBy key xs with
    | none => some x
    | some y => if keyLe (key x) (key y) then some x else some y

namespace Design

/-- An ordering that the definitions contradict. -/
def contradicted (d : Design) (r : Relation) : Bool :=
  !r.conflict && !r.silenced && r.priority == .left &&
    match (d.node r.source).defOrder, (d.node r.target).defOrder with
    | some first, some second => second < first
    | _, _ => false

/-- Warns of orderings that the definitions contradict, or refuses them. -/
def checkOrder (d : Design) : Except DesignError (List Diagnostic) :=
  let bad := d.relations.filter d.contradicted
  match d.config.scheduleOrder with
  | .allow => .ok []
  | .warn => .ok (bad.map fun r => scheduleOrderWarning (d.name r.source) (d.name r.target) r.loc)
  | .error =>
    match bad with
    | [] => .ok []
    | r :: _ => .error (.scheduleOrder (d.name r.source) (d.name r.target) r.loc)

/-- The preferred node of a relation, then the other one. -/
def preference (r : Relation) : Option (NodeId × NodeId) :=
  match r.priority with
  | .undefined => none
  | .left => some (r.source, r.target)
  | .right => some (r.target, r.source)

/-- All pairs of a transaction of one list and a different one of the other. -/
def crossPairs (ts us : List NodeId) : List (NodeId × NodeId) :=
  ts.flatMap fun t => (us.filter (t ≠ ·)).map (t, ·)

def addPreference (d : Design) (map : CallMap) (g : Digraph Location) (r : Relation) :
    Digraph Location :=
  match preference r with
  | none => g
  | some (first, second) =>
    (crossPairs (map.standsFor d first) (map.standsFor d second)).foldl
      (fun g (t, u) => g.addEdge t u r.loc) g

/-- An edge from each preferred transaction to the other, with the place of the relation. -/
def priorities (d : Design) (map : CallMap) : Digraph Location :=
  d.relations.foldl (d.addPreference map) (Digraph.ofNodes d.transactions)

/-- The order of two transactions where no relation decides it. -/
def sortKey (d : Design) (t : NodeId) : Nat × Nat :=
  ((d.node t).defOrder.getD (wordLimit - 1), t)

/-- Takes, again and again, the first transaction that nothing left is preferred to; stops where
there is none. -/
def takeInOrder (d : Design) (g : Digraph Location) : Nat → List NodeId → List NodeId
  | 0, _ => []
  | fuel + 1, left =>
    match leastBy d.sortKey (left.filter fun t => (g.predecessors t).all (· ∉ left)) with
    | none => []
    | some t => t :: takeInOrder d g fuel (left.filter (t ≠ ·))

/-- Orders the members of a cycle: those without a body first, then by definition. -/
def cycleKey (d : Design) (t : NodeId) : Nat × Nat :=
  (((d.node t).defOrder.map (· + 1)).getD 0, t)

/-- A cycle of preferences, reported where the first of them was stated. -/
def cycleError (d : Design) (g : Digraph Location) : DesignError :=
  let members := (g.components.find? fun c => 1 < c.length).getD []
  let edge := g.edges.find? fun e => members.contains e.1 && members.contains e.2.1
  .priorityCycle ((members.mergeSort fun a b => keyLe (d.cycleKey a) (d.cycleKey b)).map d.name)
    ((edge.map (·.2.2)).getD .generated)

def priorityOrder (d : Design) (g : Digraph Location) : Except DesignError (List NodeId) :=
  let order := d.takeInOrder g g.nodes.length g.nodes
  if order.length < g.nodes.length then .error (d.cycleError g) else .ok order

end Design

end Interlock
