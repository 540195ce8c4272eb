/-! Directed graphs on numbered nodes with a label on each edge. Nodes and edges keep the order in
which they were first added. -/

namespace Interlock

structure Digraph (β : Type) where
  nodes : List Nat := []
  edges : List (Nat × Nat × β) := []
deriving Repr

namespace Digraph

variable {β : Type}

instance : Inhabited (Digraph β) := ⟨{}⟩

def addNode (g : Digraph β) (n : Nat) : Digraph β :=
  if n ∈ g.nodes then g else { g with nodes := g.nodes ++ [n] }

def ofNodes (nodes : List Nat) : Digraph β := nodes.foldl addNode {}

def hasEdge (g : Digraph β) (a b : Nat) : Bool := g.edges.any fun e => e.1 == a && e.2.1 == b

/-- Adds an edge; one that is there already keeps its place and takes the new label. -/
def addEdge (g : Digraph β) (a b : Nat) (label : β) : Digraph β :=
  let g := (g.addNode a).addNode b
  if g.hasEdge a b then
    { g with edges := g.edges.map fun e => if e.1 == a && e.2.1 == b then (a, b, label) else e }
  else { g with edges := g.edges ++ [(a, b, label)] }

/-- The nodes that `n` has an edge to. -/
def successors (g : Digraph β) (n : Nat) : List Nat :=
  g.edges.filterMap fun e => if e.1 = n then some e.2.1 else none

/-- The nodes that have an edge to `n`. -/
def predecessors (g : Digraph β) (n : Nat) : List Nat :=
  g.edges.filterMap fun e => if e.2.1 = n then some e.1 else none

end Digraph

/-- A depth-first walk under way: the nodes it has met, and those it has left, the last one first. -/
structure Walk where
  seen : List Nat := []
  left : List Nat := []
deriving Repr

/-- Continues a walk into `n`, with the neighbours of each node in the order given. Each call meets
a new node, so `fuel` need not exceed the number of nodes. -/
def Walk.enter (next : Nat → List Nat) : Nat → Walk → Nat → Walk
  | 0, w, _ => w
  | fuel + 1, w, n =>
    if n ∈ w.seen then w
    else
      let w := (next n).foldl (Walk.enter next fuel) { w with seen := n :: w.seen }
      { w with left := n :: w.left }

namespace Digraph

variable {β : Type}

/-- The walk that starts from every node in turn. -/
def walk (g : Digraph β) (next : Nat → List Nat) : Walk :=
  g.nodes.foldl (Walk.enter next g.nodes.length) {}

/-- Every node that can be reached from `n`, itself included. -/
def reachable (g : Digraph β) (n : Nat) : List Nat :=
  (Walk.enter g.successors g.nodes.length {} n).seen

/-- Every node from which `n` can be reached, itself included. -/
def reaching (g : Digraph β) (n : Nat) : List Nat :=
  (Walk.enter g.predecessors g.nodes.length {} n).seen

/-- The nodes that `n` reaches and that reach `n`. -/
def component (g : Digraph β) (n : Nat) : List Nat :=
  let back := g.reaching n
  (g.reachable n).filter (· ∈ back)

/-- The strongly connected components, each where a depth-first walk leaves the last of its
members. -/
def components (g : Digraph β) : List (List Nat) :=
  let order := (g.walk g.successors).left.reverse
  order.filterMap fun n =>
    let members := g.component n
    if members.all fun m => order.idxOf m ≤ order.idxOf n then some members else none

end Digraph

end Interlock
