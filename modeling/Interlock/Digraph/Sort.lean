import Interlock.Digraph.Basic

/-! Topological order. A depth-first walk that takes successors last first gives the order of the
nodes; a second pass checks it and names a node on a cycle. -/

namespace Interlock.Digraph

variable {β : Type}

/-- Continues a walk into `n`, its successors taken last first; stops at a node with an edge to
itself. -/
def descend (g : Digraph β) : Nat → Walk → Nat → Except Nat Walk
  | 0, w, _ => .ok w
  | fuel + 1, w, n =>
    if n ∈ w.seen then .ok w
    else if g.hasEdge n n then .error n
    else do
      let w ← (g.successors n).reverse.foldlM (descend g fuel) { w with seen := n :: w.seen }
      return { w with left := n :: w.left }

/-- Checks that each node of the list comes after its predecessors; otherwise names the last of the
predecessors that are missing. -/
def checkOrder (g : Digraph β) (seen : List Nat) : List Nat → Except Nat Unit
  | [] => .ok ()
  | n :: rest =>
    let seen := n :: seen
    match ((g.predecessors n).filter fun p => p ∉ seen).getLast? with
    | some p => .error p
    | none => checkOrder g seen rest

/-- The nodes with every edge pointing forward, or a node that lies on a cycle. -/
def topologicalOrder (g : Digraph β) : Except Nat (List Nat) := do
  let w ← g.nodes.foldlM (g.descend g.nodes.length) {}
  g.checkOrder [] w.left
  return w.left

end Interlock.Digraph
