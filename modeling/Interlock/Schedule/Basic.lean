import Interlock.Schedule.Order

/-! Schedules: the transactions in priority order, the pairs of them that conflict, and the classes
that conflicts link together. Each class gets an arbiter of its own. Two transactions conflict when
they must not be granted in the same cycle: they reach the same exclusive method, or a relation of the
design says so, and their bodies do not exclude each other anyway. -/

namespace Interlock.Design

/-- The paths of the bodies that belong to a transaction. -/
def pathsOf (d : Design) (map : CallMap) (t : NodeId) : List ControlPath :=
  (t :: map.methodsOf t).filterMap fun n => (d.node n).path

/-- Whether the bodies of two transactions are on arms that exclude each other. -/
def staticallyExclusive (d : Design) (map : CallMap) (t u : NodeId) : Bool :=
  (d.pathsOf map t).any fun p => (d.pathsOf map u).any p.exclusiveWith

/-- The last common member of two lists, read from the front as long as they agree. -/
def lastCommon : List NodeId → List NodeId → Option NodeId
  | a :: as, b :: bs => if a = b then some ((lastCommon as bs).getD a) else none
  | _, _ => none

/-- Whether the ways of two transactions to a method join in a method that accepts several callers. -/
def mergesNonexclusive (d : Design) (map : CallMap) (t u m : NodeId) : Bool :=
  (lastCommon (map.ancestors t m) (map.ancestors u m)).any fun x => (d.node x).isNonexclusive

/-- Whether two transactions reach a method that only one of them may run. -/
def sharesMethod (d : Design) (map : CallMap) (t u : NodeId) : Bool :=
  let others := map.methodsOf u
  (map.methodsOf t).any fun m => others.contains m && !d.mergesNonexclusive map t u m

/-- Whether a relation that stands for conflicts joins two transactions. -/
def relatedByConflict (d : Design) (map : CallMap) (t u : NodeId) : Bool :=
  d.relations.any fun r =>
    r.conflict &&
      let first := map.standsFor d r.source
      let second := map.standsFor d r.target
      (first.contains t && second.contains u) || (first.contains u && second.contains t)

def conflicting (d : Design) (map : CallMap) (t u : NodeId) : Bool :=
  t != u && (d.sharesMethod map t u || d.relatedByConflict map t u)
    && !d.staticallyExclusive map t u

end Interlock.Design

namespace Interlock

structure Schedule where
  /-- The transaction with the highest priority first. -/
  order : List NodeId
  /-- Each pair in the order of priority. -/
  conflicts : List (NodeId × NodeId)
  /-- Each class in the order of priority. -/
  components : List (List NodeId)
deriving DecidableEq, Repr

namespace Schedule

def linked (pairs : List (NodeId × NodeId)) (t u : NodeId) : Bool :=
  pairs.contains (t, u) || pairs.contains (u, t)

def conflict (s : Schedule) (t u : NodeId) : Bool := linked s.conflicts t u

/-- The transactions to which conflicts lead from `t`. -/
def classOf (pairs : List (NodeId × NodeId)) (order : List NodeId) (t : NodeId) : List NodeId :=
  let found := (Walk.enter (fun t => order.filter (linked pairs t)) order.length {} t).seen
  order.filter (· ∈ found)

/-- The class of the first transaction left, then those of what it leaves over. -/
def split (pairs : List (NodeId × NodeId)) (order : List NodeId) :
    Nat → List NodeId → List (List NodeId)
  | fuel + 1, t :: left =>
    let members := classOf pairs order t
    members :: split pairs order fuel (left.filter (· ∉ members))
  | _, _ => []

/-- The classes that conflicts link together, in the order of their first members. -/
def classes (pairs : List (NodeId × NodeId)) (order : List NodeId) : List (List NodeId) :=
  split pairs order order.length order

def ofOrder (d : Design) (map : CallMap) (order : List NodeId) : Schedule :=
  let conflicts := (allPairs order).filter fun (t, u) => d.conflicting map t u
  ⟨order, conflicts, classes conflicts order⟩

end Schedule

end Interlock
