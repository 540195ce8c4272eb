import Interlock.Reach

/-! Transactions that have to run in the same cycles. They are collected into groups, and each group
becomes one new transaction that calls its members, which turn into methods: they are ready where
they requested to run, and run where they were granted. -/

namespace Interlock

/-- A group of transactions, in ascending order. -/
abbrev Group := List NodeId

namespace Group

def insert (x : NodeId) : Group → Group
  | [] => [x]
  | y :: ys => if x < y then x :: y :: ys else if x = y then y :: ys else y :: insert x ys

def union (g h : Group) : Group := h.foldl (fun g x => insert x g) g

def disjoint (g h : Group) : Bool := !g.any (· ∈ h)

def subset (g h : Group) : Bool := g.all (· ∈ h)

end Group

/-- All pairs of an earlier and a later member. -/
def allPairs : List α → List (α × α)
  | [] => []
  | x :: xs => xs.map (x, ·) ++ allPairs xs

/-- Pairs of transactions that must not be fused. -/
structure Independence where
  /-- By the wish of the design. -/
  declared : List (NodeId × NodeId)
  /-- Because they reach the same exclusive method. -/
  derived : List (NodeId × NodeId)

namespace Independence

def declaredBy (d : Design) (map : CallMap) (n : Node) : List (NodeId × NodeId) :=
  if n.independent.isEmpty then []
  else allPairs ((n.id :: n.independent).flatMap (map.standsFor d))

def derivedBy (map : CallMap) (n : Node) : List (NodeId × NodeId) :=
  match n.method? with
  | some info => if info.nonexclusive then [] else allPairs (map.transactionsOf n.id)
  | none => []

def collect (d : Design) (map : CallMap) : Independence :=
  ⟨d.nodeList.flatMap (declaredBy d map), d.nodeList.flatMap (derivedBy map)⟩

def holds (pairs : List (NodeId × NodeId)) (a b : NodeId) : Bool :=
  pairs.any fun p => p == (a, b) || p == (b, a)

def separates (i : Independence) (g : Group) : Bool :=
  (allPairs g).any fun (a, b) => holds i.declared a b || holds i.derived a b

end Independence

/-- Drops the orderings, other than conflicts, between nodes that have to run together. -/
def Design.pruneOrderings (d : Design) : Design :=
  { d with
    relations := d.relations.filter fun r =>
      r.conflict || !((d.node r.source).simultaneous.contains r.target
        || (d.node r.target).simultaneous.contains r.source) }

namespace Fusion

/-- Adds the pair of two transactions that the declaration of `n` asks for. -/
def addPair (d : Design) (i : Independence) (n : Node) (pairs : List Group) (a b : NodeId) :
    Except DesignError (List Group) :=
  if a = b then .ok pairs
  else if Independence.holds i.declared a b then
    .error (.independenceViolatesSimultaneity (d.name a) (d.name b) n.loc)
  else if Independence.holds i.derived a b then
    .error (.unsatisfiableSimultaneity (d.name a) (d.name b)
      "they call the same exclusive method" n.loc)
  else
    let pair := Group.insert b [a]
    .ok (if pair ∈ pairs then pairs else pairs ++ [pair])

/-- Adds the pairs that the simultaneity of `n` and `other` asks for. -/
def addPairs (d : Design) (map : CallMap) (i : Independence) (n : Node) (pairs : List Group)
    (other : NodeId) : Except DesignError (List Group) :=
  let first := map.standsFor d n.id
  let second := map.standsFor d other
  if first.isEmpty || second.isEmpty then
    let missing := if first.isEmpty then n.id else other
    .error (.unsatisfiableSimultaneity n.name (d.name other)
      ("`" ++ d.name missing ++ "` is not reached by any transaction") n.loc)
  else
    first.foldlM (fun pairs a => second.foldlM (fun pairs b => addPair d i n pairs a b) pairs) pairs

/-- The pairs of transactions that have to run together. -/
def pairs (d : Design) (map : CallMap) (i : Independence) : Except DesignError (List Group) :=
  d.nodeList.foldlM (fun ps n => n.simultaneous.foldlM (addPairs d map i n) ps) []

/-- Joins groups with the pairs that share a member with them, first come first served; a group that
independence separates is given up. -/
def close (i : Independence) (pairs : List Group) : Nat → List Group → List Group → List Group
  | 0, _, closed => closed
  | _, [], closed => closed
  | fuel + 1, g :: queue, closed =>
    if g ∈ closed || i.separates g then close i pairs fuel queue closed
    else
      let joined := (pairs.filter fun p => !g.disjoint p && !p.subset g).map g.union
      close i pairs fuel (queue ++ joined) (closed ++ [g])

/-- Enough for every set of members to be closed once and joined with every pair. -/
def closeFuel (pairs : List Group) : Nat :=
  pairs.length * (1 <<< (pairs.foldl Group.union []).length + 1) + 1

/-- Groups that are not part of a larger one. -/
def maximal (groups : List Group) : List Group :=
  groups.filter fun g => !groups.any fun h => h != g && g.subset h

/-- The groups of transactions that have to run together. -/
def groups (d : Design) (map : CallMap) : Except DesignError (List Group) := do
  let i := Independence.collect d map
  let ps ← pairs d map i
  return maximal (close i ps (closeFuel ps) ps [])

/-- A method in place of a transaction, with the same signals. -/
def memberInfo (info : TransactionInfo) : MethodInfo :=
  { input := .empty, output := .empty, ready := info.request, run := info.grant
    dataIn := none, dataOut := none, nonexclusive := false, singleCaller := false
    combiner := none, fusedFrom := some info }

def toMember (n : Node) : Node :=
  match n.kind with
  | .transaction info => { n with kind := .method (memberInfo info) }
  | .method _ => n

/-- A group with the transaction that stands for it. -/
structure FusedGroup where
  transaction : NodeId
  members : Group
deriving DecidableEq, Repr

/-- The call of a member by the transaction of its group. -/
def memberCall (module : ModuleId) (m : NodeId) : NodeId × List CallSite :=
  (m, [⟨⟨module, []⟩, .zero 0, .one, .generated⟩])

/-- Adds the transaction of a group: it always requests to run, calls every member, and comes where
the first of them is defined. -/
def addGroup (d : Design) (members : Group) : FusedGroup × Design :=
  let (name, d) := d.newName ("_".intercalate (members.map d.name))
  let (info, d) := d.newTransactionInfo name
  let d := d.drive info.request .one
  let (module, d) := d.newModule
  let loc := (d.node (members.headD 0)).loc
  let (id, d) := d.addNode name loc (.transaction info)
  let d := d.modifyNode id fun n =>
    { n with
      defOrder := (members.filterMap fun m => (d.node m).defOrder).min?
      defLoc := some loc
      calls := members.map (memberCall module) }
  (⟨id, members⟩, d)

def addGroups (d : Design) : List Group → List FusedGroup × Design
  | [] => ([], d)
  | g :: gs =>
    let (fused, d) := addGroup d g
    let (rest, d) := addGroups d gs
    (fused :: rest, d)

/-- A former transaction is runnable where the transaction of any of its groups is. -/
def driveRunnable (fused : List FusedGroup) (d : Design) (m : NodeId) : Design :=
  match (d.node m).method?.bind (·.fusedFrom) with
  | none => d
  | some origin =>
    let groups := fused.filter fun g => m ∈ g.members
    d.drive origin.runnable (.any (groups.map fun g => d.transactionSignal g.transaction (·.runnable)))

/-- Fuses every group. -/
def fuse (d : Design) (groups : List Group) : List FusedGroup × Design :=
  let members := groups.foldl Group.union []
  let d := members.foldl (fun d m => d.modifyNode m toMember) d
  let (fused, d) := addGroups d groups
  (fused, members.foldl (driveRunnable fused) d)

end Fusion

end Interlock
