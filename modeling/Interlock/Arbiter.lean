import Interlock.Schedule.Basic

/-! The logic that grants transactions. An eager arbiter grants every transaction that wants to run
and conflicts with no earlier grant. A round-robin arbiter grants one transaction at a time; a one-hot
register holds the last one granted, and the search for the next one starts after it. -/

namespace Interlock.Arbiter

def grantOf (d : Design) (t : NodeId) : Expr := d.transactionSignal t (·.grant)

/-- The body requests to run and every method it reaches is ready. -/
def wants (d : Design) (t : NodeId) : Expr :=
  (d.transactionSignal t (·.request)).and (d.transactionSignal t (·.runnable))

/-- Drives the grant of a transaction; an arbiter has no other nodes. -/
def driveGrant (d : Design) (t : NodeId) (value : Expr) : Except DesignError Design :=
  match (d.node t).transaction? with
  | some info => .ok (d.drive info.grant value)
  | none => .error (.internal ("`" ++ d.name t ++ "` is not a transaction"))

/-! ### Eager arbiters -/

/-- The grant of a transaction, given the transactions of its class that come before it. -/
def eagerGrant (d : Design) (s : Schedule) (earlier : List NodeId) (t : NodeId) : Expr :=
  (wants d t).and (Expr.any ((earlier.filter (s.conflict · t)).map (grantOf d))).not

/-- Drives the grants of the transactions that follow the earlier ones. -/
def eager (s : Schedule) : List NodeId → List NodeId → Design → Except DesignError Design
  | _, [], d => .ok d
  | earlier, t :: rest, d => do
    eager s (earlier ++ [t]) rest (← driveGrant d t (eagerGrant d s earlier t))

/-! ### Round-robin arbiters -/

/-- The positions that come after `i` and before `k`, going round. -/
def between (n i k : Nat) : List Nat :=
  ((List.range' 1 (n - 1)).map fun d => (i + d) % n).takeWhile (· ≠ k)

/-- The grant of the member at position `k`: it wants to run, and no member between the last one
granted and itself does. -/
def turnGrant (last : Expr) (wanting : List Expr) (k : Nat) : Expr :=
  let want := fun i => wanting.getD i (.bit false)
  .any ((List.range wanting.length).map fun i =>
    ((last.bits i i).and (want k)).and (Expr.any ((between wanting.length i k).map want)).not)

/-- Drives the grants of a class in turn, and notes who was granted. -/
def roundRobin (index : Nat) (members : List NodeId) (d : Design) : Except DesignError Design :=
  let n := members.length
  if maxWidth < n then
    .error (.tooWide ("round-robin arbiter of conflict component " ++ toString index) n
      (d.node (members.headD 0)).loc)
  else do
    let (last, d) := d.newSignal ("rr" ++ toString index ++ "_last") n .reg (UInt64.ofNat (1 <<< (n - 1)))
    let wanting := members.map (wants d)
    let d ← members.zipIdx.foldlM
      (fun d (t, k) => driveGrant d t (turnGrant (d.read last) wanting k)) d
    let grants := members.map (grantOf d)
    return d.assign ⟨last, .any grants, .join grants, .sync⟩

/-- The arbiter of one class; without a conflict there is nothing to take turns about. -/
def emitClass (s : Schedule) (d : Design) (members : List NodeId) (index : Nat) :
    Except DesignError Design :=
  if 1 < members.length ∧ d.config.scheduler = .roundRobin then roundRobin index members d
  else eager s [] members d

/-- The arbiters of all classes. -/
def emit (s : Schedule) (d : Design) : Except DesignError Design :=
  s.components.zipIdx.foldlM (fun d (members, index) => emitClass s d members index) d

end Interlock.Arbiter
