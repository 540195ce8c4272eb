import Interlock.Design.Basic

/-! The methods that each transaction reaches through its calls, the callers in between, and the
condition under which each method may be called on behalf of the transaction. Arguments replace the
argument buses of the callers in between, so that the condition speaks of the transaction's side
alone. -/

namespace Interlock

/-- A method that a transaction reaches. -/
structure Reach where
  transaction : NodeId
  method : NodeId
  /-- The methods in between, the direct caller first; empty for a call by the transaction. -/
  callers : List NodeId
  readiness : Expr
deriving DecidableEq, Repr

/-- The reached methods of all transactions, each where it is first met. -/
structure CallMap where
  reaches : List Reach := []
deriving DecidableEq, Repr

/-- What the argument buses of the callers stand for. -/
abbrev Bindings := List (SignalId × Expr)

namespace Design

/-- The nodes whose bodies call a method. -/
def callersOf (d : Design) (m : NodeId) : List NodeId :=
  (d.nodeList.filter fun n => n.calls.any fun c => c.1 == m).map (·.id)

end Design

namespace CallMap

def find? (map : CallMap) (t m : NodeId) : Option Reach :=
  map.reaches.find? fun r => r.transaction == t && r.method == m

/-- The methods that a transaction reaches. -/
def methodsOf (map : CallMap) (t : NodeId) : List NodeId :=
  (map.reaches.filter fun r => r.transaction == t).map (·.method)

/-- The transactions that reach a method. -/
def transactionsOf (map : CallMap) (m : NodeId) : List NodeId :=
  (map.reaches.filter fun r => r.method == m).map (·.transaction)

def isReached (map : CallMap) (m : NodeId) : Bool := map.reaches.any fun r => r.method == m

/-- A method and the methods through which a transaction reaches it, from the inside out. -/
def ancestors (map : CallMap) (t m : NodeId) : List NodeId :=
  match map.find? t m with
  | some r => m :: r.callers
  | none => []

/-- A transaction stands for itself, a method for the transactions that reach it. -/
def standsFor (map : CallMap) (d : Design) (id : NodeId) : List NodeId :=
  if (d.node id).isTransaction then [id] else map.transactionsOf id

/-- Where two ways from `caller` to the method `m` part, outermost methods first: the last caller
that both share, and what it calls on each of them. -/
def fork (m : NodeId) : NodeId → List NodeId → List NodeId → NodeId × NodeId × NodeId
  | caller, a :: as, b :: bs => if a = b then fork m a as bs else (caller, a, b)
  | caller, a :: _, [] => (caller, a, m)
  | caller, [], b :: _ => (caller, m, b)
  | caller, [], [] => (caller, m, m)

/-- The first two sites that may be active in one cycle. -/
def clash? (first second : List CallSite) : Option (CallSite × CallSite) :=
  first.findSome? fun a => (second.find? fun b => !a.path.exclusiveWith b.path).map (a, ·)

/-- Lets a transaction reach an exclusive method twice only where the two ways part on calls that
exclude each other. -/
def checkSecond (d : Design) (r : Reach) (callers : List NodeId) : Except DesignError Unit :=
  if (d.node r.method).isNonexclusive then .ok ()
  else
    let (parent, first, second) := fork r.method r.transaction r.callers.reverse callers.reverse
    let parent := d.node parent
    match clash? (parent.sitesTo first) (parent.sitesTo second) with
    | some (a, b) => .error (.duplicateCall (d.name r.transaction) (d.name r.method) b.loc a.loc)
    | none => .ok ()

/-- Adds a reached method; one that has been reached before needs both conditions. -/
def add (map : CallMap) (d : Design) (r : Reach) : Except DesignError CallMap :=
  match map.find? r.transaction r.method with
  | none => .ok ⟨map.reaches ++ [r]⟩
  | some prev => do
    checkSecond d prev r.callers
    return ⟨map.reaches.map fun x =>
      if x.transaction = r.transaction ∧ x.method = r.method then
        { x with readiness := x.readiness.and r.readiness }
      else x⟩

/-- The enable and the argument of a call, in terms of the transaction's side. -/
def effective (env : Bindings) (s : CallSite) : Expr × Expr :=
  (s.enable.substitute (fun i => env.lookup i), s.arg.substitute (fun i => env.lookup i))

/-- The method is ready, and every call that is made passes an argument that its validator
accepts. -/
def readiness (ready : Expr) (validator : Option Validator) (calls : List (Expr × Expr)) :
    Except Fault Expr :=
  match validator with
  | none => .ok ready
  | some v => calls.foldlM (fun acc (enable, arg) => do
      return acc.and (enable.not.or (← v.validate arg))) ready

/-- The argument that a method gets from one caller. Of several calls at most one is made. -/
def mergeArgs (width : Nat) : List (Expr × Expr) → Expr
  | [(_, arg)] => arg
  | calls => calls.foldl (fun acc (enable, arg) => acc.or (.select enable arg (.zero width)))
      (.zero width)

/-- The names on a chain of calls that comes back to `m`. -/
def loopNames (d : Design) (m : NodeId) (callers : List NodeId) : List String :=
  (m :: (callers.takeWhile (· ≠ m)).reverse ++ [m]).map d.name

/-- Adds everything that the last caller reaches. No method calls itself, so `fuel` need not exceed
the number of nodes by more than one. -/
def visit (d : Design) (t : NodeId) :
    Nat → List NodeId → Bindings → CallMap → Attempt DesignError CallMap
  | 0, _, _, map => return map
  | fuel + 1, callers, env, map =>
    (d.node (callers.headD t)).calls.foldlM (fun map (m, sites) => do
      let callee := d.node m
      if m ∈ callers then
        throw (.methodRecursion callee.name (loopNames d m callers) callee.loc)
      match callee.method? with
      | none => return map
      | some info =>
        let calls := sites.map (effective env)
        let condition ← Attempt.ofChecked (readiness (d.read info.ready) info.validator calls)
        let map ← Attempt.ofExcept (map.add d ⟨t, m, callers, condition⟩)
        let env := match info.dataIn with
          | some bus => (bus, mergeArgs info.input.width calls) :: env
          | none => env
        visit d t fuel (m :: callers) env map) map

/-- The reached methods of every current transaction. -/
def build (d : Design) : Attempt DesignError CallMap :=
  d.transactions.foldlM (fun map t => visit d t (d.nodes.size + 1) [] [] map) {}

end CallMap

namespace Design

/-- What a declared method must keep to: it has a body, a single caller if it says so, and a way to
merge arguments if several callers may bring some. -/
def checkMethod (d : Design) (n : Node) : Except DesignError Unit :=
  match n.method? with
  | none => .ok ()
  | some info => do
    if !n.isDefined then throw (.undefinedMethod n.name n.loc)
    let callers := d.callersOf n.id
    if info.singleCaller && 1 < callers.length then
      throw (.singleCallerViolated n.name (callers.map d.name) n.loc)
    if info.nonexclusive && !info.input.isEmpty && info.combiner.isNone then
      throw (.missingCombiner n.name n.loc)

def checkMethods (d : Design) : Except DesignError Unit := d.nodeList.forM d.checkMethod

end Design

end Interlock
