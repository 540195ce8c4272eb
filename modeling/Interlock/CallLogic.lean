import Interlock.Reach

/-! The logic between callers and methods: a method runs where a caller runs and its call is enabled,
gets the argument of that call, and a transaction is runnable where every method it reaches may be
called. -/

namespace Interlock.CallLogic

/-- A call of a method: where it is made, and with which argument. -/
structure ActiveCall where
  active : Expr
  arg : Expr
deriving DecidableEq, Repr

/-- The calls of a method in one body. -/
def callsFrom (d : Design) (m caller : NodeId) : List ActiveCall :=
  let n := d.node caller
  (n.sitesTo m).map fun s => ⟨(d.read n.activator).and s.enable, s.arg⟩

/-- Whether a caller can run at all. -/
def isLive (d : Design) (map : CallMap) (caller : NodeId) : Bool :=
  (d.node caller).isTransaction || map.isReached caller

/-- The calls of a method in all bodies that can run. -/
def callsTo (d : Design) (map : CallMap) (m : NodeId) : List ActiveCall :=
  ((d.callersOf m).filter (isLive d map)).flatMap (callsFrom d m)

/-- The OR of the arguments of the active calls. -/
def mergeActive (width : Nat) (calls : List ActiveCall) : Expr :=
  calls.foldl (fun acc c => acc.or (.select c.active c.arg (.zero width))) (.zero width)

/-- The argument that a method gets. Several calls of an exclusive method are never active in one
cycle. -/
def argument (info : MethodInfo) (calls : List ActiveCall) : Except Fault Expr :=
  let width := info.input.width
  if info.nonexclusive then do
    let merged ← (info.combiner.getD .lowestActive).combineChecked
      (calls.map (·.arg)) (calls.map (·.active))
    Expr.Checked.resize merged width
  else
    match calls with
    | [c] => .ok c.arg
    | _ => .ok (mergeActive width calls)

/-- Drives `run` and the argument bus of a method. -/
def driveMethod (map : CallMap) (d : Design) (n : Node) : Except Fault Design :=
  match n.method? with
  | none => .ok d
  | some info => do
    let calls := callsTo d map n.id
    let d := d.drive info.run (.any (calls.map (·.active)))
    match info.dataIn with
    | none => return d
    | some bus => return d.drive bus (← argument info calls)

/-- The condition under which a transaction may call a method that it reaches. -/
def conditionOf (map : CallMap) (d : Design) (t m : NodeId) : Except DesignError Expr :=
  match map.find? t m with
  | some r => .ok r.readiness
  | none => .error (.internal ("no readiness for `" ++ d.name m ++ "` in `" ++ d.name t ++ "`"))

/-- Drives `runnable` of a transaction. -/
def driveTransaction (map : CallMap) (d : Design) (n : Node) : Except DesignError Design :=
  match n.transaction? with
  | none => .ok d
  | some info => do
    return d.drive info.runnable (.all (← (map.methodsOf n.id).mapM (conditionOf map d n.id)))

/-- Methods first, then transactions. -/
def emit (map : CallMap) (d : Design) : Attempt DesignError Design := do
  let nodes := d.nodeList
  let d ← Attempt.ofChecked (nodes.foldlM (driveMethod map) d)
  Attempt.ofExcept (nodes.foldlM (driveTransaction map) d)

end Interlock.CallLogic
