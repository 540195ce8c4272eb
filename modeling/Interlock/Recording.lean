import Interlock.Design.Basic

/-! Recording the text of a module: its signals, guarded assignments, conditional arms, bodies and
calls. Each operation here either fails and gives no new state, or takes one step; what runs inside
an arm or body is up to the caller, who also leaves it again. -/

namespace Interlock

/-- A signal of a module. -/
structure Sig where
  id : SignalId
  width : Nat
  kind : SignalKind
deriving DecidableEq, Repr

def Sig.expr (s : Sig) : Expr := .signal s.id s.width

/-- The body that is open, and the signal that is one while it runs. -/
structure BodyFrame where
  node : NodeId
  activator : Expr
deriving DecidableEq, Repr

/-- A state machine: its states by their position, its state register, and the chain and the path of
its arms. -/
structure Machine where
  name : String
  states : List String
  state : Sig
  chain : Nat
  path : ControlPath
deriving DecidableEq, Repr

/-- A design together with the place in a module where recording goes on. -/
structure Recording where
  design : Design
  module : ModuleId
  /-- Goes in front of the names of the module's signals. -/
  scope : String
  path : PathBuilder
  /-- The conditions of the arms entered, innermost first. -/
  conds : List Expr := []
  body : Option BodyFrame := none

namespace Machine

def index (m : Machine) (state : String) (loc : Location) : Except DesignError Nat :=
  match m.states.idxOf? state with
  | some i => .ok i
  | none => .error (.usage ("state machine `" ++ m.name ++ "` has no state `" ++ state ++ "`") loc)

/-- Holds while the register has the value of the state at this position. -/
def inState (m : Machine) (index : Nat) : Expr :=
  .equals m.state.expr (.constant (UInt64.ofNat index) m.state.width)

/-- Holds while the machine is in a state. -/
def ongoing (m : Machine) (state : String) (loc : Location) : Except DesignError Expr := do
  return m.inState (← m.index state loc)

/-- The least width that holds the position of every state, and at least one bit. -/
def widthFor (states : Nat) : Nat := max (if states ≤ 1 then 0 else (states - 1).log2 + 1) 1

end Machine

namespace Recording

/-- A module of its own. -/
def openModule (d : Design) (scope : String) : Recording :=
  let (module, d) := d.newModule
  ⟨d, module, scope, ⟨module, 0, []⟩, [], none⟩

/-- The scope of a module that is not inside another one. -/
def topScope (name : String) : String := if name = "" then "" else name ++ "_"

/-- A module inside this one; none can be created in a body. -/
def openSubmodule (r : Recording) (name : String) (loc : Location) : Except DesignError Recording :=
  match r.body with
  | some frame =>
    .error (.usage ("submodule `" ++ name ++ "` is created inside the body of `"
      ++ r.design.name frame.node ++ "`") loc)
  | none => .ok (openModule r.design (r.scope ++ name ++ "_"))

/-! ### Signals and assignments -/

def signal (r : Recording) (name : String) (width : Nat) (kind : SignalKind) (init : Word)
    (loc : Location) : Except DesignError (Sig × Recording) :=
  if maxWidth < width then .error (.tooWide ("signal `" ++ name ++ "`") width loc)
  else
    let (id, design) := r.design.newSignal (r.scope ++ name) width kind init
    .ok (⟨id, width, kind⟩, { r with design })

/-- All conditions around the current place. -/
def cond (r : Recording) : Expr := .all r.conds.reverse

/-- The conditions around the current place, while the open body runs. -/
def guard (r : Recording) : Expr :=
  match r.body with
  | some frame => frame.activator.and r.cond
  | none => r.cond

/-- The kind of signal that may be assigned in a domain. -/
def assignable : Domain → SignalKind
  | .comb => .wire
  | .sync => .reg

def misassigned : Domain → String
  | .comb => "combinational assignment needs a wire target"
  | .sync => "synchronous assignment needs a register target"

/-- Records an assignment under a guard. -/
def assign (r : Recording) (target : Sig) (guard value : Expr) (domain : Domain) (loc : Location) :
    Attempt DesignError Recording := do
  if target.kind ≠ assignable domain then throw (.usage (misassigned domain) loc)
  Attempt.ofChecked value.ensureSized
  if target.width < value.width then
    throw (.widthMismatch "assigned value" target.width value.width loc)
  return { r with design := r.design.assign ⟨target.id, guard, value.resize target.width, domain⟩ }

/-! ### Arms -/

/-- Takes the number of a new chain of arms. -/
def newChain (r : Recording) : Nat × Recording :=
  let (chain, path) := r.path.newChain
  (chain, { r with path })

/-- Enters an arm of a chain under a condition. -/
def enter (r : Recording) (chain alternative : Nat) (cond : Expr) : Recording :=
  { r with path := r.path.push chain alternative, conds := cond :: r.conds }

/-- Leaves the innermost arm. -/
def leave (r : Recording) : Recording :=
  { r with path := r.path.pop, conds := r.conds.tail }

/-- The arms of a chain so far: how many there are, and whether one of them is taken. -/
structure Chain where
  number : Nat
  arms : Nat := 0
  taken : Expr := .bit false
deriving DecidableEq, Repr

/-- Enters the next arm: its condition holds, and no earlier one does. -/
def enterNext (r : Recording) (c : Chain) (cond : Expr) : Chain × Recording :=
  (⟨c.number, c.arms + 1, c.taken.or cond⟩, r.enter c.number c.arms (c.taken.not.and cond))

/-- The condition of a `switch` case: the selector has one of the values. -/
def caseCond (sel : Expr) (values : List Word) : Except Fault Expr := do
  sel.ensureSized
  return .any (values.map fun v => sel.equals (.constant v sel.width))

/-! ### State machines -/

/-- Creates a state machine that starts in its first state. -/
def machine (r : Recording) (name : String) (states : List String) (loc : Location) :
    Except DesignError (Machine × Recording) := do
  if states.isEmpty then throw (.usage ("state machine `" ++ name ++ "` has no states") loc)
  let (state, r) ← r.signal (name ++ "_state") (Machine.widthFor states.length) .reg 0 loc
  let (chain, r) := r.newChain
  return (⟨name, states, state, chain, r.path.current⟩, r)

/-- Enters the arm of a state. The chain of a machine has its number only on the path where it was
created. -/
def enterState (r : Recording) (m : Machine) (state : String) (loc : Location) :
    Except DesignError Recording := do
  let index ← m.index state loc
  if r.path.current ≠ m.path then
    throw (.usage ("state `" ++ state ++ "` of `" ++ m.name
      ++ "` is recorded outside the branch that created the machine") loc)
  return r.enter m.chain index (m.inState index)

/-- Moves a machine to a state at the next clock edge. -/
def nextState (r : Recording) (m : Machine) (state : String) (loc : Location) :
    Attempt DesignError Recording := do
  let index ← Attempt.ofExcept (m.index state loc)
  r.assign m.state r.guard (.constant (UInt64.ofNat index) m.state.width) .sync loc

/-! ### Bodies -/

/-- Notes where the body of a node begins. -/
def openBody (r : Recording) (id : NodeId) (loc : Location) : Except DesignError Recording :=
  match r.body with
  | some frame => .error (.nestedBody (r.design.name id) (r.design.name frame.node) loc)
  | none =>
    match (r.design.node id).defLoc with
    | some prevLoc => .error (.redefinition (r.design.name id) loc prevLoc)
    | none =>
      let d := { r.design with nextDefOrder := r.design.nextDefOrder + 1 }
      .ok { r with design := d.modifyNode id fun n =>
        { n with
          defOrder := some r.design.nextDefOrder
          defLoc := some loc
          path := some r.path.current } }

/-- Starts recording inside a body. -/
def enterBody (r : Recording) (id : NodeId) (activator : SignalId) : Recording :=
  { r with body := some ⟨id, r.design.read activator⟩ }

def leaveBody (r : Recording) : Recording := { r with body := none }

/-- Opens the body of a transaction, which requests to run where the request and all conditions
around it hold. -/
def openTransaction (r : Recording) (t : NodeId) (request : Expr) (loc : Location) :
    Attempt DesignError Recording := do
  let r ← Attempt.ofExcept (r.openBody t loc)
  match (r.design.node t).transaction? with
  | none => throw (.usage ("`" ++ r.design.name t ++ "` is no longer a transaction") loc)
  | some info =>
    let wanted ← Attempt.ofChecked (Expr.Checked.anyBit request)
    let r := { r with design := r.design.drive info.request (r.cond.and wanted) }
    return r.enterBody t info.grant

/-- Opens the body of a method, which is ready where the condition and all conditions around it
hold. -/
def openMethod (r : Recording) (m : NodeId) (ready : Expr) (validator : Option Validator)
    (loc : Location) : Attempt DesignError (MethodInfo × Recording) := do
  let r ← Attempt.ofExcept (r.openBody m loc)
  match (r.design.node m).method? with
  | none => throw (.usage ("`" ++ r.design.name m ++ "` is not a method") loc)
  | some info =>
    let info := { info with validator }
    let d := r.design.modifyNode m fun n => { n with kind := .method info }
    let wanted ← Attempt.ofChecked (Expr.Checked.anyBit ready)
    let r := { r with design := d.drive info.ready (r.cond.and wanted) }
    return (info, r.enterBody m info.run)

/-- Records the result of a method after its body has been left. -/
def closeMethod (r : Recording) (m : NodeId) (info : MethodInfo) (result : Expr) (loc : Location) :
    Attempt DesignError Recording := do
  Attempt.ofChecked result.ensureSized
  if info.output.width < result.width then
    throw (.widthMismatch ("result of `" ++ r.design.name m ++ "`") info.output.width result.width loc)
  match info.dataOut with
  | none => return r
  | some bus =>
    return { r with
      design := r.design.assign ⟨bus, r.cond, result.resize info.output.width, .comb⟩ }

/-! ### Calls -/

/-- Adds a call site to those of the same method. -/
def addSite (calls : List (NodeId × List CallSite)) (m : NodeId) (site : CallSite) :
    List (NodeId × List CallSite) :=
  if calls.any fun c => c.1 == m then
    calls.map fun c => if c.1 = m then (m, c.2 ++ [site]) else c
  else calls ++ [(m, [site])]

/-- Records a call of a defined method from the open body. Two calls of one method have to be on
paths that exclude each other. -/
def call (r : Recording) (m : NodeId) (arg enable : Expr) (loc : Location) :
    Attempt DesignError (Expr × Recording) := do
  let d := r.design
  let callee := d.node m
  match r.body with
  | none => throw (.noCurrentBody callee.name loc)
  | some frame =>
    match callee.method? with
    | none => throw (.usage ("`" ++ callee.name ++ "` is not a method") loc)
    | some info =>
      if !callee.isDefined then throw (.callUndefined callee.name loc)
      let width := info.input.width
      Attempt.ofChecked arg.ensureSized
      if width < arg.width then
        throw (.widthMismatch ("argument of `" ++ callee.name ++ "`") width arg.width loc)
      let enabled ← Attempt.ofChecked (Expr.Checked.anyBit enable)
      let site : CallSite := ⟨r.path.current, arg.resize width, r.cond.and enabled, loc⟩
      match ((d.node frame.node).sitesTo m).find? fun s => !s.path.exclusiveWith site.path with
      | some prev => throw (.duplicateCall (d.name frame.node) callee.name loc prev.loc)
      | none =>
        let d := d.modifyNode frame.node fun n => { n with calls := addSite n.calls m site }
        return (d.dataOut m, { r with design := d })

end Recording

end Interlock
