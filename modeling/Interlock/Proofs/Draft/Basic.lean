import Interlock.Recording
import Interlock.Script.Statement

/-! Drafts: designs under description by any sequence of recording operations. A draft holds the design
and the place reached in each module, and notes what the operations leave no trace of: the chains of
arms that were opened, the condition of each arm entered, and the places of bodies and calls. Modules
may be recorded in turn, and nothing asks for arms and bodies to be left in the order in which they
were entered. -/

namespace Interlock

/-- What a step gives, if it gives anything. -/
def Attempt.result? {ε α : Type} (x : Attempt ε α) : Option α :=
  match x.run with
  | .ok (.ok a) => some a
  | _ => none

/-- The place of a body or a call, with the conditions of the arms around it, innermost first. -/
structure Point where
  path : ControlPath
  conds : List Expr
deriving DecidableEq, Repr

namespace Point

/-- All conditions around the place. -/
def cond (p : Point) : Expr := .all p.conds.reverse

end Point

namespace Draft

/-- What a chain of arms was opened for. -/
inductive Opener where
  | when (number : Nat)
  | branches (chain : Recording.Chain)
  | machine (m : Machine)
deriving DecidableEq, Repr

def Opener.number : Opener → Nat
  | when number => number
  | branches chain => chain.number
  | machine m => m.chain

/-- A chain of arms: the path on which it got its number, and the arms entered, each with its
alternative and its condition. -/
structure Chain where
  path : ControlPath
  opener : Opener
  arms : List (Nat × Expr) := []
deriving DecidableEq, Repr

/-- What arms are told apart by: the path of their chain, and its number there. -/
def Chain.key (c : Chain) : ControlPath × Nat := (c.path, c.opener.number)

end Draft

structure Draft where
  design : Design
  /-- The modules, each with the place reached in it; their designs are out of date. -/
  places : List Recording := []
  signals : List Sig := []
  chains : List Draft.Chain := []
  /-- The methods whose bodies have been opened, as they were then. -/
  bodies : List (NodeId × MethodInfo) := []
  points : List Point := []

namespace Draft

/-- Operations in a module. Signals, chains, places and bodies are named by the order of their
creation. -/
inductive Operation where
  | submodule (name : String) (loc : Location)
  | signal (name : String) (width : Nat) (kind : SignalKind) (init : Word) (loc : Location)
  | assign (mode : AssignMode) (target : Nat) (value : Expr) (loc : Location)
  | when (cond : Expr)
  /-- Opens a chain of branches, or of cases. -/
  | branches
  | branch (chain : Nat) (cond : Expr)
  | case (chain : Nat) (sel : Expr) (values : List Word)
  | otherwise (chain : Nat)
  | leave
  | machine (name : String) (states : List String) (loc : Location)
  | enterState (chain : Nat) (state : String) (loc : Location)
  | nextState (chain : Nat) (state : String) (loc : Location)
  | openTransaction (t : NodeId) (request : Expr) (loc : Location)
  | openMethod (m : NodeId) (ready : Expr) (validator : Option Validator) (loc : Location)
  | leaveBody
  | closeMethod (body : Nat) (result : Expr) (loc : Location)
  | call (m : NodeId) (arg enable : Expr) (loc : Location)

/-- Operations on the design, or in one of its modules. -/
inductive Action where
  | transaction (name : String) (loc : Location)
  | method (decl : MethodDecl) (loc : Location)
  | conflict (a b : NodeId) (priority : Priority) (loc : Location)
  | before (a b : NodeId) (silenced : Bool) (loc : Location)
  | simultaneous (a : NodeId) (others : List NodeId)
  | alternatives (a : NodeId) (others : List NodeId)
  | openModule (scope : String)
  | inModule (place : Nat) (op : Operation)

/-- The nodes exist. -/
def declares (d : Design) (ids : List NodeId) : Bool := ids.all (· < d.nodes.size)

/-- An assignment at the current place. -/
def assignAt (r : Recording) (mode : AssignMode) (target : Sig) (value : Expr) (loc : Location) :
    Attempt DesignError Recording :=
  match mode with
  | .comb => r.assign target r.guard value .comb loc
  | .sync => r.assign target r.guard value .sync loc
  | .avComb => r.assign target r.cond value .comb loc
  | .topComb => r.assign target .one value .comb loc

/-- The place reached in a module. -/
def place? (d : Draft) (i : Nat) : Option Recording :=
  d.places[i]?.map fun r => { r with design := d.design }

/-- Moves on in a module. -/
def move (d : Draft) (i : Nat) (r : Recording) : Draft :=
  { d with design := r.design, places := d.places.set i r }

/-- Notes a place. -/
def mark (d : Draft) (r : Recording) : Draft :=
  { d with points := d.points ++ [⟨r.path.current, r.conds⟩] }

def openChain (d : Draft) (c : Chain) : Draft := { d with chains := d.chains ++ [c] }

/-- Notes an arm of a chain. -/
def noteArm (d : Draft) (i : Nat) (c : Chain) (opener : Opener) (arm : Nat × Expr) : Draft :=
  { d with chains := d.chains.set i { c with opener, arms := c.arms ++ [arm] } }

/-- Enters the next arm of a chain of branches, which has to be one of this path. -/
def enterBranch (d : Draft) (i : Nat) (r : Recording) (chain : Nat) (cond : Expr) : Option Draft :=
  match d.chains[chain]? with
  | some ⟨path, .branches b, arms⟩ =>
    if r.path.current = path then
      let (b', r) := r.enterNext b cond
      some ((d.move i r).noteArm chain ⟨path, .branches b, arms⟩ (.branches b')
        (b.arms, b.taken.not.and cond))
    else none
  | _ => none

/-- Takes an operation at the place reached in module `i`. -/
def operate (d : Draft) (i : Nat) (r : Recording) : Operation → Option Draft
  | .submodule name loc => do
    let inner ← (r.openSubmodule name loc).toOption
    return { d with design := inner.design, places := d.places ++ [inner] }
  | .signal name width kind init loc => do
    let (s, r) ← (r.signal name width kind init loc).toOption
    return { d.move i r with signals := d.signals ++ [s] }
  | .assign mode target value loc => do
    return d.move i (← (assignAt r mode (← d.signals[target]?) value loc).result?)
  | .when cond => do
    let wanted ← (Expr.Checked.anyBit cond).toOption
    let (number, inner) := r.newChain
    return (d.move i (inner.enter number 0 wanted)).openChain
      ⟨r.path.current, .when number, [(0, wanted)]⟩
  | .branches =>
    let (number, next) := r.newChain
    some ((d.move i next).openChain ⟨r.path.current, .branches { number }, []⟩)
  | .branch chain cond => do
    d.enterBranch i r chain (← (Expr.Checked.anyBit cond).toOption)
  | .case chain sel values => do
    d.enterBranch i r chain (← (Recording.caseCond sel values).toOption)
  | .otherwise chain => d.enterBranch i r chain .one
  | .leave => some (d.move i r.leave)
  | .machine name states loc => do
    let (m, r) ← (r.machine name states loc).toOption
    return { (d.move i r).openChain ⟨m.path, .machine m, []⟩ with signals := d.signals ++ [m.state] }
  | .enterState chain state loc =>
    match d.chains[chain]? with
    | some ⟨path, .machine m, arms⟩ => do
      let index ← (m.index state loc).toOption
      let r ← (r.enterState m state loc).toOption
      return (d.move i r).noteArm chain ⟨path, .machine m, arms⟩ (.machine m) (index, m.inState index)
    | _ => none
  | .nextState chain state loc =>
    match d.chains[chain]? with
    | some ⟨_, .machine m, _⟩ => do return d.move i (← (r.nextState m state loc).result?)
    | _ => none
  | .openTransaction t request loc =>
    if declares d.design [t] then do
      return (d.move i (← (r.openTransaction t request loc).result?)).mark r
    else none
  | .openMethod m ready validator loc => do
    let (info, inner) ← (r.openMethod m ready validator loc).result?
    return { (d.move i inner).mark r with bodies := d.bodies ++ [(m, info)] }
  | .leaveBody => some (d.move i r.leaveBody)
  | .closeMethod body result loc => do
    let (m, info) ← d.bodies[body]?
    return d.move i (← (r.closeMethod m info result loc).result?)
  | .call m arg enable loc => do
    let (_, inner) ← (r.call m arg enable loc).result?
    return (d.move i inner).mark r

/-- Takes an action; nothing comes of one that fails. -/
def step (d : Draft) : Action → Option Draft
  | .transaction name loc => some { d with design := (d.design.declareTransaction name loc).2 }
  | .method decl loc => do
    let (_, design) ← (d.design.declareMethod decl loc).result?
    return { d with design }
  | .conflict a b priority loc =>
    if declares d.design [a, b] then some { d with design := d.design.addConflict a b priority loc }
    else none
  | .before a b silenced loc =>
    if declares d.design [a, b] then some { d with design := d.design.scheduleBefore a b silenced loc }
    else none
  | .simultaneous a others =>
    if declares d.design (a :: others) then some { d with design := d.design.simultaneous a others }
    else none
  | .alternatives a others =>
    if declares d.design (a :: others) then
      some { d with design := d.design.simultaneousAlternatives a others }
    else none
  | .openModule scope =>
    let r := Recording.openModule d.design scope
    some { d with design := r.design, places := d.places ++ [r] }
  | .inModule i op => do d.operate i (← d.place? i) op

/-- The draft that a configuration starts from. -/
def start (config : Config) : Draft := { design := { config } }

/-- The draft after a sequence of actions that all succeed. -/
def run (d : Draft) (actions : List Action) : Option Draft := actions.foldlM step d

/-- A draft that actions lead to from the start. -/
def Recorded (d : Draft) : Prop := ∃ config actions, (start config).run actions = some d

theorem Recorded.take {d d' : Draft} (h : d.Recorded) (action : Action) (hd : d.step action = some d') :
    d'.Recorded := by
  obtain ⟨config, actions, hrun⟩ := h
  refine ⟨config, actions ++ [action], ?_⟩
  unfold run at hrun ⊢
  rw [List.foldlM_append, hrun]
  simpa using hd

/-- To show a property of every recorded draft, show it of the start and of each step. -/
theorem Recorded.induct {P : Draft → Prop} (start : ∀ config, P (start config))
    (step : ∀ d d' action, P d → d.step action = some d' → P d') {d : Draft} (h : d.Recorded) : P d := by
  obtain ⟨config, actions, h⟩ := h
  have hfrom := start config
  generalize Draft.start config = s at h hfrom
  unfold run at h
  induction actions generalizing s with
  | nil =>
    obtain rfl : s = d := by simpa using h
    exact hfrom
  | cons a rest ih =>
    rw [List.foldlM_cons] at h
    obtain ⟨s', hs', h⟩ := Option.bind_eq_some_iff.1 h
    exact ih s' h (step s s' a hfrom hs')

/-- The draft has taken this action at some time. -/
def Took (d : Draft) (action : Action) : Prop :=
  ∃ config before after, (start config).run (before ++ action :: after) = some d

theorem Took.recorded {d : Draft} {action : Action} (h : d.Took action) : d.Recorded := by
  obtain ⟨config, before, after, h⟩ := h
  exact ⟨config, _, h⟩

end Draft

end Interlock
