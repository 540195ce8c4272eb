import Interlock.Script.Statement

/-! Running scripts. A statement that fails logs its error and ends the statements around it, which
log the same error, up to an `attempt` or to the top of the script. Arms and bodies are left again
however their statements end. -/

namespace Interlock

/-- What names stand for; the latest binding of a name comes first. -/
structure Env where
  vars : List (String × Expr) := []
  signals : List (String × Sig) := []
  transactions : List (String × NodeId) := []
  methods : List (String × NodeId) := []
  nodes : List (String × NodeId) := []
  machines : List (String × Machine) := []

namespace Env

def bindVar (env : Env) (name : String) (e : Expr) : Env :=
  { env with vars := (name, e) :: env.vars }

/-- A signal is a variable as well. -/
def bindSignal (env : Env) (name : String) (s : Sig) : Env :=
  { env with signals := (name, s) :: env.signals, vars := (name, s.expr) :: env.vars }

/-- The state register of a machine goes by the name of the machine. -/
def bindMachine (env : Env) (name : String) (m : Machine) : Env :=
  { env.bindSignal name m.state with machines := (name, m) :: env.machines }

def bindTransaction (env : Env) (name : String) (t : NodeId) : Env :=
  { env with transactions := (name, t) :: env.transactions, nodes := (name, t) :: env.nodes }

def bindMethod (env : Env) (name : String) (m : NodeId) : Env :=
  { env with methods := (name, m) :: env.methods, nodes := (name, m) :: env.nodes }

def find (table : List (String × α)) (name : String) : Attempt DesignError α :=
  Term.bound name (table.lookup name)

def port (env : Env) (d : Design) (p : Port) (name : String) : Option Expr :=
  match p with
  | .request => (env.transactions.lookup name).map (d.transactionSignal · (·.request))
  | .runnable => (env.transactions.lookup name).map (d.transactionSignal · (·.runnable))
  | .grant => (env.transactions.lookup name).map (d.transactionSignal · (·.grant))
  | .ready => (env.methods.lookup name).map d.ready
  | .run => (env.methods.lookup name).map (d.methodSignal · fun info => some info.run)
  | .dataIn => (env.methods.lookup name).map d.dataIn
  | .dataOut => (env.methods.lookup name).map d.dataOut

def scope (env : Env) (d : Design) : Scope :=
  { var := (env.vars.lookup ·), port := env.port d, machine := (env.machines.lookup ·) }

end Env

/-- What a statement gives. -/
inductive Outcome where
  | done
  | declared (id : NodeId) (name : String)
  | expr (e : Expr)
  | node (n : Node)
  | sites (sites : List CallSite)
  | nodes (ids : List NodeId)
  | config (c : Config)
  | signal (s : Sig)
  | module (id : ModuleId)
  | failed (e : DesignError)

structure LogEntry where
  verb : String
  outcome : Outcome

namespace GraphStmt

/-- Runs a statement about the design as a whole. -/
def exec (d : Design) (env : Env) : GraphStmt → Attempt DesignError (Outcome × Design × Env)
  | transaction id name loc => do
    let (t, d) := d.declareTransaction name loc
    return (.declared t (d.name t), d, env.bindTransaction id t)
  | method id decl loc => do
    let (m, d) ← d.declareMethod decl loc
    return (.declared m (d.name m), d, env.bindMethod id m)
  | conflict a b priority loc => do
    return (.done, d.addConflict (← Env.find env.nodes a) (← Env.find env.nodes b) priority loc, env)
  | before a b silenced loc => do
    return (.done, d.scheduleBefore (← Env.find env.nodes a) (← Env.find env.nodes b) silenced loc,
      env)
  | simultaneous a others => do
    return (.done, d.simultaneous (← Env.find env.nodes a) (← others.mapM (Env.find env.nodes)), env)
  | alternatives a others => do
    return (.done,
      d.simultaneousAlternatives (← Env.find env.nodes a) (← others.mapM (Env.find env.nodes)), env)
  | bind id value => do
    let e ← value.build (env.scope d)
    return (.expr e, d, env.bindVar id e)
  | node name => do return (.node (d.node (← Env.find env.nodes name)), d, env)
  | sites caller callee => do
    let caller ← Env.find env.nodes caller
    return (.sites ((d.node caller).sitesTo (← Env.find env.nodes callee)), d, env)
  | transactions => return (.nodes d.transactions, d, env)
  | config => return (.config d.config, d, env)

end GraphStmt

/-- A script inside a module: the place reached, the bindings, and the log with the last entry
first. -/
structure Progress where
  place : Recording
  env : Env
  log : List LogEntry := []

namespace Progress

abbrev Step := Except Fault (Progress × Except DesignError Outcome)

def scope (p : Progress) : Scope := p.env.scope p.place.design

def build (p : Progress) (t : Term) : Attempt DesignError Expr := t.build p.scope

/-- A step that leaves everything as it was if it fails. -/
def step (p : Progress) (attempt : Attempt DesignError (Outcome × Progress)) : Step := do
  match ← attempt.run with
  | .ok (outcome, p) => return (p, .ok outcome)
  | .error e => return (p, .error e)

/-- Goes on with the result of a step that leaves everything as it was if it fails. -/
def after (p : Progress) (attempt : Attempt DesignError α) (next : α → Step) : Step := do
  match ← attempt.run with
  | .ok x => next x
  | .error e => return (p, .error e)

def outcomeOf : Option DesignError → Except DesignError Outcome
  | none => .ok .done
  | some e => .error e

def write (p : Progress) (verb : String) (result : Except DesignError Outcome) : Progress :=
  let outcome := match result with
    | .ok outcome => outcome
    | .error e => .failed e
  { p with log := ⟨verb, outcome⟩ :: p.log }

/-- The validator of a check, with the other names as they are now. -/
def validator (p : Progress) (c : Check) : Validator where
  check arg := do
    match ← (c.term.build ((p.env.bindVar c.name arg).scope p.place.design)).run with
    | .ok e => return e
    | .error _ => throw .brokenValidator

end Progress

open Progress in
mutual
/-- Runs a statement in a module. -/
def Stmt.exec (p : Progress) : Stmt → Step
  | .graph s => p.step do
    let (outcome, design, env) ← s.exec p.place.design p.env
    return (outcome, { p with place := { p.place with design }, env })
  | .signal kind id name width init loc => p.step do
    let init := if kind = .reg then init else 0
    let (s, place) ← Attempt.ofExcept (p.place.signal name width kind init loc)
    return (.signal s, { p with place, env := p.env.bindSignal id s })
  | .assign mode target value loc => p.step do
    let target ← Env.find p.env.signals target
    let value ← p.build value
    let place ← match mode with
      | .comb => p.place.assign target p.place.guard value .comb loc
      | .sync => p.place.assign target p.place.guard value .sync loc
      | .avComb => p.place.assign target p.place.cond value .comb loc
      | .topComb => p.place.assign target .one value .comb loc
    return (.done, { p with place })
  | .when cond body => p.after (p.build cond) fun cond => do
    let (chain, place) := p.place.newChain
    let wanted ← Expr.Checked.anyBit cond
    let (p, failure) ← execAll { p with place := place.enter chain 0 wanted } body
    return ({ p with place := p.place.leave }, outcomeOf failure)
  | .ifElse arms orElse => p.after (Term.buildAll p.scope (arms.map (·.1))) fun conds => do
    let (number, place) := p.place.newChain
    let (p, failure, chain) ← execArms { p with place } { number } conds arms
    match failure with
    | some e => return (p, .error e)
    | none =>
      let (_, place) := p.place.enterNext chain .one
      let (p, failure) ← execAll { p with place } orElse
      return ({ p with place := p.place.leave }, outcomeOf failure)
  | .switch sel cases => p.after (p.build sel) fun sel => do
    let (number, place) := p.place.newChain
    let (p, failure) ← execCases { p with place } { number } sel cases
    return (p, outcomeOf failure)
  | .machine id name states loc => p.step do
    let (m, place) ← Attempt.ofExcept (p.place.machine name states loc)
    return (.signal m.state, { p with place, env := p.env.bindMachine id m })
  | .machineState name state body loc =>
    p.after (do Attempt.ofExcept (p.place.enterState (← Env.find p.env.machines name) state loc))
      fun place => do
        let (p, failure) ← execAll { p with place } body
        return ({ p with place := p.place.leave }, outcomeOf failure)
  | .nextState name state loc => p.step do
    let place ← p.place.nextState (← Env.find p.env.machines name) state loc
    return (.done, { p with place })
  | .submodule name body loc =>
    p.after (Attempt.ofExcept (p.place.openSubmodule name loc)) fun inner => do
      let outer := p.place
      let (p, failure) ← execAll { p with place := inner } body
      return ({ p with place := { outer with design := p.place.design } }, outcomeOf failure)
  | .moduleId => .ok (p, .ok (.module p.place.module))
  | .transactionBody t request body loc =>
    p.after (do
        let request ← p.build request
        p.place.openTransaction (← Env.find p.env.transactions t) request loc) fun place => do
      let (p, failure) ← execAll { p with place } body
      return ({ p with place := p.place.leaveBody }, outcomeOf failure)
  | .methodBody m ready check arg body result loc =>
    p.after (do
        let ready ← p.build ready
        let m ← Env.find p.env.methods m
        let (info, place) ← p.place.openMethod m ready (check.map p.validator) loc
        return (m, info, place)) fun (m, info, place) => do
      let env := match arg with
        | some name => p.env.bindVar name (place.design.dataIn m)
        | none => p.env
      let (p, failure) ← execAll { p with place, env } body
      let closed : Progress := { p with place := p.place.leaveBody }
      match failure with
      | some e => return (closed, .error e)
      | none => closed.step do
        let place ← closed.place.closeMethod m info (← closed.build result) loc
        return (.done, { closed with place })
  | .proxy m target loc =>
    p.after (do
        let target ← Env.find p.env.methods target
        let m ← Env.find p.env.methods m
        let (info, place) ← p.place.openMethod m (p.place.design.ready target) none loc
        return (m, target, info, place)) fun (m, target, info, place) =>
      let opened : Progress := { p with place := place.leaveBody }
      opened.after (place.call target (place.design.dataIn m) .one .library) fun (out, place) =>
        let closed : Progress := { p with place := place.leaveBody }
        closed.step do
          return (.done, { closed with place := ← closed.place.closeMethod m info out loc })
  | .call m arg enable id loc => p.step do
    let arg ← p.build arg
    let enable ← p.build enable
    let (out, place) ← p.place.call (← Env.find p.env.methods m) arg enable loc
    let env := match id with
      | some name => p.env.bindVar name out
      | none => p.env
    return (.expr out, { p with place, env })
  | .attempt body => do
    let (p, failure) ← execAll p body
    match failure with
    | some e => return (p, .ok (.failed e))
    | none => return (p, .ok .done)

/-- Runs statements up to the first failure. -/
def Stmt.execAll (p : Progress) : List Stmt → Except Fault (Progress × Option DesignError)
  | [] => .ok (p, none)
  | s :: rest => do
    let (p, result) ← s.exec p
    let p := p.write s.verb result
    match result with
    | .error e => return (p, some e)
    | .ok _ => execAll p rest

/-- Runs the arms of a chain, each under its condition. -/
def Stmt.execArms (p : Progress) (chain : Recording.Chain) (conds : List Expr) :
    List (Term × List Stmt) → Except Fault (Progress × Option DesignError × Recording.Chain)
  | [] => .ok (p, none, chain)
  | (_, body) :: rest => do
    let wanted ← Expr.Checked.anyBit (conds.headD .one)
    let (chain, place) := p.place.enterNext chain wanted
    let (p, failure) ← execAll { p with place } body
    let p := { p with place := p.place.leave }
    match failure with
    | some e => return (p, some e, chain)
    | none => execArms p chain conds.tail rest

/-- Runs the cases of a switch, each where the selector has one of its values. -/
def Stmt.execCases (p : Progress) (chain : Recording.Chain) (sel : Expr) :
    List (Option (List Word) × List Stmt) → Except Fault (Progress × Option DesignError)
  | [] => .ok (p, none)
  | (values, body) :: rest => do
    let cond ← match values with
      | some values => Recording.caseCond sel values
      | none => .ok .one
    let (chain, place) := p.place.enterNext chain cond
    let (p, failure) ← execAll { p with place } body
    let p := { p with place := p.place.leave }
    match failure with
    | some e => return (p, some e)
    | none => execCases p chain sel rest
end

/-- A script outside all modules. -/
structure Session where
  design : Design
  env : Env := {}
  log : List LogEntry := []

namespace Session

/-- Runs a statement; a failure is logged and has no other consequence. -/
def exec (s : Session) : TopStmt → Except Fault Session
  | .graph stmt => do
    match ← (stmt.exec s.design s.env).run with
    | .ok (outcome, design, env) => return ⟨design, env, ⟨stmt.verb, outcome⟩ :: s.log⟩
    | .error e => return { s with log := ⟨stmt.verb, .failed e⟩ :: s.log }
  | .module name body => do
    let place := Recording.openModule s.design (Recording.topScope name)
    let (p, failure) ← Stmt.execAll ⟨place, s.env, s.log⟩ body
    let p := p.write "module" (Progress.outcomeOf failure)
    return ⟨p.place.design, p.env, p.log⟩

def run (s : Session) (script : List TopStmt) : Except Fault Session := script.foldlM exec s

end Session

end Interlock
