import Interlock.Script.Term

/-! Scripts: the description of a design as a list of statements. Statements bind names, which later
statements and terms refer to. -/

namespace Interlock

/-- Statements about the design as a whole; they may stand anywhere. -/
inductive GraphStmt where
  | transaction (id name : String) (loc : Location)
  | method (id : String) (decl : MethodDecl) (loc : Location)
  | conflict (a b : String) (priority : Priority) (loc : Location)
  | before (a b : String) (silenced : Bool) (loc : Location)
  | simultaneous (a : String) (others : List String)
  | alternatives (a : String) (others : List String)
  | bind (id : String) (value : Term)
  | node (node : String)
  | sites (caller callee : String)
  | transactions
  | config

/-- When an assignment is in force: while the open body runs and under the conditions around it,
under the conditions alone, or always. -/
inductive AssignMode where
  | comb | sync | avComb | topComb
deriving DecidableEq, Repr

/-- A check of a method's arguments: a term in which `name` stands for the argument. -/
structure Check where
  name : String
  term : Term
deriving Repr

/-- Statements in a module. -/
inductive Stmt where
  | graph (s : GraphStmt)
  | signal (kind : SignalKind) (id name : String) (width : Nat) (init : Word) (loc : Location)
  | assign (mode : AssignMode) (target : String) (value : Term) (loc : Location)
  | when (cond : Term) (body : List Stmt)
  /-- Arms in order, then what happens where none of them is taken. -/
  | ifElse (arms : List (Term × List Stmt)) (orElse : List Stmt)
  /-- Cases in order; one without values takes whatever is left. -/
  | switch (sel : Term) (cases : List (Option (List Word) × List Stmt))
  | machine (id name : String) (states : List String) (loc : Location)
  | machineState (machine state : String) (body : List Stmt) (loc : Location)
  | nextState (machine state : String) (loc : Location)
  | submodule (name : String) (body : List Stmt) (loc : Location)
  | moduleId
  | transactionBody (t : String) (request : Term) (body : List Stmt) (loc : Location)
  | methodBody (m : String) (ready : Term) (check : Option Check) (arg : Option String)
      (body : List Stmt) (result : Term) (loc : Location)
  /-- A method whose body forwards every call to another method. -/
  | proxy (m target : String) (loc : Location)
  | call (m : String) (arg enable : Term) (id : Option String) (loc : Location)
  /-- Goes on after a failure in its body. -/
  | attempt (body : List Stmt)

/-- Statements outside all modules. -/
inductive TopStmt where
  | graph (s : GraphStmt)
  | module (name : String) (body : List Stmt)

/-! ### Names of statements, as a log has them -/

def GraphStmt.verb : GraphStmt → String
  | transaction .. => "transaction"
  | method .. => "method"
  | conflict .. => "conflict"
  | before .. => "before"
  | simultaneous .. => "simultaneous"
  | alternatives .. => "alternatives"
  | bind .. => "let"
  | node .. => "node"
  | sites .. => "sites"
  | transactions => "transactions"
  | config => "config"

def AssignMode.verb : AssignMode → String
  | comb => "comb"
  | sync => "sync"
  | avComb => "av_comb"
  | topComb => "top_comb"

def SignalKind.verb : SignalKind → String
  | .input => "input"
  | .wire => "wire"
  | .reg => "reg"

def Stmt.verb : Stmt → String
  | graph s => s.verb
  | signal kind .. => SignalKind.verb kind
  | assign mode .. => mode.verb
  | when .. => "when"
  | ifElse .. => "if"
  | switch .. => "switch"
  | machine .. => "fsm"
  | machineState .. => "fsm_state"
  | nextState .. => "next_state"
  | submodule .. => "submodule"
  | moduleId => "module_id"
  | transactionBody .. => "tbody"
  | methodBody .. => "mbody"
  | proxy .. => "proxy"
  | call .. => "call"
  | attempt .. => "try"

def TopStmt.verb : TopStmt → String
  | graph s => s.verb
  | module .. => "module"

end Interlock
