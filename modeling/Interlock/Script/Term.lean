import Interlock.Recording

/-! Terms: expressions as a script writes them, with names for what has been bound before. Building a
term calls the folding constructors, or makes plain nodes where it says so. -/

namespace Interlock

/-- A signal of a transaction or method. -/
inductive Port where
  | request | runnable | grant | ready | run | dataIn | dataOut
deriving DecidableEq, Repr

inductive Term where
  | constant (value : Word) (width : Nat)
  /-- A constant that may have bits beyond its width. -/
  | plainConst (value : Word) (width : Nat)
  | bit (b : Bool)
  | zero (width : Nat)
  | signal (id : SignalId) (width : Nat)
  | var (name : String)
  | not (e : Term)
  | anyBit (e : Term)
  | and (a b : Term)
  | or (a b : Term)
  | xor (a b : Term)
  | equals (a b : Term)
  | notEquals (a b : Term)
  | lessThan (a b : Term)
  | add (a b : Term)
  | sub (a b : Term)
  | select (sel onTrue onFalse : Term)
  | bits (e : Term) (high low : Nat)
  | join (parts : List Term)
  | resize (e : Term) (width : Nat)
  | any (items : List Term)
  | all (items : List Term)
  | unary (op : UnaryOp) (e : Term)
  | binary (op : BinaryOp) (a b : Term)
  | mux (sel onTrue onFalse : Term)
  | slice (e : Term) (high low : Nat)
  | concat (parts : List Term)
  /-- Replaces signals; the first replacement given for a signal counts. -/
  | substitute (e : Term) (replacements : List (SignalId × Term))
  | field (layout : Layout) (e : Term) (name : String)
  | pack (layout : Layout) (values : List (String × Term)) (loc : Location)
  | port (port : Port) (node : String)
  /-- Whether a state machine is in a state. -/
  | ongoing (machine state : String) (loc : Location)
deriving Repr

/-- What the names in a term stand for. -/
structure Scope where
  var : String → Option Expr := fun _ => none
  port : Port → String → Option Expr := fun _ _ => none
  machine : String → Option Machine := fun _ => none

namespace Term

def bound (name : String) (x : Option α) : Attempt DesignError α :=
  Attempt.ofChecked <| match x with
    | some x => .ok x
    | none => .error (.unbound name)

mutual
/-- The expression of a term. Operands are built from left to right, and the first failure ends the
build. -/
def build (s : Scope) : Term → Attempt DesignError Expr
  | constant v w => return .constant v w
  | plainConst v w => return .const v w
  | bit b => return .bit b
  | zero w => return .zero w
  | signal i w => return .signal i w
  | var name => bound name (s.var name)
  | not e => return (← e.build s).not
  | anyBit e => do Attempt.ofChecked (Expr.Checked.anyBit (← e.build s))
  | and a b => do
    let a ← a.build s
    let b ← b.build s
    Attempt.ofChecked (Expr.Checked.and a b)
  | or a b => do
    let a ← a.build s
    let b ← b.build s
    Attempt.ofChecked (Expr.Checked.or a b)
  | xor a b => return (← a.build s).xor (← b.build s)
  | equals a b => return (← a.build s).equals (← b.build s)
  | notEquals a b => return (← a.build s).notEquals (← b.build s)
  | lessThan a b => return (← a.build s).lessThan (← b.build s)
  | add a b => return (← a.build s).add (← b.build s)
  | sub a b => return (← a.build s).sub (← b.build s)
  | select c t f => return .select (← c.build s) (← t.build s) (← f.build s)
  | bits e high low => do Attempt.ofChecked (Expr.Checked.bits (← e.build s) high low)
  | join ps => return .join (← buildAll s ps)
  | resize e w => do Attempt.ofChecked (Expr.Checked.resize (← e.build s) w)
  | any es => do Attempt.ofChecked (Expr.Checked.any (← buildAll s es))
  | all es => do Attempt.ofChecked (Expr.Checked.all (← buildAll s es))
  | unary op e => return .unary op (← e.build s)
  | binary op a b => return .binary op (← a.build s) (← b.build s)
  | mux c t f => return .mux (← c.build s) (← t.build s) (← f.build s)
  | slice e high low => return .slice (← e.build s) high low
  | concat ps => return .concat (← buildAll s ps)
  | substitute e pairs => do
    let e ← e.build s
    let pairs ← buildReplacements s pairs
    Attempt.ofChecked (Expr.Checked.substitute e fun i => pairs.lookup i)
  | field layout e name => do
    bound name (← Attempt.ofChecked (layout.checkedGet? (← e.build s) name))
  | pack layout values loc => do layout.checkedPack (← buildFields s values) loc
  | port p node => bound node (s.port p node)
  | ongoing machine state loc => do
    Attempt.ofExcept ((← bound machine (s.machine machine)).ongoing state loc)

def buildAll (s : Scope) : List Term → Attempt DesignError (List Expr)
  | [] => return []
  | t :: ts => return (← t.build s) :: (← buildAll s ts)

def buildReplacements (s : Scope) : List (SignalId × Term) → Attempt DesignError (List (SignalId × Expr))
  | [] => return []
  | (i, t) :: rest => return (i, ← t.build s) :: (← buildReplacements s rest)

def buildFields (s : Scope) : List (String × Term) → Attempt DesignError (List (String × Expr))
  | [] => return []
  | (name, t) :: rest => return (name, ← t.build s) :: (← buildFields s rest)
end

end Term

end Interlock
