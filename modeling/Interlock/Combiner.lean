import Interlock.Expr.Checked

/-! Combiners: how the arguments of several callers in one cycle become one. Each argument comes with
a condition that tells whether its caller is active. -/

namespace Interlock

inductive Combiner where
  /-- The argument of the first active caller. -/
  | lowestActive
  /-- The sum of the active arguments, at the width of the widest argument. -/
  | sum
  /-- The bitwise OR of the active arguments. -/
  | or
  /-- Any function of arguments and conditions. -/
  | custom (combine : List Expr → List Expr → Expr)

namespace Combiner

/-- The width of the widest argument; zero for none. -/
def widest (args : List Expr) : Nat := (args.map Expr.width).foldl max 0

/-- Each argument where its caller is active, else zero. -/
def terms (w : Nat) (args runs : List Expr) : List Expr :=
  List.zipWith (fun arg run => Expr.select run (arg.resize w) (.zero w)) args runs

def lowestActiveOf (args runs : List Expr) : Expr :=
  let w := widest args
  (args.zip runs).foldr (fun (arg, run) acc => Expr.select run (arg.resize w) acc) (.zero w)

def sumOf (args runs : List Expr) : Expr :=
  let w := widest args
  match terms w args runs with
  | [] => .zero w
  | t :: ts => ts.foldl Expr.add t

def orOf (args runs : List Expr) : Expr :=
  let w := widest args
  (terms w args runs).foldl Expr.or (.zero w)

def combine : Combiner → List Expr → List Expr → Expr
  | lowestActive => lowestActiveOf
  | sum => sumOf
  | or => orOf
  | custom f => f

/-- The stock combiners ask the width of every argument. -/
def combineChecked (c : Combiner) (args runs : List Expr) : Except Fault Expr := do
  match c with
  | custom _ => pure ()
  | _ => args.forM Expr.ensureSized
  return c.combine args runs

/-- The first argument, active or not. -/
def first : Combiner := custom fun args _ => args.headD (.zero 0)

/-- All arguments side by side. -/
def joined : Combiner := custom fun args _ => .join args

/-- The number of active callers, in eight bits. -/
def count : Combiner := custom fun _ runs =>
  runs.foldl (fun acc run => .add acc (.select run (.constant 1 8) (.zero 8))) (.zero 8)

def render (_ : Combiner) : String := "Combiner(..)"

end Combiner

end Interlock
