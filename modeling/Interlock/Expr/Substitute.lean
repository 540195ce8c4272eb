import Interlock.Expr.Fold

/-! The signals that an expression reads, and the replacement of signals by expressions. -/

namespace Interlock.Expr

mutual
/-- Every read of a signal, in tree order, repeats included. -/
def reads : Expr → List SignalId
  | const .. => []
  | signal i _ => [i]
  | unary _ e => e.reads
  | binary _ a b => a.reads ++ b.reads
  | mux s t f => s.reads ++ t.reads ++ f.reads
  | slice b _ _ => b.reads
  | concat ps => readsAll ps

def readsAll : List Expr → List SignalId
  | [] => []
  | p :: ps => p.reads ++ readsAll ps
end

/-- The distinct signals read, each where it is first seen. -/
def signals (e : Expr) : List SignalId := e.reads.eraseDups

mutual
/-- Replaces each read that `f` maps, at the width of the read. Nothing else is folded. -/
def substitute (f : SignalId → Option Expr) : Expr → Expr
  | const v w => const v w
  | signal i w =>
    match f i with
    | some e => e.resize w
    | none => signal i w
  | unary op e => unary op (e.substitute f)
  | binary op a b => binary op (a.substitute f) (b.substitute f)
  | mux s t e => mux (s.substitute f) (t.substitute f) (e.substitute f)
  | slice b high low => slice (b.substitute f) high low
  | concat ps => concat (substituteAll f ps)

def substituteAll (f : SignalId → Option Expr) : List Expr → List Expr
  | [] => []
  | p :: ps => p.substitute f :: substituteAll f ps
end

end Interlock.Expr
