import Interlock.Expr.Eval
import Interlock.Expr.Substitute

/-! The folding constructors on operands of unknown origin. A constructor that has to know the width
of an operand refuses one that has none; otherwise it agrees with its total namesake. -/

namespace Interlock.Expr.Checked

def and (a b : Expr) : Except Fault Expr := do
  a.ensureSized
  b.ensureSized
  return a.and b

def or (a b : Expr) : Except Fault Expr := do
  a.ensureSized
  b.ensureSized
  return a.or b

def anyBit (e : Expr) : Except Fault Expr := do
  e.ensureSized
  return e.anyBit

/-- The width matters only where the slice starts at bit 0: then it may be the whole operand. -/
def bits (e : Expr) (high low : Nat) : Except Fault Expr := do
  if low = 0 then
    if high + 1 < wordLimit then e.ensureSized else throw .undefinedWidth
  return e.bits high low

def resize (e : Expr) (w : Nat) : Except Fault Expr := do
  e.ensureSized
  return e.resize w

def any (items : List Expr) : Except Fault Expr := do
  items.forM ensureSized
  return Expr.any items

def all (items : List Expr) : Except Fault Expr := do
  items.forM ensureSized
  return Expr.all items

/-- Replacements are resized, so each one that is used must have a width. -/
def substitute (e : Expr) (f : SignalId → Option Expr) : Except Fault Expr := do
  (e.reads.filterMap f).forM ensureSized
  return e.substitute f

end Interlock.Expr.Checked
