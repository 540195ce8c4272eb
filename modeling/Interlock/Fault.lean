/-! Faults: the ways in which a request has no answer at all. Unlike an error, a fault is never
caught; it ends the whole request. -/

namespace Interlock

inductive Fault where
  /-- A width was asked of an expression or layout that has none: a reversed slice, or a width
  that does not fit 32 bits. -/
  | undefinedWidth
  /-- A signal, arena item or interned name with this index does not exist. -/
  | noSuchIndex (index : Nat)
  /-- The check of a method's arguments gives no expression for an argument. -/
  | brokenValidator
  /-- A script refers to a name that nothing has bound. -/
  | unbound (name : String)
deriving DecidableEq, Repr

/-- A step that gives a result, fails with an error of type `ε`, or stops with a fault. -/
abbrev Attempt (ε α : Type) := ExceptT ε (Except Fault) α

/-- The faults of a step that knows no errors. -/
def Attempt.ofChecked (r : Except Fault α) : Attempt ε α := ExceptT.lift r

/-- The errors of a step that knows no faults. -/
def Attempt.ofExcept (r : Except ε α) : Attempt ε α := ExceptT.mk (.ok r)

end Interlock
