/-! Settings of the elaborator. -/

namespace Interlock

inductive SchedulerKind where
  /-- Conflicts are always resolved in priority order. -/
  | eager
  /-- Conflicting transactions take turns. -/
  | roundRobin
deriving DecidableEq, Repr

/-- What to do about an ordering that contradicts the order of definition. -/
inductive OrderPolicy where
  | error | warn | allow
deriving DecidableEq, Repr

structure Config where
  scheduler : SchedulerKind := .eager
  scheduleOrder : OrderPolicy := .error
  warnUnusedMethods : Bool := true
  /-- Goes in front of the name of every signal. -/
  namePrefix : String := ""
deriving DecidableEq, Repr, Inhabited

end Interlock
