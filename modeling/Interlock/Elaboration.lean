import Interlock.Arbiter
import Interlock.CallLogic
import Interlock.Diagnostic.Sink
import Interlock.Drivers
import Interlock.Report

/-! Elaboration of a recorded design into a netlist and a report: simultaneous transactions are
fused, the transactions are scheduled, and the logic that grants them and runs their methods is
added. The first error ends it; errors and warnings go to a sink. -/

namespace Interlock

structure Elaborated where
  netlist : Netlist
  report : ScheduleReport
deriving DecidableEq, Repr

/-- A step that may emit diagnostics. -/
abbrev Pass (α : Type) := ExceptT DesignError (StateT DiagnosticSink (Except Fault)) α

namespace Pass

def ofAttempt (a : Attempt DesignError α) : Pass α := ExceptT.mk (StateT.lift a.run)

def emit (diagnostics : List Diagnostic) : Pass Unit :=
  modify fun sink => diagnostics.foldl DiagnosticSink.emit sink

end Pass

namespace Design

/-- A design whose simultaneous transactions are fused, with what its transactions reach. -/
structure Fused where
  design : Design
  map : CallMap
  groups : List Fusion.FusedGroup

/-- Checks the methods and fuses the transactions that have to run together. -/
def fused (d : Design) : Attempt DesignError Fused := do
  let map ← CallMap.build d
  Attempt.ofExcept d.checkMethods
  let d := d.pruneOrderings
  let groups ← Attempt.ofExcept (Fusion.groups d map)
  let (groups, d) := Fusion.fuse d groups
  if groups.isEmpty then return ⟨d, map, groups⟩
  else return ⟨d, ← CallMap.build d, groups⟩

/-- Puts the transactions in order. -/
def schedule (d : Design) (map : CallMap) : Except DesignError Schedule := do
  return Schedule.ofOrder d map (← d.priorityOrder (d.priorities map))

/-- Adds the arbiters and the logic of calls. -/
def withLogic (d : Design) (map : CallMap) (s : Schedule) : Attempt DesignError Design := do
  let d ← Attempt.ofExcept (Arbiter.emit s d)
  CallLogic.emit map d

/-- Warnings of methods that no transaction reaches. -/
def unusedWarnings (d : Design) (map : CallMap) : List Diagnostic :=
  if d.config.warnUnusedMethods then
    (d.nodeList.filter fun n => n.role == .method && !map.isReached n.id).map fun n =>
      unusedMethodWarning n.name n.loc
  else []

/-- The place of the first node that has a signal. -/
def ownerOf (d : Design) (id : SignalId) : Option Location :=
  (d.nodeList.find? fun n => n.ports.any fun p => p.2 == id).map (·.loc)

/-- The steps of elaboration, up to the first error. -/
def elaborateSteps (d : Design) : Pass Elaborated := do
  let f ← Pass.ofAttempt d.fused
  Pass.emit (← Pass.ofAttempt (Attempt.ofExcept f.design.checkOrder))
  let s ← Pass.ofAttempt (Attempt.ofExcept (f.design.schedule f.map))
  let d ← Pass.ofAttempt (f.design.withLogic f.map s)
  Pass.emit (d.unusedWarnings f.map)
  let netlist ← Pass.ofAttempt (Drivers.lower d.netlist d.assigns d.ownerOf)
  return ⟨netlist, ScheduleReport.ofSchedule d s f.groups⟩

/-- Elaborates a design; an error is emitted and returned. -/
def elaborate (d : Design) (sink : DiagnosticSink) :
    Except Fault (Except DesignError Elaborated × DiagnosticSink) := do
  let (result, sink) ← d.elaborateSteps.run.run sink
  match result with
  | .ok e => return (.ok e, sink)
  | .error e => return (.error e, sink.emit e.toDiagnostic)

end Design

end Interlock
