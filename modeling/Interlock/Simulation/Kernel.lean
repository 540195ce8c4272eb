import Interlock.Netlist.Check

/-! Simulation of a netlist, one clock cycle at a time. Combinational drivers are put in dependency
order once, so that one pass settles every wire; a clock edge computes every register from the
settled values before any of them changes. -/

namespace Interlock

inductive SimError where
  | netlist (cause : NetlistError)
  | unknownSignal (name : String)
  | notAnInput (name : String)
  | waveformIo (cause : String)
deriving DecidableEq, Repr

/-- The name of the kind of failure. -/
def SimError.kind : SimError → String
  | netlist .. => "Netlist"
  | unknownSignal .. => "UnknownSignal"
  | notAnInput .. => "NotAnInput"
  | waveformIo .. => "WaveformIo"

def SimError.message : SimError → String
  | netlist cause => "invalid netlist: " ++ cause.message
  | unknownSignal name => "no signal named `" ++ name ++ "`"
  | notAnInput name => "signal `" ++ name ++ "` is not an input"
  | waveformIo cause => "waveform I/O error: " ++ cause

/-- The word of each signal by its position. -/
abbrev Values := Array Word

/-- A signal outside the array reads as zero. -/
def Values.valuation (values : Values) : Valuation := fun i => values.getD i 0

structure Kernel where
  netlist : Netlist
  /-- The combinational drivers, each after those of the wires it reads. -/
  schedule : List Assign
  values : Values
  /-- Completed clock edges. -/
  cycle : Nat := 0
deriving Repr

namespace Kernel

/-- The value of a driver, cut to the width of its target. -/
def driven (n : Netlist) (values : Values) (a : Assign) : Except Fault Word := do
  return (← a.value.evalChecked values.valuation) &&& mask (n.widthOf a.target)

/-- Updates one driven wire. -/
def drive (n : Netlist) (values : Values) (a : Assign) : Except Fault Values := do
  return values.setIfInBounds a.target (← driven n values a)

/-- Updates every driven wire, in the order of the schedule. -/
def settle (k : Kernel) : Except Fault Kernel := do
  return { k with values := ← k.schedule.foldlM (drive k.netlist) k.values }

/-- Registers at their reset value, everything else at zero. -/
def resetValues (n : Netlist) : Values :=
  n.signals.items.map fun s => if s.isReg then s.init else 0

/-- A kernel in the settled reset state of a netlist that keeps the rules. -/
def new (n : Netlist) : Attempt SimError Kernel := do
  ExceptT.adapt SimError.netlist n.validate
  let order ← ExceptT.adapt SimError.netlist n.combOrder
  let schedule := order.filterMap fun i => n.comb[i]?
  Attempt.ofChecked (settle ⟨n, schedule, resetValues n, 0⟩)

def find? (k : Kernel) (name : String) : Option SignalId := k.netlist.find? name

/-- The signal of a name, which has to exist. -/
def lookup (k : Kernel) (name : String) : Attempt SimError SignalId :=
  match k.find? name with
  | some id => pure id
  | none => throw (.unknownSignal name)

def get (k : Kernel) (id : SignalId) : Except Fault Word :=
  match k.values[id]? with
  | some v => .ok v
  | none => .error (.noSuchIndex id)

/-- Sets an input and settles. -/
def set (k : Kernel) (id : SignalId) (v : Word) : Attempt SimError Kernel := do
  let s ← Attempt.ofChecked (k.netlist.signals.get id)
  if s.kind ≠ .input then throw (.notAnInput s.name)
  Attempt.ofChecked (settle { k with values := k.values.setIfInBounds id (v &&& mask s.width) })

/-- The next value of every driven register, from the values before the edge. -/
def nextState (k : Kernel) : Except Fault (List (SignalId × Word)) :=
  k.netlist.sync.mapM fun a => do return (a.target, ← driven k.netlist k.values a)

/-- One clock edge. -/
def tick (k : Kernel) : Except Fault Kernel := do
  let values := (← k.nextState).foldl (fun vs (id, v) => vs.setIfInBounds id v) k.values
  let k ← settle { k with values }
  return { k with cycle := k.cycle + 1 }

/-- The signals whose value is not the one it was before, with the new value. -/
def changes (k : Kernel) (before : Values) : List (SignalId × Word) :=
  (List.range k.values.size).filterMap fun i =>
    if before.getD i 0 ≠ k.values.getD i 0 then some (i, k.values.getD i 0) else none

end Kernel

end Interlock
