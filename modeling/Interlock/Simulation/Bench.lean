import Interlock.Simulation.Kernel
import Interlock.Simulation.Vcd

/-! A kernel with a recorder attached to it. The kernel always moves first; what the recorder does,
and whether it fails, has no influence on it. -/

namespace Interlock

structure Bench (ρ σ : Type) where
  kernel : Kernel
  recorder : Option ρ := none
  outlet : σ

namespace Bench

variable {ρ σ : Type} [Recorder ρ σ]

/-- Tells a recorder of changes in one cycle, up to the first failure. -/
def report (cycle : Nat) : List (SignalId × Word) → ρ → σ → Reply ρ σ
  | [], r, out => ⟨r, out, none⟩
  | (id, v) :: rest, r, out =>
    match Recorder.change cycle id v r out with
    | ⟨r, out, none⟩ => report cycle rest r out
    | failed => failed

/-- Registers signals with a recorder, up to the first failure. -/
def introduce : List Signal → ρ → σ → Reply ρ σ
  | [], r, out => ⟨r, out, none⟩
  | s :: rest, r, out =>
    match Recorder.register s.id s.name s.width r out with
    | ⟨r, out, none⟩ => introduce rest r out
    | failed => failed

/-- Registers every signal and records all current values. -/
def greet (k : Kernel) (r : ρ) (out : σ) : Reply ρ σ :=
  match introduce k.netlist.signals.toList r out with
  | ⟨r, out, none⟩ => report k.cycle (k.values.toList.mapIdx fun i v => (i, v)) r out
  | failed => failed

def failureOf (reply : Reply ρ σ) : Option SimError := reply.failure.map .waveformIo

/-- Attaches a recorder in place of the one before; if the recorder fails, that one stays. -/
def attach (b : Bench ρ σ) (r : ρ) : Bench ρ σ × Option SimError :=
  let reply := greet b.kernel r b.outlet
  match reply.failure with
  | none => ({ b with recorder := some reply.recorder, outlet := reply.outlet }, none)
  | some cause => ({ b with outlet := reply.outlet }, some (.waveformIo cause))

/-- Finishes the attached recorder. -/
def finish (b : Bench ρ σ) : Bench ρ σ × Option SimError :=
  match b.recorder with
  | none => (b, none)
  | some r =>
    let reply := Recorder.finish r b.outlet
    ({ b with recorder := some reply.recorder, outlet := reply.outlet }, failureOf reply)

/-- One clock edge, then a report of what it changed. -/
def tick (b : Bench ρ σ) : Except Fault (Bench ρ σ × Option SimError) := do
  let kernel ← b.kernel.tick
  match b.recorder with
  | none => return ({ b with kernel }, none)
  | some r =>
    let reply := report kernel.cycle (kernel.changes b.kernel.values) r b.outlet
    return (⟨kernel, some reply.recorder, reply.outlet⟩, failureOf reply)

/-- Clock edges up to the first failure of the recorder. -/
def run : Nat → Bench ρ σ → Except Fault (Bench ρ σ × Option SimError)
  | 0, b => .ok (b, none)
  | n + 1, b => do
    match ← b.tick with
    | (b, none) => run n b
    | failed => return failed

/-- Sets an input and settles; the recorder is not told. -/
def set (b : Bench ρ σ) (id : SignalId) (v : Word) : Attempt SimError (Bench ρ σ) := do
  return { b with kernel := ← b.kernel.set id v }

def setByName (b : Bench ρ σ) (name : String) (v : Word) : Attempt SimError (Bench ρ σ) := do
  b.set (← b.kernel.lookup name) v

def getByName (b : Bench ρ σ) (name : String) : Attempt SimError Word := do
  Attempt.ofChecked (b.kernel.get (← b.kernel.lookup name))

def settle (b : Bench ρ σ) : Except Fault (Bench ρ σ) := do
  return { b with kernel := ← b.kernel.settle }

end Bench

end Interlock
