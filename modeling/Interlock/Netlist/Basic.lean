import Interlock.Arena
import Interlock.Digest
import Interlock.Expr.Substitute

/-! Flat netlists with a single clock: signals, a combinational driver for each driven wire and a
next-state driver for each driven register. -/

namespace Interlock

inductive SignalKind where
  /-- Set from outside. -/
  | input
  /-- Follows its combinational driver; zero without one. -/
  | wire
  /-- Keeps its value between clock edges. -/
  | reg
deriving DecidableEq, Repr

structure Signal where
  id : SignalId
  name : String
  width : Nat
  kind : SignalKind
  /-- The reset value of a register. -/
  init : Word
deriving DecidableEq, Repr

def Signal.isReg (s : Signal) : Bool := s.kind == .reg

/-- When an assignment takes effect: at once, or at the next clock edge. -/
inductive Domain where
  | comb | sync
deriving DecidableEq, Repr

structure Assign where
  target : SignalId
  value : Expr
deriving DecidableEq, Repr

structure Netlist where
  name : String
  signals : Arena Signal := {}
  comb : List Assign := []
  sync : List Assign := []
deriving DecidableEq, Repr

namespace Netlist

/-- Appends a signal; a reset value beyond its width is cut. -/
def addSignal (n : Netlist) (name : String) (width : Nat) (kind : SignalKind) (init : Word) :
    SignalId × Netlist :=
  let (id, signals) := n.signals.allocWith fun id => ⟨id, name, width, kind, init &&& mask width⟩
  (id, { n with signals })

/-- The declared width of a signal; zero for one that does not exist. -/
def widthOf (n : Netlist) (id : SignalId) : Nat :=
  match n.signals.get? id with
  | some s => s.width
  | none => 0

/-- Reads a signal at its declared width. -/
def read (n : Netlist) (id : SignalId) : Expr := .signal id (n.widthOf id)

/-- The first signal of this name. -/
def find? (n : Netlist) (name : String) : Option SignalId :=
  n.signals.toList.findIdx? fun s => s.name == name

def combDriver? (n : Netlist) (id : SignalId) : Option Expr :=
  (n.comb.find? fun a => a.target == id).map (·.value)

def syncDriver? (n : Netlist) (id : SignalId) : Option Expr :=
  (n.sync.find? fun a => a.target == id).map (·.value)

def countKind (n : Netlist) (kind : SignalKind) : Nat :=
  (n.signals.toList.filter fun s => s.kind == kind).length

end Netlist

end Interlock
