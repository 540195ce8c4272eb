import Interlock.Digraph.Sort
import Interlock.Expr.Eval
import Interlock.Netlist.Basic

/-! The rules that a netlist keeps: nothing is wider than 64 bits, each signal has at most one driver
and that in the domain of its kind, and combinational drivers can be put in an order in which each
comes after the wires it reads. -/

namespace Interlock

inductive NetlistError where
  | multipleDrivers (name : String)
  | drivenInput (name : String)
  | wrongDomain (name : String)
  | tooWide (name : String) (width : Nat)
  | combLoop (names : List String)
deriving DecidableEq, Repr

/-- The name of the rule that is broken. -/
def NetlistError.kind : NetlistError → String
  | multipleDrivers .. => "MultipleDrivers"
  | drivenInput .. => "DrivenInput"
  | wrongDomain .. => "WrongDomain"
  | tooWide .. => "TooWide"
  | combLoop .. => "CombLoop"

def NetlistError.message : NetlistError → String
  | multipleDrivers name => "signal `" ++ name ++ "` has more than one driver"
  | drivenInput name => "input `" ++ name ++ "` is driven inside the netlist"
  | wrongDomain name => "signal `" ++ name ++ "` is driven in the wrong domain"
  | tooWide name width =>
    "signal `" ++ name ++ "` is " ++ toString width ++ " bits wide (at most 64 supported)"
  | combLoop names => "combinational loop through " ++ " -> ".intercalate names

namespace Netlist

def checkWidths : List Signal → Except NetlistError Unit
  | [] => .ok ()
  | s :: rest => if maxWidth < s.width then .error (.tooWide s.name s.width) else checkWidths rest

/-- The domain in which signals of a kind may be driven. -/
def SignalKind.accepts : SignalKind → Domain → Bool
  | .wire, .comb | .reg, .sync => true
  | _, _ => false

/-- Checks one driver, given the signals driven before it. -/
def checkDriver (n : Netlist) (driven : List SignalId) (domain : Domain) (a : Assign) :
    Attempt NetlistError Unit := do
  let s ← Attempt.ofChecked (n.signals.get a.target)
  if a.target ∈ driven then throw (.multipleDrivers s.name)
  if s.kind = .input then throw (.drivenInput s.name)
  if !SignalKind.accepts s.kind domain then throw (.wrongDomain s.name)
  Attempt.ofChecked a.value.ensureSized
  if maxWidth < a.value.width then throw (.tooWide s.name a.value.width)

def checkDrivers (n : Netlist) : List SignalId → List (Domain × Assign) → Attempt NetlistError Unit
  | _, [] => pure ()
  | driven, (domain, a) :: rest => do
    n.checkDriver driven domain a
    n.checkDrivers (a.target :: driven) rest

/-- Every driver with its domain, combinational ones first. -/
def drivers (n : Netlist) : List (Domain × Assign) :=
  n.comb.map (Domain.comb, ·) ++ n.sync.map (Domain.sync, ·)

def validate (n : Netlist) : Attempt NetlistError Unit := do
  Attempt.ofExcept (checkWidths n.signals.toList)
  n.checkDrivers [] n.drivers

/-- An edge from each driven wire to the wires whose drivers read it. -/
def dependencies (n : Netlist) : Digraph Unit :=
  let targets := n.comb.map (·.target)
  n.comb.foldl (fun g a =>
    (a.value.signals.filter (· ∈ targets)).foldl (fun g dep => g.addEdge dep a.target ()) g)
    (Digraph.ofNodes targets)

/-- The position of the last driver of a wire in `comb`. -/
def lastDriver (n : Netlist) (id : SignalId) : Nat :=
  n.comb.length - 1 - (n.comb.reverse.map (·.target)).idxOf id

/-- Positions in `comb`, each after those of the wires it reads. -/
def combOrder (n : Netlist) : Attempt NetlistError (List Nat) := do
  match n.dependencies.topologicalOrder with
  | .ok order => return order.map n.lastDriver
  | .error culprit =>
    let members ← (n.dependencies.component culprit).mapM fun id =>
      Attempt.ofChecked (n.signals.get id)
    throw (.combLoop ((members.map (·.name)).mergeSort (· ≤ ·)))

end Netlist

end Interlock
