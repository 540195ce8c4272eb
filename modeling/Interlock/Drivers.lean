import Interlock.Design.Basic
import Interlock.Netlist.Check

/-! From guarded assignments to the drivers of a netlist. Where several assignments to a signal are in
force the last one counts; where none is, a wire is zero and a register keeps its value. -/

namespace Interlock.Drivers

/-- What a signal is where no assignment to it is in force. -/
def fallback (n : Netlist) (target : SignalId) : Domain → Expr
  | .comb => .zero (n.widthOf target)
  | .sync => n.read target

/-- Puts an assignment over those before it. -/
def override (width : Nat) (acc : Expr) (a : GuardedAssign) : Expr :=
  .select a.guard (a.value.resize width) acc

/-- The driver of a signal from its assignments in one domain. -/
def driver (n : Netlist) (assigns : List GuardedAssign) (domain : Domain) (target : SignalId) :
    Assign :=
  let own := assigns.filter fun a => a.target == target && a.domain == domain
  ⟨target, own.foldl (override (n.widthOf target)) (fallback n target domain)⟩

/-- The signals with assignments in a domain, in ascending order. -/
def targets (n : Netlist) (assigns : List GuardedAssign) (domain : Domain) : List SignalId :=
  (List.range n.signals.size).filter fun id =>
    assigns.any fun a => a.target == id && a.domain == domain

/-- The netlist with one driver for each assigned signal. -/
def build (n : Netlist) (assigns : List GuardedAssign) : Netlist :=
  { n with
    comb := n.comb ++ (targets n assigns .comb).map (driver n assigns .comb)
    sync := n.sync ++ (targets n assigns .sync).map (driver n assigns .sync) }

/-- Reports a loop at the first signal on it that belongs to a node. -/
def errorOf (n : Netlist) (owner : SignalId → Option Location) : NetlistError → DesignError
  | .combLoop names =>
    .combinationalCycle names ((names.findSome? fun name => n.find? name >>= owner).getD .generated)
  | other => .internal other.message

/-- The netlist, which has to keep the rules of netlists. -/
def lower (n : Netlist) (assigns : List GuardedAssign) (owner : SignalId → Option Location) :
    Attempt DesignError Netlist := do
  let n := build n assigns
  ExceptT.adapt (errorOf n owner) (do
    n.validate
    let _ ← n.combOrder)
  return n

end Interlock.Drivers
