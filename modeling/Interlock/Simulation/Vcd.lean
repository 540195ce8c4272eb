import Interlock.Word
import Interlock.Expr.Basic

/-! What a waveform recorder has to offer, a text outlet for recorders to write to, and waveforms as
value change dumps. The definitions of all signals are written ahead of the first change, and a
timestamp whenever the cycle differs from that of the change before. -/

namespace Interlock

/-- The recorder and its outlet after a call, and the text of the failure if the call failed. -/
structure Reply (ρ σ : Type) where
  recorder : ρ
  outlet : σ
  failure : Option String := none

/-- A recorder with state `ρ` that writes to an outlet `σ`. Any call may fail. -/
class Recorder (ρ σ : Type) where
  register : SignalId → String → Nat → ρ → σ → Reply ρ σ
  change : Nat → SignalId → Word → ρ → σ → Reply ρ σ
  finish : ρ → σ → Reply ρ σ

/-- An outlet that collects what is written, or refuses to. -/
structure Outlet where
  text : String := ""
  refusing : Bool := false
deriving DecidableEq, Repr, Inhabited

structure VcdRecorder where
  scope : String
  /-- Registered signals with name and width. -/
  vars : List (SignalId × String × Nat) := []
  /-- The cycle of the last change. -/
  cycle : Option Nat := none
deriving DecidableEq, Repr

namespace VcdRecorder

/-- The digits of a number in bijective base 94, the least significant first, as printable
characters from `!` on. -/
def idCode (index : Nat) : List Char :=
  Char.ofNat (33 + index % 94) :: if index / 94 = 0 then [] else idCode (index / 94 - 1)
termination_by index
decreasing_by omega

def varLine (index : Nat) (name : String) (width : Nat) : String :=
  "$var wire " ++ toString width ++ " " ++ String.ofList (idCode index) ++ " " ++ name ++ " $end\n"

/-- The header: scale, scope and one line for each signal. -/
def definitions (r : VcdRecorder) : String :=
  "$timescale 1ns $end\n$scope module " ++ r.scope ++ " $end\n"
    ++ String.join (r.vars.mapIdx fun i (_, name, width) => varLine i name width)
    ++ "$upscope $end\n$enddefinitions $end\n"

/-- Binary digits without leading zeros. -/
def binary (v : Word) : String := String.ofList (Nat.toDigits 2 v.toNat)

/-- Single bits are written without a base. -/
def changeLine (index width : Nat) (v : Word) : String :=
  let code := String.ofList (idCode index)
  if width = 1 then toString (v &&& 1).toNat ++ code ++ "\n" else "b" ++ binary v ++ " " ++ code ++ "\n"

/-- What has to be written for a change; nothing for a signal that is not registered. -/
def changeText? (r : VcdRecorder) (cycle : Nat) (id : SignalId) (v : Word) : Option String := do
  let index ← r.vars.findIdx? fun x => x.1 == id
  let (_, _, width) ← r.vars[index]?
  let header := if r.cycle.isNone then r.definitions else ""
  let stamp := if r.cycle = some cycle then "" else "#" ++ toString cycle ++ "\n"
  return header ++ stamp ++ changeLine index width v

/-- The failure of an outlet that refuses. -/
def refusal : String := "disk full"

def registerVar (id : SignalId) (name : String) (width : Nat) (r : VcdRecorder) : VcdRecorder :=
  { r with vars := r.vars ++ [(id, name, width)] }

def recordChange (cycle : Nat) (id : SignalId) (v : Word) (r : VcdRecorder) (out : Outlet) :
    Reply VcdRecorder Outlet :=
  match r.changeText? cycle id v with
  | none => ⟨r, out, none⟩
  | some text =>
    if out.refusing then ⟨r, out, some refusal⟩
    else ⟨{ r with cycle := some cycle }, { out with text := out.text ++ text }, none⟩

/-- Flushes; the header is written first if nothing has been recorded yet. -/
def finalize (r : VcdRecorder) (out : Outlet) : Reply VcdRecorder Outlet :=
  if out.refusing then ⟨r, out, some refusal⟩
  else ⟨r, { out with text := out.text ++ if r.cycle.isNone then r.definitions else "" }, none⟩

instance : Recorder VcdRecorder Outlet where
  register id name width r out := ⟨r.registerVar id name width, out, none⟩
  change := recordChange
  finish := finalize

end VcdRecorder

end Interlock
