import Interlock.Expr.Codec
import Interlock.Netlist.Basic

/-! Netlists as JSON. -/

namespace Interlock

namespace Arena

def toJson (item : α → Json) (a : Arena α) : Json :=
  .record [("items", .array (a.toList.map item))]

def ofJson? (item : Nat → Json → Option α) (depth : Nat) (j : Json) : Option (Arena α) := do
  let [items] ← j.openRecord? depth ["items"] | none
  return .ofList (← (← items.openList? (depth - 1)).mapM (item (depth - 2)))

end Arena

namespace SignalKind

def name : SignalKind → String
  | .input => "Input"
  | .wire => "Wire"
  | .reg => "Reg"

def ofName? (name : String) : Option SignalKind :=
  [input, wire, reg].find? (·.name == name)

end SignalKind

namespace Signal

def toJson (s : Signal) : Json :=
  .record [("id", .nat s.id), ("name", .text s.name), ("width", .nat s.width),
    ("kind", .text s.kind.name), ("init", .nat s.init.toNat)]

def ofJson? (depth : Nat) (j : Json) : Option Signal := do
  let [id, name, width, kind, init] ←
    j.openRecord? depth ["id", "name", "width", "kind", "init"] | none
  return ⟨← id.toCount?, ← name.toText?, ← width.toCount?,
    ← (← kind.toName? (depth - 1)) |> SignalKind.ofName?, ← init.toWord?⟩

end Signal

namespace Assign

def toJson (a : Assign) : Json := .record [("target", .nat a.target), ("value", a.value.toJson)]

def ofJson? (depth : Nat) (j : Json) : Option Assign := do
  let [target, value] ← j.openRecord? depth ["target", "value"] | none
  return ⟨← target.toCount?, ← Expr.ofJson? (depth - 1) value⟩

end Assign

namespace Netlist

def toJson (n : Netlist) : Json :=
  .record [("name", .text n.name), ("signals", n.signals.toJson Signal.toJson),
    ("comb", .array (n.comb.map Assign.toJson)), ("sync", .array (n.sync.map Assign.toJson))]

def ofJson? (depth : Nat) (j : Json) : Option Netlist := do
  let [name, signals, comb, sync] ← j.openRecord? depth ["name", "signals", "comb", "sync"] | none
  return {
    name := ← name.toText?
    signals := ← Arena.ofJson? Signal.ofJson? (depth - 1) signals
    comb := ← (← comb.openList? (depth - 1)).mapM (Assign.ofJson? (depth - 2))
    sync := ← (← sync.openList? (depth - 1)).mapM (Assign.ofJson? (depth - 2)) }

/-- The compact JSON text. -/
def encode (n : Netlist) : String := n.toJson.compact

def decode? (text : String) : Option Netlist :=
  (Json.read? text.toList).bind (ofJson? Json.depthLimit)

end Netlist

end Interlock
