import Interlock.Design.Error
import Interlock.Expr.Checked
import Interlock.Json.Basic

/-! Shapes of method arguments and results: named bit fields, packed from the least significant bit
up. -/

namespace Interlock

structure Field where
  name : String
  width : Nat
deriving DecidableEq, Repr

structure Layout where
  fields : List Field := []
deriving DecidableEq, Repr, Inhabited

namespace Layout

def empty : Layout := {}

/-- A single field. -/
def bits (width : Nat) : Layout := ⟨[⟨"data", width⟩]⟩

def totalWidth : List Field → Nat
  | [] => 0
  | f :: rest => f.width + totalWidth rest

def width (l : Layout) : Nat := totalWidth l.fields

def isEmpty (l : Layout) : Bool := l.width == 0

def offsetIn (name : String) : List Field → Nat → Option (Nat × Nat)
  | [], _ => none
  | f :: rest, low => if f.name = name then some (low, f.width) else offsetIn name rest (low + f.width)

/-- The lowest bit and the width of the first field of this name. -/
def offset? (l : Layout) (name : String) : Option (Nat × Nat) := offsetIn name l.fields 0

/-- The value of a field in a packed value. -/
def get? (l : Layout) (packed : Expr) (name : String) : Option Expr := do
  let (low, width) ← l.offset? name
  return if width = 0 then .zero 0 else (packed.resize l.width).bits (low + width - 1) low

/-- The value given for a field, at its width; zero if none is given. -/
def fieldValue (values : List (String × Expr)) (f : Field) : Expr :=
  match values.lookup f.name with
  | some v => v.resize f.width
  | none => .zero f.width

/-- All fields with a width, packed. -/
def pack (l : Layout) (values : List (String × Expr)) : Expr :=
  .join ((l.fields.filter fun f => 0 < f.width).map (fieldValue values))

/-! The same for layouts and values of unknown origin. -/

/-- Refuses a layout whose width does not fit 32 bits. -/
def ensureSized (l : Layout) : Except Fault Unit :=
  if l.width < wordLimit then .ok () else .error .undefinedWidth

def checkedWidth (l : Layout) : Except Fault Nat := do
  l.ensureSized
  return l.width

def checkedOffset? (l : Layout) (name : String) : Except Fault (Option (Nat × Nat)) :=
  match l.offset? name with
  | some (low, width) => if low < wordLimit then .ok (some (low, width)) else .error .undefinedWidth
  | none => do
    l.ensureSized
    return none

def checkedGet? (l : Layout) (packed : Expr) (name : String) : Except Fault (Option Expr) := do
  match ← l.checkedOffset? name with
  | some (_, width) =>
    if width ≠ 0 then
      l.ensureSized
      packed.ensureSized
  | none => pure ()
  return l.get? packed name

/-- Refuses a value for a field that the layout does not have. -/
def checkNames (l : Layout) (loc : Location) : List (String × Expr) → Attempt DesignError Unit
  | [] => pure ()
  | (name, _) :: rest => do
    if (← Attempt.ofChecked (l.checkedOffset? name)).isNone then
      throw (.usage ("layout has no field `" ++ name ++ "`") loc)
    l.checkNames loc rest

def checkedPack (l : Layout) (values : List (String × Expr)) (loc : Location) :
    Attempt DesignError Expr := do
  l.checkNames loc values
  for f in l.fields do
    if f.width ≠ 0 then
      if let some v := values.lookup f.name then Attempt.ofChecked v.ensureSized
  return l.pack values

/-- Refuses a layout that does not fit a signal. -/
def checkWidth (l : Layout) (what : String) (loc : Location) : Attempt DesignError Unit := do
  let width ← Attempt.ofChecked l.checkedWidth
  if maxWidth < width then throw (.tooWide what width loc)

def toJson (l : Layout) : Json :=
  .record [("fields", .array (l.fields.map fun f =>
    .record [("name", .text f.name), ("width", .nat f.width)]))]

end Layout

end Interlock
