import Interlock.Location

/-! Diagnostics: a severity, a stable code, a message with its place, related places, notes and
suggestions. -/

namespace Interlock

inductive Severity where
  | note | warning | error
deriving DecidableEq, Repr

namespace Severity

def rank : Severity → Nat
  | note => 0
  | warning => 1
  | error => 2

/-- The word that opens a diagnostic. -/
def word : Severity → String
  | note => "note"
  | warning => "warning"
  | error => "error"

/-- The variant's name, as in JSON. -/
def name : Severity → String
  | note => "Note"
  | warning => "Warning"
  | error => "Error"

def ofName? (name : String) : Option Severity := [note, warning, error].find? (·.name == name)

def max (a b : Severity) : Severity := if a.rank ≤ b.rank then b else a

/-- The greatest severity of a list. -/
def worst? : List Severity → Option Severity
  | [] => none
  | s :: rest => some (rest.foldl max s)

end Severity

inductive Category where
  | error | warning | note
deriving DecidableEq, Repr

namespace Category

def letter : Category → String
  | error => "E"
  | warning => "W"
  | note => "N"

def name : Category → String
  | error => "Error"
  | warning => "Warning"
  | note => "Note"

def ofName? (name : String) : Option Category := [error, warning, note].find? (·.name == name)

end Category

structure Code where
  category : Category
  number : Nat
deriving DecidableEq, Repr

/-- A number in at least three digits. -/
def threeDigits (n : Nat) : String :=
  (if n < 10 then "00" else if n < 100 then "0" else "") ++ toString n

def Code.render (c : Code) : String := c.category.letter ++ threeDigits c.number

inductive LabelStyle where
  | primary | secondary
deriving DecidableEq, Repr

namespace LabelStyle

def mark : LabelStyle → String
  | primary => "^"
  | secondary => "-"

def name : LabelStyle → String
  | primary => "Primary"
  | secondary => "Secondary"

def ofName? (name : String) : Option LabelStyle := [primary, secondary].find? (·.name == name)

end LabelStyle

/-- A related place and what it has to do with the diagnostic. -/
structure Label where
  loc : Location
  message : String
  style : LabelStyle
deriving DecidableEq, Repr

structure Diagnostic where
  severity : Severity
  code : Code
  message : String
  loc : Location
  labels : List Label := []
  notes : List String := []
  help : List String := []
deriving DecidableEq, Repr

end Interlock
