/-! Places in the text of a design. -/

namespace Interlock

structure Location where
  file : String
  line : Nat
  column : Nat
deriving DecidableEq, Repr

namespace Location

/-- Stands for what the elaborator has made itself. -/
def generated : Location := ⟨"<generated>", 0, 0⟩

/-- Stands for calls that this library makes on behalf of a design. -/
def library : Location := ⟨"<library>", 1, 1⟩

instance : Inhabited Location := ⟨generated⟩

/-- No text has a line zero. -/
def isGenerated (l : Location) : Bool := l.line == 0

def render (l : Location) : String := l.file ++ ":" ++ toString l.line ++ ":" ++ toString l.column

end Location

end Interlock
