import Interlock.Fault

/-! A table of distinct names. A name is known by its position; `fresh` finds one that is not taken
yet by adding a number. -/

namespace Interlock

structure Names where
  /-- The names in the order in which they were added, without repetition. -/
  taken : List String := []
deriving DecidableEq, Repr, Inhabited

namespace Names

def size (t : Names) : Nat := t.taken.length

def find? (t : Names) (name : String) : Option Nat := t.taken.idxOf? name

/-- The position of a name, which is added if it is new. -/
def intern (t : Names) (name : String) : Nat × Names :=
  match t.find? name with
  | some i => (i, t)
  | none => (t.size, ⟨t.taken ++ [name]⟩)

/-- `base`, `base_1`, `base_2` and so on. -/
def candidate (base : String) : Nat → String
  | 0 => base
  | n + 1 => base ++ "_" ++ toString (n + 1)

/-- The first candidate that is not taken. Among one more than there are names, one is free. -/
def freshName (t : Names) (base : String) : String :=
  ((List.range (t.size + 1)).findSome? fun n =>
    let name := candidate base n
    if name ∈ t.taken then none else some name).getD base

/-- Adds a name that was not there before. -/
def fresh (t : Names) (base : String) : Nat × Names := t.intern (t.freshName base)

def resolve (t : Names) (i : Nat) : Except Fault String :=
  match t.taken[i]? with
  | some name => .ok name
  | none => .error (.noSuchIndex i)

def render (t : Names) : String := "Interner \x7b len: " ++ toString t.size ++ " \x7d"

end Names

end Interlock
