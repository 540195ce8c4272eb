import Interlock.Fault

/-! Append-only storage. An item is named by its position, which stays valid because nothing is ever
removed. -/

namespace Interlock

structure Arena (α : Type) where
  items : Array α := #[]
deriving DecidableEq, Repr

namespace Arena

instance : Inhabited (Arena α) := ⟨{}⟩

variable {α : Type}

def ofList (items : List α) : Arena α := ⟨items.toArray⟩

def toList (a : Arena α) : List α := a.items.toList

def size (a : Arena α) : Nat := a.items.size

def isEmpty (a : Arena α) : Bool := a.size == 0

/-- The position that the next item will have. -/
def nextId (a : Arena α) : Nat := a.size

/-- Appends an item that may depend on its own position. -/
def allocWith (a : Arena α) (build : Nat → α) : Nat × Arena α :=
  (a.nextId, ⟨a.items.push (build a.nextId)⟩)

def alloc (a : Arena α) (item : α) : Nat × Arena α := a.allocWith fun _ => item

def get? (a : Arena α) (id : Nat) : Option α := a.items[id]?

/-- The item at a position; a fault where there is none. -/
def get (a : Arena α) (id : Nat) : Except Fault α :=
  match a.get? id with
  | some x => .ok x
  | none => .error (.noSuchIndex id)

/-- Changes the item at a position; nothing happens where there is none. -/
def modify (a : Arena α) (id : Nat) (f : α → α) : Arena α := ⟨a.items.modify id f⟩

/-- Changes the item at a position; a fault where there is none. -/
def update (a : Arena α) (id : Nat) (f : α → α) : Except Fault (Arena α) :=
  if id < a.size then .ok (a.modify id f) else .error (.noSuchIndex id)

def ids (a : Arena α) : List Nat := List.range a.size

end Arena

end Interlock
