import Interlock.Json.Basic

/-! Control paths. Each chain of conditional arms takes the next number at its depth in a module, and
each arm the next number in its chain. The arms entered on the way to a place in the text are the
path of that place. -/

namespace Interlock

/-- A module is named by the order in which recording began. -/
abbrev ModuleId := Nat

/-- An arm of a chain: `alternative` numbers the arm, `parallel` the chain. -/
structure PathEdge where
  alternative : Nat
  parallel : Nat
deriving DecidableEq, Repr

structure ControlPath where
  module : ModuleId
  /-- From the outermost arm in. -/
  edges : List PathEdge := []
deriving DecidableEq, Repr

namespace ControlPath

/-- Whether two lists part at two arms of one chain. -/
def edgesExclusive : List PathEdge → List PathEdge → Bool
  | a :: as, b :: bs => if a = b then edgesExclusive as bs else a.parallel == b.parallel
  | _, _ => false

/-- Whether two places can never be active in one cycle: in the same module, the first arms in which
their paths differ belong to one chain. -/
def exclusiveWith (p q : ControlPath) : Bool :=
  p.module == q.module && edgesExclusive p.edges q.edges

def edgeJson (e : PathEdge) : Json :=
  .record [("alternative", .nat e.alternative), ("parallel", .nat e.parallel)]

def toJson (p : ControlPath) : Json :=
  .record [("module", .nat p.module), ("edges", .array (p.edges.map edgeJson))]

end ControlPath

/-- The path of the place that is being recorded, with the number of the next chain at every depth. -/
structure PathBuilder where
  module : ModuleId
  /-- The next chain number at the current depth. -/
  nextChain : Nat := 0
  /-- The arms entered, innermost first, each with the next chain number outside it. -/
  entered : List (PathEdge × Nat) := []
deriving DecidableEq, Repr

namespace PathBuilder

def depth (b : PathBuilder) : Nat := b.entered.length

/-- Takes the number of a new chain at the current depth. -/
def newChain (b : PathBuilder) : Nat × PathBuilder :=
  (b.nextChain, { b with nextChain := b.nextChain + 1 })

/-- Enters an arm; chains inside it are numbered from zero. -/
def push (b : PathBuilder) (parallel alternative : Nat) : PathBuilder :=
  { b with nextChain := 0, entered := (⟨alternative, parallel⟩, b.nextChain) :: b.entered }

/-- Leaves the innermost arm, if there is one. -/
def pop (b : PathBuilder) : PathBuilder :=
  match b.entered with
  | [] => b
  | (_, next) :: outer => { b with nextChain := next, entered := outer }

def current (b : PathBuilder) : ControlPath := ⟨b.module, (b.entered.map (·.1)).reverse⟩

end PathBuilder

end Interlock
