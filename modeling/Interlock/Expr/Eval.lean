import Interlock.Expr.Basic
import Interlock.Fault

/-! Values of expressions under a valuation of the signals. `eval` is total; `evalChecked` gives the
same value, or a fault where it would have to use the width of an operand that has none. -/

namespace Interlock

/-- The word held by each signal. -/
abbrev Valuation := SignalId → Word

/-- The value of a unary operator on a `width`-bit operand. -/
def UnaryOp.apply (op : UnaryOp) (v : Word) (width : Nat) : Word :=
  match op with
  | .not => ~~~v &&& mask width
  | .neg => -v &&& mask width
  | .redAnd => (v == mask width).toUInt64
  | .redOr => (v != 0).toUInt64
  | .redXor => (oddBits v 64).toUInt64

/-- The value of a binary operator whose wider operand has `width` bits. -/
def BinaryOp.apply (op : BinaryOp) (l r : Word) (width : Nat) : Word :=
  match op with
  | .add => (l + r) &&& mask width
  | .sub => (l - r) &&& mask width
  | .and => l &&& r
  | .or => l ||| r
  | .xor => l ^^^ r
  | .eq => (l == r).toUInt64
  | .ne => (l != r).toUInt64
  | .lt => (decide (l < r)).toUInt64
  | .le => (decide (l ≤ r)).toUInt64
  | .gt => (decide (l > r)).toUInt64
  | .ge => (decide (l ≥ r)).toUInt64

namespace Expr

/-- Bits `high` down to `low` of a word. -/
def cut (v : Word) (high low : Nat) : Word :=
  if 64 ≤ low then 0 else (v >>> UInt64.ofNat low) &&& mask (high + 1 - low)

/-- A part that starts at bit `offset`; bits beyond the word are lost. -/
def place (v : Word) (offset : Nat) : Word := if offset < 64 then v <<< UInt64.ofNat offset else 0

mutual
/-- The value of an expression; a signal is read at the width of the occurrence. -/
def eval (σ : Valuation) : Expr → Word
  | const v _ => v
  | signal i w => σ i &&& mask w
  | unary op e => op.apply (e.eval σ) e.width
  | binary op a b => op.apply (a.eval σ) (b.eval σ) (max a.width b.width)
  | mux s t f => if s.eval σ ≠ 0 then t.eval σ else f.eval σ
  | slice b high low => cut (b.eval σ) high low
  | concat ps => evalParts σ ps 0

/-- The parts, the first of them from bit `offset` up. -/
def evalParts (σ : Valuation) : List Expr → Nat → Word
  | [], _ => 0
  | p :: ps, offset => place (p.eval σ) offset ||| evalParts σ ps (offset + p.width)
end

/-- Refuses an expression that has no width. -/
def ensureSized (e : Expr) : Except Fault Unit :=
  if e.sized then .ok () else .error .undefinedWidth

mutual
def evalChecked (σ : Valuation) : Expr → Except Fault Word
  | const v _ => .ok v
  | signal i w => .ok (σ i &&& mask w)
  | unary op e => do
    ensureSized e
    return op.apply (← e.evalChecked σ) e.width
  | binary op a b => do
    ensureSized a
    ensureSized b
    return op.apply (← a.evalChecked σ) (← b.evalChecked σ) (max a.width b.width)
  | mux s t f => do
    if (← s.evalChecked σ) ≠ 0 then t.evalChecked σ else f.evalChecked σ
  | slice b high low => do
    let v ← b.evalChecked σ
    if low < 64 then ensureSized (slice b high low)
    return cut v high low
  | concat ps => do
    ensureSized (concat ps)
    evalPartsChecked σ ps 0

def evalPartsChecked (σ : Valuation) : List Expr → Nat → Except Fault Word
  | [], _ => .ok 0
  | p :: ps, offset => do
    let v ← if offset < 64 then p.evalChecked σ else .ok 0
    return place v offset ||| (← evalPartsChecked σ ps (offset + p.width))
end

end Expr

end Interlock
