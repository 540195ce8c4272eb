import Interlock.Expr.Basic

/-! Constructors that fold constant operands, so that generated logic has no `1 & x` or constant
selects left in it. Each stands for the plain node of its operator. -/

namespace Interlock.Expr

/-- A literal; bits above its width are dropped. -/
def constant (value : Word) (width : Nat) : Expr := const (value &&& mask width) width

def bit (b : Bool) : Expr := constant b.toUInt64 1

def one : Expr := bit true

def zero (width : Nat) : Expr := constant 0 width

/-- Bits `high` down to `low`; the expression itself where these are all its bits. -/
def bits (e : Expr) (high low : Nat) : Expr :=
  if low = 0 ∧ high + 1 = e.width then e else slice e high low

/-- Parts from the least significant one up; a single part stands for itself. -/
def join : List Expr → Expr
  | [] => zero 0
  | [p] => p
  | ps => concat ps

/-- Zero-extends or truncates to exactly `w` bits. -/
def resize (e : Expr) (w : Nat) : Expr :=
  if e.width = w then e
  else if w < e.width then if w = 0 then zero 0 else e.bits (w - 1) 0
  else match e.asConst with
    | some v => constant v w
    | none => concat [e, zero (w - e.width)]

def and (a b : Expr) : Expr :=
  let w := max a.width b.width
  if a.isConstZero || b.isConstZero then zero w
  else if a.isConstOnes && a.width == w then b.resize w
  else if b.isConstOnes && b.width == w then a.resize w
  else if a = b then a
  else binary .and a b

def or (a b : Expr) : Expr :=
  let w := max a.width b.width
  if a.isConstZero && a.width ≤ b.width then b
  else if b.isConstZero && b.width ≤ a.width then a
  else if (a.isConstOnes && a.width == w) || (b.isConstOnes && b.width == w) then constant (mask 64) w
  else if a = b then a
  else binary .or a b

def not : Expr → Expr
  | const v w => constant (~~~v) w
  | unary .not e => e
  | e => unary .not e

def xor (a b : Expr) : Expr := binary .xor a b

def add (a b : Expr) : Expr := binary .add a b

def sub (a b : Expr) : Expr := binary .sub a b

def equals (a b : Expr) : Expr := binary .eq a b

def notEquals (a b : Expr) : Expr := binary .ne a b

def lessThan (a b : Expr) : Expr := binary .lt a b

/-- A single bit: whether any bit is set. -/
def anyBit (e : Expr) : Expr :=
  if e.width = 1 then e
  else match e.asConst with
    | some v => bit (v != 0)
    | none => unary .redOr e

/-- `onTrue` where `sel` is not zero, else `onFalse`. -/
def select (sel onTrue onFalse : Expr) : Expr :=
  match sel.asConst with
  | some v => if v ≠ 0 then onTrue else onFalse
  | none => if onTrue = onFalse then onTrue else mux sel onTrue onFalse

/-- The OR of all items; a zero bit for none. -/
def any (items : List Expr) : Expr := items.foldl or (bit false)

/-- The AND of all items; a one bit for none. -/
def all (items : List Expr) : Expr := items.foldl and one

end Interlock.Expr
