import Interlock.Word

/-! Combinational expressions over the signals of a netlist, and their widths. Operands of different
widths are zero-extended to the wider one. An expression may be given a reversed slice or a
concatenation whose width does not fit 32 bits; `sized` tells whether asking for the width of an
expression meets such a part. -/

namespace Interlock

/-- A signal is named by its position in its netlist. -/
abbrev SignalId := Nat

inductive UnaryOp where
  | not | neg | redAnd | redOr | redXor
deriving DecidableEq, Repr

inductive BinaryOp where
  | add | sub | and | or | xor | eq | ne | lt | le | gt | ge
deriving DecidableEq, Repr

/-- The result of a reduction is a single bit. -/
def UnaryOp.isReduction : UnaryOp → Bool
  | .not | .neg => false
  | .redAnd | .redOr | .redXor => true

/-- The result of a comparison is a single bit. -/
def BinaryOp.isComparison : BinaryOp → Bool
  | .add | .sub | .and | .or | .xor => false
  | .eq | .ne | .lt | .le | .gt | .ge => true

inductive Expr where
  | const (value : Word) (width : Nat)
  | signal (id : SignalId) (width : Nat)
  | unary (op : UnaryOp) (operand : Expr)
  | binary (op : BinaryOp) (lhs rhs : Expr)
  /-- `onTrue` where `sel` is not zero, else `onFalse`. -/
  | mux (sel onTrue onFalse : Expr)
  /-- Bits `high` down to `low`, both included. -/
  | slice (base : Expr) (high low : Nat)
  /-- Parts from the least significant one up. -/
  | concat (parts : List Expr)
deriving Repr

instance : Inhabited Expr := ⟨.const 0 0⟩

namespace Expr

mutual
def beq : Expr → Expr → Bool
  | const v w, const v' w' => v == v' && w == w'
  | signal i w, signal i' w' => i == i' && w == w'
  | unary o e, unary o' e' => o == o' && beq e e'
  | binary o a b, binary o' a' b' => o == o' && beq a a' && beq b b'
  | mux s t f, mux s' t' f' => beq s s' && beq t t' && beq f f'
  | slice b h l, slice b' h' l' => beq b b' && h == h' && l == l'
  | concat ps, concat ps' => beqAll ps ps'
  | _, _ => false

def beqAll : List Expr → List Expr → Bool
  | [], [] => true
  | p :: ps, p' :: ps' => beq p p' && beqAll ps ps'
  | _, _ => false
end

mutual
theorem beq_iff (a b : Expr) : beq a b = true ↔ a = b := by
  cases a with
  | const v w => cases b <;> simp [beq]
  | signal i w => cases b <;> simp [beq]
  | unary o e =>
    cases b <;> simp [beq]
    rw [beq_iff e]
    exact fun _ => Iff.rfl
  | binary o l r =>
    cases b <;> simp [beq]
    rw [beq_iff l, beq_iff r]
    exact and_assoc
  | mux s t f =>
    cases b <;> simp [beq]
    rw [beq_iff s, beq_iff t, beq_iff f]
    exact and_assoc
  | slice e h l =>
    cases b <;> simp [beq]
    rw [beq_iff e]
    exact and_assoc
  | concat ps =>
    cases b <;> simp [beq]
    exact beqAll_iff ps _

theorem beqAll_iff (as bs : List Expr) : beqAll as bs = true ↔ as = bs := by
  cases as with
  | nil => cases bs <;> simp [beqAll]
  | cons a as =>
    cases bs with
    | nil => simp [beqAll]
    | cons b bs => simp [beqAll, beq_iff a b, beqAll_iff as bs]
end

instance : DecidableEq Expr := fun a b => decidable_of_iff _ (beq_iff a b)

/-- To show a property of every expression, show it of each form from its parts. -/
@[induction_eliminator]
theorem induct {motive : Expr → Prop}
    (const : ∀ v w, motive (.const v w)) (signal : ∀ i w, motive (.signal i w))
    (unary : ∀ op e, motive e → motive (.unary op e))
    (binary : ∀ op a b, motive a → motive b → motive (.binary op a b))
    (mux : ∀ s t f, motive s → motive t → motive f → motive (.mux s t f))
    (slice : ∀ b h l, motive b → motive (.slice b h l))
    (concat : ∀ ps, (∀ p ∈ ps, motive p) → motive (.concat ps)) (e : Expr) : motive e :=
  Expr.rec (motive_1 := motive) (motive_2 := fun ps => ∀ p ∈ ps, motive p)
    const signal (fun op e h => unary op e h) (fun op a b ha hb => binary op a b ha hb)
    (fun s t f hs ht hf => mux s t f hs ht hf) (fun b h l hb => slice b h l hb)
    (fun ps h => concat ps h) (fun _ h => nomatch h)
    (fun p ps hp hps q hq => by
      rcases List.mem_cons.1 hq with rfl | h
      · exact hp
      · exact hps q h) e

mutual
/-- Width in bits of the value an expression produces. -/
def width : Expr → Nat
  | const _ w => w
  | signal _ w => w
  | unary op e => if op.isReduction then 1 else e.width
  | binary op a b => if op.isComparison then 1 else max a.width b.width
  | mux _ t f => max t.width f.width
  | slice _ high low => high + 1 - low
  | concat ps => totalWidth ps

def totalWidth : List Expr → Nat
  | [] => 0
  | p :: ps => p.width + totalWidth ps
end

mutual
/-- Whether asking for the width meets no reversed slice and no width beyond 32 bits. The operands
of a comparison or reduction, and the select of a `mux`, are not asked. -/
def sized : Expr → Bool
  | const .. | signal .. => true
  | unary op e => op.isReduction || e.sized
  | binary op a b => op.isComparison || (a.sized && b.sized)
  | mux _ t f => t.sized && f.sized
  | slice _ high low => decide (low ≤ high) && decide (high + 1 - low < wordLimit)
  | concat ps => allSized ps && decide (totalWidth ps < wordLimit)

def allSized : List Expr → Bool
  | [] => true
  | p :: ps => p.sized && allSized ps
end

/-- The value of a constant. -/
def asConst : Expr → Option Word
  | const v _ => some v
  | _ => none

/-- A constant with every bit clear. -/
def isConstZero (e : Expr) : Bool := e.asConst == some 0

/-- A constant with every bit of its width set. -/
def isConstOnes (e : Expr) : Bool := e.asConst == some (mask e.width)

end Expr

end Interlock
