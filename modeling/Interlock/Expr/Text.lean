import Interlock.Expr.Basic

/-! The written form of expressions: `5'4` is the four-bit constant 5, `s7:2` signal 7 read as two
bits, and every other node is a parenthesised list headed by its operator. -/

namespace Interlock

def UnaryOp.name : UnaryOp → String
  | .not => "Not"
  | .neg => "Neg"
  | .redAnd => "RedAnd"
  | .redOr => "RedOr"
  | .redXor => "RedXor"

def BinaryOp.name : BinaryOp → String
  | .add => "Add"
  | .sub => "Sub"
  | .and => "And"
  | .or => "Or"
  | .xor => "Xor"
  | .eq => "Eq"
  | .ne => "Ne"
  | .lt => "Lt"
  | .le => "Le"
  | .gt => "Gt"
  | .ge => "Ge"

def UnaryOp.all : List UnaryOp := [.not, .neg, .redAnd, .redOr, .redXor]

def BinaryOp.all : List BinaryOp := [.add, .sub, .and, .or, .xor, .eq, .ne, .lt, .le, .gt, .ge]

def UnaryOp.ofName? (name : String) : Option UnaryOp := UnaryOp.all.find? (·.name == name)

def BinaryOp.ofName? (name : String) : Option BinaryOp := BinaryOp.all.find? (·.name == name)

namespace Expr

mutual
def render : Expr → String
  | const v w => toString v.toNat ++ "'" ++ toString w
  | signal i w => "s" ++ toString i ++ ":" ++ toString w
  | unary op e => "(" ++ op.name ++ " " ++ e.render ++ ")"
  | binary op a b => "(" ++ op.name ++ " " ++ a.render ++ " " ++ b.render ++ ")"
  | mux s t f => "(mux " ++ s.render ++ " " ++ t.render ++ " " ++ f.render ++ ")"
  | slice b high low => "(slice " ++ b.render ++ " " ++ toString high ++ " " ++ toString low ++ ")"
  | concat ps => "(cat" ++ renderAll ps ++ ")"

def renderAll : List Expr → String
  | [] => ""
  | p :: ps => " " ++ p.render ++ renderAll ps
end

end Expr

end Interlock
