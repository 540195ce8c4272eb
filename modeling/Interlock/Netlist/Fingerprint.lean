import Interlock.Netlist.Basic

/-! The bytes that stand for the structure of a netlist, and their digest. Names and stored
identifiers are left out. -/

namespace Interlock

def UnaryOp.tag : UnaryOp → Nat
  | .not => 0
  | .neg => 1
  | .redAnd => 2
  | .redOr => 3
  | .redXor => 4

def BinaryOp.tag : BinaryOp → Nat
  | .add => 0
  | .sub => 1
  | .and => 2
  | .or => 3
  | .xor => 4
  | .eq => 5
  | .ne => 6
  | .lt => 7
  | .le => 8
  | .gt => 9
  | .ge => 10

def SignalKind.tag : SignalKind → Nat
  | .input => 0
  | .wire => 1
  | .reg => 2

namespace Expr

mutual
/-- A tag for the form of the node, its numbers, then its operands. -/
def fingerprint : Expr → List UInt8
  | const v w => tagBytes 0 ++ wordBytes v ++ countBytes w
  | signal i w => tagBytes 1 ++ countBytes i ++ countBytes w
  | unary op e => tagBytes 2 ++ tagBytes op.tag ++ e.fingerprint
  | binary op a b => tagBytes 3 ++ tagBytes op.tag ++ a.fingerprint ++ b.fingerprint
  | mux s t f => tagBytes 4 ++ s.fingerprint ++ t.fingerprint ++ f.fingerprint
  | slice b high low => tagBytes 5 ++ countBytes high ++ countBytes low ++ b.fingerprint
  | concat ps => tagBytes 6 ++ countBytes ps.length ++ fingerprintAll ps

def fingerprintAll : List Expr → List UInt8
  | [] => []
  | p :: ps => p.fingerprint ++ fingerprintAll ps
end

end Expr

def Signal.fingerprint (s : Signal) : List UInt8 :=
  tagBytes s.kind.tag ++ countBytes s.width ++ wordBytes s.init

def Assign.fingerprint (a : Assign) : List UInt8 := countBytes a.target ++ a.value.fingerprint

namespace Netlist

def fingerprint (n : Netlist) : List UInt8 :=
  countBytes n.signals.size ++ n.signals.toList.flatMap Signal.fingerprint
    ++ tagBytes 0 ++ countBytes n.comb.length ++ n.comb.flatMap Assign.fingerprint
    ++ tagBytes 1 ++ countBytes n.sync.length ++ n.sync.flatMap Assign.fingerprint

def structuralHash (n : Netlist) : Digest := Digest.ofBytes n.fingerprint

end Netlist

end Interlock
