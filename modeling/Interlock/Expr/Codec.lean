import Interlock.Expr.Text
import Interlock.Json.Decode

/-! Expressions as JSON. Each node is a variant with a record of its parts; operators are names. -/

namespace Interlock

/-- A variant with its content. -/
def Json.variant (name : String) (content : Json) : Json := .record [(name, content)]

def UnaryOp.ofJson? (depth : Nat) (j : Json) : Option UnaryOp := (j.toName? depth).bind ofName?

def BinaryOp.ofJson? (depth : Nat) (j : Json) : Option BinaryOp := (j.toName? depth).bind ofName?

namespace Expr

mutual
def toJson : Expr → Json
  | const v w => .variant "Const" (.record [("value", .nat v.toNat), ("width", .nat w)])
  | signal i w => .variant "Signal" (.record [("id", .nat i), ("width", .nat w)])
  | unary op e => .variant "Unary" (.record [("op", .text op.name), ("operand", e.toJson)])
  | binary op a b =>
    .variant "Binary" (.record [("op", .text op.name), ("lhs", a.toJson), ("rhs", b.toJson)])
  | mux s t f =>
    .variant "Mux" (.record [("sel", s.toJson), ("on_true", t.toJson), ("on_false", f.toJson)])
  | slice b high low =>
    .variant "Slice" (.record [("base", b.toJson), ("high", .nat high), ("low", .nat low)])
  | concat ps => .variant "Concat" (.array (toJsonAll ps))

def toJsonAll : List Expr → List Json
  | [] => []
  | p :: ps => p.toJson :: toJsonAll ps
end

/-- Reads an expression; `depth` counts the containers that may be opened, plus one. A node takes up
two of them. -/
def ofJson? : Nat → Json → Option Expr
  | depth + 2, j => do
    let (name, content) ← j.openVariant? (depth + 2)
    match String.ofList name with
    | "Const" =>
      let [v, w] ← content.openRecord? (depth + 1) ["value", "width"] | none
      return const (← v.toWord?) (← w.toCount?)
    | "Signal" =>
      let [i, w] ← content.openRecord? (depth + 1) ["id", "width"] | none
      return signal (← i.toCount?) (← w.toCount?)
    | "Unary" =>
      let [op, e] ← content.openRecord? (depth + 1) ["op", "operand"] | none
      return unary (← UnaryOp.ofJson? depth op) (← ofJson? depth e)
    | "Binary" =>
      let [op, a, b] ← content.openRecord? (depth + 1) ["op", "lhs", "rhs"] | none
      return binary (← BinaryOp.ofJson? depth op) (← ofJson? depth a) (← ofJson? depth b)
    | "Mux" =>
      let [s, t, f] ← content.openRecord? (depth + 1) ["sel", "on_true", "on_false"] | none
      return mux (← ofJson? depth s) (← ofJson? depth t) (← ofJson? depth f)
    | "Slice" =>
      let [b, high, low] ← content.openRecord? (depth + 1) ["base", "high", "low"] | none
      return slice (← ofJson? depth b) (← high.toCount?) (← low.toCount?)
    | "Concat" => return concat (← (← content.openList? (depth + 1)).mapM (ofJson? depth))
    | _ => none
  | _, _ => none

/-- The compact JSON text. -/
def encode (e : Expr) : String := e.toJson.compact

def decode? (text : String) : Option Expr := (Json.read? text.toList).bind (ofJson? Json.depthLimit)

end Expr

end Interlock
