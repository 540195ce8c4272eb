import Interlock.Json.Reader
import Interlock.Word

/-! Reading typed values from JSON trees. A record is an object, or an array of its fields in their
order; an object may hold fields of other names, but none of the record's twice. `depth` counts the
containers that may still be opened, plus one; only containers that become part of a typed value
are counted. -/

namespace Interlock.Json

/-- How deep the containers of a typed value may nest, plus one. -/
def depthLimit : Nat := 128

def digitsValue (ds : List Char) : Nat := ds.foldl (fun n d => n * 10 + (d.toNat - 48)) 0

/-- An unsigned integer below `limit`, written with digits alone. -/
def toNat? (limit : Nat) : Json → Option Nat
  | number ds =>
    if ds.all Char.isDigit ∧ digitsValue ds < limit then some (digitsValue ds) else none
  | _ => none

def toWord? (j : Json) : Option Word := (j.toNat? UInt64.size).map UInt64.ofNat

def toCount? (j : Json) : Option Nat := j.toNat? wordLimit

def toText? : Json → Option String
  | string raw => (unescape raw).map String.ofList
  | _ => none

/-- The fields of an object by their names; fails where a name has no text. -/
def namedFields (fields : List (List Char × Json)) : Option (List (List Char × Json)) :=
  fields.mapM fun (k, v) => do return (← unescape k, v)

/-- The value of the only field with this name. -/
def only? (fields : List (List Char × Json)) (name : String) : Option Json :=
  match fields.filter fun f => f.1 == name.toList with
  | [(_, v)] => some v
  | _ => none

/-- The values of a record's fields, in the order of `names`. -/
def toRecord? (names : List String) : Json → Option (List Json)
  | object fields => do names.mapM (only? (← namedFields fields))
  | array items => if items.length = names.length then some items else none
  | _ => none

/-- A record one container down. -/
def openRecord? (depth : Nat) (names : List String) (j : Json) : Option (List Json) :=
  if 2 ≤ depth then j.toRecord? names else none

/-- The items of a list one container down. -/
def openList? (depth : Nat) : Json → Option (List Json)
  | array items => if 2 ≤ depth then some items else none
  | _ => none

/-- The name and the content of a variant: an object with that one field. -/
def openVariant? (depth : Nat) : Json → Option (List Char × Json)
  | object [(k, v)] => if 2 ≤ depth then (unescape k).map (·, v) else none
  | _ => none

/-- The name of a variant without content: the name alone, or a field that holds `null`. -/
def toName? (depth : Nat) : Json → Option String
  | string raw => (unescape raw).map String.ofList
  | j => do
    let (name, content) ← openVariant? depth j
    match content with
    | null => some (String.ofList name)
    | _ => none

end Interlock.Json
