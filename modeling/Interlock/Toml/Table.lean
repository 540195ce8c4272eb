import Interlock.Toml.Basic

/-! Tables of a TOML document while it is read. A table may be opened once by a header; headers may
add tables inside it later, and dotted keys may add to tables that dotted keys have made. -/

namespace Interlock.Toml

/-- How a table has come about. -/
inductive Origin where
  /-- By its own header. -/
  | header
  /-- By a header of a table inside it. -/
  | implied
  /-- By a dotted key. -/
  | dotted
deriving DecidableEq, Repr

inductive Entry where
  | value (v : Toml)
  | table (origin : Origin) (entries : List (String × Entry))
  /-- An array of tables; headers go on with the last one. -/
  | tables (elements : List (List (String × Entry)))

abbrev Entries := List (String × Entry)

/-- Replaces the entry of a key, or appends it. -/
def Entries.put (es : Entries) (key : String) (e : Entry) : Entries :=
  if es.any fun x => x.1 == key then es.map fun x => if x.1 = key then (key, e) else x
  else es ++ [(key, e)]

/-- What a header does on its way to its table: `dotted` is false. What a key does: `dotted` is
true. -/
def madeBy (dotted : Bool) : Origin := if dotted then .dotted else .implied

/-- Changes the table at a path, which is made where there is none. A dotted key does not go into a
table that has a header. -/
def updateAt (dotted : Bool) (change : Origin → Entries → Option Entries) :
    List String → Origin → Entries → Option Entries
  | [], origin, es => change origin es
  | key :: path, _, es =>
    match es.lookup key with
    | none => do
      let inner ← updateAt dotted change path (madeBy dotted) []
      return es.put key (.table (madeBy dotted) inner)
    | some (.value _) => none
    | some (.table origin inner) =>
      if dotted ∧ origin = .header then none
      else do return es.put key (.table origin (← updateAt dotted change path origin inner))
    | some (.tables elements) => do
      let last ← elements.getLast?
      let inner ← updateAt dotted change path .header last
      return es.put key (.tables (elements.dropLast ++ [inner]))

/-- Adds a value under a dotted key. The table that takes it must be the current one or one that
dotted keys have made, and must not have the key. -/
def assign (path : List String) (key : String) (v : Toml) (es : Entries) : Option Entries :=
  updateAt true (fun origin inner =>
    if (path ≠ [] ∧ origin ≠ .dotted) ∨ (inner.any fun x => x.1 == key) then none
    else some (inner ++ [(key, .value v)])) path .header es

/-- Adds a value in the table that the header has opened. -/
def assignIn (header path : List String) (key : String) (v : Toml) (es : Entries) : Option Entries :=
  updateAt false (fun _ inner => assign path key v inner) header .header es

/-- Opens a table, which must not have been opened or made by a dotted key. -/
def openTable (path : List String) (key : String) (es : Entries) : Option Entries :=
  updateAt false (fun _ inner =>
    match inner.lookup key with
    | none => some (inner.put key (.table .header []))
    | some (.table .implied known) => some (inner.put key (.table .header known))
    | some _ => none) path .header es

/-- Opens a new table of an array of tables. -/
def openElement (path : List String) (key : String) (es : Entries) : Option Entries :=
  updateAt false (fun _ inner =>
    match inner.lookup key with
    | none => some (inner.put key (.tables [[]]))
    | some (.tables elements) => some (inner.put key (.tables (elements ++ [[]])))
    | some _ => none) path .header es

mutual
/-- The value that an entry stands for. -/
def Entry.toValue : Entry → Toml
  | .value v => v
  | .table _ es => .table (toFields es)
  | .tables elements => .array (toTables elements)

def toFields : List (String × Entry) → List (String × Toml)
  | [] => []
  | (key, e) :: rest => (key, e.toValue) :: toFields rest

def toTables : List (List (String × Entry)) → List Toml
  | [] => []
  | es :: rest => .table (toFields es) :: toTables rest
end

end Interlock.Toml
