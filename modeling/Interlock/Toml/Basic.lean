/-! Values of TOML documents. -/

namespace Interlock

inductive Toml where
  | string (s : String)
  | integer (n : Int)
  /-- A number as it is written, without the underscores. -/
  | float (text : List Char)
  | boolean (b : Bool)
  /-- A date, a time, or both, as written. -/
  | moment (text : List Char)
  | array (items : List Toml)
  | table (fields : List (String × Toml))
deriving Repr

instance : Inhabited Toml := ⟨.table []⟩

/-- The field of a table. -/
def Toml.field? (name : String) : Toml → Option Toml
  | table fields => fields.lookup name
  | _ => none

end Interlock
