import Interlock.Json.Text

/-! JSON texts as syntax trees. Strings and numbers are kept as they are written, without their
quotes, so that a tree says nothing about their meaning. -/

namespace Interlock

inductive Json where
  | null
  | bool (b : Bool)
  | number (digits : List Char)
  | string (raw : List Char)
  | array (items : List Json)
  | object (fields : List (List Char × Json))
deriving Repr

instance : Inhabited Json := ⟨.null⟩

namespace Json

def nat (n : Nat) : Json := number (toString n).toList

def text (s : String) : Json := string (escape s.toList)

/-- An object with plain field names. -/
def record (fields : List (String × Json)) : Json :=
  object (fields.map fun (k, v) => (escape k.toList, v))

/-- Puts a comma between the members of a list of texts. -/
def commas : List (List Char) → List Char
  | [] => []
  | [a] => a
  | a :: rest => a ++ ',' :: commas rest

mutual
/-- The compact text: no blanks at all. -/
def print : Json → List Char
  | null => "null".toList
  | bool b => (toString b).toList
  | number digits => digits
  | string raw => '\"' :: raw ++ ['\"']
  | array items => '[' :: commas (printItems items) ++ [']']
  | object fields => '{' :: commas (printFields fields) ++ ['}']

def printItems : List Json → List (List Char)
  | [] => []
  | j :: js => print j :: printItems js

def printFields : List (List Char × Json) → List (List Char)
  | [] => []
  | (k, v) :: fs => ('\"' :: k ++ '\"' :: ':' :: print v) :: printFields fs
end

/-- The compact text as a string. -/
def compact (j : Json) : String := String.ofList j.print

end Json

end Interlock
