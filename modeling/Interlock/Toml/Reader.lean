import Interlock.Toml.Number
import Interlock.Toml.Table

/-! Reading TOML documents. -/

namespace Interlock.Toml

/-- Whether a value that starts with this character is a number or a date. -/
def startsNumber (c : Char) : Bool :=
  c.isDigit || c == '+' || c == '-' || c == 'i' || c == 'n'

/-- A value that holds no other values. -/
def scanScalar (s : List Char) : Option (Toml × List Char) :=
  match s with
  | 't' :: 'r' :: 'u' :: 'e' :: r => some (.boolean true, r)
  | 'f' :: 'a' :: 'l' :: 's' :: 'e' :: r => some (.boolean false, r)
  | c :: _ =>
    if c = '\"' ∨ c = '\'' then (scanString s).map fun (cs, r) => (.string (String.ofList cs), r)
    else if startsNumber c then
      match scanMoment s with
      | some result => some result
      | none => scanNumber s
    else none
  | [] => none

mutual
/-- One value; `depth` counts the containers that may be opened, and `fuel` bounds the calls. -/
def readValue (fuel depth : Nat) (s : List Char) : Option (Toml × List Char) :=
  match fuel with
  | 0 => none
  | fuel + 1 =>
    match s with
    | '[' :: r => do
      if depth = 0 then none
      else
        let (items, r) ← readItems fuel (depth - 1) r
        return (.array items, r)
    | '{' :: r => do
      if depth = 0 then none
      else
        match skipBlanks r with
        | '}' :: r => return (.table [], r)
        | _ =>
          let (es, r) ← readPairs fuel (depth - 1) [] r
          return (.table (toFields es), r)
    | s => scanScalar s

/-- Items over any number of lines up to the closing bracket; a comma may follow the last one. -/
def readItems (fuel depth : Nat) (s : List Char) : Option (List Toml × List Char) :=
  match fuel with
  | 0 => none
  | fuel + 1 => do
    match ← skipLines (s.length + 1) s with
    | ']' :: r => return ([], r)
    | s =>
      let (item, s) ← readValue fuel depth s
      match ← skipLines (s.length + 1) s with
      | ']' :: r => return ([item], r)
      | ',' :: r =>
        let (items, r) ← readItems fuel depth r
        return (item :: items, r)
      | _ => none

/-- Pairs of key and value on one line up to the closing brace, added to those before. -/
def readPairs (fuel depth : Nat) (es : Entries) (s : List Char) : Option (Entries × List Char) :=
  match fuel with
  | 0 => none
  | fuel + 1 => do
    let (parts, s) ← scanPath s
    let s ← scanMark '=' s
    let (v, s) ← readValue fuel depth (skipBlanks s)
    let es ← assign parts.dropLast (parts.getLastD "") v es
    match skipBlanks s with
    | '}' :: r => return (es, r)
    | ',' :: r => readPairs fuel depth es r
    | _ => none
end

/-- A document while it is read: the path of the table that is open, and all tables. -/
structure Document where
  header : List String := []
  entries : Entries := []

namespace Document

/-- A key with its value. -/
def readAssignment (doc : Document) (s : List Char) : Option (Document × List Char) := do
  let (parts, s) ← scanPath s
  let s := skipBlanks (← scanMark '=' s)
  let (v, s) ← readValue (2 * s.length + 2) (depthLimit - 1) s
  let entries ← assignIn doc.header parts.dropLast (parts.getLastD "") v doc.entries
  return ({ doc with entries }, ← lineEnd? s)

/-- The rest of a header. -/
def readHeader (doc : Document) (s : List Char) : Option (Document × List Char) := do
  let (parts, s) ← scanPath s
  let entries ← openTable parts.dropLast (parts.getLastD "") doc.entries
  return (⟨parts, entries⟩, ← lineEnd? (← scanMark ']' s))

/-- The rest of a header of an array of tables. -/
def readElementHeader (doc : Document) (s : List Char) : Option (Document × List Char) := do
  let (parts, s) ← scanPath s
  let entries ← openElement parts.dropLast (parts.getLastD "") doc.entries
  return (⟨parts, entries⟩, ← lineEnd? (← scanMark ']' (← scanMark ']' s)))

/-- All lines; `fuel` bounds their number. -/
def readLines (doc : Document) : Nat → List Char → Option Document
  | 0, _ => none
  | fuel + 1, s => do
    match skipBlanks s with
    | [] => return doc
    | '#' :: r => doc.readLines fuel (← lineEnd? ('#' :: r))
    | '\n' :: r => doc.readLines fuel r
    | '\r' :: r => doc.readLines fuel (← newline? ('\r' :: r))
    | '[' :: '[' :: r =>
      let (doc, r) ← doc.readElementHeader r
      doc.readLines fuel r
    | '[' :: r =>
      let (doc, r) ← doc.readHeader r
      doc.readLines fuel r
    | s =>
      let (doc, r) ← doc.readAssignment s
      doc.readLines fuel r

end Document

/-- The table of a whole document; a byte order mark in front is ignored. -/
def read? (text : String) : Option Toml := do
  let s := match text.toList with
    | '\uFEFF' :: r => r
    | s => s
  let doc ← Document.readLines {} (s.length + 1) s
  return .table (toFields doc.entries)

end Interlock.Toml
