import Interlock.Json.Basic

/-! Reading JSON texts into syntax trees. Nesting is not limited here; duplicate keys are kept. -/

namespace Interlock.Json

def isBlank (c : Char) : Bool := c == ' ' || c == '\n' || c == '\t' || c == '\r'

def skipBlanks (s : List Char) : List Char := s.dropWhile isBlank

/-- Consumes `word` at the front. -/
def expect (word s : List Char) : Option (List Char) :=
  if word.isPrefixOf s then some (s.drop word.length) else none

/-- At least one digit. -/
def scanDigits (s : List Char) : Option (List Char × List Char) :=
  match s.span Char.isDigit with
  | ([], _) => none
  | (ds, r) => some (ds, r)

/-- Digits without a leading zero, unless zero is the only one. -/
def scanInteger : List Char → Option (List Char × List Char)
  | '0' :: r =>
    match r with
    | c :: _ => if c.isDigit then none else some (['0'], r)
    | [] => some (['0'], [])
  | s => scanDigits s

def scanFraction : List Char → Option (List Char × List Char)
  | '.' :: r => (scanDigits r).map fun (ds, r) => ('.' :: ds, r)
  | s => some ([], s)

def scanSign : List Char → List Char × List Char
  | '+' :: r => (['+'], r)
  | '-' :: r => (['-'], r)
  | s => ([], s)

def scanExponent : List Char → Option (List Char × List Char)
  | c :: r =>
    if c = 'e' ∨ c = 'E' then
      let (sign, r) := scanSign r
      (scanDigits r).map fun (ds, r) => (c :: sign ++ ds, r)
    else some ([], c :: r)
  | [] => some ([], [])

def scanNumber (s : List Char) : Option (List Char × List Char) := do
  let (minus, s) := match s with
    | '-' :: r => (['-'], r)
    | _ => ([], s)
  let (whole, s) ← scanInteger s
  let (fraction, s) ← scanFraction s
  let (exponent, s) ← scanExponent s
  return (minus ++ whole ++ fraction ++ exponent, s)

mutual
/-- One value and what follows it; `fuel` bounds the calls. -/
def readValue (fuel : Nat) (s : List Char) : Option (Json × List Char) :=
  match fuel with
  | 0 => none
  | fuel + 1 =>
    match skipBlanks s with
    | 'n' :: r => (expect "ull".toList r).map (null, ·)
    | 't' :: r => (expect "rue".toList r).map (bool true, ·)
    | 'f' :: r => (expect "alse".toList r).map (bool false, ·)
    | '\"' :: r => (scan r).map fun (raw, r) => (string raw, r)
    | '[' :: r =>
      match skipBlanks r with
      | ']' :: r => some (array [], r)
      | _ => (readItems fuel r).map fun (items, r) => (array items, r)
    | '{' :: r =>
      match skipBlanks r with
      | '}' :: r => some (object [], r)
      | _ => (readFields fuel r).map fun (fields, r) => (object fields, r)
    | r => (scanNumber r).map fun (digits, r) => (number digits, r)

/-- The items of an array that is not empty, up to its closing bracket. -/
def readItems (fuel : Nat) (s : List Char) : Option (List Json × List Char) :=
  match fuel with
  | 0 => none
  | fuel + 1 => do
    let (item, s) ← readValue fuel s
    match skipBlanks s with
    | ',' :: s =>
      let (items, s) ← readItems fuel s
      return (item :: items, s)
    | ']' :: s => return ([item], s)
    | _ => none

/-- The fields of an object that is not empty, up to its closing brace. -/
def readFields (fuel : Nat) (s : List Char) : Option (List (List Char × Json) × List Char) :=
  match fuel with
  | 0 => none
  | fuel + 1 =>
    match skipBlanks s with
    | '\"' :: s => do
      let (key, s) ← scan s
      match skipBlanks s with
      | ':' :: s =>
        let (value, s) ← readValue fuel s
        match skipBlanks s with
        | ',' :: s =>
          let (fields, s) ← readFields fuel s
          return ((key, value) :: fields, s)
        | '}' :: s => return ([(key, value)], s)
        | _ => none
      | _ => none
    | _ => none
end

/-- The tree of a whole text, with nothing but blanks around it. -/
def read? (s : List Char) : Option Json := do
  let (j, rest) ← readValue (2 * s.length + 2) s
  if (skipBlanks rest).isEmpty then some j else none

end Interlock.Json
