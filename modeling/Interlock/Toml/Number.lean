import Interlock.Toml.Basic
import Interlock.Toml.Text

/-! Numbers, dates and times in TOML. A reader takes as much as it can; what must not follow a value
is found out later. -/

namespace Interlock.Toml

/-- Further digits, each perhaps after an underscore. -/
def moreDigits (base : Nat) : List Char → List Char × List Char
  | '_' :: c :: r =>
    if isDigit base c then
      let (ds, r) := moreDigits base r
      (c :: ds, r)
    else ([], '_' :: c :: r)
  | c :: r =>
    if isDigit base c then
      let (ds, r) := moreDigits base r
      (c :: ds, r)
    else ([], c :: r)
  | [] => ([], [])

/-- At least one digit. -/
def scanDigits (base : Nat) : List Char → Scanned
  | c :: r => if isDigit base c then Scanned.push [c] (some (moreDigits base r)) else none
  | [] => none

/-- Decimal digits without a leading zero. -/
def scanWhole : List Char → Scanned
  | '0' :: r => some (['0'], r)
  | s => scanDigits 10 s

def scanSign : List Char → List Char × List Char
  | '+' :: r => (['+'], r)
  | '-' :: r => (['-'], r)
  | s => ([], s)

/-- The digits after a point; none where there is no fraction. -/
def scanFraction : List Char → List Char × List Char
  | '.' :: r => (scanDigits 10 r).getD ([], '.' :: r)
  | s => ([], s)

/-- The sign and digits of an exponent, if there is one. -/
def scanExponent : List Char → Option (List Char × List Char × List Char)
  | c :: r =>
    if c = 'e' ∨ c = 'E' then do
      let (sign, r) := scanSign r
      let (ds, r) ← scanDigits 10 r
      return (sign, ds, r)
    else none
  | [] => none

/-- Whether `digits * 10 ^ exponent` is nearer to `2 ^ 1024` than to the largest float. -/
def overflows (digits : Nat) (exponent : Int) : Bool :=
  let size := (Nat.toDigits 10 digits).length + exponent
  let bound := 1 <<< 1024 - 1 <<< 970
  digits != 0 && 300 ≤ size &&
    (400 ≤ size || decide (bound * Nat.pow 10 (-exponent).toNat ≤ digits * Nat.pow 10 exponent.toNat))

def inIntegerRange (n : Int) : Bool := Int64.minValue.toInt ≤ n && n ≤ Int64.maxValue.toInt

def signed (sign : List Char) (n : Nat) : Int := if sign = ['-'] then -n else n

/-- A decimal number. A positive float must not be too large for its type. -/
def scanDecimal (sign s : List Char) : Option (Toml × List Char) := do
  let (whole, s) ← scanWhole s
  let (fraction, s) := scanFraction s
  match scanExponent s, fraction with
  | none, [] =>
    let n := signed sign (digitsValue 10 whole)
    if inIntegerRange n then return (.integer n, s) else none
  | none, _ =>
    if sign ≠ ['-'] ∧ overflows (digitsValue 10 (whole ++ fraction)) (-fraction.length) then none
    else return (.float (sign ++ whole ++ '.' :: fraction), s)
  | some (expSign, exp, s), _ =>
    let exponent := signed expSign (digitsValue 10 exp) - fraction.length
    if sign ≠ ['-'] ∧ overflows (digitsValue 10 (whole ++ fraction)) exponent then none
    else
      let point := if fraction.isEmpty then [] else '.' :: fraction
      return (.float (sign ++ whole ++ point ++ 'e' :: expSign ++ exp), s)

/-- A number in a base other than ten. -/
def scanBased (base : Nat) (s : List Char) : Option (Toml × List Char) := do
  let (ds, s) ← scanDigits base s
  let n : Int := digitsValue base ds
  if inIntegerRange n then return (.integer n, s) else none

def scanNumber : List Char → Option (Toml × List Char)
  | '0' :: 'x' :: r => scanBased 16 r
  | '0' :: 'o' :: r => scanBased 8 r
  | '0' :: 'b' :: r => scanBased 2 r
  | s =>
    match scanSign s with
    | (sign, 'i' :: 'n' :: 'f' :: r) => some (.float (sign ++ ['i', 'n', 'f']), r)
    | (sign, 'n' :: 'a' :: 'n' :: r) => some (.float (sign ++ ['n', 'a', 'n']), r)
    | (sign, r) => scanDecimal sign r

/-! ### Dates and times -/

/-- A number of exactly `n` digits, between two bounds. -/
def scanField (n low high : Nat) (s : List Char) : Option (Nat × List Char) :=
  let ds := s.take n
  let value := digitsValue 10 ds
  if ds.length = n ∧ ds.all (isDigit 10) ∧ low ≤ value ∧ value ≤ high then some (value, s.drop n)
  else none

def scanMark (mark : Char) : List Char → Option (List Char)
  | c :: r => if c = mark then some r else none
  | [] => none

def isLeapYear (year : Nat) : Bool := year % 4 == 0 && (year % 100 != 0 || year % 400 == 0)

def daysIn (year month : Nat) : Nat :=
  if month = 2 then if isLeapYear year then 29 else 28
  else if month = 4 ∨ month = 6 ∨ month = 9 ∨ month = 11 then 30 else 31

def scanDate (s : List Char) : Option (List Char) := do
  let (year, s) ← scanField 4 0 9999 s
  let (month, s) ← scanField 2 1 12 (← scanMark '-' s)
  let (_, s) ← scanField 2 1 (daysIn year month) (← scanMark '-' s)
  return s

/-- A time of day; second 60 is a leap second. -/
def scanTime (s : List Char) : Option (List Char) := do
  let (_, s) ← scanField 2 0 23 s
  let (_, s) ← scanField 2 0 59 (← scanMark ':' s)
  let (_, s) ← scanField 2 0 60 (← scanMark ':' s)
  match s with
  | '.' :: r =>
    match r.span (isDigit 10) with
    | ([], _) => return s
    | (_, r) => return r
  | _ => return s

/-- The offset from universal time; none where the text has none. -/
def scanOffset (s : List Char) : List Char :=
  match s with
  | 'Z' :: r => r
  | 'z' :: r => r
  | _ =>
    match scanSign s with
    | ([], _) => s
    | (_, r) => (do
        let (_, r) ← scanField 2 0 23 r
        let (_, r) ← scanField 2 0 59 (← scanMark ':' r)
        return r : Option (List Char)).getD s

/-- The time after a date; none where the text has none. -/
def scanTimeOfDate : List Char → List Char
  | c :: r =>
    if c = 'T' ∨ c = 't' ∨ c = ' ' then
      match scanTime r with
      | some r => scanOffset r
      | none => c :: r
    else c :: r
  | [] => []

/-- A date, a date with a time, or a time. -/
def scanMoment (s : List Char) : Option (Toml × List Char) := do
  let rest ← match scanDate s with
    | some r => some (scanTimeOfDate r)
    | none => scanTime s
  return (.moment (s.take (s.length - rest.length)), rest)

end Interlock.Toml
