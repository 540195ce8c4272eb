/-! The text of strings in JSON: `escape` writes the characters between the quotes, `unescape` reads
them. Writing uses the short escapes where there are any and leaves every other printable character
as it is; reading also accepts `\u` escapes, where a surrogate has to be half of a pair. -/

namespace Interlock.Json

def hexValue? (c : Char) : Option Nat :=
  if '0' ≤ c ∧ c ≤ '9' then some (c.toNat - 48)
  else if 'a' ≤ c ∧ c ≤ 'f' then some (c.toNat - 87)
  else if 'A' ≤ c ∧ c ≤ 'F' then some (c.toNat - 55)
  else none

def hexChar (n : Nat) : Char := Char.ofNat (if n < 10 then 48 + n else 87 + n)

/-- Four hexadecimal digits, the most significant first. -/
def hexWord? (a b c d : Char) : Option Nat := do
  return (((← hexValue? a) * 16 + (← hexValue? b)) * 16 + (← hexValue? c)) * 16 + (← hexValue? d)

/-- The character that a single-letter escape stands for. -/
def shortEscape? : Char → Option Char
  | '\"' => some '\"'
  | '\\' => some '\\'
  | '/' => some '/'
  | 'b' => some '\x08'
  | 'f' => some '\x0c'
  | 'n' => some '\n'
  | 'r' => some '\r'
  | 't' => some '\t'
  | _ => none

def escapeChar (c : Char) : List Char :=
  if c = '\"' then ['\\', '\"']
  else if c = '\\' then ['\\', '\\']
  else if c = '\x08' then ['\\', 'b']
  else if c = '\x0c' then ['\\', 'f']
  else if c = '\n' then ['\\', 'n']
  else if c = '\r' then ['\\', 'r']
  else if c = '\t' then ['\\', 't']
  else if c.toNat < 32 then ['\\', 'u', '0', '0', hexChar (c.toNat / 16), hexChar (c.toNat % 16)]
  else [c]

def escape (s : List Char) : List Char := s.flatMap escapeChar

def isHighSurrogate (n : Nat) : Bool := 0xD800 ≤ n && n < 0xDC00

def isLowSurrogate (n : Nat) : Bool := 0xDC00 ≤ n && n < 0xE000

/-- Fails on a surrogate that is not half of a pair, and on anything that no string may hold. -/
def unescape : List Char → Option (List Char)
  | [] => some []
  | '\\' :: 'u' :: a :: b :: c :: d :: r => do
    let n ← hexWord? a b c d
    if isHighSurrogate n then
      match r with
      | '\\' :: 'u' :: e :: f :: g :: h :: r =>
        let m ← hexWord? e f g h
        if isLowSurrogate m then
          return Char.ofNat (0x10000 + (n - 0xD800) * 1024 + (m - 0xDC00)) :: (← unescape r)
        else none
      | _ => none
    else if isLowSurrogate n then none
    else return Char.ofNat n :: (← unescape r)
  | '\\' :: e :: r => do return (← shortEscape? e) :: (← unescape r)
  | c :: r => if c = '\\' ∨ c = '\"' ∨ c.toNat < 32 then none else (unescape r).map (c :: ·)

/-- The characters up to the closing quote, as written, and what follows the quote. Escapes are only
checked for their form. -/
def scan : List Char → Option (List Char × List Char)
  | [] => none
  | '\"' :: r => some ([], r)
  | '\\' :: 'u' :: a :: b :: c :: d :: r => do
    let _ ← hexWord? a b c d
    let (s, r) ← scan r
    return ('\\' :: 'u' :: a :: b :: c :: d :: s, r)
  | '\\' :: e :: r => do
    let _ ← shortEscape? e
    let (s, r) ← scan r
    return ('\\' :: e :: s, r)
  | c :: r => do
    if c = '\\' ∨ c.toNat < 32 then none
    else
      let (s, r) ← scan r
      return (c :: s, r)

end Interlock.Json
