/-! Strings, blanks and comments in TOML. Each function takes the characters from where it starts and
gives what it read with the characters that follow. -/

namespace Interlock.Toml

def isBlank (c : Char) : Bool := c == ' ' || c == '\t'

def skipBlanks (s : List Char) : List Char := s.dropWhile isBlank

/-- Any character but control characters; a tab counts as a character. -/
def isPlain (c : Char) : Bool := c == '\t' || (32 ≤ c.toNat && c.toNat != 127)

/-- The end of a line. -/
def newline? : List Char → Option (List Char)
  | '\n' :: r => some r
  | '\r' :: '\n' :: r => some r
  | _ => none

/-- A comment up to the end of its line; nothing where there is none. -/
def skipComment : List Char → List Char
  | '#' :: r => r.dropWhile isPlain
  | s => s

/-- Blanks and perhaps a comment, up to the end of the line or text. -/
def lineEnd? (s : List Char) : Option (List Char) :=
  match skipComment (skipBlanks s) with
  | [] => some []
  | s => newline? s

/-- Blanks, comments and ends of lines; `fuel` bounds the number of lines. -/
def skipLines : Nat → List Char → Option (List Char)
  | 0, _ => none
  | fuel + 1, s =>
    match skipBlanks s with
    | '#' :: r => (newline? (r.dropWhile isPlain)).bind (skipLines fuel)
    | '\n' :: r => skipLines fuel r
    | '\r' :: r => (newline? ('\r' :: r)).bind (skipLines fuel)
    | s => some s

/-! ### Escapes -/

/-- The value of a digit in a base up to 16. -/
def digitValue? (base : Nat) (c : Char) : Option Nat :=
  let n :=
    if '0' ≤ c ∧ c ≤ '9' then c.toNat - 48
    else if 'a' ≤ c ∧ c ≤ 'f' then c.toNat - 87
    else if 'A' ≤ c ∧ c ≤ 'F' then c.toNat - 55
    else 16
  if n < base then some n else none

def isDigit (base : Nat) (c : Char) : Bool := (digitValue? base c).isSome

def digitsValue (base : Nat) (ds : List Char) : Nat :=
  ds.foldl (fun n d => n * base + (digitValue? base d).getD 0) 0

/-- The character with a code point in hexadecimal. -/
def codePoint? (ds : List Char) : Option Char :=
  let n := digitsValue 16 ds
  if ds.all (isDigit 16) ∧ n.isValidChar then some (Char.ofNat n) else none

def shortEscape? : Char → Option Char
  | 'b' => some '\x08'
  | 't' => some '\t'
  | 'n' => some '\n'
  | 'f' => some '\x0c'
  | 'r' => some '\r'
  | '\"' => some '\"'
  | '\\' => some '\\'
  | _ => none

/-! ### Strings -/

abbrev Scanned := Option (List Char × List Char)

/-- Puts characters in front of what has been read. -/
def Scanned.push (cs : List Char) (s : Scanned) : Scanned := s.map fun (ds, r) => (cs ++ ds, r)

/-- The rest of a string in double quotes. -/
def scanBasic : List Char → Scanned
  | [] => none
  | '\"' :: r => some ([], r)
  | '\\' :: 'u' :: a :: b :: c :: d :: r => do
    Scanned.push [← codePoint? [a, b, c, d]] (scanBasic r)
  | '\\' :: 'U' :: a :: b :: c :: d :: e :: f :: g :: h :: r => do
    Scanned.push [← codePoint? [a, b, c, d, e, f, g, h]] (scanBasic r)
  | '\\' :: c :: r => do Scanned.push [← shortEscape? c] (scanBasic r)
  | c :: r => if isPlain c && c != '\\' then Scanned.push [c] (scanBasic r) else none

/-- The rest of a string in single quotes. -/
def scanLiteral (s : List Char) : Scanned :=
  match s.span fun c => isPlain c && c != '\'' with
  | (cs, '\'' :: r) => some (cs, r)
  | _ => none

/-- A first end of line is not part of a string over several lines. -/
def dropNewline (s : List Char) : List Char := (newline? s).getD s

/-- Whether nothing but blanks is left on the line. -/
def atLineEnd (s : List Char) : Bool := (newline? (skipBlanks s)).isSome

/-- The rest of a string in triple double quotes. Up to two quotes may stand before the closing ones.
After a backslash at the end of a line everything up to the next visible character is left out, which
is what `trimming` is for. -/
def scanLongBasic (trimming : Bool) : List Char → Scanned
  | [] => none
  | '\"' :: '\"' :: '\"' :: '\"' :: '\"' :: r => some (['\"', '\"'], r)
  | '\"' :: '\"' :: '\"' :: '\"' :: r => some (['\"'], r)
  | '\"' :: '\"' :: '\"' :: r => some ([], r)
  | '\\' :: 'u' :: a :: b :: c :: d :: r => do
    Scanned.push [← codePoint? [a, b, c, d]] (scanLongBasic false r)
  | '\\' :: 'U' :: a :: b :: c :: d :: e :: f :: g :: h :: r => do
    Scanned.push [← codePoint? [a, b, c, d, e, f, g, h]] (scanLongBasic false r)
  | '\\' :: c :: r =>
    if atLineEnd (c :: r) then scanLongBasic true (c :: r)
    else do Scanned.push [← shortEscape? c] (scanLongBasic false r)
  | '\r' :: '\n' :: r =>
    if trimming then scanLongBasic true r else Scanned.push ['\n'] (scanLongBasic false r)
  | c :: r =>
    if trimming && (isBlank c || c == '\n') then scanLongBasic true r
    else if (isPlain c && c != '\\') || c == '\n' then Scanned.push [c] (scanLongBasic false r)
    else none

/-- The rest of a string in triple single quotes. -/
def scanLongLiteral : List Char → Scanned
  | [] => none
  | '\'' :: '\'' :: '\'' :: '\'' :: '\'' :: r => some (['\'', '\''], r)
  | '\'' :: '\'' :: '\'' :: '\'' :: r => some (['\''], r)
  | '\'' :: '\'' :: '\'' :: r => some ([], r)
  | '\r' :: '\n' :: r => Scanned.push ['\n'] (scanLongLiteral r)
  | c :: r => if isPlain c || c == '\n' then Scanned.push [c] (scanLongLiteral r) else none

/-- A string of any kind. -/
def scanString : List Char → Scanned
  | '\"' :: '\"' :: '\"' :: r => scanLongBasic false (dropNewline r)
  | '\"' :: r => scanBasic r
  | '\'' :: '\'' :: '\'' :: r => scanLongLiteral (dropNewline r)
  | '\'' :: r => scanLiteral r
  | _ => none

/-! ### Keys -/

def isBare (c : Char) : Bool := c.isAlphanum || c == '-' || c == '_'

def scanKey : List Char → Scanned
  | '\"' :: r => scanBasic r
  | '\'' :: r => scanLiteral r
  | s =>
    match s.span isBare with
    | ([], _) => none
    | (cs, r) => some (cs, r)

/-- The parts of a dotted key, with blanks around each of them. -/
def scanParts : Nat → List Char → Option (List String × List Char)
  | 0, _ => none
  | fuel + 1, s => do
    let (part, s) ← scanKey (skipBlanks s)
    match skipBlanks s with
    | '.' :: s =>
      let (parts, s) ← scanParts fuel s
      return (String.ofList part :: parts, s)
    | s => return ([String.ofList part], s)

/-- How many parts a key, and how many containers a value may have at most, plus one. -/
def depthLimit : Nat := 80

def scanPath (s : List Char) : Option (List String × List Char) := do
  let (parts, s) ← scanParts (s.length + 1) s
  if parts.length < depthLimit then return (parts, s) else none

end Interlock.Toml
