import Interlock.Digest.Xxh3

/-! Digests of byte sequences, and the bytes of the integers that are fed to them: tags are one
byte, other integers little-endian. -/

namespace Interlock

/-- The `n` little-endian bytes of a number. -/
def littleEndian (value : Nat) : Nat → List UInt8
  | 0 => []
  | n + 1 => UInt8.ofNat value :: littleEndian (value / 256) n

def tagBytes (tag : Nat) : List UInt8 := littleEndian tag 1

def countBytes (value : Nat) : List UInt8 := littleEndian value 4

def wordBytes (value : UInt64) : List UInt8 := littleEndian value.toNat 8

/-- A digest of sixteen bytes, the low half first. -/
structure Digest where
  bytes : List UInt8
deriving DecidableEq, Repr

namespace Digest

def ofBytes (input : List UInt8) : Digest :=
  let h := Xxh3.hash input.toArray
  ⟨wordBytes h.low ++ wordBytes h.high⟩

def hexDigit (n : Nat) : Char := Char.ofNat (if n < 10 then 48 + n else 87 + n)

def hexByte (b : UInt8) : List Char := [hexDigit (b.toNat / 16), hexDigit (b.toNat % 16)]

/-- Two hexadecimal digits for each byte. -/
def render (d : Digest) : String := String.ofList (d.bytes.flatMap hexByte)

/-- The first two bytes stand for the whole. -/
def renderShort (d : Digest) : String :=
  "ContentHash(" ++ String.ofList ((d.bytes.take 2).flatMap hexByte) ++ "..)"

end Digest

end Interlock
