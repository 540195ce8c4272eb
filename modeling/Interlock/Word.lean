/-! Signal values: 64-bit words, of which a signal of width `w` uses the low `w` bits. -/

namespace Interlock

abbrev Word := UInt64

/-- The widest value a signal may carry, in bits. -/
def maxWidth : Nat := 64

/-- Widths, identifiers and counts are stored in 32 bits. -/
def wordLimit : Nat := UInt32.size

/-- The word whose low `width` bits are set; all of them from 64 bits on. -/
def mask (width : Nat) : Word :=
  if width < 64 then UInt64.ofNat (1 <<< width - 1) else UInt64.ofNat (UInt64.size - 1)

/-- Whether an odd number of the low `n` bits of `v` is set. -/
def oddBits (v : Word) : Nat → Bool
  | 0 => false
  | n + 1 => xor (v.toNat.testBit n) (oddBits v n)

end Interlock
