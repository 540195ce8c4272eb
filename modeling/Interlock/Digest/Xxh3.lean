/-! The XXH3 hash of 128 bits with seed zero and the default secret, as a function of the whole
input. Inputs of up to 16, 128 and 240 bytes and longer ones each have a mixing of their own. -/

namespace Interlock.Xxh3

abbrev Bytes := Array UInt8

/-- A 128-bit value in two halves. -/
structure Wide where
  low : UInt64
  high : UInt64
deriving DecidableEq, Repr

def prime32a : UInt64 := 0x9E3779B1
def prime32b : UInt64 := 0x85EBCA77
def prime32c : UInt64 := 0xC2B2AE3D
def prime64a : UInt64 := 0x9E3779B185EBCA87
def prime64b : UInt64 := 0xC2B2AE3D27D4EB4F
def prime64c : UInt64 := 0x165667B19E3779F9
def prime64d : UInt64 := 0x85EBCA77C2B2AE63
def prime64e : UInt64 := 0x27D4EB2F165667C5

def secret : Bytes := #[
  0xb8, 0xfe, 0x6c, 0x39, 0x23, 0xa4, 0x4b, 0xbe, 0x7c, 0x01, 0x81, 0x2c, 0xf7, 0x21, 0xad, 0x1c,
  0xde, 0xd4, 0x6d, 0xe9, 0x83, 0x90, 0x97, 0xdb, 0x72, 0x40, 0xa4, 0xa4, 0xb7, 0xb3, 0x67, 0x1f,
  0xcb, 0x79, 0xe6, 0x4e, 0xcc, 0xc0, 0xe5, 0x78, 0x82, 0x5a, 0xd0, 0x7d, 0xcc, 0xff, 0x72, 0x21,
  0xb8, 0x08, 0x46, 0x74, 0xf7, 0x43, 0x24, 0x8e, 0xe0, 0x35, 0x90, 0xe6, 0x81, 0x3a, 0x26, 0x4c,
  0x3c, 0x28, 0x52, 0xbb, 0x91, 0xc3, 0x00, 0xcb, 0x88, 0xd0, 0x65, 0x8b, 0x1b, 0x53, 0x2e, 0xa3,
  0x71, 0x64, 0x48, 0x97, 0xa2, 0x0d, 0xf9, 0x4e, 0x38, 0x19, 0xef, 0x46, 0xa9, 0xde, 0xac, 0xd8,
  0xa8, 0xfa, 0x76, 0x3f, 0xe3, 0x9c, 0x34, 0x3f, 0xf9, 0xdc, 0xbb, 0xc7, 0xc7, 0x0b, 0x4f, 0x1d,
  0x8a, 0x51, 0xe0, 0x4b, 0xcd, 0xb4, 0x59, 0x31, 0xc8, 0x9f, 0x7e, 0xc9, 0xd9, 0x78, 0x73, 0x64,
  0xea, 0xc5, 0xac, 0x83, 0x34, 0xd3, 0xeb, 0xc3, 0xc5, 0x81, 0xa0, 0xff, 0xfa, 0x13, 0x63, 0xeb,
  0x17, 0x0d, 0xdd, 0x51, 0xb7, 0xf0, 0xda, 0x49, 0xd3, 0x16, 0x55, 0x26, 0x29, 0xd4, 0x68, 0x9e,
  0x2b, 0x16, 0xbe, 0x58, 0x7d, 0x47, 0xa1, 0xfc, 0x8f, 0xf8, 0xb8, 0xd1, 0x7a, 0xd0, 0x31, 0xce,
  0x45, 0xcb, 0x3a, 0x8f, 0x95, 0x16, 0x04, 0x28, 0xaf, 0xd7, 0xfb, 0xca, 0xbb, 0x4b, 0x40, 0x7e]

/-- `n` bytes from position `i`, the least significant one first. -/
def little (b : Bytes) (i : Nat) : Nat → UInt64
  | 0 => 0
  | n + 1 => (b.getD i 0).toUInt64 ||| little b (i + 1) n <<< 8

def read32 (b : Bytes) (i : Nat) : UInt64 := little b i 4

def read64 (b : Bytes) (i : Nat) : UInt64 := little b i 8

/-- The bytes of a word in reverse order. -/
def swap64 (v : UInt64) : UInt64 :=
  (List.range 8).foldl (fun r i => r <<< 8 ||| (v >>> UInt64.ofNat (8 * i) &&& 0xff)) 0

/-- The low four bytes of a word in reverse order. -/
def swap32 (v : UInt64) : UInt64 := swap64 v >>> 32

/-- A 32-bit rotation to the left. -/
def rotate32 (v : UInt64) (n : UInt64) : UInt64 := (v <<< n ||| v >>> (32 - n)) &&& 0xffffffff

def multiply (a b : UInt64) : Wide :=
  let p := a.toNat * b.toNat
  ⟨UInt64.ofNat p, UInt64.ofNat (p >>> 64)⟩

/-- Both halves of a product, combined. -/
def multiplyFold (a b : UInt64) : UInt64 :=
  let p := multiply a b
  p.low ^^^ p.high

def avalanche (h : UInt64) : UInt64 :=
  let h := (h ^^^ h >>> 37) * 0x165667919E3779F9
  h ^^^ h >>> 32

def strongAvalanche (h : UInt64) : UInt64 :=
  let h := (h ^^^ h >>> 33) * prime64b
  let h := (h ^^^ h >>> 29) * prime64c
  h ^^^ h >>> 32

def secretPair (i : Nat) : UInt64 := read64 secret i ^^^ read64 secret (i + 8)

def hashEmpty : Wide := ⟨strongAvalanche (secretPair 64), strongAvalanche (secretPair 80)⟩

/-- Inputs of one to three bytes. -/
def hashTiny (b : Bytes) : Wide :=
  let n := b.size
  let first := (b.getD 0 0).toUInt64
  let middle := (b.getD (n / 2) 0).toUInt64
  let last := (b.getD (n - 1) 0).toUInt64
  let low := first <<< 16 ||| middle <<< 24 ||| last ||| UInt64.ofNat n <<< 8
  let high := rotate32 (swap32 low) 13
  ⟨strongAvalanche (low ^^^ (read32 secret 0 ^^^ read32 secret 4)),
    strongAvalanche (high ^^^ (read32 secret 8 ^^^ read32 secret 12))⟩

/-- Inputs of four to eight bytes. -/
def hashSmall (b : Bytes) : Wide :=
  let n := b.size
  let keyed := (read32 b 0 + read32 b (n - 4) <<< 32) ^^^ secretPair 16
  let m := multiply keyed (prime64a + UInt64.ofNat n <<< 2)
  let high := m.high + m.low <<< 1
  let low := m.low ^^^ high >>> 3
  let low := (low ^^^ low >>> 35) * 0x9FB21C651E98DF25
  ⟨low ^^^ low >>> 28, avalanche high⟩

/-- Inputs of nine to sixteen bytes. -/
def hashShort (b : Bytes) : Wide :=
  let n := b.size
  let last := read64 b (n - 8)
  let m := multiply (read64 b 0 ^^^ last ^^^ secretPair 32) prime64a
  let low := m.low + UInt64.ofNat (n - 1) <<< 54
  let keyed := last ^^^ secretPair 48
  let high := m.high + keyed + (keyed &&& 0xffffffff) * (prime32b - 1)
  let h := multiply (low ^^^ swap64 high) prime64b
  ⟨avalanche h.low, avalanche (h.high + high * prime64b)⟩

/-- Sixteen bytes at `i`, keyed by the secret at `s`. -/
def mix16 (b : Bytes) (i s : Nat) : UInt64 :=
  multiplyFold (read64 b i ^^^ read64 secret s) (read64 b (i + 8) ^^^ read64 secret (s + 8))

/-- Sixteen bytes at `i` and sixteen at `j`, each mixed into one half of the accumulator. -/
def mix32 (b : Bytes) (acc : Wide) (i j s : Nat) : Wide :=
  ⟨acc.low + mix16 b i s ^^^ read64 b j + read64 b (j + 8),
    acc.high + mix16 b j (s + 16) ^^^ read64 b i + read64 b (i + 8)⟩

/-- The last step for inputs of 17 to 240 bytes. -/
def finishMedium (n : Nat) (acc : Wide) : Wide :=
  ⟨avalanche (acc.low + acc.high),
    0 - avalanche (acc.low * prime64a + acc.high * prime64d + UInt64.ofNat n * prime64b)⟩

/-- Inputs of 17 to 128 bytes: pairs of blocks from both ends, the inner ones first. -/
def hashMedium (b : Bytes) : Wide :=
  let n := b.size
  let pairs := (List.range ((n - 1) / 32 + 1)).reverse
  finishMedium n <| pairs.foldl (fun acc k => mix32 b acc (16 * k) (n - 16 * (k + 1)) (32 * k))
    ⟨UInt64.ofNat n * prime64a, 0⟩

/-- Inputs of 129 to 240 bytes: blocks from the front, then the last one. -/
def hashLarge (b : Bytes) : Wide :=
  let n := b.size
  let acc := (List.range 4).foldl (fun acc k => mix32 b acc (32 * k) (32 * k + 16) (32 * k))
    ⟨UInt64.ofNat n * prime64a, 0⟩
  let acc : Wide := ⟨avalanche acc.low, avalanche acc.high⟩
  let acc := (List.range (n / 32 - 4)).foldl
    (fun acc k => mix32 b acc (32 * k + 128) (32 * k + 144) (32 * k + 3)) acc
  finishMedium n (mix32 b acc (n - 16) (n - 32) 103)

/-- One 64-byte stripe at `i` added to the eight lanes. -/
def accumulate (b : Bytes) (lanes : Array UInt64) (i s : Nat) : Array UInt64 :=
  (List.range 8).foldl (fun lanes k =>
    let v := read64 b (i + 8 * k)
    let key : UInt64 := v ^^^ read64 secret (s + 8 * k)
    (lanes.modify (if k % 2 = 0 then k + 1 else k - 1) (· + v)).modify k
      (· + (key &&& (0xffffffff : UInt64)) * (key >>> 32))) lanes

def scramble (lanes : Array UInt64) : Array UInt64 :=
  lanes.mapIdx fun k (v : UInt64) => (v ^^^ v >>> 47 ^^^ read64 secret (128 + 8 * k)) * prime32a

def mergeLanes (lanes : Array UInt64) (s : Nat) (start : UInt64) : UInt64 :=
  avalanche <| (List.range 4).foldl (fun r k =>
    r + multiplyFold (lanes.getD (2 * k) 0 ^^^ read64 secret (s + 16 * k))
      (lanes.getD (2 * k + 1) 0 ^^^ read64 secret (s + 16 * k + 8))) start

/-- Inputs of more than 240 bytes: blocks of sixteen stripes with a scramble after each, then the
stripes left over and the last one. -/
def hashLong (b : Bytes) : Wide :=
  let n := b.size
  let stripes (lanes : Array UInt64) (start count : Nat) : Array UInt64 :=
    (List.range count).foldl (fun lanes k => accumulate b lanes (start + 64 * k) (8 * k)) lanes
  let blocks := (n - 1) / 1024
  let lanes := (List.range blocks).foldl (fun lanes k => scramble (stripes lanes (1024 * k) 16))
    #[prime32c, prime64a, prime64b, prime64c, prime64d, prime32b, prime64e, prime32a]
  let lanes := stripes lanes (1024 * blocks) ((n - 1 - 1024 * blocks) / 64)
  let lanes := accumulate b lanes (n - 64) 121
  ⟨mergeLanes lanes 11 (UInt64.ofNat n * prime64a),
    mergeLanes lanes 117 (~~~(UInt64.ofNat n * prime64b))⟩

def hash (b : Bytes) : Wide :=
  if b.size = 0 then hashEmpty
  else if b.size ≤ 3 then hashTiny b
  else if b.size ≤ 8 then hashSmall b
  else if b.size ≤ 16 then hashShort b
  else if b.size ≤ 128 then hashMedium b
  else if b.size ≤ 240 then hashLarge b
  else hashLong b

end Interlock.Xxh3
