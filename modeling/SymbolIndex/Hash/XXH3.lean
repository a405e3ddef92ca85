import SymbolIndex.Text.Bytes

/-! The XXH3 hash of a byte string with seed zero and the default secret, in its 64-bit and 128-bit
forms. Short inputs are mixed in one step chosen by their length; from 241 bytes on, eight
accumulators absorb stripes of 64 bytes. -/

namespace SymbolIndex.XXH3

def prime32A : UInt64 := 0x9E3779B1
def prime32B : UInt64 := 0x85EBCA77
def prime32C : UInt64 := 0xC2B2AE3D
def primeA : UInt64 := 0x9E3779B185EBCA87
def primeB : UInt64 := 0xC2B2AE3D27D4EB4F
def primeC : UInt64 := 0x165667B19E3779F9
def primeD : UInt64 := 0x85EBCA77C2B2AE63
def primeE : UInt64 := 0x27D4EB2F165667C5
def primeX : UInt64 := 0x165667919E3779F9
def primeY : UInt64 := 0x9FB21C651E98DF25

def secret : Array UInt8 := #[
  0xb8, 0xfe, 0x6c, 0x39, 0x23, 0xa4, 0x4b, 0xbe, 0x7c, 0x01, 0x81, 0x2c, 0xf7, 0x21, 0xad, 0x1c,
  0xde, 0xd4, 0x6d, 0xe9, 0x83, 0x90, 0x97, 0xdb, 0x72, 0x40, 0xa4, 0xa4, 0xb7, 0xb3, 0x67, 0x1f,
  0xcb, 0x79, 0xe6, 0x4e, 0xcc, 0xc0, 0xe5, 0x78, 0x82, 0x5a, 0xd0, 0x7d, 0xcc, 0xff, 0x72, 0x21,
  0xb8, 0x08, 0x46, 0x74, 0xf7, 0x43, 0x24, 0x8e, 0xe0, 0x35, 0x90, 0xe6, 0x81, 0x3a, 0x26, 0x4c,
  0x3c, 0x28, 0x52, 0xbb, 0x91, 0xc3, 0x00, 0xcb, 0x88, 0xd0, 0x65, 0x8b, 0x1b, 0x53, 0x2e, 0xa3,
  0x71, 0x64, 0x48, 0x97, 0xa2, 0x0d, 0xf9, 0x4e, 0x38, 0x19, 0xef, 0x46, 0xa9, 0xde, 0xac, 0xd8,
  0xa8, 0xfa, 0x76, 0x3f, 0xe3, 0x9c, 0x34, 0x3f, 0xf9, 0xdc, 0xbb, 0xc7, 0xc7, 0x0b, 0x4f, 0x1d,
  0x8a, 0x51, 0xe0, 0x4b, 0xcd, 0xb4, 0x59, 0x31, 0xc8, 0x9f, 0x7e, 0xc9, 0xd9, 0x78, 0x73, 0x64,
  0xea, 0xc5, 0xac, 0x83, 0x34, 0xd3, 0xeb, 0xc3, 0xc5, 0x81, 0xa0, 0xff, 0xfa, 0x13, 0x63, 0xeb,
  0x17, 0x0d, 0xdd, 0x51, 0xb7, 0xf0, 0xda, 0x49, 0xd3, 0x16, 0x55, 0x26, 0x29, 0xd4, 0x68, 0x9e,
  0x2b, 0x16, 0xbe, 0x58, 0x7d, 0x47, 0xa1, 0xfc, 0x8f, 0xf8, 0xb8, 0xd1, 0x7a, 0xd0, 0x31, 0xce,
  0x45, 0xcb, 0x3a, 0x8f, 0x95, 0x16, 0x04, 0x28, 0xaf, 0xd7, 0xfb, 0xca, 0xbb, 0x4b, 0x40, 0x7e]

/-- The low half of a word. -/
def lowHalf (x : UInt64) : UInt64 := x % 0x100000000

def byteAt (input : Array UInt8) (i : Nat) : UInt64 := (input.getD i 0).toUInt64

/-- The little-endian 32-bit word at an offset. -/
def word32 (input : Array UInt8) (i : Nat) : UInt64 :=
  byteAt input i ||| byteAt input (i + 1) <<< 8 ||| byteAt input (i + 2) <<< 16 |||
    byteAt input (i + 3) <<< 24

/-- The little-endian 64-bit word at an offset. -/
def word (input : Array UInt8) (i : Nat) : UInt64 :=
  word32 input i ||| word32 input (i + 4) <<< 32

def key32 (i : Nat) : UInt64 := word32 secret i

def key (i : Nat) : UInt64 := word secret i

def rotate (x : UInt64) (n : UInt64) : UInt64 := x <<< n ||| x >>> (64 - n)

def swapBytes32 (x : UInt64) : UInt64 :=
  (x % 256) <<< 24 ||| (x >>> 8 % 256) <<< 16 ||| (x >>> 16 % 256) <<< 8 ||| x >>> 24 % 256

def swapBytes (x : UInt64) : UInt64 :=
  swapBytes32 (lowHalf x) <<< 32 ||| swapBytes32 (x >>> 32)

def rotate32 (x : UInt64) (n : UInt64) : UInt64 := lowHalf (x <<< n ||| x >>> (32 - n))

structure Wide where
  low : UInt64
  high : UInt64
  deriving DecidableEq

/-- The full product of two words. -/
def multiply (a b : UInt64) : Wide :=
  let product := a.toNat * b.toNat
  ⟨.ofNat product, .ofNat (product / UInt64.size)⟩

def multiplyFold (a b : UInt64) : UInt64 := (multiply a b).low ^^^ (multiply a b).high

def avalanche (x : UInt64) : UInt64 :=
  let x := (x ^^^ x >>> 37) * primeX
  x ^^^ x >>> 32

def avalanche64 (x : UInt64) : UInt64 :=
  let x := (x ^^^ x >>> 33) * primeB
  let x := (x ^^^ x >>> 29) * primeC
  x ^^^ x >>> 32

/-- Mix the 16 bytes at `i` with the secret at `k`; `shift` stands for the seed. -/
def mix16 (input : Array UInt8) (i k : Nat) : UInt64 :=
  multiplyFold (word input i ^^^ key k) (word input (i + 8) ^^^ key (k + 8))

def combined3 (input : Array UInt8) : UInt64 :=
  let n := input.size
  byteAt input 0 <<< 16 ||| byteAt input (n / 2) <<< 24 ||| byteAt input (n - 1) |||
    UInt64.ofNat n <<< 8

def accumulatorSeed : List UInt64 :=
  [prime32C, primeA, primeB, primeC, primeD, prime32B, primeE, prime32A]

/-- Absorb the stripe at `i` under the secret at `k`. -/
def absorb (input : Array UInt8) (acc : List UInt64) (i k : Nat) : List UInt64 :=
  let lane := fun (j : Nat) => word input (i + 8 * j)
  acc.mapIdx fun (j : Nat) (a : UInt64) =>
    let keyed : UInt64 := lane j ^^^ key (k + 8 * j)
    a + lane (if j % 2 = 0 then j + 1 else j - 1) + lowHalf keyed * keyed >>> 32

def scramble (acc : List UInt64) : List UInt64 :=
  acc.mapIdx fun (j : Nat) (a : UInt64) => (a ^^^ a >>> 47 ^^^ key (128 + 8 * j)) * prime32A

def absorbStripes (input : Array UInt8) (start count : Nat) (acc : List UInt64) : List UInt64 :=
  (List.range count).foldl (fun acc n => absorb input acc (start + 64 * n) (8 * n)) acc

/-- The accumulators after a long input: whole blocks of 16 stripes, each scrambled, then the
stripes left over, then the last 64 bytes. -/
def absorbAll (input : Array UInt8) : List UInt64 :=
  let blocks := (input.size - 1) / 1024
  let acc := (List.range blocks).foldl
    (fun acc b => scramble (absorbStripes input (1024 * b) 16 acc)) accumulatorSeed
  let acc := absorbStripes input (1024 * blocks) ((input.size - 1 - 1024 * blocks) / 64) acc
  absorb input acc (input.size - 64) 121

def mergeLanes (acc : List UInt64) (k : Nat) (start : UInt64) : UInt64 :=
  let lane := fun (j : Nat) => acc.getD j 0
  avalanche <| (List.range 4).foldl (fun sum j => sum +
    multiplyFold (lane (2 * j) ^^^ key (k + 16 * j)) (lane (2 * j + 1) ^^^ key (k + 16 * j + 8))) start

def hash64 (bytes : Bytes) : UInt64 :=
  let input := bytes.toArray
  let n := input.size
  let size := UInt64.ofNat n
  if n = 0 then avalanche64 (key 56 ^^^ key 64)
  else if n ≤ 3 then avalanche64 (combined3 input ^^^ (key32 0 ^^^ key32 4))
  else if n ≤ 8 then
    let x := (word32 input (n - 4) + word32 input 0 <<< 32) ^^^ (key 8 ^^^ key 16)
    let x := (x ^^^ rotate x 49 ^^^ rotate x 24) * primeY
    let x := (x ^^^ (x >>> 35 + size)) * primeY
    x ^^^ x >>> 28
  else if n ≤ 16 then
    let low := word input 0 ^^^ (key 24 ^^^ key 32)
    let high := word input (n - 8) ^^^ (key 40 ^^^ key 48)
    avalanche (size + swapBytes low + high + multiplyFold low high)
  else if n ≤ 128 then
    avalanche <| (List.range ((n - 1) / 32 + 1)).foldl (fun acc i =>
      acc + mix16 input (16 * i) (32 * i) + mix16 input (n - 16 * (i + 1)) (32 * i + 16)) (size * primeA)
  else if n ≤ 240 then
    let first := avalanche <|
      (List.range 8).foldl (fun acc i => acc + mix16 input (16 * i) (16 * i)) (size * primeA)
    let rest := (List.range (n / 16 - 8)).foldl
      (fun acc i => acc + mix16 input (128 + 16 * i) (16 * i + 3)) first
    avalanche (rest + mix16 input (n - 16) 119)
  else mergeLanes (absorbAll input) 11 (size * primeA)

/-- Mix two pieces of 16 bytes into both halves. -/
def mix32 (input : Array UInt8) (acc : Wide) (i j k : Nat) : Wide :=
  ⟨(acc.low + mix16 input i k) ^^^ (word input j + word input (j + 8)),
    (acc.high + mix16 input j (k + 16)) ^^^ (word input i + word input (i + 8))⟩

def finish128 (size : UInt64) (acc : Wide) : Wide :=
  ⟨avalanche (acc.low + acc.high),
    0 - avalanche (acc.low * primeA + acc.high * primeD + size * primeB)⟩

def hash128 (bytes : Bytes) : Wide :=
  let input := bytes.toArray
  let n := input.size
  let size := UInt64.ofNat n
  if n = 0 then ⟨avalanche64 (key 64 ^^^ key 72), avalanche64 (key 80 ^^^ key 88)⟩
  else if n ≤ 3 then
    let low := combined3 input
    let high := rotate32 (swapBytes32 low) 13
    ⟨avalanche64 (low ^^^ (key32 0 ^^^ key32 4)), avalanche64 (high ^^^ (key32 8 ^^^ key32 12))⟩
  else if n ≤ 8 then
    let x := (word32 input 0 + word32 input (n - 4) <<< 32) ^^^ (key 16 ^^^ key 24)
    let product := multiply x (primeA + size <<< 2)
    let high := product.high + product.low <<< 1
    let low := product.low ^^^ high >>> 3
    let low := (low ^^^ low >>> 35) * primeY
    ⟨low ^^^ low >>> 28, avalanche high⟩
  else if n ≤ 16 then
    let tail := word input (n - 8)
    let product := multiply (word input 0 ^^^ tail ^^^ (key 32 ^^^ key 40)) primeA
    let low := product.low + (size - 1) <<< 54
    let tail := tail ^^^ (key 48 ^^^ key 56)
    let high := product.high + tail + lowHalf tail * (prime32B - 1)
    let low := low ^^^ swapBytes high
    let product := multiply low primeB
    ⟨avalanche product.low, avalanche (product.high + high * primeB)⟩
  else if n ≤ 128 then
    let pairs := (n - 1) / 32 + 1
    finish128 size <| (List.range pairs).foldl (fun acc r =>
      let i := pairs - 1 - r
      mix32 input acc (16 * i) (n - 16 * (i + 1)) (32 * i)) ⟨size * primeA, 0⟩
  else if n ≤ 240 then
    let acc := (List.range 4).foldl
      (fun acc i => mix32 input acc (32 * i) (32 * i + 16) (32 * i)) ⟨size * primeA, 0⟩
    let acc := (List.range (n / 32 - 4)).foldl
      (fun acc i => mix32 input acc (128 + 32 * i) (144 + 32 * i) (32 * i + 3))
      ⟨avalanche acc.low, avalanche acc.high⟩
    finish128 size (mix32 input acc (n - 16) (n - 32) 103)
  else
    let acc := absorbAll input
    ⟨mergeLanes acc 11 (size * primeA), mergeLanes acc 117 (~~~ (size * primeB))⟩

end SymbolIndex.XXH3
