/-
# The 128-bit XXH3 digest

A fast, well mixing digest of a byte string: not a cryptographic one, but one whose 128 bits make
an accidental collision implausible.  This module is its definition for the zero seed and the
standard 192-byte secret; what the digest is used for is said in `ScriptBundle.Digest`.

The digest is a family of five functions, chosen by the length of the input, because short inputs
deserve few multiplications:

* none, 1 to 3, 4 to 8 and 9 to 16 bytes: one or two words that cover the input with overlap;
* 17 to 128 bytes: pairs of 16-byte pieces taken from both ends towards the middle;
* 129 to 240 bytes: 32-byte pieces from the front and one from the back;
* more: eight running words over 64-byte stripes, scrambled after each sixteen of them.

All words are read least significant byte first, and all arithmetic is modulo the word's width.
-/
import ScriptBundle.Bytes

namespace ScriptBundle.Xxh3

/-! ## 1. Constants -/

def prime32A : UInt64 := 0x9E3779B1
def prime32B : UInt64 := 0x85EBCA77
def prime32C : UInt64 := 0xC2B2AE3D
def prime64A : UInt64 := 0x9E3779B185EBCA87
def prime64B : UInt64 := 0xC2B2AE3D27D4EB4F
def prime64C : UInt64 := 0x165667B19E3779F9
def prime64D : UInt64 := 0x85EBCA77C2B2AE63
def prime64E : UInt64 := 0x27D4EB2F165667C5
def mixPrimeA : UInt64 := 0x165667919E3779F9
def mixPrimeB : UInt64 := 0x9FB21C651E98DF25

/-- The standard secret. -/
def secret : Bytes :=
  [0xb8, 0xfe, 0x6c, 0x39, 0x23, 0xa4, 0x4b, 0xbe, 0x7c, 0x01, 0x81, 0x2c, 0xf7, 0x21, 0xad, 0x1c,
   0xde, 0xd4, 0x6d, 0xe9, 0x83, 0x90, 0x97, 0xdb, 0x72, 0x40, 0xa4, 0xa4, 0xb7, 0xb3, 0x67, 0x1f,
   0xcb, 0x79, 0xe6, 0x4e, 0xcc, 0xc0, 0xe5, 0x78, 0x82, 0x5a, 0xd0, 0x7d, 0xcc, 0xff, 0x72, 0x21,
   0xb8, 0x08, 0x46, 0x74, 0xf7, 0x43, 0x24, 0x8e, 0xe0, 0x35, 0x90, 0xe6, 0x81, 0x3a, 0x26, 0x4c,
   0x3c, 0x28, 0x52, 0xbb, 0x91, 0xc3, 0x00, 0xcb, 0x88, 0xd0, 0x65, 0x8b, 0x1b, 0x53, 0x2e, 0xa3,
   0x71, 0x64, 0x48, 0x97, 0xa2, 0x0d, 0xf9, 0x4e, 0x38, 0x19, 0xef, 0x46, 0xa9, 0xde, 0xac, 0xd8,
   0xa8, 0xfa, 0x76, 0x3f, 0xe3, 0x9c, 0x34, 0x3f, 0xf9, 0xdc, 0xbb, 0xc7, 0xc7, 0x0b, 0x4f, 0x1d,
   0x8a, 0x51, 0xe0, 0x4b, 0xcd, 0xb4, 0x59, 0x31, 0xc8, 0x9f, 0x7e, 0xc9, 0xd9, 0x78, 0x73, 0x64,
   0xea, 0xc5, 0xac, 0x83, 0x34, 0xd3, 0xeb, 0xc3, 0xc5, 0x81, 0xa0, 0xff, 0xfa, 0x13, 0x63, 0xeb,
   0x17, 0x0d, 0xdd, 0x51, 0xb7, 0xf0, 0xda, 0x49, 0xd3, 0x16, 0x55, 0x26, 0x29, 0xd4, 0x68, 0x9e,
   0x2b, 0x16, 0xbe, 0x58, 0x7d, 0x47, 0xa1, 0xfc, 0x8f, 0xf8, 0xb8, 0xd1, 0x7a, 0xd0, 0x31, 0xce,
   0x45, 0xcb, 0x3a, 0x8f, 0x95, 0x16, 0x04, 0x28, 0xaf, 0xd7, 0xfb, 0xca, 0xbb, 0x4b, 0x40, 0x7e]

/-! ## 2. Words -/

/-- The 64-bit word at the front of a byte string. -/
def word64 (bytes : Bytes) : UInt64 := UInt64.ofNat (Bytes.ofLittleEndian (bytes.take 8))

/-- The 32-bit word at the front of a byte string. -/
def word32 (bytes : Bytes) : UInt64 := UInt64.ofNat (Bytes.ofLittleEndian (bytes.take 4))

/-- The first `n` 64-bit words of a byte string. -/
def words : (n : Nat) → Bytes → List UInt64
  | 0, _ => []
  | n + 1, bytes => word64 bytes :: words n (bytes.drop 8)

/-- The secret's 64-bit word at an offset. -/
def secret64 (offset : Nat) : UInt64 := word64 (secret.drop offset)

/-- The secret's 32-bit word at an offset. -/
def secret32 (offset : Nat) : UInt64 := word32 (secret.drop offset)

/-- The bytes of a word in the opposite order. -/
def reverseBytes (width : Nat) (w : UInt64) : UInt64 :=
  UInt64.ofNat (Bytes.ofLittleEndian (Bytes.littleEndian width w.toNat).reverse)

/-- Two 64-bit halves. -/
structure Wide where
  low : UInt64
  high : UInt64

/-- The full product of two words. -/
def mul (a b : UInt64) : Wide :=
  let product := a.toNat * b.toNat
  ⟨UInt64.ofNat product, UInt64.ofNat (product / 0x10000000000000000)⟩

/-- The two halves of the full product, folded into one word. -/
def mulFold (a b : UInt64) : UInt64 :=
  let p := mul a b
  p.low ^^^ p.high

/-- Exclusive or with the word's own high part. -/
def xorShift (w shift : UInt64) : UInt64 := w ^^^ (w >>> shift)

/-- The final mixing of long inputs. -/
def avalanche (w : UInt64) : UInt64 := xorShift (xorShift w 37 * mixPrimeA) 32

/-- The final mixing of the shortest inputs. -/
def shortAvalanche (w : UInt64) : UInt64 :=
  xorShift (xorShift (xorShift w 33 * prime64B) 29 * prime64C) 32

/-! ## 3. Up to sixteen bytes -/

def digestNone : Wide :=
  ⟨shortAvalanche (secret64 64 ^^^ secret64 72), shortAvalanche (secret64 80 ^^^ secret64 88)⟩

def digest1to3 (input : Bytes) : Wide :=
  let size := input.length
  let first := (input.getD 0 0).toUInt64
  let middle := (input.getD (size / 2) 0).toUInt64
  let last := (input.getD (size - 1) 0).toUInt64
  let low := (first <<< 16) ||| (middle <<< 24) ||| last ||| (UInt64.ofNat size <<< 8)
  let swapped := reverseBytes 4 low
  let high := ((swapped <<< 13) ||| (swapped >>> 19)) &&& 0xFFFFFFFF
  ⟨shortAvalanche (low ^^^ (secret32 0 ^^^ secret32 4)),
   shortAvalanche (high ^^^ (secret32 8 ^^^ secret32 12))⟩

def digest4to8 (input : Bytes) : Wide :=
  let size := input.length
  let whole := word32 input + (word32 (input.drop (size - 4)) <<< 32)
  let keyed := whole ^^^ (secret64 16 ^^^ secret64 24)
  let product := mul keyed (prime64A + (UInt64.ofNat size <<< 2))
  let high := product.high + (product.low <<< 1)
  let low := product.low ^^^ (high >>> 3)
  ⟨xorShift (xorShift low 35 * mixPrimeB) 28, avalanche high⟩

def digest9to16 (input : Bytes) : Wide :=
  let size := input.length
  let front := word64 input
  let back := word64 (input.drop (size - 8))
  let product := mul (front ^^^ back ^^^ (secret64 32 ^^^ secret64 40)) prime64A
  let low := product.low + (UInt64.ofNat (size - 1) <<< 54)
  let keyed := back ^^^ (secret64 48 ^^^ secret64 56)
  let high := product.high + keyed + (keyed &&& 0xFFFFFFFF) * (prime32B - 1)
  let product' := mul (low ^^^ reverseBytes 8 high) prime64B
  ⟨avalanche product'.low, avalanche (product'.high + high * prime64B)⟩

/-! ## 4. Up to 240 bytes -/

/-- One word from the sixteen bytes at the front of `input`. -/
def mix16 (input : Bytes) (offset : Nat) : UInt64 :=
  mulFold (word64 input ^^^ secret64 offset) (word64 (input.drop 8) ^^^ secret64 (offset + 8))

/-- Both running words after two sixteen-byte pieces. -/
def mix32 (acc : Wide) (one two : Bytes) (offset : Nat) : Wide :=
  ⟨(acc.low + mix16 one offset) ^^^ (word64 two + word64 (two.drop 8)),
   (acc.high + mix16 two (offset + 16)) ^^^ (word64 one + word64 (one.drop 8))⟩

/-- What ends a digest of middle length. -/
def finishMiddle (acc : Wide) (size : Nat) : Wide :=
  ⟨avalanche (acc.low + acc.high),
   0 - avalanche (acc.low * prime64A + acc.high * prime64D + UInt64.ofNat size * prime64B)⟩

/-- The running words before the first piece. -/
def startMiddle (size : Nat) : Wide := ⟨UInt64.ofNat size * prime64A, 0⟩

def digest17to128 (input : Bytes) : Wide :=
  let size := input.length
  let pair (acc : Wide) (i : Nat) : Wide :=
    mix32 acc (input.drop (16 * i)) (input.drop (size - 16 * (i + 1))) (32 * i)
  finishMiddle ((List.range ((size - 1) / 32 + 1)).reverse.foldl pair (startMiddle size)) size

def digest129to240 (input : Bytes) : Wide :=
  let size := input.length
  let piece (start : Nat) (acc : Wide) (i : Nat) : Wide :=
    mix32 acc (input.drop (32 * i)) (input.drop (32 * i + 16)) (start + 32 * i)
  let head := (List.range 4).foldl (piece 0) (startMiddle size)
  let head := Wide.mk (avalanche head.low) (avalanche head.high)
  let body (acc : Wide) (i : Nat) : Wide :=
    mix32 acc (input.drop (32 * i)) (input.drop (32 * i + 16)) (3 + 32 * (i - 4))
  let all := ((List.range (size / 32)).drop 4).foldl body head
  finishMiddle (mix32 all (input.drop (size - 16)) (input.drop (size - 32)) 103) size

/-! ## 5. More than 240 bytes -/

/-- The eight running words before the first stripe. -/
def startLong : List UInt64 :=
  [prime32C, prime64A, prime64B, prime64C, prime64D, prime32B, prime64E, prime32A]

/-- Neighbouring words trade places. -/
def swapNeighbours : List UInt64 → List UInt64
  | a :: b :: rest => b :: a :: swapNeighbours rest
  | rest => rest

/-- The product of a word's halves. -/
def halvesProduct (w : UInt64) : UInt64 :=
  let high : UInt64 := w >>> 32
  (w &&& 0xFFFFFFFF) * high

/-- The running words after a stripe of 64 bytes, under the secret at an offset. -/
def addStripe (acc : List UInt64) (stripe : Bytes) (offset : Nat) : List UInt64 :=
  let data := words 8 stripe
  let keyed := List.zipWith (fun w key => w ^^^ key) data (words 8 (secret.drop offset))
  let products := keyed.map halvesProduct
  List.zipWith (· + ·) (List.zipWith (· + ·) acc (swapNeighbours data)) products

/-- The running words after the sixteen stripes of a block. -/
def scramble (acc : List UInt64) : List UInt64 :=
  List.zipWith (fun w key => (xorShift w 47 ^^^ key) * prime32A) acc (words 8 (secret.drop 128))

/-- Adds `count` stripes, starting with the stripe numbered `index` of its block; a full block is
scrambled before the next begins. -/
def addStripes : (count index : Nat) → List UInt64 → Bytes → List UInt64
  | 0, _, acc, _ => acc
  | count + 1, index, acc, input =>
    let acc := addStripe acc input (8 * index)
    if index = 15 then addStripes count 0 (scramble acc) (input.drop 64)
    else addStripes count (index + 1) acc (input.drop 64)

/-- Folds the eight running words into one. -/
def merge (acc : List UInt64) (offset : Nat) (start : UInt64) : UInt64 :=
  let rec pairs : List UInt64 → List UInt64 → UInt64
    | a :: b :: rest, k :: l :: keys => mulFold (a ^^^ k) (b ^^^ l) + pairs rest keys
    | _, _ => 0
  avalanche (start + pairs acc (words 8 (secret.drop offset)))

def digestLong (input : Bytes) : Wide :=
  let size := input.length
  let acc := addStripes ((size - 1) / 64) 0 startLong input
  let acc := addStripe acc (input.drop (size - 64)) 121
  ⟨merge acc 11 (UInt64.ofNat size * prime64A),
   merge acc 117 (~~~(UInt64.ofNat size * prime64B))⟩

/-! ## 6. All lengths -/

/-- The two halves of the digest of a byte string. -/
def digest (input : Bytes) : Wide :=
  let size := input.length
  if size = 0 then digestNone
  else if size ≤ 3 then digest1to3 input
  else if size ≤ 8 then digest4to8 input
  else if size ≤ 16 then digest9to16 input
  else if size ≤ 128 then digest17to128 input
  else if size ≤ 240 then digest129to240 input
  else digestLong input

/-- The sixteen bytes of the digest, least significant first. -/
def digestBytes (input : Bytes) : Bytes :=
  let d := digest input
  Bytes.littleEndian 8 d.low.toNat ++ Bytes.littleEndian 8 d.high.toNat

@[simp] theorem length_digestBytes (input : Bytes) : (digestBytes input).length = 16 := by
  simp [digestBytes]

end ScriptBundle.Xxh3
