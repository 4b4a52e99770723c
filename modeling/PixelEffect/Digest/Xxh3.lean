namespace PixelEffect.Xxh3

/-- A 128-bit result in two halves. -/
structure Wide where
  low : UInt64
  high : UInt64
deriving DecidableEq

def prime32a : UInt64 := 0x9E3779B1
def prime32b : UInt64 := 0x85EBCA77
def prime32c : UInt64 := 0xC2B2AE3D
def prime64a : UInt64 := 0x9E3779B185EBCA87
def prime64b : UInt64 := 0xC2B2AE3D27D4EB4F
def prime64c : UInt64 := 0x165667B19E3779F9
def prime64d : UInt64 := 0x85EBCA77C2B2AE63
def prime64e : UInt64 := 0x27D4EB2F165667C5

/-- The 192 fixed bytes that inputs are mixed with. -/
def secret : ByteArray := ⟨#[
  0xb8, 0xfe, 0x6c, 0x39, 0x23, 0xa4, 0x4b, 0xbe, 0x7c, 0x01, 0x81, 0x2c, 0xf7, 0x21, 0xad, 0x1c,
  0xde, 0xd4, 0x6d, 0xe9, 0x83, 0x90, 0x97, 0xdb, 0x72, 0x40, 0xa4, 0xa4, 0xb7, 0xb3, 0x67, 0x1f,
  0xcb, 0x79, 0xe6, 0x4e, 0xcc, 0xc0, 0xe5, 0x78, 0x82, 0x5a, 0xd0, 0x7d, 0xcc, 0xff, 0x72, 0x21,
  0xb8, 0x08, 0x46, 0x74, 0xf7, 0x43, 0x24, 0x8e, 0xe0, 0x35, 0x90, 0xe6, 0x81, 0x3a, 0x26, 0x4c,
  0x3c, 0x28, 0x52, 0xbb, 0x91, 0xc3, 0x00, 0xcb, 0x88, 0xd0, 0x65, 0x8b, 0x1b, 0x53, 0x2e, 0xa3,
  0x71, 0x64, 0x48, 0x97, 0xa2, 0x0d, 0xf9, 0x4e, 0x38, 0x19, 0xef, 0x46, 0xa9, 0xde, 0xac, 0xd8,
  0xa8, 0xfa, 0x76, 0x3f, 0xe3, 0x9c, 0x34, 0x3f, 0xf9, 0xdc, 0xbb, 0xc7, 0xc7, 0x0b, 0x4f, 0x1d,
  0x8a, 0x51, 0xe0, 0x4b, 0xcd, 0xb4, 0x59, 0x31, 0xc8, 0x9f, 0x7e, 0xc9, 0xd9, 0x78, 0x73, 0x64,
  0xea, 0xc5, 0xac, 0x83, 0x34, 0xd3, 0xeb, 0xc3, 0xc5, 0x81, 0xa0, 0xff, 0xfa, 0x13, 0x63, 0xeb,
  0x17, 0x0d, 0xdd, 0x51, 0xb7, 0xf0, 0xda, 0x49, 0xd3, 0x16, 0x55, 0x26, 0x29, 0xd4, 0x68, 0x9e,
  0x2b, 0x16, 0xbe, 0x58, 0x7d, 0x47, 0xa1, 0xfc, 0x8f, 0xf8, 0xb8, 0xd1, 0x7a, 0xd0, 0x31, 0xce,
  0x45, 0xcb, 0x3a, 0x8f, 0x95, 0x16, 0x04, 0x28, 0xaf, 0xd7, 0xfb, 0xca, 0xbb, 0x4b, 0x40, 0x7e]⟩

def byteAt (bytes : ByteArray) (i : Nat) : UInt64 := (bytes.data.getD i 0).toUInt64

/-- The little-endian 32-bit word that starts at byte `i`. -/
def word32At (bytes : ByteArray) (i : Nat) : UInt64 :=
  byteAt bytes i ||| byteAt bytes (i + 1) <<< 8 ||| byteAt bytes (i + 2) <<< 16
    ||| byteAt bytes (i + 3) <<< 24

/-- The little-endian 64-bit word that starts at byte `i`. -/
def wordAt (bytes : ByteArray) (i : Nat) : UInt64 :=
  word32At bytes i ||| word32At bytes (i + 4) <<< 32

/-- The eight bytes of a word, least significant first. -/
def wordBytes (w : UInt64) : List UInt8 :=
  (List.range 8).map fun i => (w >>> (8 * i.toUInt64)).toUInt8

/-- The full product of two words. -/
def mulWide (x y : UInt64) : Wide :=
  let product := x.toNat * y.toNat
  ⟨product.toUInt64, (product / UInt64.size).toUInt64⟩

/-- Both halves of the full product in one word. -/
def mulFold (x y : UInt64) : UInt64 :=
  let product := mulWide x y
  product.low ^^^ product.high

def lowHalf (x : UInt64) : UInt64 := x &&& 0xFFFFFFFF

def xorShift (x shift : UInt64) : UInt64 := x ^^^ x >>> shift

def avalanche (x : UInt64) : UInt64 :=
  xorShift (xorShift x 37 * 0x165667919E3779F9) 32

/-- The stronger final mixing of the shortest inputs. -/
def avalancheShort (x : UInt64) : UInt64 :=
  xorShift (xorShift (xorShift x 33 * prime64b) 29 * prime64c) 32

/-- Reverses the bytes of the lower 32 bits. -/
def swap32 (x : UInt64) : UInt64 :=
  (x &&& 0xFF) <<< 24 ||| (x >>> 8 &&& 0xFF) <<< 16 ||| (x >>> 16 &&& 0xFF) <<< 8
    ||| (x >>> 24 &&& 0xFF)

/-- Reverses the bytes of a word. -/
def swap64 (x : UInt64) : UInt64 := swap32 (lowHalf x) <<< 32 ||| swap32 (x >>> 32)

def digestEmpty (seed : UInt64) : Wide :=
  ⟨avalancheShort (seed ^^^ wordAt secret 64 ^^^ wordAt secret 72),
    avalancheShort (seed ^^^ wordAt secret 80 ^^^ wordAt secret 88)⟩

/-- Digest of one to three bytes. -/
def digestTo3 (input : ByteArray) (seed : UInt64) : Wide :=
  let size := input.size
  let low := byteAt input 0 <<< 16 ||| byteAt input (size / 2) <<< 24 ||| byteAt input (size - 1)
    ||| size.toUInt64 <<< 8
  let swapped := swap32 low
  let high := lowHalf (swapped <<< 13) ||| swapped >>> 19
  ⟨avalancheShort (low ^^^ ((word32At secret 0 ^^^ word32At secret 4) + seed)),
    avalancheShort (high ^^^ ((word32At secret 8 ^^^ word32At secret 12) - seed))⟩

/-- Digest of four to eight bytes. -/
def digestTo8 (input : ByteArray) (seed : UInt64) : Wide :=
  let size := input.size
  let seed := seed ^^^ swap32 (lowHalf seed) <<< 32
  let word := word32At input 0 + word32At input (size - 4) <<< 32
  let keyed := word ^^^ ((wordAt secret 16 ^^^ wordAt secret 24) + seed)
  let product := mulWide keyed (prime64a + size.toUInt64 <<< 2)
  let high := product.high + product.low <<< 1
  let low := product.low ^^^ high >>> 3
  ⟨xorShift (xorShift low 35 * 0x9FB21C651E98DF25) 28, avalanche high⟩

/-- Digest of nine to sixteen bytes. -/
def digestTo16 (input : ByteArray) (seed : UInt64) : Wide :=
  let size := input.size
  let flipLow := (wordAt secret 32 ^^^ wordAt secret 40) - seed
  let flipHigh := (wordAt secret 48 ^^^ wordAt secret 56) + seed
  let first := wordAt input 0
  let last := wordAt input (size - 8)
  let product := mulWide (first ^^^ last ^^^ flipLow) prime64a
  let low := product.low + (size.toUInt64 - 1) <<< 54
  let last := last ^^^ flipHigh
  let high := product.high + (last + lowHalf last * (prime32b - 1))
  let mixed := mulWide (low ^^^ swap64 high) prime64b
  ⟨avalanche mixed.low, avalanche (mixed.high + high * prime64b)⟩

/-- Mixes sixteen bytes of input with sixteen bytes of the secret. -/
def mix16 (input : ByteArray) (i : Nat) (j : Nat) (seed : UInt64) : UInt64 :=
  mulFold (wordAt input i ^^^ (wordAt secret j + seed))
    (wordAt input (i + 8) ^^^ (wordAt secret (j + 8) - seed))

/-- Mixes the sixteen bytes at `i` and the sixteen bytes at `k` into the state. -/
def mix32 (input : ByteArray) (seed : UInt64) (state : Wide) (i k j : Nat) : Wide :=
  ⟨(state.low + mix16 input i j seed) ^^^ (wordAt input k + wordAt input (k + 8)),
    (state.high + mix16 input k (j + 16) seed) ^^^ (wordAt input i + wordAt input (i + 8))⟩

/-- The last step of middle inputs. -/
def finishMiddle (size : Nat) (seed : UInt64) (state : Wide) : Wide :=
  ⟨avalanche (state.low + state.high),
    0 - avalanche (state.low * prime64a + state.high * prime64d
      + (size.toUInt64 - seed) * prime64b)⟩

/-- Digest of 17 to 128 bytes, mixed in pairs from both ends, the innermost pair first. -/
def digestTo128 (input : ByteArray) (seed : UInt64) : Wide :=
  let size := input.size
  let pairs := (List.range ((size - 1) / 32 + 1)).reverse
  let state := pairs.foldl
    (fun state n => mix32 input seed state (16 * n) (size - 16 * n - 16) (32 * n))
    ⟨size.toUInt64 * prime64a, 0⟩
  finishMiddle size seed state

/-- Digest of 129 to 240 bytes. -/
def digestTo240 (input : ByteArray) (seed : UInt64) : Wide :=
  let size := input.size
  let start := (List.range 4).foldl
    (fun state n => mix32 input seed state (32 * n) (32 * n + 16) (32 * n))
    ⟨size.toUInt64 * prime64a, 0⟩
  let middle := (List.range (size / 32 - 4)).foldl
    (fun state n => mix32 input seed state (32 * n + 128) (32 * n + 144) (32 * n + 3))
    ⟨avalanche start.low, avalanche start.high⟩
  finishMiddle size seed (mix32 input (0 - seed) middle (size - 16) (size - 32) 103)

/-- The secret of long inputs, into which the seed is worked. -/
def seededSecret (seed : UInt64) : ByteArray :=
  ⟨((List.range 12).flatMap fun n =>
    wordBytes (wordAt secret (16 * n) + seed)
      ++ wordBytes (wordAt secret (16 * n + 8) - seed)).toArray⟩

/-- Adds the 64 bytes at `i` to the eight lanes, under the key at `j`. -/
def accumulate (input key : ByteArray) (lanes : List UInt64) (i j : Nat) : List UInt64 :=
  let values := (List.range 8).map fun n => wordAt input (i + 8 * n)
  let keyed := (List.range 8).map fun n => wordAt input (i + 8 * n) ^^^ wordAt key (j + 8 * n)
  let crossed := (List.range 8).map fun n => values.getD (n ^^^ 1) 0
  (lanes.zip (crossed.zip keyed)).map fun (lane, value, mixed) =>
    lane + value + lowHalf mixed * (mixed >>> 32)

/-- Stirs the lanes at the end of each block. -/
def scramble (key : ByteArray) (lanes : List UInt64) : List UInt64 :=
  lanes.zipIdx.map fun (lane, n) => (xorShift lane 47 ^^^ wordAt key (128 + 8 * n)) * prime32a

def mergeLanes (key : ByteArray) (lanes : List UInt64) (j : Nat) (start : UInt64) : UInt64 :=
  avalanche ((List.range 4).foldl
    (fun sum n => sum + mulFold (lanes.getD (2 * n) 0 ^^^ wordAt key (j + 16 * n))
      (lanes.getD (2 * n + 1) 0 ^^^ wordAt key (j + 16 * n + 8))) start)

/-- Digest of more than 240 bytes: blocks of sixteen stripes of 64 bytes each. -/
def digestLong (input : ByteArray) (seed : UInt64) : Wide :=
  let size := input.size
  let key := seededSecret seed
  let stripes (lanes : List UInt64) (block count : Nat) : List UInt64 :=
    (List.range count).foldl
      (fun lanes n => accumulate input key lanes (1024 * block + 64 * n) (8 * n)) lanes
  let blocks := (size - 1) / 1024
  let lanes := (List.range blocks).foldl
    (fun lanes block => scramble key (stripes lanes block 16))
    [prime32c, prime64a, prime64b, prime64c, prime64d, prime32b, prime64e, prime32a]
  let lanes := stripes lanes blocks ((size - 1 - 1024 * blocks) / 64)
  let lanes := accumulate input key lanes (size - 64) 121
  ⟨mergeLanes key lanes 11 (size.toUInt64 * prime64a),
    mergeLanes key lanes 117 (~~~(size.toUInt64 * prime64b))⟩

/-- The 128-bit digest of a byte string. -/
def digest (input : ByteArray) (seed : UInt64) : Wide :=
  let size := input.size
  if size = 0 then digestEmpty seed
  else if size ≤ 3 then digestTo3 input seed
  else if size ≤ 8 then digestTo8 input seed
  else if size ≤ 16 then digestTo16 input seed
  else if size ≤ 128 then digestTo128 input seed
  else if size ≤ 240 then digestTo240 input seed
  else digestLong input seed

end PixelEffect.Xxh3
