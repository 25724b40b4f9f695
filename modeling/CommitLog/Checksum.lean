import CommitLog.Text.Utf8

/-!
The checksum of a stored row: XXH3 with 64 bits and seed 0, as eight octets, the lowest first.
Short inputs are mixed as a whole, by length class; longer ones in stripes of 64 octets that feed
eight lanes. All arithmetic wraps at 64 bits.
-/

namespace CommitLog.Checksum

/-- The key material that inputs are mixed with. -/
def secret : ByteArray := ⟨#[
  0xb8, 0xfe, 0x6c, 0x39, 0x23, 0xa4, 0x4b, 0xbe, 0x7c, 0x01, 0x81, 0x2c, 0xf7, 0x21, 0xad, 0x1c,
  0xde, 0xd4, 0x6d, 0xe9, 0x83, 0x90, 0x97, 0xdb, 0x72, 0x40, 0xa4, 0xa4, 0xb7, 0xb3, 0x67, 0x1f,
  0xcb, 0x79, 0xe6, 0x4e, 0xcc, 0xc0, 0xe5, 0x78, 0x82, 0x5a, 0xd0, 0x7d, 0xcc, 0xff, 0x72, 0x21,
  0xb8, 0x08, 0x46, 0x74, 0xf7, 0x43, 0x24, 0x8e, 0xe0, 0x35, 0x90, 0xe6, 0x81, 0x3a, 0x26, 0x4c,
  0x3c, 0x28, 0x52, 0xbb, 0x91, 0xc3, 0x00, 0xcb, 0x88, 0xd0, 0x65, 0x8b, 0x1b, 0x53, 0x2e, 0xa3,
  0x71, 0x64, 0x48, 0x97, 0xa2, 0x0d, 0xf9, 0x4e, 0x38, 0x19, 0xef, 0x46, 0xa9, 0xde, 0xac, 0xd8,
  0xa8, 0xfa, 0x76, 0x3f, 0xe3, 0x9c, 0x34, 0x3f, 0xf9, 0xdc, 0xbb, 0xc7, 0xc7, 0x0b, 0x4f, 0x1d,
  0x8a, 0x51, 0xe0, 0x4b, 0xcd, 0xb4, 0x59, 0x31, 0xc8, 0x9f, 0x7e, 0xc9, 0xd9, 0x78, 0x73, 0x64,
  0xea, 0xc5, 0xac, 0x83, 0x34, 0xd3, 0xeb, 0xc3, 0xc5, 0x81, 0xa0, 0xff, 0xfa, 0x13, 0x63, 0xeb,
  0x17, 0x0d, 0xdd, 0x51, 0xb7, 0xf0, 0xda, 0x49, 0xd3, 0x16, 0x55, 0x26, 0x29, 0xd4, 0x68, 0x9e,
  0x2b, 0x16, 0xbe, 0x58, 0x7d, 0x47, 0xa1, 0xfc, 0x8f, 0xf8, 0xb8, 0xd1, 0x7a, 0xd0, 0x31, 0xce,
  0x45, 0xcb, 0x3a, 0x8f, 0x95, 0x16, 0x04, 0x28, 0xaf, 0xd7, 0xfb, 0xca, 0xbb, 0x4b, 0x40, 0x7e]⟩

def prime32A : UInt64 := 0x9E3779B1
def prime32B : UInt64 := 0x85EBCA77
def prime32C : UInt64 := 0xC2B2AE3D
def primeA : UInt64 := 0x9E3779B185EBCA87
def primeB : UInt64 := 0xC2B2AE3D27D4EB4F
def primeC : UInt64 := 0x165667B19E3779F9
def primeD : UInt64 := 0x85EBCA77C2B2AE63
def primeE : UInt64 := 0x27D4EB2F165667C5
def primeMixA : UInt64 := 0x165667919E3779F9
def primeMixB : UInt64 := 0x9FB21C651E98DF25

/-- The octet at an index, zero beyond the end. -/
def octetAt (b : ByteArray) (i : Nat) : UInt64 :=
  if h : i < b.size then b[i].toUInt64 else 0

/-- Four octets as a number, the lowest first. -/
def word32 (b : ByteArray) (i : Nat) : UInt64 :=
  octetAt b i ||| octetAt b (i + 1) <<< 8 ||| octetAt b (i + 2) <<< 16 ||| octetAt b (i + 3) <<< 24

/-- Eight octets as a number, the lowest first. -/
def word64 (b : ByteArray) (i : Nat) : UInt64 := word32 b i ||| word32 b (i + 4) <<< 32

def rotateLeft (x n : UInt64) : UInt64 := x <<< n ||| x >>> (64 - n)

/-- The octets of a number in opposite order. -/
def swapOctets (x : UInt64) : UInt64 :=
  (List.range 8).foldl (fun y i => y <<< 8 ||| (x >>> (8 * UInt64.ofNat i) &&& 0xFF)) 0

/-- The two halves of the full product, added without carry. -/
def foldProduct (x y : UInt64) : UInt64 :=
  let product := x.toNat * y.toNat
  UInt64.ofNat (product % UInt64.size) ^^^ UInt64.ofNat (product / UInt64.size)

def avalanche (h : UInt64) : UInt64 :=
  let h := (h ^^^ h >>> 37) * primeMixA
  h ^^^ h >>> 32

/-- The stronger last step, for the shortest inputs. -/
def avalancheShort (h : UInt64) : UInt64 :=
  let h := (h ^^^ h >>> 33) * primeB
  let h := (h ^^^ h >>> 29) * primeC
  h ^^^ h >>> 32

def size (b : ByteArray) : UInt64 := UInt64.ofNat b.size

def upTo3 (b : ByteArray) : UInt64 :=
  let combined := octetAt b 0 <<< 16 ||| octetAt b (b.size / 2) <<< 24 |||
    octetAt b (b.size - 1) ||| size b <<< 8
  avalancheShort (combined ^^^ (word32 secret 0 ^^^ word32 secret 4))

def upTo8 (b : ByteArray) : UInt64 :=
  let input := word32 b (b.size - 4) + word32 b 0 <<< 32
  let h := input ^^^ (word64 secret 8 ^^^ word64 secret 16)
  let h := (h ^^^ rotateLeft h 49 ^^^ rotateLeft h 24) * primeMixB
  let h := (h ^^^ (h >>> 35 + size b)) * primeMixB
  h ^^^ h >>> 28

def upTo16 (b : ByteArray) : UInt64 :=
  let low := word64 b 0 ^^^ (word64 secret 24 ^^^ word64 secret 32)
  let high := word64 b (b.size - 8) ^^^ (word64 secret 40 ^^^ word64 secret 48)
  avalanche (size b + swapOctets low + high + foldProduct low high)

/-- Sixteen octets from `i` mixed with the secret from `k`. -/
def mix16 (b : ByteArray) (i k : Nat) : UInt64 :=
  foldProduct (word64 b i ^^^ word64 secret k) (word64 b (i + 8) ^^^ word64 secret (k + 8))

/-- Pairs of sixteen octets, from both ends towards the middle. -/
def upTo128 (b : ByteArray) : UInt64 :=
  let pairs := (b.size - 1) / 32 + 1
  avalanche <| (List.range pairs).foldl (fun h i =>
    h + mix16 b (16 * i) (32 * i) + mix16 b (b.size - 16 * (i + 1)) (32 * i + 16))
    (size b * primeA)

def upTo240 (b : ByteArray) : UInt64 :=
  let head := (List.range 8).foldl (fun h i => h + mix16 b (16 * i) (16 * i)) (size b * primeA)
  let rest := (List.range (b.size / 16 - 8)).foldl
    (fun h i => h + mix16 b (16 * (i + 8)) (16 * i + 3)) (avalanche head)
  avalanche (rest + mix16 b (b.size - 16) 119)

/-- The eight lanes that stripes are added to. -/
abbrev Lanes := List UInt64

def lanes : Lanes := [prime32C, primeA, primeB, primeC, primeD, prime32B, primeE, prime32A]

def low32 (x : UInt64) : UInt64 := x &&& 0xFFFFFFFF

/-- Adds the stripe from `i`, mixed with the secret from `k`. The plain words go to the
neighbouring lane. -/
def addStripe (b : ByteArray) (lanes : Lanes) (i k : Nat) : Lanes :=
  lanes.mapIdx fun (lane : Nat) (h : UInt64) =>
    let mixed := word64 b (i + 8 * lane) ^^^ word64 secret (k + 8 * lane)
    let neighbour := if lane % 2 = 0 then lane + 1 else lane - 1
    h + word64 b (i + 8 * neighbour) + low32 mixed * (mixed >>> 32)

def scramble (lanes : Lanes) : Lanes :=
  lanes.mapIdx fun (lane : Nat) (h : UInt64) =>
    (h ^^^ h >>> 47 ^^^ word64 secret (128 + 8 * lane)) * prime32A

/-- Stripes from `i` on, each with the secret moved on by eight octets. -/
def addStripes (b : ByteArray) (count : Nat) (lanes : Lanes) (i : Nat) : Lanes :=
  (List.range count).foldl (fun lanes n => addStripe b lanes (i + 64 * n) (8 * n)) lanes

/-- The lanes brought together two by two. -/
def merge (start : UInt64) (k : Nat) : Lanes → UInt64
  | a :: b :: rest => merge (start + foldProduct (a ^^^ word64 secret k) (b ^^^ word64 secret (k + 8)))
      (k + 16) rest
  | _ => avalanche start

/-- Blocks of sixteen stripes, each but the last followed by a scramble; the last stripe is that
of the last 64 octets, whether or not they were taken in before. -/
def long (b : ByteArray) : UInt64 :=
  let blocks := (b.size - 1) / 1024
  let whole := (List.range blocks).foldl
    (fun lanes n => scramble (addStripes b 16 lanes (1024 * n))) lanes
  let rest := addStripes b ((b.size - 1 - 1024 * blocks) / 64) whole (1024 * blocks)
  merge (size b * primeA) 11 (addStripe b rest (b.size - 64) 121)

/-- The 64-bit hash. -/
def hash (b : ByteArray) : UInt64 :=
  if b.size = 0 then avalancheShort (word64 secret 56 ^^^ word64 secret 64)
  else if b.size ≤ 3 then upTo3 b
  else if b.size ≤ 8 then upTo8 b
  else if b.size ≤ 16 then upTo16 b
  else if b.size ≤ 128 then upTo128 b
  else if b.size ≤ 240 then upTo240 b
  else long b

/-- The checksum of the parts one after the other. -/
def ofParts (parts : List Bytes) : Bytes :=
  let h := hash ⟨parts.flatten.toArray⟩
  (List.range 8).map fun i => (h >>> (8 * UInt64.ofNat i)).toUInt8

end CommitLog.Checksum
