/-!
# The content hash

`ContentHash.ofBytes` is the 64-bit XXH3 hash with seed zero and the standard secret.
`ContentHash.ofLines` hashes the lines of a generated file, each with a line feed behind it;
the names of generated files are made from it.

The hash has one rule for each range of lengths.  All of them mix sixteen bytes at a time by a
64-bit product folded onto itself, and end in an avalanche that spreads every bit.
-/

namespace ShaderMerge.ContentHash

/-! ## Words of a byte string -/

/-- The byte at a position, zero beyond the end. -/
def byteAt (bytes : ByteArray) (i : Nat) : UInt64 :=
  if h : i < bytes.size then bytes[i].toUInt64 else 0

/-- The little-endian word of four bytes at a position. -/
def word32 (bytes : ByteArray) (i : Nat) : UInt64 :=
  byteAt bytes i ||| byteAt bytes (i + 1) <<< 8 ||| byteAt bytes (i + 2) <<< 16
    ||| byteAt bytes (i + 3) <<< 24

/-- The little-endian word of eight bytes at a position. -/
def word64 (bytes : ByteArray) (i : Nat) : UInt64 :=
  word32 bytes i ||| word32 bytes (i + 4) <<< 32

/-- The word with its eight bytes in reverse order. -/
def reverseBytes (w : UInt64) : UInt64 :=
  (List.range 8).foldl (fun acc i => acc <<< 8 ||| ((w >>> (8 * i.toUInt64)) &&& 0xFF)) 0

/-- The word turned left by a number of bits between 1 and 63. -/
def rotateLeft (w : UInt64) (n : UInt64) : UInt64 :=
  w <<< n ||| w >>> (64 - n)

/-- The two halves of the 128-bit product, combined bit by bit. -/
def foldedProduct (a b : UInt64) : UInt64 :=
  let p := a.toNat * b.toNat
  UInt64.ofNat (p % Nat.pow 2 64) ^^^ UInt64.ofNat (p / Nat.pow 2 64)

/-! ## Constants of the algorithm -/

/-- The standard secret. -/
def secret : ByteArray :=
  ⟨#[
    0xB8, 0xFE, 0x6C, 0x39, 0x23, 0xA4, 0x4B, 0xBE, 0x7C, 0x01, 0x81, 0x2C, 0xF7, 0x21, 0xAD, 0x1C,
    0xDE, 0xD4, 0x6D, 0xE9, 0x83, 0x90, 0x97, 0xDB, 0x72, 0x40, 0xA4, 0xA4, 0xB7, 0xB3, 0x67, 0x1F,
    0xCB, 0x79, 0xE6, 0x4E, 0xCC, 0xC0, 0xE5, 0x78, 0x82, 0x5A, 0xD0, 0x7D, 0xCC, 0xFF, 0x72, 0x21,
    0xB8, 0x08, 0x46, 0x74, 0xF7, 0x43, 0x24, 0x8E, 0xE0, 0x35, 0x90, 0xE6, 0x81, 0x3A, 0x26, 0x4C,
    0x3C, 0x28, 0x52, 0xBB, 0x91, 0xC3, 0x00, 0xCB, 0x88, 0xD0, 0x65, 0x8B, 0x1B, 0x53, 0x2E, 0xA3,
    0x71, 0x64, 0x48, 0x97, 0xA2, 0x0D, 0xF9, 0x4E, 0x38, 0x19, 0xEF, 0x46, 0xA9, 0xDE, 0xAC, 0xD8,
    0xA8, 0xFA, 0x76, 0x3F, 0xE3, 0x9C, 0x34, 0x3F, 0xF9, 0xDC, 0xBB, 0xC7, 0xC7, 0x0B, 0x4F, 0x1D,
    0x8A, 0x51, 0xE0, 0x4B, 0xCD, 0xB4, 0x59, 0x31, 0xC8, 0x9F, 0x7E, 0xC9, 0xD9, 0x78, 0x73, 0x64,
    0xEA, 0xC5, 0xAC, 0x83, 0x34, 0xD3, 0xEB, 0xC3, 0xC5, 0x81, 0xA0, 0xFF, 0xFA, 0x13, 0x63, 0xEB,
    0x17, 0x0D, 0xDD, 0x51, 0xB7, 0xF0, 0xDA, 0x49, 0xD3, 0x16, 0x55, 0x26, 0x29, 0xD4, 0x68, 0x9E,
    0x2B, 0x16, 0xBE, 0x58, 0x7D, 0x47, 0xA1, 0xFC, 0x8F, 0xF8, 0xB8, 0xD1, 0x7A, 0xD0, 0x31, 0xCE,
    0x45, 0xCB, 0x3A, 0x8F, 0x95, 0x16, 0x04, 0x28, 0xAF, 0xD7, 0xFB, 0xCA, 0xBB, 0x4B, 0x40, 0x7E]⟩


def prime32a : UInt64 := 0x9E3779B1
def prime32b : UInt64 := 0x85EBCA77
def prime32c : UInt64 := 0xC2B2AE3D
def prime64a : UInt64 := 0x9E3779B185EBCA87
def prime64b : UInt64 := 0xC2B2AE3D27D4EB4F
def prime64c : UInt64 := 0x165667B19E3779F9
def prime64d : UInt64 := 0x85EBCA77C2B2AE63
def prime64e : UInt64 := 0x27D4EB2F165667C5

/-! ## Avalanches -/

/-- The avalanche of the longer inputs. -/
def avalanche (h : UInt64) : UInt64 :=
  let h := h ^^^ h >>> 37
  let h := h * 0x165667919E3779F9
  h ^^^ h >>> 32

/-- The stronger avalanche of inputs of up to three bytes. -/
def strongAvalanche (h : UInt64) : UInt64 :=
  let h := h ^^^ h >>> 33
  let h := h * prime64b
  let h := h ^^^ h >>> 29
  let h := h * prime64c
  h ^^^ h >>> 32

/-- The avalanche of inputs of four to eight bytes. -/
def lengthAvalanche (h length : UInt64) : UInt64 :=
  let h := h ^^^ rotateLeft h 49 ^^^ rotateLeft h 24
  let h := h * 0x9FB21C651E98DF25
  let h := h ^^^ (h >>> 35 + length)
  let h := h * 0x9FB21C651E98DF25
  h ^^^ h >>> 28

/-! ## Inputs of up to 240 bytes -/

/-- The hash of an input of up to sixteen bytes. -/
def ofShort (bytes : ByteArray) : UInt64 :=
  let n := bytes.size
  let length := n.toUInt64
  if 8 < n then
    let low := word64 bytes 0 ^^^ (word64 secret 24 ^^^ word64 secret 32)
    let high := word64 bytes (n - 8) ^^^ (word64 secret 40 ^^^ word64 secret 48)
    avalanche (length + reverseBytes low + high + foldedProduct low high)
  else if 4 ≤ n then
    let combined := word32 bytes (n - 4) + word32 bytes 0 <<< 32
    lengthAvalanche (combined ^^^ (word64 secret 8 ^^^ word64 secret 16)) length
  else if 0 < n then
    let combined := byteAt bytes 0 <<< 16 ||| byteAt bytes (n / 2) <<< 24
      ||| byteAt bytes (n - 1) ||| length <<< 8
    strongAvalanche (combined ^^^ (word32 secret 0 ^^^ word32 secret 4))
  else
    strongAvalanche (word64 secret 56 ^^^ word64 secret 64)

/-- Sixteen bytes at a position, mixed with sixteen bytes of the secret. -/
def mixed (bytes : ByteArray) (i key : Nat) : UInt64 :=
  foldedProduct (word64 bytes i ^^^ word64 secret key)
    (word64 bytes (i + 8) ^^^ word64 secret (key + 8))

/-- The hash of an input of 17 to 128 bytes: pieces from both ends towards the middle. -/
def ofMedium (bytes : ByteArray) : UInt64 :=
  let n := bytes.size
  let pairs := (n - 1) / 32 + 1
  avalanche ((List.range pairs).foldl (fun acc k =>
    acc + mixed bytes (16 * k) (32 * k) + mixed bytes (n - 16 * (k + 1)) (32 * k + 16))
    (n.toUInt64 * prime64a))

/-- The hash of an input of 129 to 240 bytes: eight pieces, an avalanche, the other whole
pieces with the secret moved by three bytes, and the last sixteen bytes. -/
def ofLarge (bytes : ByteArray) : UInt64 :=
  let n := bytes.size
  let first := (List.range 8).foldl (fun acc k => acc + mixed bytes (16 * k) (16 * k))
    (n.toUInt64 * prime64a)
  let others := (List.range (n / 16 - 8)).foldl
    (fun acc k => acc + mixed bytes (16 * (k + 8)) (16 * k + 3)) (avalanche first)
  avalanche (others + mixed bytes (n - 16) 119)

/-! ## Longer inputs -/

/-- The eight accumulators of a long input. -/
abbrev Lanes := Vector UInt64 8

/-- The accumulators at the start. -/
def Lanes.start : Lanes :=
  #v[prime32c, prime64a, prime64b, prime64c, prime64d, prime32b, prime64e, prime32a]

/-- Take in a stripe of 64 bytes: each word goes to the neighbouring accumulator, and the
product of its two halves, mixed with the secret, to its own. -/
def Lanes.accumulate (lanes : Lanes) (bytes : ByteArray) (i key : Nat) : Lanes :=
  Vector.ofFn fun k =>
    let own : UInt64 := word64 bytes (i + 8 * k) ^^^ word64 secret (key + 8 * k)
    let neighbour := if k.val % 2 = 0 then k.val + 1 else k.val - 1
    let product : UInt64 := (own &&& (0xFFFFFFFF : UInt64)) * (own >>> 32)
    lanes[k] + word64 bytes (i + 8 * neighbour) + product

/-- Mix the accumulators at the end of a block. -/
def Lanes.scramble (lanes : Lanes) : Lanes :=
  Vector.ofFn fun k =>
    let acc := lanes[k] ^^^ lanes[k] >>> 47
    (acc ^^^ word64 secret (128 + 8 * k)) * prime32a

/-- Take in some stripes from a position on, each with the secret moved by eight bytes. -/
def Lanes.stripes (lanes : Lanes) (bytes : ByteArray) (i count : Nat) : Lanes :=
  (List.range count).foldl (fun acc k => acc.accumulate bytes (i + 64 * k) (8 * k)) lanes

/-- The accumulators as one word. -/
def Lanes.merge (lanes : Lanes) (length : UInt64) : UInt64 :=
  let pair (a b : UInt64) (key : Nat) : UInt64 :=
    foldedProduct (a ^^^ word64 secret key) (b ^^^ word64 secret (key + 8))
  avalanche (length * prime64a + pair lanes[0] lanes[1] 11 + pair lanes[2] lanes[3] 27
    + pair lanes[4] lanes[5] 43 + pair lanes[6] lanes[7] 59)

/-- The hash of an input of more than 240 bytes: blocks of sixteen stripes, the whole stripes
left over, and the last 64 bytes. -/
def ofLong (bytes : ByteArray) : UInt64 :=
  let n := bytes.size
  let blocks := (n - 1) / 1024
  let full := (List.range blocks).foldl
    (fun acc k => (acc.stripes bytes (1024 * k) 16).scramble) Lanes.start
  let rest := full.stripes bytes (1024 * blocks) ((n - 1 - 1024 * blocks) / 64)
  (rest.accumulate bytes (n - 64) 121).merge n.toUInt64

/-! ## The hash of bytes and of lines -/

/-- The 64-bit XXH3 hash with seed zero. -/
def ofBytes (bytes : ByteArray) : UInt64 :=
  if bytes.size ≤ 16 then ofShort bytes
  else if bytes.size ≤ 128 then ofMedium bytes
  else if bytes.size ≤ 240 then ofLarge bytes
  else ofLong bytes

/-- The bytes of lines, each with a line feed behind it. -/
def lineBytes (lines : List String) : ByteArray :=
  lines.foldl (fun bytes line => (bytes ++ line.toUTF8).push 10) ByteArray.empty

/-- The hash of the content of a generated file. -/
def ofLines (lines : List String) : UInt64 := ofBytes (lineBytes lines)

/-- The sixteen lower-case hexadecimal digits of a hash. -/
def text (hash : UInt64) : String :=
  let digits := Nat.toDigits 16 hash.toNat
  String.ofList (List.replicate (16 - digits.length) '0' ++ digits)

end ShaderMerge.ContentHash
