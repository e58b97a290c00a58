import GlslCompose.Text.Basic

/-!
# Digests of source text

The digest of a text is the unseeded 128-bit XXH3 hash of its UTF-8 bytes.  The
hash treats six ranges of length differently: the empty text, up to three bytes,
up to eight, up to sixteen, up to 128, up to 240, and longer texts.  Long texts
go through eight 64-bit lanes, one stripe of 64 bytes at a time.
-/

namespace GlslCompose

structure Digest where
  high : UInt64
  low : UInt64
deriving DecidableEq, Repr

namespace Digest

/-! ## Constants -/

def prime32A : UInt64 := 0x9E3779B1
def prime32B : UInt64 := 0x85EBCA77
def prime32C : UInt64 := 0xC2B2AE3D
def prime64A : UInt64 := 0x9E3779B185EBCA87
def prime64B : UInt64 := 0xC2B2AE3D27D4EB4F
def prime64C : UInt64 := 0x165667B19E3779F9
def prime64D : UInt64 := 0x85EBCA77C2B2AE63
def prime64E : UInt64 := 0x27D4EB2F165667C5

def secretWords : List UInt64 :=
  [0xbe4ba423396cfeb8, 0x1cad21f72c81017c, 0xdb979083e96dd4de, 0x1f67b3b7a4a44072,
    0x78e5c0cc4ee679cb, 0x2172ffcc7dd05a82, 0x8e2443f7744608b8, 0x4c263a81e69035e0,
    0xcb00c391bb52283c, 0xa32e531b8b65d088, 0x4ef90da297486471, 0xd8acdea946ef1938,
    0x3f349ce33f76faa8, 0x1d4f0bc7c7bbdcf9, 0x3159b4cd4be0518a, 0x647378d9c97e9fc8,
    0xc3ebd33483acc5ea, 0xeb6313faffa081c5, 0x49daf0b751dd0d17, 0x9e68d429265516d3,
    0xfca1477d58be162b, 0xce31d07ad1b8f88f, 0x280416958f3acb45, 0x7e404bbbcafbd7af]

def bytesOfWord (word : UInt64) : List UInt8 :=
  (List.range 8).map fun position => (word >>> (8 * position).toUInt64).toUInt8

def secret : ByteArray := ⟨(secretWords.flatMap bytesOfWord).toArray⟩

/-! ## Words and mixing -/

def byteAt (bytes : ByteArray) (offset : Nat) : UInt64 :=
  (bytes.data[offset]?.getD 0).toUInt64

def wordAt (bytes : ByteArray) (offset : Nat) : (count : Nat) → UInt64
  | 0 => 0
  | count + 1 => byteAt bytes offset ||| (wordAt bytes (offset + 1) count <<< 8)

def word32 (bytes : ByteArray) (offset : Nat) : UInt64 := wordAt bytes offset 4

def word64 (bytes : ByteArray) (offset : Nat) : UInt64 := wordAt bytes offset 8

def lowHalf (word : UInt64) : UInt64 := word &&& 0xFFFFFFFF

def reverseBytes (count : Nat) (word : UInt64) : UInt64 :=
  (List.range count).foldl
    (fun result position => (result <<< 8) ||| ((word >>> (8 * position).toUInt64) &&& 0xFF)) 0

def product (first second : UInt64) : Digest :=
  let full := first.toNat * second.toNat
  ⟨(full / UInt64.size).toUInt64, full.toUInt64⟩

def foldedProduct (first second : UInt64) : UInt64 :=
  let full := product first second
  full.low ^^^ full.high

def avalanche (word : UInt64) : UInt64 :=
  let word := (word ^^^ (word >>> 37)) * 0x165667919E3779F9
  word ^^^ (word >>> 32)

def strongAvalanche (word : UInt64) : UInt64 :=
  let word := (word ^^^ (word >>> 33)) * prime64B
  let word := (word ^^^ (word >>> 29)) * prime64C
  word ^^^ (word >>> 32)

def mix16 (bytes : ByteArray) (offset key : Nat) : UInt64 :=
  foldedProduct (word64 bytes offset ^^^ word64 secret key)
    (word64 bytes (offset + 8) ^^^ word64 secret (key + 8))

def mix32 (bytes : ByteArray) (first second key : Nat) (state : Digest) : Digest where
  low := (state.low + mix16 bytes first key) ^^^
    (word64 bytes second + word64 bytes (second + 8))
  high := (state.high + mix16 bytes second (key + 16)) ^^^
    (word64 bytes first + word64 bytes (first + 8))

/-! ## Short texts -/

def ofNone : Digest where
  low := strongAvalanche (word64 secret 64 ^^^ word64 secret 72)
  high := strongAvalanche (word64 secret 80 ^^^ word64 secret 88)

def upTo3 (bytes : ByteArray) : Digest :=
  let size := bytes.size
  let combined := (byteAt bytes 0 <<< 16) ||| (byteAt bytes (size / 2) <<< 24) |||
    byteAt bytes (size - 1) ||| (size.toUInt64 <<< 8)
  let swapped := reverseBytes 4 combined
  let rotated := lowHalf (swapped <<< 13) ||| (swapped >>> 19)
  { low := strongAvalanche (combined ^^^ word32 secret 0 ^^^ word32 secret 4)
    high := strongAvalanche (rotated ^^^ word32 secret 8 ^^^ word32 secret 12) }

def upTo8 (bytes : ByteArray) : Digest :=
  let size := bytes.size
  let joined := word32 bytes 0 ||| (word32 bytes (size - 4) <<< 32)
  let keyed := joined ^^^ word64 secret 16 ^^^ word64 secret 24
  let full := product keyed (prime64A + (size.toUInt64 <<< 2))
  let high := full.high + (full.low <<< 1)
  let low := full.low ^^^ (high >>> 3)
  let low := (low ^^^ (low >>> 35)) * 0x9FB21C651E98DF25
  { low := low ^^^ (low >>> 28), high := avalanche high }

def upTo16 (bytes : ByteArray) : Digest :=
  let size := bytes.size
  let first := word64 bytes 0
  let last := word64 bytes (size - 8)
  let full := product (first ^^^ last ^^^ word64 secret 32 ^^^ word64 secret 40) prime64A
  let keyed := last ^^^ word64 secret 48 ^^^ word64 secret 56
  let high := full.high + keyed + lowHalf keyed * (prime32B - 1)
  let low := (full.low + ((size - 1).toUInt64 <<< 54)) ^^^ reverseBytes 8 high
  let final := product low prime64B
  { low := avalanche final.low, high := avalanche (final.high + high * prime64B) }

/-! ## Texts of middle length -/

def finish (size : Nat) (state : Digest) : Digest where
  low := avalanche (state.low + state.high)
  high := 0 - avalanche
    (state.low * prime64A + state.high * prime64D + size.toUInt64 * prime64B)

def start (size : Nat) : Digest := { low := size.toUInt64 * prime64A, high := 0 }

def upTo128 (bytes : ByteArray) : Digest :=
  let pairs := (bytes.size - 1) / 32 + 1
  finish bytes.size <| (List.range pairs).reverse.foldl
    (fun state pair => mix32 bytes (16 * pair) (bytes.size - 16 * (pair + 1)) (32 * pair) state)
    (start bytes.size)

def upTo240 (bytes : ByteArray) : Digest :=
  let size := bytes.size
  let state := (List.range 4).foldl
    (fun state round => mix32 bytes (32 * round) (32 * round + 16) (32 * round) state)
    (start size)
  let state : Digest := { low := avalanche state.low, high := avalanche state.high }
  let state := (List.range (size / 32 - 4)).foldl
    (fun state round =>
      mix32 bytes (32 * round + 128) (32 * round + 144) (32 * round + 3) state)
    state
  finish size (mix32 bytes (size - 16) (size - 32) 103 state)

/-! ## Long texts -/

def initialLanes : List UInt64 :=
  [prime32C, prime64A, prime64B, prime64C, prime64D, prime32B, prime64E, prime32A]

def addStripe (bytes : ByteArray) (offset key : Nat) (lanes : List UInt64) : List UInt64 :=
  lanes.mapIdx fun lane (value : UInt64) =>
    let keyed := word64 bytes (offset + 8 * lane) ^^^ word64 secret (key + 8 * lane)
    let neighbour := if lane % 2 = 0 then lane + 1 else lane - 1
    value + word64 bytes (offset + 8 * neighbour) + lowHalf keyed * (keyed >>> 32)

def scramble (lanes : List UInt64) : List UInt64 :=
  lanes.mapIdx fun lane (value : UInt64) =>
    (value ^^^ (value >>> 47) ^^^ word64 secret (128 + 8 * lane)) * prime32A

def addStripes (bytes : ByteArray) (offset count : Nat) (lanes : List UInt64) : List UInt64 :=
  (List.range count).foldl
    (fun lanes stripe => addStripe bytes (offset + 64 * stripe) (8 * stripe) lanes) lanes

def mergeLanes (key : Nat) : List UInt64 → UInt64 → UInt64
  | first :: second :: lanes, total =>
      mergeLanes (key + 16) lanes
        (total + foldedProduct (first ^^^ word64 secret key) (second ^^^ word64 secret (key + 8)))
  | _, total => avalanche total

def ofLong (bytes : ByteArray) : Digest :=
  let size := bytes.size
  let blocks := (size - 1) / 1024
  let lanes := (List.range blocks).foldl
    (fun lanes block => scramble (addStripes bytes (1024 * block) 16 lanes)) initialLanes
  let lanes := addStripes bytes (1024 * blocks) ((size - 1 - 1024 * blocks) / 64) lanes
  let lanes := addStripe bytes (size - 64) 121 lanes
  { low := mergeLanes 11 lanes (size.toUInt64 * prime64A)
    high := mergeLanes 117 lanes (~~~(size.toUInt64 * prime64B)) }

/-! ## The digest of a text -/

def ofBytes (bytes : ByteArray) : Digest :=
  if bytes.size = 0 then ofNone
  else if bytes.size ≤ 3 then upTo3 bytes
  else if bytes.size ≤ 8 then upTo8 bytes
  else if bytes.size ≤ 16 then upTo16 bytes
  else if bytes.size ≤ 128 then upTo128 bytes
  else if bytes.size ≤ 240 then upTo240 bytes
  else ofLong bytes

def ofText (source : Text) : Digest := ofBytes source.toString.toUTF8

def hexDigits (word : UInt64) : Text :=
  (List.range 16).map fun position =>
    Nat.digitChar (word.toNat >>> (4 * (15 - position)) % 16)

def toHex (digest : Digest) : Text :=
  hexDigits digest.high ++ hexDigits digest.low

end Digest

end GlslCompose
