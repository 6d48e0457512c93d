import Stylesheet.Text.Bytes

/-!
# Digests of texts

`digest64` is the 64 bit hash XXH3 with seed zero and its standard secret. The hash mixes short
inputs in one step, inputs up to 240 bytes in steps of 16 bytes, and longer ones in stripes of 64
bytes into eight lanes. All arithmetic is that of 64 bit words.
-/

set_option autoImplicit false

namespace Stylesheet.Text.Digest

/-- The secret as eight-byte words, the first byte the lowest. -/
def secretWords : List UInt64 := [
  0xbe4ba423396cfeb8, 0x1cad21f72c81017c, 0xdb979083e96dd4de, 0x1f67b3b7a4a44072,
  0x78e5c0cc4ee679cb, 0x2172ffcc7dd05a82, 0x8e2443f7744608b8, 0x4c263a81e69035e0,
  0xcb00c391bb52283c, 0xa32e531b8b65d088, 0x4ef90da297486471, 0xd8acdea946ef1938,
  0x3f349ce33f76faa8, 0x1d4f0bc7c7bbdcf9, 0x3159b4cd4be0518a, 0x647378d9c97e9fc8,
  0xc3ebd33483acc5ea, 0xeb6313faffa081c5, 0x49daf0b751dd0d17, 0x9e68d429265516d3,
  0xfca1477d58be162b, 0xce31d07ad1b8f88f, 0x280416958f3acb45, 0x7e404bbbcafbd7af]

/-- The bytes of a word, the lowest first. -/
def wordBytes (w : UInt64) : List UInt8 :=
  (List.range 8).map fun i => (w >>> (8 * i).toUInt64).toUInt8

/-- The secret. -/
def secret : Array UInt8 := (secretWords.flatMap wordBytes).toArray

/-- A byte as a word. -/
def byteAt (a : Array UInt8) (i : Nat) : UInt64 := (a[i]?.getD 0).toUInt64

/-- Four bytes as a word, the first the lowest. -/
def read32 (a : Array UInt8) (i : Nat) : UInt64 :=
  byteAt a i ||| (byteAt a (i + 1) <<< 8) ||| (byteAt a (i + 2) <<< 16) |||
    (byteAt a (i + 3) <<< 24)

/-- Eight bytes as a word, the first the lowest. -/
def read64 (a : Array UInt8) (i : Nat) : UInt64 := read32 a i ||| (read32 a (i + 4) <<< 32)

/-! ## Constants of the mixing steps -/

/-- The first prime of 32 bits. -/
def prime32₁ : UInt64 := 0x9E3779B1

/-- The second prime of 32 bits. -/
def prime32₂ : UInt64 := 0x85EBCA77

/-- The third prime of 32 bits. -/
def prime32₃ : UInt64 := 0xC2B2AE3D

/-- The first prime of 64 bits. -/
def prime64₁ : UInt64 := 0x9E3779B185EBCA87

/-- The second prime of 64 bits. -/
def prime64₂ : UInt64 := 0xC2B2AE3D27D4EB4F

/-- The third prime of 64 bits. -/
def prime64₃ : UInt64 := 0x165667B19E3779F9

/-- The fourth prime of 64 bits. -/
def prime64₄ : UInt64 := 0x85EBCA77C2B2AE63

/-- The fifth prime of 64 bits. -/
def prime64₅ : UInt64 := 0x27D4EB2F165667C5

/-- The multiplier of the final mixing. -/
def primeMx₁ : UInt64 := 0x165667919E3779F9

/-- The multiplier of the final mixing of four to eight bytes. -/
def primeMx₂ : UInt64 := 0x9FB21C651E98DF25

/-! ## Mixing steps -/

/-- The low and the high word of a product, combined by exclusive or. -/
def foldMul (a b : UInt64) : UInt64 :=
  let p := a.toNat * b.toNat
  p.toUInt64 ^^^ (p / UInt64.size).toUInt64

/-- A word with its bits turned left. -/
def rotl (x : UInt64) (n : UInt64) : UInt64 := (x <<< n) ||| (x >>> (64 - n))

/-- The eight bytes of a word in reverse order. -/
def swap64 (x : UInt64) : UInt64 :=
  (wordBytes x).foldl (fun acc b => (acc <<< 8) ||| b.toUInt64) 0

/-- The final mixing of inputs below four bytes. -/
def avalanche64 (h : UInt64) : UInt64 :=
  let h := (h ^^^ (h >>> 33)) * prime64₂
  let h := (h ^^^ (h >>> 29)) * prime64₃
  h ^^^ (h >>> 32)

/-- The final mixing of longer inputs. -/
def avalanche (h : UInt64) : UInt64 :=
  let h := (h ^^^ (h >>> 37)) * primeMx₁
  h ^^^ (h >>> 32)

/-- The final mixing of inputs of four to eight bytes. -/
def rrmxmx (h : UInt64) (len : UInt64) : UInt64 :=
  let h := h ^^^ rotl h 49 ^^^ rotl h 24
  let h := h * primeMx₂
  let h := h ^^^ ((h >>> 35) + len)
  let h := h * primeMx₂
  h ^^^ (h >>> 28)

/-- Up to sixteen bytes. -/
def short (a : Array UInt8) : UInt64 :=
  let n := a.size
  let len := n.toUInt64
  if n > 8 then
    let lo := read64 a 0 ^^^ (read64 secret 24 ^^^ read64 secret 32)
    let hi := read64 a (n - 8) ^^^ (read64 secret 40 ^^^ read64 secret 48)
    avalanche (len + swap64 lo + hi + foldMul lo hi)
  else if n ≥ 4 then
    let flip := read64 secret 8 ^^^ read64 secret 16
    let both := read32 a (n - 4) + (read32 a 0 <<< 32)
    rrmxmx (both ^^^ flip) len
  else if n > 0 then
    let both := (byteAt a 0 <<< 16) ||| (byteAt a (n / 2) <<< 24) ||| byteAt a (n - 1) |||
      (len <<< 8)
    avalanche64 (both ^^^ (read32 secret 0 ^^^ read32 secret 4))
  else avalanche64 (read64 secret 56 ^^^ read64 secret 64)

/-- Mixes sixteen bytes with the secret. -/
def mix16 (a : Array UInt8) (i s : Nat) : UInt64 :=
  foldMul (read64 a i ^^^ read64 secret s) (read64 a (i + 8) ^^^ read64 secret (s + 8))

/-- From 17 to 128 bytes: steps of 16 bytes from both ends. -/
def medium (a : Array UInt8) : UInt64 :=
  let n := a.size
  let steps := (n - 1) / 32
  let acc := (List.range (steps + 1)).foldl (fun acc i =>
    acc + mix16 a (16 * i) (32 * i) + mix16 a (n - 16 * (i + 1)) (32 * i + 16))
    (n.toUInt64 * prime64₁)
  avalanche acc

/-- From 129 to 240 bytes: steps of 16 bytes, mixed again after the eighth. -/
def large (a : Array UInt8) : UInt64 :=
  let n := a.size
  let first := (List.range 8).foldl (fun acc i => acc + mix16 a (16 * i) (16 * i))
    (n.toUInt64 * prime64₁)
  let acc := (List.range (n / 16 - 8)).foldl
    (fun acc i => acc + mix16 a (16 * (i + 8)) (16 * i + 3)) (avalanche first)
  avalanche (acc + mix16 a (n - 16) 119)

/-- Adds a stripe of 64 bytes to the lanes; each lane also takes the word of its neighbour. -/
def stripe (a : Array UInt8) (i s : Nat) (lanes : List UInt64) : List UInt64 :=
  lanes.mapIdx fun (k : Nat) (lane : UInt64) =>
    let neighbour := if k % 2 = 0 then k + 1 else k - 1
    let key : UInt64 := read64 a (i + 8 * k) ^^^ read64 secret (s + 8 * k)
    lane + read64 a (i + 8 * neighbour) + (key &&& (0xFFFFFFFF : UInt64)) * (key >>> (32 : UInt64))

/-- Mixes the lanes with the end of the secret after a block. -/
def scramble (lanes : List UInt64) : List UInt64 :=
  lanes.mapIdx fun (k : Nat) (lane : UInt64) =>
    (lane ^^^ (lane >>> (47 : UInt64)) ^^^ read64 secret (128 + 8 * k)) * prime32₁

/-- More than 240 bytes: blocks of sixteen stripes. -/
def long (a : Array UInt8) : UInt64 :=
  let n := a.size
  let init := [prime32₃, prime64₁, prime64₂, prime64₃, prime64₄, prime32₂, prime64₅, prime32₁]
  let stripes (base count : Nat) (lanes : List UInt64) : List UInt64 :=
    (List.range count).foldl (fun lanes j => stripe a (base + 64 * j) (8 * j) lanes) lanes
  let blocks := (n - 1) / 1024
  let lanes := (List.range blocks).foldl
    (fun lanes b => scramble (stripes (1024 * b) 16 lanes)) init
  let lanes := stripes (1024 * blocks) ((n - 1 - 1024 * blocks) / 64) lanes
  let lanes := stripe a (n - 64) 121 lanes
  let word (k : Nat) : UInt64 := lanes[k]?.getD 0
  let merged := (List.range 4).foldl (fun acc k =>
    acc + foldMul (word (2 * k) ^^^ read64 secret (11 + 16 * k))
      (word (2 * k + 1) ^^^ read64 secret (19 + 16 * k)))
    (n.toUInt64 * prime64₁)
  avalanche merged

/-- The hash of bytes. -/
def digest64 (bytes : List UInt8) : UInt64 :=
  let a := bytes.toArray
  if a.size ≤ 16 then short a
  else if a.size ≤ 128 then medium a
  else if a.size ≤ 240 then large a
  else long a

/-- A hexadecimal digit in lower case. -/
def hexDigit (n : Nat) : Char := if n < 10 then Char.ofNat (48 + n) else Char.ofNat (87 + n)

/-- The low half of a text's hash as eight hexadecimal digits. -/
def ofText (s : String) : String :=
  let low := (digest64 (toBytes s)).toNat % UInt32.size
  String.ofList ((List.range 8).map fun i => hexDigit ((low >>> (4 * (7 - i))) % 16))

end Stylesheet.Text.Digest
