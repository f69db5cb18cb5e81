import LedgerArchive.Lib.Bytes

/-! # XXH64, executable

    The 64-bit xxHash of a byte string under a seed: four lanes over blocks
    of 32 bytes, then the rest by words, half words and bytes. Like the
    digest of `Sha512`, it lets a development with a parameter for its hash
    run on concrete data. -/

namespace Lib.Xxh64

open Lib

def prime1 : UInt64 := 0x9E3779B185EBCA87
def prime2 : UInt64 := 0xC2B2AE3D27D4EB4F
def prime3 : UInt64 := 0x165667B19E3779F9
def prime4 : UInt64 := 0x85EBCA77C2B2AE63
def prime5 : UInt64 := 0x27D4EB2F165667C5

def rotl (x : UInt64) (n : UInt64) : UInt64 := (x <<< n) ||| (x >>> (64 - n))

/-- The first `n` bytes as a little-endian word. -/
def lane (n : Nat) (b : Bytes) : UInt64 := UInt64.ofNat (ofBE (b.take n).reverse)

def round (acc input : UInt64) : UInt64 := rotl (acc + input * prime2) 31 * prime1

def mergeRound (acc val : UInt64) : UInt64 := (acc ^^^ round 0 val) * prime1 + prime4

/-- The lane loop: `n` blocks of 32 bytes. Yields the lanes and the rest. -/
def stripes : Nat → UInt64 × UInt64 × UInt64 × UInt64 → Bytes →
    (UInt64 × UInt64 × UInt64 × UInt64) × Bytes
  | 0, v, b => (v, b)
  | n + 1, (v1, v2, v3, v4), b =>
    stripes n (round v1 (lane 8 b), round v2 (lane 8 (b.drop 8)), round v3 (lane 8 (b.drop 16)),
      round v4 (lane 8 (b.drop 24))) (b.drop 32)

/-- The rest of the input, in at most `n` steps. -/
def tail : Nat → UInt64 → Bytes → UInt64
  | 0, h, _ => h
  | n + 1, h, b =>
    if 8 ≤ b.length then
      tail n (rotl (h ^^^ round 0 (lane 8 b)) 27 * prime1 + prime4) (b.drop 8)
    else if 4 ≤ b.length then
      tail n (rotl (h ^^^ lane 4 b * prime1) 23 * prime2 + prime3) (b.drop 4)
    else if 1 ≤ b.length then
      tail n (rotl (h ^^^ lane 1 b * prime5) 11 * prime1) (b.drop 1)
    else h

def avalanche (h : UInt64) : UInt64 :=
  let h := (h ^^^ (h >>> 33)) * prime2
  let h := (h ^^^ (h >>> 29)) * prime3
  h ^^^ (h >>> 32)

def digest (b : Bytes) (seed : UInt64) : UInt64 :=
  if 32 ≤ b.length then
    let v := stripes (b.length / 32)
      (seed + prime1 + prime2, seed + prime2, seed, seed - prime1) b
    let (v1, v2, v3, v4) := v.1
    let h := rotl v1 1 + rotl v2 7 + rotl v3 12 + rotl v4 18
    let h := mergeRound (mergeRound (mergeRound (mergeRound h v1) v2) v3) v4
    avalanche (tail 8 (h + UInt64.ofNat b.length) v.2)
  else avalanche (tail 8 (seed + prime5 + UInt64.ofNat b.length) b)

example : digest [0x61, 0x62, 0x63] 0 = 0x44BC2CF5AD770999 := by decide +kernel

end Lib.Xxh64
