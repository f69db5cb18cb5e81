import LedgerArchive.Lib.Bytes

/-! # SHA-512, executable

    The hash function of FIPS 180-4 on byte strings, over `Nat` words kept
    below `2 ^ 64`. It lets a development that takes its hash function as
    a parameter be run on concrete data. -/

namespace Lib.Sha512

open Lib

/-! ## Constants -/

/-- The first 64 bits of the fractional parts of the cube roots of the
    first 80 primes. -/
def roundConstants : List Nat := [
  0x428a2f98d728ae22, 0x7137449123ef65cd, 0xb5c0fbcfec4d3b2f, 0xe9b5dba58189dbbc,
  0x3956c25bf348b538, 0x59f111f1b605d019, 0x923f82a4af194f9b, 0xab1c5ed5da6d8118,
  0xd807aa98a3030242, 0x12835b0145706fbe, 0x243185be4ee4b28c, 0x550c7dc3d5ffb4e2,
  0x72be5d74f27b896f, 0x80deb1fe3b1696b1, 0x9bdc06a725c71235, 0xc19bf174cf692694,
  0xe49b69c19ef14ad2, 0xefbe4786384f25e3, 0x0fc19dc68b8cd5b5, 0x240ca1cc77ac9c65,
  0x2de92c6f592b0275, 0x4a7484aa6ea6e483, 0x5cb0a9dcbd41fbd4, 0x76f988da831153b5,
  0x983e5152ee66dfab, 0xa831c66d2db43210, 0xb00327c898fb213f, 0xbf597fc7beef0ee4,
  0xc6e00bf33da88fc2, 0xd5a79147930aa725, 0x06ca6351e003826f, 0x142929670a0e6e70,
  0x27b70a8546d22ffc, 0x2e1b21385c26c926, 0x4d2c6dfc5ac42aed, 0x53380d139d95b3df,
  0x650a73548baf63de, 0x766a0abb3c77b2a8, 0x81c2c92e47edaee6, 0x92722c851482353b,
  0xa2bfe8a14cf10364, 0xa81a664bbc423001, 0xc24b8b70d0f89791, 0xc76c51a30654be30,
  0xd192e819d6ef5218, 0xd69906245565a910, 0xf40e35855771202a, 0x106aa07032bbd1b8,
  0x19a4c116b8d2d0c8, 0x1e376c085141ab53, 0x2748774cdf8eeb99, 0x34b0bcb5e19b48a8,
  0x391c0cb3c5c95a63, 0x4ed8aa4ae3418acb, 0x5b9cca4f7763e373, 0x682e6ff3d6b2b8a3,
  0x748f82ee5defb2fc, 0x78a5636f43172f60, 0x84c87814a1f0ab72, 0x8cc702081a6439ec,
  0x90befffa23631e28, 0xa4506cebde82bde9, 0xbef9a3f7b2c67915, 0xc67178f2e372532b,
  0xca273eceea26619c, 0xd186b8c721c0c207, 0xeada7dd6cde0eb1e, 0xf57d4f7fee6ed178,
  0x06f067aa72176fba, 0x0a637dc5a2c898a6, 0x113f9804bef90dae, 0x1b710b35131c471b,
  0x28db77f523047d84, 0x32caab7b40c72493, 0x3c9ebe0a15c9bebc, 0x431d67c49c100d4c,
  0x4cc5d4becb3e42b6, 0x597f299cfc657e2a, 0x5fcb6fab3ad6faec, 0x6c44198c4a475817]

/-- The first 64 bits of the fractional parts of the square roots of the
    first eight primes. -/
def initialState : List Nat := [
  0x6a09e667f3bcc908, 0xbb67ae8584caa73b, 0x3c6ef372fe94f82b, 0xa54ff53a5f1d36f1,
  0x510e527fade682d1, 0x9b05688c2b3e6c1f, 0x1f83d9abfb41bd6b, 0x5be0cd19137e2179]

/-! ## The compression function -/

/-- Rotate a 64-bit word right. -/
def rotr (x n : Nat) : Nat :=
  (x >>> n) ||| ((x <<< (64 - n)) % 2 ^ 64)

/-- Extend the message schedule by `n` words. The list is newest first. -/
def schedule : Nat → List Nat → List Nat
  | 0, w => w
  | n + 1, w =>
    let w15 := w.getD 14 0
    let w2 := w.getD 1 0
    let s0 := (rotr w15 1 ^^^ rotr w15 8) ^^^ (w15 >>> 7)
    let s1 := (rotr w2 19 ^^^ rotr w2 61) ^^^ (w2 >>> 6)
    schedule n (((w.getD 15 0 + s0 + w.getD 6 0 + s1) % 2 ^ 64) :: w)

/-- One round on the eight working variables; `kw` is the round constant
    plus the schedule word. -/
def round (s : List Nat) (kw : Nat) : List Nat :=
  match s with
  | [a, b, c, d, e, f, g, h] =>
    let s1 := (rotr e 14 ^^^ rotr e 18) ^^^ rotr e 41
    let ch := (e &&& f) ^^^ ((e ^^^ (2 ^ 64 - 1)) &&& g)
    let t1 := h + s1 + ch + kw
    let s0 := (rotr a 28 ^^^ rotr a 34) ^^^ rotr a 39
    let maj := ((a &&& b) ^^^ (a &&& c)) ^^^ (b &&& c)
    [(t1 + s0 + maj) % 2 ^ 64, a, b, c, (d + t1) % 2 ^ 64, e, f, g]
  | _ => s

def compress (state block : List Nat) : List Nat :=
  let w := (schedule 64 block.reverse).reverse
  let kw := List.zipWith (· + ·) roundConstants w
  List.zipWith (fun a b => (a + b) % 2 ^ 64) state (kw.foldl round state)

/-! ## Padding and the digest -/

/-- The message, a one bit, zeros, and the bit length in 128 bits. -/
def pad (b : Bytes) : Bytes :=
  b ++ 0x80 :: List.replicate ((239 - b.length % 128) % 128) 0 ++ toBE 16 (8 * b.length)

def words : Nat → Bytes → List Nat
  | 0, _ => []
  | n + 1, b => ofBE (b.take 8) :: words n (b.drop 8)

def blocks : Nat → Bytes → List (List Nat)
  | 0, _ => []
  | n + 1, b => words 16 b :: blocks n (b.drop 128)

def digest (b : Bytes) : Bytes :=
  let p := pad b
  ((blocks (p.length / 128) p).foldl compress initialState).flatMap (toBE 8)

example : (digest [0x61, 0x62, 0x63]).take 4 = [0xdd, 0xaf, 0x35, 0xa1] := by decide +kernel

end Lib.Sha512
