import LedgerArchive.Lib.Sha512

/-! # SHA-256, executable

    The hash function of FIPS 180-4 on byte strings, over `Nat` words kept
    below `2 ^ 32`. Its constants are the upper halves of those of SHA-512,
    which are more bits of the same roots. -/

namespace Lib.Sha256

open Lib

def roundConstants : List Nat := (Sha512.roundConstants.take 64).map (· >>> 32)

def initialState : List Nat := Sha512.initialState.map (· >>> 32)

/-! ## The compression function -/

/-- Rotate a 32-bit word right. -/
def rotr (x n : Nat) : Nat :=
  (x >>> n) ||| ((x <<< (32 - n)) % 4294967296)

/-- Extend the message schedule by `n` words. The list is newest first. -/
def schedule : Nat → List Nat → List Nat
  | 0, w => w
  | n + 1, w =>
    let w15 := w.getD 14 0
    let w2 := w.getD 1 0
    let s0 := (rotr w15 7 ^^^ rotr w15 18) ^^^ (w15 >>> 3)
    let s1 := (rotr w2 17 ^^^ rotr w2 19) ^^^ (w2 >>> 10)
    schedule n (((w.getD 15 0 + s0 + w.getD 6 0 + s1) % 4294967296) :: w)

/-- One round on the eight working variables; `kw` is the round constant
    plus the schedule word. -/
def round (s : List Nat) (kw : Nat) : List Nat :=
  match s with
  | [a, b, c, d, e, f, g, h] =>
    let s1 := (rotr e 6 ^^^ rotr e 11) ^^^ rotr e 25
    let ch := (e &&& f) ^^^ ((e ^^^ 4294967295) &&& g)
    let t1 := h + s1 + ch + kw
    let s0 := (rotr a 2 ^^^ rotr a 13) ^^^ rotr a 22
    let maj := ((a &&& b) ^^^ (a &&& c)) ^^^ (b &&& c)
    [(t1 + s0 + maj) % 4294967296, a, b, c, (d + t1) % 4294967296, e, f, g]
  | _ => s

def compress (state block : List Nat) : List Nat :=
  let w := (schedule 48 block.reverse).reverse
  let kw := List.zipWith (· + ·) roundConstants w
  List.zipWith (fun a b => (a + b) % 4294967296) state (kw.foldl round state)

/-! ## Padding and the digest -/

/-- The message, a one bit, zeros, and the bit length in 64 bits. -/
def pad (b : Bytes) : Bytes :=
  b ++ 0x80 :: List.replicate ((119 - b.length % 64) % 64) 0 ++ toBE 8 (8 * b.length)

def words : Nat → Bytes → List Nat
  | 0, _ => []
  | n + 1, b => ofBE (b.take 4) :: words n (b.drop 4)

def blocks : Nat → Bytes → List (List Nat)
  | 0, _ => []
  | n + 1, b => words 16 b :: blocks n (b.drop 64)

def digest (b : Bytes) : Bytes :=
  let p := pad b
  ((blocks (p.length / 64) p).foldl compress initialState).flatMap (toBE 4)

example : (digest [0x61, 0x62, 0x63]).take 4 = [0xba, 0x78, 0x16, 0xbf] := by decide +kernel

end Lib.Sha256
