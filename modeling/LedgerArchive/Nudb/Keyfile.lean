import LedgerArchive.Common.Chunk
import LedgerArchive.Lib.Except

/-! # The NuDB key file (`xrla-nudb/src/keyfile.rs`)

    A store is a `.dat` file of records and a `.key` file of buckets. A
    shard looks a key up in the bucket its hash names and follows the
    bucket's chain of spill records in the `.dat` file. The files are byte
    strings, and a positioned read (`read_exact_at`) fails when the file
    ends too early. `xxh64` is a parameter; a chain has no bound in the
    source, so `fetch` takes one. -/

namespace LedgerArchive

open Lib

def KEY_MAGIC : Bytes := [0x6E, 0x75, 0x64, 0x62, 0x2E, 0x6B, 0x65, 0x79]
def ENTRY_SIZE : Nat := 18
def BUCKET_HEADER : Nat := 8
def REC_HEADER : Nat := 38

/-- `read_exact_at`. -/
def read_exact_at (file : Bytes) (off n : Nat) : Except Error Bytes :=
  ok_or (readAt file off n) (.bail "failed to fill whole buffer")

/-- `block[off..off + n]`. -/
def slice (block : Bytes) (off n : Nat) : Except Error Bytes :=
  ok_or (readAt block off n) .panic

/-- `while modulus < num_buckets { modulus <<= 1; }`. A power of two below
    2^k becomes at least `num_buckets` in as many rounds. -/
def modulus_loop : Nat → Nat → Nat → Nat
  | 0, modulus, _ => modulus
  | n + 1, modulus, num_buckets =>
    if modulus < num_buckets then modulus_loop n (modulus * 2) num_buckets else modulus

def modulus_for (num_buckets : Nat) : Nat := modulus_loop num_buckets 1 num_buckets

/-- `nhash % modulus`, wrapped back below the number of buckets. -/
def bucket_of (modulus num_buckets nhash : Nat) : Nat :=
  let n := nhash % modulus
  if n ≥ num_buckets then n - modulus / 2 else n

structure Shard where
  dat : Bytes
  key : Bytes
  salt : UInt64
  block_size : Nat
  num_buckets : Nat
  modulus : Nat

section Xxh64

variable (xxh64 : Bytes → UInt64 → UInt64)

/-- NuDB's 48-bit hash of a key. -/
def nhash_of (salt : UInt64) (key : Hash256) : Nat := (xxh64 key.bytes salt >>> 16).toNat

namespace Shard

def «open» (dat key : Bytes) : Except Error Shard := do
  let hdr ← read_exact_at key 0 64
  bail_if (hdr.take 8 ≠ KEY_MAGIC) (.bail "invalid NuDB key magic")
  let key_size := ofBE ((hdr.drop 26).take 2)
  bail_if (key_size ≠ 32) (.bail s!"expected key_size=32, got {key_size}")
  let salt := UInt64.ofNat (ofBE ((hdr.drop 28).take 8))
  let block_size := ofBE ((hdr.drop 44).take 2)
  bail_if (block_size = 0) (.bail "zero block_size")
  -- `key_file_size - block_size` wraps for a file shorter than a block.
  let num_buckets := (key.length + 2 ^ 64 - block_size) % 2 ^ 64 / block_size
  pure { dat, key, salt, block_size, num_buckets, modulus := modulus_for num_buckets }

def bucket_index (s : Shard) (nhash : Nat) : Nat := bucket_of s.modulus s.num_buckets nhash

/-- The entry loop of `fetch`, `n` entries from index `i` on. -/
def scan_entries (s : Shard) (key : Hash256) (nhash : Nat) (block : Bytes) :
    Nat → Nat → Except Error (Option Bytes)
  | 0, _ => .ok none
  | n + 1, i => do
    let b := BUCKET_HEADER + i * ENTRY_SIZE
    let entry_hash ← slice block (b + 12) 6
    if ofBE entry_hash ≠ nhash then scan_entries s key nhash block n (i + 1)
    else do
      let offset ← slice block b 6
      let val_size ← slice block (b + 6) 6
      let head ← read_exact_at s.dat (ofBE offset) REC_HEADER
      if (head.drop 6).take 32 = key.bytes then do
        let val ← read_exact_at s.dat (ofBE offset + REC_HEADER) (ofBE val_size)
        pure (some val)
      else scan_entries s key nhash block n (i + 1)

/-- The loop of `fetch` over a bucket and its spill records. -/
def fetch_loop (s : Shard) (key : Hash256) (nhash : Nat) :
    Nat → Bytes → Except Error (Option Bytes)
  | 0, _ => .error .fuel
  | fuel + 1, block => do
    let count ← slice block 0 2
    let spill ← slice block 2 6
    let found ← scan_entries s key nhash block (ofBE count) 0
    match found with
    | some val => pure (some val)
    | none =>
      if ofBE spill = 0 then pure none
      else do
        let head ← read_exact_at s.dat (ofBE spill) BUCKET_HEADER
        let scount := ofBE (head.take 2)
        let body ← read_exact_at s.dat (ofBE spill) (BUCKET_HEADER + scount * ENTRY_SIZE)
        fetch_loop s key nhash fuel body

/-- The value stored for `key`, or `none`. -/
def fetch (fuel : Nat) (s : Shard) (key : Hash256) : Except Error (Option Bytes) := do
  let nhash := nhash_of xxh64 s.salt key
  let bucket := s.bucket_index nhash
  let block ← read_exact_at s.key (s.block_size * (bucket + 1)) s.block_size
  s.fetch_loop key nhash fuel block

end Shard

end Xxh64

/-! ## Bucket placement -/

theorem modulus_loop_spec {n modulus num_buckets : Nat}
    (hn : num_buckets ≤ modulus * 2 ^ n) :
    num_buckets ≤ modulus_loop n modulus num_buckets ∧
      (modulus_loop n modulus num_buckets = modulus ∨
        (modulus_loop n modulus num_buckets % 2 = 0 ∧
          modulus_loop n modulus num_buckets / 2 < num_buckets)) := by
  induction n generalizing modulus with
  | zero =>
    rw [Nat.pow_zero, Nat.mul_one] at hn
    exact ⟨hn, .inl rfl⟩
  | succ n ih =>
    unfold modulus_loop
    split
    · next hlt =>
      have hn' : num_buckets ≤ modulus * 2 * 2 ^ n := by
        rw [Nat.mul_assoc, ← Nat.pow_succ']
        exact hn
      obtain ⟨hle, hcase⟩ := ih hn'
      refine ⟨hle, .inr ?_⟩
      rcases hcase with heq | ⟨heven, hhalf⟩
      · rw [heq]
        constructor
        · omega
        · omega
      · exact ⟨heven, hhalf⟩
    · next hge => exact ⟨by omega, .inl rfl⟩

/-- The modulus is at least the number of buckets, and half of it is less. -/
theorem modulus_for_spec (num_buckets : Nat) :
    num_buckets ≤ modulus_for num_buckets ∧
      (modulus_for num_buckets = 1 ∨
        (modulus_for num_buckets % 2 = 0 ∧ modulus_for num_buckets / 2 < num_buckets)) := by
  apply modulus_loop_spec
  rw [Nat.one_mul]
  exact Nat.le_of_lt Nat.lt_two_pow_self

/-- Every hash is placed in a bucket that exists. -/
theorem bucket_of_lt {num_buckets : Nat} (hpos : 0 < num_buckets) (nhash : Nat) :
    bucket_of (modulus_for num_buckets) num_buckets nhash < num_buckets := by
  obtain ⟨hle, hcase⟩ := modulus_for_spec num_buckets
  have hmod : nhash % modulus_for num_buckets < modulus_for num_buckets :=
    Nat.mod_lt _ (by omega)
  unfold bucket_of
  simp only
  split
  · rcases hcase with hone | ⟨heven, hhalf⟩
    · omega
    · omega
  · omega

end LedgerArchive
