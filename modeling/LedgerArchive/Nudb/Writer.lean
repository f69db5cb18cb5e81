import LedgerArchive.Import.Replay
import LedgerArchive.Nudb.Keyfile

/-! # The NuDB writer (`xrla-nudb/src/writer.rs`)

    A sink appends each new record to the `.dat` file and notes where it
    stands. Finishing sorts the notes into buckets, writes what a bucket
    cannot hold as a chain of spill records behind the data, last piece
    first, and writes the buckets to the `.key` file.

    Offsets and sizes are `u64` in the source and natural numbers here; the
    fields they are written to hold 48 bits. -/

namespace LedgerArchive

open Lib

def DAT_MAGIC : Bytes := [0x6E, 0x75, 0x64, 0x62, 0x2E, 0x64, 0x61, 0x74]
def KEY_SIZE : Nat := 32
def BLOCK_SIZE : Nat := 4096
def BUCKET_CAPACITY : Nat := (BLOCK_SIZE - BUCKET_HEADER) / ENTRY_SIZE
def DAT_HEADER_SIZE : Nat := 92

/-- Hash, offset of the record and size of the value. -/
structure PlacedEntry where
  nhash : Nat
  offset : Nat
  size : Nat
  deriving DecidableEq

structure NuDbSink where
  dat : Bytes
  offset : Nat
  seen : List Hash256
  placed : List PlacedEntry
  deriving DecidableEq

def SINK_SALT : UInt64 := 0x58524C4158524C41
def SINK_UID : Nat := 1
def SINK_APPNUM : Nat := 1
def SINK_VERSION : Nat := 2

/-! ## Headers and buckets -/

def write_dat_header (version uid appnum : Nat) : Bytes :=
  DAT_MAGIC ++ toBE 2 version ++ toBE 8 uid ++ toBE 8 appnum ++ toBE 2 KEY_SIZE ++
    List.replicate 64 0

/-- Count, spill offset and entries. -/
def bucket_bytes (entries : List PlacedEntry) (spill : Nat) : Bytes :=
  toBE 2 entries.length ++ toBE 6 spill ++
    entries.flatMap fun e => toBE 6 e.offset ++ toBE 6 e.size ++ toBE 6 e.nhash

/-- `write_bucket_into` a buffer of `len` zero bytes. -/
def write_bucket_into (len : Nat) (entries : List PlacedEntry) (spill : Nat) : Bytes :=
  let b := bucket_bytes entries spill
  b ++ List.replicate (len - b.length) 0

/-- One bucket as a whole block of the key file. -/
def write_bucket_block (entries : List PlacedEntry) (spill : Nat) : Bytes :=
  write_bucket_into BLOCK_SIZE entries spill

/-- `slice.chunks(n)`: pieces of `n` elements, the last one shorter. The
    first argument bounds the number of pieces. -/
def chunks_loop {α : Type} : Nat → Nat → List α → List (List α)
  | 0, _, _ => []
  | _ + 1, _, [] => []
  | k + 1, n, l => l.take n :: chunks_loop k n (l.drop n)

def chunks {α : Type} (n : Nat) (l : List α) : List (List α) := chunks_loop l.length n l

/-- The state of `write_spill_chain`: the file and its length, and where
    the piece written last stands. -/
structure SpillState where
  dat : Bytes
  offset : Nat
  next_spill : Nat

def write_spill (s : SpillState) (chunk : List PlacedEntry) : SpillState :=
  let body_len := BUCKET_HEADER + chunk.length * ENTRY_SIZE
  -- A spill record is 6 zero bytes, the size and the body; chains point at
  -- the body.
  let body_offset := s.offset + 8
  { dat := s.dat ++ List.replicate 6 0 ++ toBE 2 body_len ++
      write_bucket_into body_len chunk s.next_spill,
    offset := s.offset + 8 + body_len, next_spill := body_offset }

/-- Write the overflow of a bucket; `next_spill` ends as the offset of the
    first piece, or 0 without overflow. -/
def write_spill_chain (dat : Bytes) (offset : Nat) (overflow : List PlacedEntry) : SpillState :=
  (chunks BUCKET_CAPACITY overflow).reverse.foldl write_spill { dat, offset, next_spill := 0 }

section Xxh64

variable (xxh64 : Bytes → UInt64 → UInt64)

def write_key_header (version uid appnum : Nat) (salt : UInt64) : Bytes :=
  let pepper := xxh64 (toBE 8 salt.toNat).reverse salt
  let hdr := KEY_MAGIC ++ toBE 2 version ++ toBE 8 uid ++ toBE 8 appnum ++ toBE 2 KEY_SIZE ++
    toBE 8 salt.toNat ++ toBE 8 pepper.toNat ++ toBE 2 BLOCK_SIZE ++ toBE 2 0x8000
  hdr ++ List.replicate (BLOCK_SIZE - hdr.length) 0

namespace NuDbSink

/-! ## Writing nodes -/

def create : NuDbSink :=
  { dat := write_dat_header SINK_VERSION SINK_UID SINK_APPNUM, offset := DAT_HEADER_SIZE,
    seen := [], placed := [] }

def contains (s : NuDbSink) (hash : Hash256) : Bool := s.seen.contains hash

/-- Append a record, unless the hash has been written before. -/
def write_node (s : NuDbSink) (hash : Hash256) (value : Bytes) : NuDbSink :=
  if hash ∈ s.seen then s
  else
    { dat := s.dat ++ toBE 6 value.length ++ hash.bytes ++ value,
      offset := s.offset + (6 + KEY_SIZE + value.length),
      seen := hash :: s.seen,
      placed := s.placed ++
        [{ nhash := nhash_of xxh64 SINK_SALT hash, offset := s.offset, size := value.length }] }

/-- The sink as replay uses it. Writing fails only with the disk. -/
def node_sink : NodeSink NuDbSink where
  contains := contains
  write_node s hash value := .ok (s.write_node xxh64 hash value)

/-! ## Finishing -/

/-- `ceil(n / (227 * 0.5))`, at least 1. The source computes it in `f64`,
    which is exact below 2^50 entries. -/
def num_buckets (s : NuDbSink) : Nat :=
  max ((2 * s.placed.length + BUCKET_CAPACITY - 1) / BUCKET_CAPACITY) 1

/-- The bucket table: each entry is pushed to the bucket of its hash. -/
def buckets (s : NuDbSink) : List (List PlacedEntry) :=
  let modulus := modulus_for s.num_buckets
  s.placed.foldl (fun table e =>
    table.modify (bucket_of modulus s.num_buckets e.nhash) fun bucket => bucket ++ [e])
    (List.replicate s.num_buckets [])

/-- Sort each bucket by hash, keep what a block holds and write the rest to
    the data file. Yields the blocks of the key file. -/
def write_buckets : List (List PlacedEntry) → Bytes → Nat → List Bytes × Bytes
  | [], dat, _ => ([], dat)
  | bucket :: rest, dat, offset =>
    let bucket := bucket.insertionSort fun a b => a.nhash ≤ b.nhash
    let overflow := bucket.drop BUCKET_CAPACITY
    let spill := write_spill_chain dat offset overflow
    let (blocks, dat) := write_buckets rest spill.dat spill.offset
    (write_bucket_block (bucket.take BUCKET_CAPACITY) spill.next_spill :: blocks, dat)

/-- The two files a finished sink leaves. -/
def finish (s : NuDbSink) : Bytes × Bytes :=
  let (blocks, dat) := write_buckets s.buckets s.dat s.offset
  (dat, write_key_header xxh64 SINK_VERSION SINK_UID SINK_APPNUM SINK_SALT ++ blocks.flatten)

end NuDbSink

end Xxh64

end LedgerArchive
