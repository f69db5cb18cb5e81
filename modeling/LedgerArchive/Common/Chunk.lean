import LedgerArchive.Lib.Sha512
import LedgerArchive.Common.Shamap

/-! # Chunks and ledger headers (`xrla-common/src/chunk.rs`, `serialize.rs`)

    The records of a chunk file, and the ledger header whose hash chains
    one ledger to the next. `sha512half` is the first half of SHA-512 (the
    `sha2` crate); it is a parameter throughout. -/

namespace LedgerArchive

open Lib

/-! ## Chunk records -/

def MAGIC_HEADER : Bytes := [0x58, 0x52, 0x4C, 0x41]
def MAGIC_FOOTER : Bytes := [0x45, 0x4E, 0x44, 0x58]
def FORMAT_VERSION : UInt8 := 2
def FORMAT_VERSION_STREAMED : UInt8 := 3

/-- A transaction with its raw blobs. -/
structure TxRecord where
  tx_hash : Hash256
  tx_blob : Bytes
  meta_blob : Bytes
  deriving DecidableEq

/-- All transactions of one ledger, and the header fields nothing else in
    the chunk derives. -/
structure TxMap where
  ledger_seq : UInt32
  ledger_hash : Hash256
  account_hash : Hash256
  drops : UInt64
  parent_close_time : UInt32
  close_time : UInt32
  close_time_resolution : UInt8
  close_flags : UInt8
  txns : List TxRecord
  deriving DecidableEq

/-- One ledger transition. -/
structure LedgerDelta where
  ledger_seq : UInt32
  diff : SHAMapDiff
  deriving DecidableEq

/-- A complete chunk. -/
structure Chunk where
  network_id : UInt32
  start_ledger : UInt32
  end_ledger : UInt32
  checkpoint_hash : Hash256
  chunk_hash : Hash256
  checkpoint : List SHAMapNode
  deltas : List LedgerDelta
  tx_maps : List TxMap
  deriving DecidableEq

/-! ## Errors -/

inductive ChunkError where
  | invalid_magic
  | unsupported_version (v : UInt8)
  | hash_mismatch (expected got : String)
  | unexpected_eof
  deriving DecidableEq, Repr

/-- What a fallible function ends in when it does not return `Ok`. `bail`
    is an `anyhow` error with its text, `context` an error with a text put
    in front by `with_context`. The last two are not errors of the program:
    `panic` is an index out of bounds, and `fuel` says that a loop has not
    come to its end within the steps it was given. -/
inductive Error where
  | bail (text : String)
  | chunk (e : ChunkError)
  | shamap (e : SHAMapError)
  | context (text : String) (cause : Error)
  | panic
  | fuel
  deriving DecidableEq, Repr

/-- A `ChunkError` or `SHAMapError` passed up with `?`. -/
def from_chunk {α : Type} : Except ChunkError α → Except Error α
  | .ok a => .ok a
  | .error e => .error (.chunk e)

def from_shamap {α : Type} : Except SHAMapError α → Except Error α
  | .ok a => .ok a
  | .error e => .error (.shamap e)

def with_context {α : Type} (text : String) : Except Error α → Except Error α
  | .ok a => .ok a
  | .error e => .error (.context text e)

@[simp] theorem with_context_eq_ok {α : Type} {text : String} {x : Except Error α} {a : α} :
    with_context text x = .ok a ↔ x = .ok a := by
  cases x <;> simp [with_context]

@[simp] theorem from_chunk_eq_ok {α : Type} {x : Except ChunkError α} {a : α} :
    from_chunk x = .ok a ↔ x = .ok a := by
  cases x <;> simp [from_chunk]

@[simp] theorem from_shamap_eq_ok {α : Type} {x : Except SHAMapError α} {a : α} :
    from_shamap x = .ok a ↔ x = .ok a := by
  cases x <;> simp [from_shamap]

/-- `hex::encode`. -/
def hex_encode (h : Hash256) : String :=
  String.join (h.bytes.map fun b =>
    let digit (n : Nat) : String := (Nat.digitChar n).toString
    digit (b.toNat / 16) ++ digit (b.toNat % 16))

/-! ## Ledger headers -/

/-- The fields a LedgerHash is computed from. -/
structure LedgerHashInput where
  seq : UInt32
  drops : UInt64
  parent_hash : Hash256
  tx_hash : Hash256
  account_hash : Hash256
  parent_close_time : UInt32
  close_time : UInt32
  close_time_resolution : UInt8
  close_flags : UInt8
  deriving DecidableEq

/-- The header bytes: the prefix `LWR\0` and the fields in order. -/
def ledger_header_object (h : LedgerHashInput) : Bytes :=
  [0x4C, 0x57, 0x52, 0x00] ++ toBE 4 h.seq.toNat ++ toBE 8 h.drops.toNat ++
    h.parent_hash.bytes ++ h.tx_hash.bytes ++ h.account_hash.bytes ++
    toBE 4 h.parent_close_time.toNat ++ toBE 4 h.close_time.toNat ++
    [h.close_time_resolution] ++ [h.close_flags]

def calculate_ledger_hash (sha512half : Bytes → Hash256) (h : LedgerHashInput) : Hash256 :=
  sha512half (ledger_header_object h)

/-- `sha512half` as the `sha2` crate computes it, to run the model on
    concrete data. -/
def sha2_sha512half (data : Bytes) : Hash256 :=
  Hash256.ofBytes (Sha512.digest data)

theorem toBE4_inj {a b : UInt32} (h : toBE 4 a.toNat = toBE 4 b.toNat) : a = b :=
  UInt32.toNat_inj.mp (toBE_inj a.toNat_lt b.toNat_lt h)

theorem toBE8_inj {a b : UInt64} (h : toBE 8 a.toNat = toBE 8 b.toNat) : a = b :=
  UInt64.toNat_inj.mp (toBE_inj a.toNat_lt b.toNat_lt h)

/-- Every field of the header has a fixed width, so the header bytes
    determine the fields. -/
theorem ledger_header_object_inj {a b : LedgerHashInput}
    (h : ledger_header_object a = ledger_header_object b) : a = b := by
  obtain ⟨a1, a2, a3, a4, a5, a6, a7, a8, a9⟩ := a
  obtain ⟨b1, b2, b3, b4, b5, b6, b7, b8, b9⟩ := b
  unfold ledger_header_object at h
  -- Peel the fields off from the right; both sides have the same width.
  obtain ⟨h, h9⟩ := List.append_inj' h rfl
  obtain ⟨h, h8⟩ := List.append_inj' h rfl
  obtain ⟨h, h7⟩ := List.append_inj' h (by simp)
  obtain ⟨h, h6⟩ := List.append_inj' h (by simp)
  obtain ⟨h, h5⟩ := List.append_inj' h (by simp [Hash256.length_eq])
  obtain ⟨h, h4⟩ := List.append_inj' h (by simp [Hash256.length_eq])
  obtain ⟨h, h3⟩ := List.append_inj' h (by simp [Hash256.length_eq])
  obtain ⟨h, h2⟩ := List.append_inj' h (by simp)
  obtain ⟨-, h1⟩ := List.append_inj' h (by simp)
  simp only [List.cons.injEq, and_true] at h8 h9
  rw [LedgerHashInput.mk.injEq]
  exact ⟨toBE4_inj h1, toBE8_inj h2, Hash256.bytes_inj h3, Hash256.bytes_inj h4,
    Hash256.bytes_inj h5, toBE4_inj h6, toBE4_inj h7, h8, h9⟩

end LedgerArchive
