import LedgerArchive.Lib.Except
import LedgerArchive.Lib.Get
import LedgerArchive.Common.StateTree
import Mathlib.Data.List.Sort

/-! # The chunk format (`xrla-common/src/serialize.rs`)

    Writers append big-endian fields to a byte string; lengths and counts
    are narrowed to the width of their field, as the `as` casts do. Readers
    are `Get` programs, because the source writes them once for any `Read`
    and runs them on two: a cursor over the whole file (`deserialize_chunk`)
    and a reader that hashes what it hands out (`ChunkReader`).

    `u32` arithmetic is that of the release build the README asks for: it
    wraps. -/

namespace LedgerArchive

open Lib

/-! ## Write helpers -/

def write_node (node : SHAMapNode) : Bytes :=
  node.hash.bytes ++ [node.node_type.to_u8] ++ toBE 2 node.content.length ++ node.content

/-- `sort_by(|a, b| a.hash.cmp(&b.hash))`, a stable sort. -/
def sort_nodes (nodes : List SHAMapNode) : List SHAMapNode :=
  nodes.insertionSort fun a b => a.hash ≤ b.hash

def sort_hashes (hashes : List Hash256) : List Hash256 :=
  hashes.insertionSort (· ≤ ·)

def sort_txns (txns : List TxRecord) : List TxRecord :=
  txns.insertionSort fun a b => a.tx_hash ≤ b.tx_hash

def write_node_list (nodes : List SHAMapNode) : Bytes :=
  toBE 4 nodes.length ++ (sort_nodes nodes).flatMap write_node

def write_delta (delta : LedgerDelta) : Bytes :=
  toBE 4 delta.ledger_seq.toNat ++
    toBE 4 delta.diff.added.length ++ (sort_nodes delta.diff.added).flatMap write_node ++
    toBE 4 delta.diff.deleted.length ++ (sort_hashes delta.diff.deleted).flatMap Hash256.bytes

def write_tx (tx : TxRecord) : Bytes :=
  tx.tx_hash.bytes ++ toBE 4 tx.tx_blob.length ++ tx.tx_blob ++
    toBE 4 tx.meta_blob.length ++ tx.meta_blob

def write_tx_map (tx_map : TxMap) : Bytes :=
  toBE 4 tx_map.ledger_seq.toNat ++ tx_map.ledger_hash.bytes ++ tx_map.account_hash.bytes ++
    toBE 8 tx_map.drops.toNat ++ toBE 4 tx_map.parent_close_time.toNat ++
    toBE 4 tx_map.close_time.toNat ++ [tx_map.close_time_resolution] ++ [tx_map.close_flags] ++
    toBE 2 tx_map.txns.length ++ (sort_txns tx_map.txns).flatMap write_tx

/-! ## The streaming chunk writer -/

/-- A chunk being written: the bytes of the temporary file, and the bytes
    fed to the running SHA-512 (everything after the header). -/
structure ChunkWriter where
  inner : Bytes
  hasher : Bytes
  chunk_hash_offset : Nat

namespace ChunkWriter

def create (network_id start_ledger end_ledger : UInt32) (checkpoint_hash : Hash256) :
    ChunkWriter :=
  let inner := MAGIC_HEADER ++ [FORMAT_VERSION_STREAMED] ++ toBE 4 network_id.toNat ++
    toBE 4 start_ledger.toNat ++ toBE 4 end_ledger.toNat ++ checkpoint_hash.bytes
  -- The chunk hash is a placeholder until `finish`.
  { inner := inner ++ ZERO_HASH.bytes, hasher := [], chunk_hash_offset := inner.length }

def body (w : ChunkWriter) (buf : Bytes) : ChunkWriter :=
  { w with inner := w.inner ++ buf, hasher := w.hasher ++ buf }

def write_checkpoint (w : ChunkWriter) (nodes : List SHAMapNode) : ChunkWriter :=
  (sort_nodes nodes).foldl (fun w node => w.body (write_node node)) (w.body (toBE 4 nodes.length))

def write_delta (w : ChunkWriter) (delta : LedgerDelta) : ChunkWriter :=
  w.body (LedgerArchive.write_delta delta)

def write_tx_map (w : ChunkWriter) (tx_map : TxMap) : ChunkWriter :=
  w.body (LedgerArchive.write_tx_map tx_map)

/-- Write the footer and put the hash of everything after the header into
    the placeholder. Returns the chunk hash and the finished file. -/
def finish (sha512half : Bytes → Hash256) (w : ChunkWriter) : Hash256 × Bytes :=
  let w := w.body MAGIC_FOOTER
  let chunk_hash := sha512half w.hasher
  (chunk_hash, w.inner.take w.chunk_hash_offset ++ chunk_hash.bytes ++
    w.inner.drop (w.chunk_hash_offset + 32))

end ChunkWriter

/-! ## Chunk serialization (v2) -/

def serialize_body (chunk : Chunk) : Bytes :=
  write_node_list chunk.checkpoint ++ chunk.deltas.flatMap write_delta ++
    chunk.tx_maps.flatMap write_tx_map ++ MAGIC_FOOTER

def serialize_chunk (sha512half : Bytes → Hash256) (chunk : Chunk) : Bytes :=
  let body := serialize_body chunk
  MAGIC_HEADER ++ [FORMAT_VERSION] ++ toBE 4 chunk.network_id.toNat ++
    toBE 4 chunk.start_ledger.toNat ++ toBE 4 chunk.end_ledger.toNat ++
    chunk.checkpoint_hash.bytes ++ (sha512half body).bytes ++ body

/-! ## Read helpers -/

def read_exact (n : Nat) : Get ChunkError Bytes :=
  .exact n .unexpected_eof pure

def read_u8 : Get ChunkError UInt8 := do
  let b ← read_exact 1
  pure (b.getD 0 0)

def read_u16be : Get ChunkError UInt16 := do
  let b ← read_exact 2
  pure (UInt16.ofNat (ofBE b))

def read_u32be : Get ChunkError UInt32 := do
  let b ← read_exact 4
  pure (UInt32.ofNat (ofBE b))

def read_u64be : Get ChunkError UInt64 := do
  let b ← read_exact 8
  pure (UInt64.ofNat (ofBE b))

def read_hash : Get ChunkError Hash256 := do
  let b ← read_exact 32
  pure (Hash256.ofBytes b)

def read_node : Get ChunkError SHAMapNode := do
  let hash ← read_hash
  let type_byte ← read_u8
  match NodeType.try_from type_byte with
  | .error _ => .fail (.unsupported_version type_byte)
  | .ok node_type =>
    let len ← read_u16be
    let content ← read_exact len.toNat
    pure { hash, node_type, content }

def read_node_list : Get ChunkError (List SHAMapNode) := do
  let count ← read_u32be
  Get.times count.toNat read_node

def read_delta : Get ChunkError LedgerDelta := do
  let ledger_seq ← read_u32be
  let added_count ← read_u32be
  let added ← Get.times added_count.toNat read_node
  let deleted_count ← read_u32be
  let deleted ← Get.times deleted_count.toNat read_hash
  pure { ledger_seq, diff := { added, deleted } }

def read_tx : Get ChunkError TxRecord := do
  let tx_hash ← read_hash
  let tx_len ← read_u32be
  let tx_blob ← read_exact tx_len.toNat
  let meta_len ← read_u32be
  let meta_blob ← read_exact meta_len.toNat
  pure { tx_hash, tx_blob, meta_blob }

def read_tx_map : Get ChunkError TxMap := do
  let ledger_seq ← read_u32be
  let ledger_hash ← read_hash
  let account_hash ← read_hash
  let drops ← read_u64be
  let parent_close_time ← read_u32be
  let close_time ← read_u32be
  let close_time_resolution ← read_u8
  let close_flags ← read_u8
  let tx_count ← read_u16be
  let txns ← Get.times tx_count.toNat read_tx
  pure { ledger_seq, ledger_hash, account_hash, drops, parent_close_time, close_time,
         close_time_resolution, close_flags, txns }

/-- One (delta, tx_map) pair of the v3 layout. -/
def read_delta_tx_map : Get ChunkError (LedgerDelta × TxMap) := do
  let delta ← read_delta
  let tx_map ← read_tx_map
  pure (delta, tx_map)

/-- The header fields behind the version byte, as both readers read them. -/
structure ChunkHeader where
  network_id : UInt32
  start_ledger : UInt32
  end_ledger : UInt32
  checkpoint_hash : Hash256
  stored_chunk_hash : Hash256
  deriving DecidableEq

def read_header_fields : Get ChunkError ChunkHeader := do
  let network_id ← read_u32be
  let start_ledger ← read_u32be
  let end_ledger ← read_u32be
  let checkpoint_hash ← read_hash
  let stored_chunk_hash ← read_hash
  pure { network_id, start_ledger, end_ledger, checkpoint_hash, stored_chunk_hash }

/-- `(end_ledger - start_ledger) as usize`. -/
def ChunkHeader.delta_count (h : ChunkHeader) : Nat :=
  (h.end_ledger - h.start_ledger).toNat

/-- The chunk a v3 body decodes to, from its pieces in file order. -/
def ChunkHeader.streamed_chunk (h : ChunkHeader) (checkpoint : List SHAMapNode) (first : TxMap)
    (pairs : List (LedgerDelta × TxMap)) : Chunk :=
  { network_id := h.network_id, start_ledger := h.start_ledger, end_ledger := h.end_ledger,
    checkpoint_hash := h.checkpoint_hash, chunk_hash := h.stored_chunk_hash, checkpoint,
    deltas := pairs.map Prod.fst, tx_maps := first :: pairs.map Prod.snd }

/-! ## Chunk deserialization -/

/-- Deltas and TX maps in the order of the given version: interleaved (v3)
    or as two blocks (v2). -/
def read_deltas_tx_maps (version : UInt8) (delta_count : Nat) :
    Get ChunkError (List LedgerDelta × List TxMap) :=
  if version = FORMAT_VERSION_STREAMED then do
    let first ← read_tx_map
    let pairs ← Get.times delta_count read_delta_tx_map
    pure (pairs.map Prod.fst, first :: pairs.map Prod.snd)
  else do
    let deltas ← Get.times delta_count read_delta
    let tx_maps ← Get.times (delta_count + 1) read_tx_map
    pure (deltas, tx_maps)

def read_footer : Get ChunkError Unit := do
  let footer ← read_exact 4
  if footer ≠ MAGIC_FOOTER then .fail .invalid_magic else pure ()

/-- Everything after the header, up to and with the footer. -/
def read_body (version : UInt8) (h : ChunkHeader) : Get ChunkError Chunk := do
  let checkpoint ← read_node_list
  let (deltas, tx_maps) ← read_deltas_tx_maps version h.delta_count
  read_footer
  pure { network_id := h.network_id, start_ledger := h.start_ledger,
         end_ledger := h.end_ledger, checkpoint_hash := h.checkpoint_hash,
         chunk_hash := h.stored_chunk_hash, checkpoint, deltas, tx_maps }

variable (sha512half : Bytes → Hash256)

/-- Parse a whole file held in memory. The chunk hash is checked first,
    over every byte after the header up to the end of the file. -/
def deserialize_chunk (data : Bytes) : Except ChunkError Chunk := do
  let (magic, r) ← (read_exact 4).run data
  bail_if (magic ≠ MAGIC_HEADER) .invalid_magic
  let (version, r) ← read_u8.run r
  bail_if (version ≠ FORMAT_VERSION ∧ version ≠ FORMAT_VERSION_STREAMED)
    (.unsupported_version version)
  let (h, r) ← read_header_fields.run r
  let actual_hash := sha512half r
  bail_if (actual_hash ≠ h.stored_chunk_hash)
    (.hash_mismatch (hex_encode h.stored_chunk_hash) (hex_encode actual_hash))
  let (chunk, _) ← (read_body version h).run r
  pure chunk

/-! ## The streaming chunk reader -/

/-- A reader that hashes every byte it hands out. -/
structure HashingReader where
  inner : Bytes
  hasher : Bytes

def HashingReader.read {α : Type} (r : HashingReader) (g : Get ChunkError α) :
    Except Error (α × HashingReader) := do
  let (a, inner, hasher) ← from_chunk (g.runSeen r.inner r.hasher)
  pure (a, ⟨inner, hasher⟩)

structure ChunkReader where
  inner : HashingReader
  header : ChunkHeader
  deltas_remaining : Nat

namespace ChunkReader

/-- Open a v3 file and read its header. -/
def «open» (file : Bytes) : Except Error ChunkReader := do
  let (magic, r) ← from_chunk ((read_exact 4).run file)
  bail_if (magic ≠ MAGIC_HEADER) (.chunk .invalid_magic)
  let (version, r) ← from_chunk (read_u8.run r)
  bail_if (version ≠ FORMAT_VERSION_STREAMED) (.bail
    s!"ChunkReader only streams format v3 chunks; this file is v{version.toNat} — use deserialize_chunk instead")
  let (h, r) ← from_chunk (read_header_fields.run r)
  pure { inner := ⟨r, []⟩, header := h, deltas_remaining := h.delta_count }

/-- The node loop of `read_checkpoint`, calling `f` once per node. -/
def checkpoint_nodes {β : Type} (f : β → SHAMapNode → β) :
    Nat → β → HashingReader → Except Error (β × HashingReader)
  | 0, b, r => .ok (b, r)
  | n + 1, b, r => do
    let (node, r) ← r.read read_node
    checkpoint_nodes f n (f b node) r

/-- Stream the checkpoint: `f` takes one node at a time. -/
def read_checkpoint {β : Type} (f : β → SHAMapNode → β) (b : β) (c : ChunkReader) :
    Except Error (β × ChunkReader) := do
  let (count, r) ← c.inner.read read_u32be
  let (b, r) ← checkpoint_nodes f count.toNat b r
  pure (b, { c with inner := r })

def read_checkpoint_tx_map (c : ChunkReader) : Except Error (TxMap × ChunkReader) := do
  let (tx_map, r) ← c.inner.read read_tx_map
  pure (tx_map, { c with inner := r })

/-- The next (delta, tx_map) pair, or `none` after the last ledger. -/
def next_delta_tx_map (c : ChunkReader) :
    Except Error (Option (LedgerDelta × TxMap) × ChunkReader) :=
  match c.deltas_remaining with
  | 0 => .ok (none, c)
  | n + 1 => do
    let (delta, r) ← c.inner.read read_delta
    let (tx_map, r) ← r.read read_tx_map
    pure (some (delta, tx_map), { c with inner := r, deltas_remaining := n })

/-- `while let Some((delta, tx_map)) = reader.next_delta_tx_map()?`, with a
    bound on the number of rounds. -/
def for_each_delta {β : Type} (f : β → LedgerDelta → TxMap → Except Error β) :
    Nat → β → ChunkReader → Except Error (β × ChunkReader)
  | 0, _, _ => .error .fuel
  | n + 1, b, c => do
    let (next, c) ← c.next_delta_tx_map
    match next with
    | none => pure (b, c)
    | some (delta, tx_map) =>
      let b ← f b delta tx_map
      for_each_delta f n b c

/-- Read the footer and compare the hash of the bytes read so far with the
    header's. -/
def finish (c : ChunkReader) : Except Error Unit := do
  let (footer, r) ← c.inner.read (read_exact 4)
  bail_if (footer ≠ MAGIC_FOOTER) (.chunk .invalid_magic)
  let actual := sha512half r.hasher
  bail_if (actual ≠ c.header.stored_chunk_hash)
    (.chunk (.hash_mismatch (hex_encode c.header.stored_chunk_hash) (hex_encode actual)))

end ChunkReader

/-- Drive a `ChunkReader` over the whole file and keep what it yields. -/
def stream_chunk (file : Bytes) : Except Error Chunk := do
  let c ← ChunkReader.open file
  let (checkpoint, c) ← c.read_checkpoint (fun nodes node => nodes ++ [node]) []
  let (first, c) ← c.read_checkpoint_tx_map
  let (pairs, c) ← c.for_each_delta (fun pairs delta tx_map => pure (pairs ++ [(delta, tx_map)]))
    (c.deltas_remaining + 1) []
  c.finish sha512half
  pure (c.header.streamed_chunk checkpoint first pairs)

end LedgerArchive
