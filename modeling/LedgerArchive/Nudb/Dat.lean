import LedgerArchive.Common.StateTree

/-! # NuDB values (`xrla-nudb/src/dat.rs`)

    What a NuDB record holds for a node: a codec byte and, behind it, an
    `EncodedBlob`. The exporter reads all four codecs of the source store;
    the importer writes the raw one only. LZ4 decompression is a
    parameter. -/

namespace LedgerArchive

open Lib

def CODEC_RAW : UInt8 := 0x00
def CODEC_LZ4 : UInt8 := 0x01
def CODEC_SPARSE_INNER : UInt8 := 0x02
def CODEC_FULL_INNER : UInt8 := 0x03

def NOTYPE_UNKNOWN : UInt8 := 0
def NOTYPE_LEDGER : UInt8 := 1
def NOTYPE_ACCOUNT : UInt8 := 3
def NOTYPE_TRANSACTION : UInt8 := 4

/-! ## Encoding -/

def encode_wire_to_value (content : Bytes) (node_type : NodeType) : Bytes :=
  let head := [CODEC_RAW] ++ List.replicate 8 0
  match node_type with
  | .Inner | .CompressedInner => head ++ [NOTYPE_UNKNOWN] ++ HASH_PREFIX_INNER_NODE ++ content
  | .AccountState => head ++ [NOTYPE_ACCOUNT] ++ content
  | .TransactionWithMeta | .Transaction => head ++ [NOTYPE_TRANSACTION] ++ content

def encode_object_to_value (object_type : UInt8) (data : Bytes) : Bytes :=
  [CODEC_RAW] ++ List.replicate 8 0 ++ [object_type] ++ data

/-! ## Decoding -/

/-- The loop of `read_varint`: seven bits a byte, low bits first. -/
def read_varint_loop : Bytes → Nat → UInt64 → Nat → Option (UInt64 × Nat)
  | [], _, _, _ => none
  | byte :: data, i, result, shift =>
    let result := result ||| ((byte &&& 0x7F).toUInt64 <<< UInt64.ofNat shift)
    let shift := shift + 7
    if byte &&& 0x80 = 0 then some (result, i + 1)
    else if shift ≥ 64 then none
    else read_varint_loop data (i + 1) result shift

def read_varint (data : Bytes) : Option (UInt64 × Nat) :=
  read_varint_loop data 0 0 0

def decode_full_inner (value : Bytes) : Option Bytes :=
  if value.length ≠ 1 + 512 then none
  else some (value.drop 1 ++ [NodeType.Inner.to_u8])

/-- The slot loop of `decode_sparse_inner`: slot 0 is the highest bit of
    the mask, and the hashes present are packed in slot order. -/
def sparse_slots (mask : UInt16) : List (Fin 16) → Bytes → Bytes
  | [], _ => []
  | slot :: slots, src =>
    if mask &&& (0x8000 >>> UInt16.ofNat slot) ≠ 0 then
      src.take 32 ++ sparse_slots mask slots (src.drop 32)
    else List.replicate 32 0 ++ sparse_slots mask slots src

def count_ones (mask : UInt16) : Nat :=
  ((List.finRange 16).filter fun slot => mask &&& (0x8000 >>> UInt16.ofNat slot) ≠ 0).length

def decode_sparse_inner (value : Bytes) : Option Bytes :=
  if value.length < 3 then none
  else
    let mask := UInt16.ofNat (ofBE ((value.drop 1).take 2))
    if value.length ≠ 3 + count_ones mask * 32 then none
    else some (sparse_slots mask (List.finRange 16) (value.drop 3) ++ [NodeType.Inner.to_u8])

/-- An `EncodedBlob`: 8 bytes, the `NodeObjectType`, the payload. An inner
    node's payload starts with its 4-byte hash prefix. -/
def encoded_blob_to_wire (data : Bytes) : Option Bytes :=
  if data.length < 9 then none
  else
    let notype := data.getD 8 0
    if notype = NOTYPE_UNKNOWN then
      if data.length < 525 then none
      else some ((data.take 525).drop 13 ++ [NodeType.Inner.to_u8])
    else if notype = NOTYPE_ACCOUNT then some (data.drop 9 ++ [NodeType.AccountState.to_u8])
    else if notype = NOTYPE_TRANSACTION then
      some (data.drop 9 ++ [NodeType.TransactionWithMeta.to_u8])
    else none

section Lz4

-- `lz4_flex::decompress(data, size)`; `none` when it fails.
variable (lz4_decompress : Bytes → Nat → Option Bytes)

def decode_lz4 (value : Bytes) : Option Bytes := do
  let (orig_size, vlen) ← read_varint (value.drop 1)
  let decoded ← lz4_decompress (value.drop (1 + vlen)) orig_size.toNat
  encoded_blob_to_wire decoded

def decode_raw (value : Bytes) : Option Bytes :=
  encoded_blob_to_wire (value.drop 1)

/-- Decode a stored value into wire bytes; `none` for ledger objects and
    whatever it does not recognise. -/
def decode_value_to_wire (value : Bytes) : Option Bytes :=
  match value with
  | [] => none
  | codec :: _ =>
    if codec = CODEC_FULL_INNER then decode_full_inner value
    else if codec = CODEC_SPARSE_INNER then decode_sparse_inner value
    else if codec = CODEC_LZ4 then decode_lz4 lz4_decompress value
    else if codec = CODEC_RAW then decode_raw value
    else none

end Lz4

/-! ## What is encoded decodes to itself -/

/-- The node types the exporter and the transaction tree emit. -/
def NodeType.is_exported : NodeType → Bool
  | .Inner | .AccountState | .TransactionWithMeta => true
  | _ => false

theorem decode_value_to_wire_raw (lz4 : Bytes → Nat → Option Bytes) (notype : UInt8)
    (payload : Bytes) :
    decode_value_to_wire lz4 ([CODEC_RAW] ++ List.replicate 8 0 ++ [notype] ++ payload) =
      encoded_blob_to_wire (List.replicate 8 0 ++ [notype] ++ payload) := by
  simp [decode_value_to_wire, decode_raw, CODEC_RAW, CODEC_FULL_INNER, CODEC_SPARSE_INNER, CODEC_LZ4]

/-- A node encoded for the store decodes to the wire bytes of the same
    node, if its type is one that is exported and an inner node is full. -/
theorem decode_encode_wire (lz4 : Bytes → Nat → Option Bytes) {content : Bytes} {t : NodeType}
    (ht : t.is_exported = true) (hlen : t = .Inner → content.length = 512) :
    decode_value_to_wire lz4 (encode_wire_to_value content t) = some (content ++ [t.to_u8]) := by
  cases t with
  | Inner =>
    have h512 := hlen rfl
    show decode_value_to_wire lz4 ([CODEC_RAW] ++ List.replicate 8 0 ++ [NOTYPE_UNKNOWN] ++
      HASH_PREFIX_INNER_NODE ++ content) = _
    rw [List.append_assoc _ HASH_PREFIX_INNER_NODE, decode_value_to_wire_raw]
    have htake : content.take 512 = content := by rw [← h512, List.take_length]
    simp [encoded_blob_to_wire, NOTYPE_UNKNOWN, HASH_PREFIX_INNER_NODE, h512, htake]
  | AccountState =>
    show decode_value_to_wire lz4 ([CODEC_RAW] ++ List.replicate 8 0 ++ [NOTYPE_ACCOUNT] ++
      content) = _
    rw [decode_value_to_wire_raw]
    simp [encoded_blob_to_wire, NOTYPE_UNKNOWN, NOTYPE_ACCOUNT]
  | TransactionWithMeta =>
    show decode_value_to_wire lz4 ([CODEC_RAW] ++ List.replicate 8 0 ++ [NOTYPE_TRANSACTION] ++
      content) = _
    rw [decode_value_to_wire_raw]
    simp [encoded_blob_to_wire, NOTYPE_UNKNOWN, NOTYPE_ACCOUNT, NOTYPE_TRANSACTION]
  | Transaction => cases ht
  | CompressedInner => cases ht

end LedgerArchive
