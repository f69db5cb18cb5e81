import LedgerArchive.Lib.Bytes
import Mathlib.Data.List.Lex
import Mathlib.Data.List.FinRange

/-! # SHAMap nodes (`xrla-common/src/shamap.rs`)

    A SHAMap node as a chunk file stores it: a 32-byte hash, a type byte and
    the content without that byte. Inner nodes list up to 16 child hashes,
    in one of two encodings; the zero hash stands for "no child". -/

namespace LedgerArchive

open Lib

/-! ## Hashes -/

/-- A 32-byte hash (`[u8; 32]`). -/
@[ext] structure Hash256 where
  bytes : Bytes
  length_eq : bytes.length = 32
  deriving DecidableEq

namespace Hash256

/-- `copy_from_slice` into a `[u8; 32]`: the first 32 bytes. Callers pass
    32 bytes; a shorter slice, which Rust refuses, is filled with zeros. -/
def ofBytes (b : Bytes) : Hash256 :=
  ⟨(b ++ List.replicate 32 0).take 32, by simp⟩

theorem ofBytes_append (h : Hash256) (rest : Bytes) : ofBytes (h.bytes ++ rest) = h := by
  ext1
  show ((h.bytes ++ rest) ++ List.replicate 32 0).take 32 = h.bytes
  rw [List.append_assoc, List.take_left' h.length_eq]

@[simp] theorem ofBytes_bytes (h : Hash256) : ofBytes h.bytes = h := by
  have := ofBytes_append h []
  rwa [List.append_nil] at this

theorem bytes_ofBytes {b : Bytes} (h : b.length = 32) : (ofBytes b).bytes = b := by
  show (b ++ List.replicate 32 0).take 32 = b
  exact List.take_left' h

theorem bytes_inj {a b : Hash256} (h : a.bytes = b.bytes) : a = b := by
  ext1; exact h

/-- Hashes compare as byte arrays do: lexicographically. -/
instance : LinearOrder Hash256 :=
  LinearOrder.lift' (fun h => h.bytes.map UInt8.toNat) fun _ _ h =>
    bytes_inj (List.map_injective_iff.mpr (fun _ _ => UInt8.toNat_inj.mp) h)

end Hash256

def ZERO_HASH : Hash256 := ⟨List.replicate 32 0, by simp⟩

/-! ## Errors -/

inductive SHAMapError where
  | unknown_node_type (v : UInt8)
  | invalid_encoding (text : String)
  deriving DecidableEq, Repr

/-! ## Node types -/

inductive NodeType where
  | Transaction
  | AccountState
  | Inner
  | CompressedInner
  | TransactionWithMeta
  deriving DecidableEq, Repr

namespace NodeType

def is_inner : NodeType → Bool
  | Inner | CompressedInner => true
  | _ => false

/-- The wire type byte, the last byte of a serialized node. -/
def to_u8 : NodeType → UInt8
  | Transaction => 0
  | AccountState => 1
  | Inner => 2
  | CompressedInner => 3
  | TransactionWithMeta => 4

def try_from (v : UInt8) : Except SHAMapError NodeType :=
  if v = 0 then .ok Transaction
  else if v = 1 then .ok AccountState
  else if v = 2 then .ok Inner
  else if v = 3 then .ok CompressedInner
  else if v = 4 then .ok TransactionWithMeta
  else .error (.unknown_node_type v)

@[simp] theorem try_from_to_u8 (t : NodeType) : try_from t.to_u8 = .ok t := by
  cases t <;> rfl

end NodeType

/-! ## Nodes -/

/-- One node of a chunk file. `content` is without the trailing type byte. -/
structure SHAMapNode where
  hash : Hash256
  node_type : NodeType
  content : Bytes
  deriving DecidableEq

namespace SHAMapNode

def to_wire_bytes (n : SHAMapNode) : Bytes :=
  n.content ++ [n.node_type.to_u8]

/-- Parse wire bytes; the type byte is the last one. -/
def from_wire_bytes (hash : Hash256) (wire : Bytes) : Except SHAMapError SHAMapNode :=
  match wire.getLast? with
  | none => .error (.invalid_encoding "empty wire bytes")
  | some type_byte =>
    match NodeType.try_from type_byte with
    | .error e => .error e
    | .ok node_type => .ok { hash, node_type, content := wire.dropLast }

@[simp] theorem from_wire_bytes_append (hash : Hash256) (content : Bytes) (t : NodeType) :
    from_wire_bytes hash (content ++ [t.to_u8]) = .ok ⟨hash, t, content⟩ := by
  simp [from_wire_bytes]

theorem from_wire_bytes_hash {hash : Hash256} {wire : Bytes} {n : SHAMapNode}
    (h : from_wire_bytes hash wire = .ok n) : n.hash = hash := by
  unfold from_wire_bytes at h
  split at h
  · cases h
  · split at h
    · cases h
    · cases h; rfl

end SHAMapNode

/-! ## Inner nodes -/

/-- A parsed inner node: a child hash for each of the 16 slots in use. -/
structure InnerNode where
  children : Fin 16 → Option Hash256

namespace InnerNode

/-- The 32 bytes of slot `i` in a full inner node's content. -/
def slot_bytes (content : Bytes) (i : Fin 16) : Bytes :=
  (content.drop (i * 32)).take 32

/-- Full form: 16 hashes back to back; a zero hash is an empty slot. -/
def from_full_bytes (content : Bytes) : Except SHAMapError InnerNode :=
  if content.length ≠ 16 * 32 then
    .error (.invalid_encoding
      s!"full inner: expected {16 * 32} bytes, got {content.length}")
  else
    .ok ⟨fun i =>
      let hash := Hash256.ofBytes (slot_bytes content i)
      if hash ≠ ZERO_HASH then some hash else none⟩

/-- The entry loop of the compressed form: `n` entries of a hash and a
    slot number. A later entry for a slot replaces an earlier one. -/
def compressed_entries :
    Nat → Bytes → (Fin 16 → Option Hash256) → Except SHAMapError (Fin 16 → Option Hash256)
  | 0, _, children => .ok children
  | n + 1, content, children =>
    let hash := Hash256.ofBytes (content.take 32)
    let pos := (content.getD 32 0).toNat
    if h : pos < 16 then
      compressed_entries n (content.drop 33)
        (if hash ≠ ZERO_HASH then Function.update children ⟨pos, h⟩ (some hash) else children)
    else .error (.invalid_encoding s!"compressed inner: invalid position {pos}")

/-- Compressed form: up to 16 entries of 33 bytes. -/
def from_compressed_bytes (content : Bytes) : Except SHAMapError InnerNode :=
  if content.length % 33 ≠ 0 ∨ content.length > 33 * 16 then
    .error (.invalid_encoding s!"compressed inner: invalid length {content.length}")
  else
    (compressed_entries (content.length / 33) content fun _ => none).map InnerNode.mk

def from_node (node : SHAMapNode) : Except SHAMapError InnerNode :=
  match node.node_type with
  | .Inner => from_full_bytes node.content
  | .CompressedInner => from_compressed_bytes node.content
  | _ => .error (.invalid_encoding "not an inner node")

/-- The children in slot order. -/
def child_hashes (inner : InnerNode) : List Hash256 :=
  (List.finRange 16).filterMap inner.children

theorem mem_child_hashes {inner : InnerNode} {h : Hash256} :
    h ∈ inner.child_hashes ↔ ∃ i, inner.children i = some h := by
  simp [child_hashes]

/-- A full node parses exactly when it has 512 bytes. -/
theorem from_full_bytes_ok {content : Bytes} {inner : InnerNode}
    (h : from_full_bytes content = .ok inner) :
    content.length = 512 ∧ ∀ i, inner.children i =
      if Hash256.ofBytes (slot_bytes content i) ≠ ZERO_HASH
      then some (Hash256.ofBytes (slot_bytes content i)) else none := by
  unfold from_full_bytes at h
  split at h
  · cases h
  · next hlen =>
    cases h
    exact ⟨by simpa using hlen, fun _ => rfl⟩

theorem compressed_entries_nonzero :
    ∀ (n : Nat) (content : Bytes) (children out : Fin 16 → Option Hash256),
      (∀ i, children i ≠ some ZERO_HASH) → compressed_entries n content children = .ok out →
      ∀ i, out i ≠ some ZERO_HASH
  | 0, _, children, out, hc, h => by
    cases h; exact hc
  | n + 1, content, children, out, hc, h => by
    simp only [compressed_entries] at h
    split at h
    · refine compressed_entries_nonzero n _ _ _ ?_ h
      intro i
      split
      · next hz =>
        by_cases hi : i = ⟨_, ‹_›⟩
        · subst hi
          rw [Function.update_self]
          exact fun hs => hz (Option.some.inj hs)
        · rw [Function.update_of_ne hi]
          exact hc i
      · exact hc i
    · cases h

/-- No parsed inner node names the zero hash as a child. -/
theorem from_node_nonzero {node : SHAMapNode} {inner : InnerNode}
    (h : from_node node = .ok inner) (i : Fin 16) : inner.children i ≠ some ZERO_HASH := by
  unfold from_node at h
  split at h
  · rw [(from_full_bytes_ok h).2 i]
    split
    · next hz => exact fun hs => hz (Option.some.inj hs)
    · simp
  · unfold from_compressed_bytes at h
    split at h
    · cases h
    · cases hc : compressed_entries (node.content.length / 33) node.content fun _ => none with
      | error e => rw [hc] at h; cases h
      | ok out =>
        rw [hc] at h
        cases h
        exact compressed_entries_nonzero _ _ _ _ (by simp) hc i
  · cases h

/-- Parsing depends on the type byte and the content only. -/
theorem from_node_congr {m n : SHAMapNode} (ht : m.node_type = n.node_type)
    (hc : m.content = n.content) : from_node m = from_node n := by
  unfold from_node; rw [ht, hc]

theorem from_node_is_inner {node : SHAMapNode} {inner : InnerNode}
    (h : from_node node = .ok inner) : node.node_type.is_inner = true := by
  unfold from_node at h
  split at h <;> simp_all [NodeType.is_inner]

end InnerNode

/-! ## Diffs -/

/-- The difference between two consecutive state trees. -/
structure SHAMapDiff where
  added : List SHAMapNode
  deleted : List Hash256
  deriving DecidableEq

end LedgerArchive
