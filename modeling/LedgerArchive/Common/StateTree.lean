import LedgerArchive.Common.Chunk

/-! # Node hashes (`xrla-common/src/state_tree.rs`)

    A node's own hash, recomputed from its content. The node type selects
    the formula: an inner node's content is hashed behind the prefix
    `MIN\0`, every other content as it stands. -/

namespace LedgerArchive

open Lib

def HASH_PREFIX_INNER_NODE : Bytes := [0x4D, 0x49, 0x4E, 0x00]

/-- The byte string whose hash names the node. -/
def hash_input (node : SHAMapNode) : Bytes :=
  match node.node_type with
  | .Inner | .CompressedInner => HASH_PREFIX_INNER_NODE ++ node.content
  | _ => node.content

variable (sha512half : Bytes → Hash256)

def recompute_node_hash (node : SHAMapNode) : Hash256 :=
  sha512half (hash_input node)

/-- Every node hashes to its own claimed hash; the first one that does not
    is the error. -/
def verify_state_nodes : List SHAMapNode → Except Hash256 Unit
  | [] => .ok ()
  | node :: nodes =>
    if recompute_node_hash sha512half node ≠ node.hash then .error node.hash
    else verify_state_nodes nodes

variable {sha512half}

theorem hash_input_inner {node : SHAMapNode} (h : node.node_type.is_inner = true) :
    hash_input node = HASH_PREFIX_INNER_NODE ++ node.content := by
  unfold hash_input
  cases ht : node.node_type <;> simp_all [NodeType.is_inner]

theorem verify_state_nodes_ok {nodes : List SHAMapNode} :
    verify_state_nodes sha512half nodes = .ok () ↔
      ∀ n ∈ nodes, recompute_node_hash sha512half n = n.hash := by
  induction nodes with
  | nil => simp [verify_state_nodes]
  | cons n nodes ih =>
    by_cases hn : recompute_node_hash sha512half n = n.hash
    · simp [verify_state_nodes, hn, ih]
    · simp [verify_state_nodes, hn]

end LedgerArchive
