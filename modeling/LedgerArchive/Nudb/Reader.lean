import LedgerArchive.Nudb.Keyfile
import LedgerArchive.Nudb.Dat
import Mathlib.Data.List.Sort

/-! # The NuDB reader (`xrla-nudb/src/reader.rs`)

    A reader looks nodes up in its shards, in order: online deletion keeps
    two stores live at once, and the state spans both. -/

namespace LedgerArchive

open Lib

structure NuDBReader where
  shards : List Shard

namespace NuDBReader

/-- Open one or more pairs of `.dat` and `.key` files. -/
def «open» (files : List (Bytes × Bytes)) : Except Error NuDBReader := do
  bail_if (files = []) (.bail "no NuDB .dat paths provided")
  let shards ← files.mapM fun f => Shard.open f.1 f.2
  pure { shards }

def open_single (file : Bytes × Bytes) : Except Error NuDBReader := NuDBReader.open [file]

section Fetch

variable (xxh64 : Bytes → UInt64 → UInt64) (lz4_decompress : Bytes → Nat → Option Bytes)
  (fuel : Nat)

/-- The shard loop of `get_wire`. A value that does not decode is passed
    over. -/
def get_wire_loop (hash : Hash256) : List Shard → Except Error (Option Bytes)
  | [] => .ok none
  | shard :: shards => do
    let value ← shard.fetch xxh64 fuel hash
    match value.bind (decode_value_to_wire lz4_decompress) with
    | some wire => pure (some wire)
    | none => get_wire_loop hash shards

def get_wire (r : NuDBReader) (hash : Hash256) : Except Error (Option Bytes) :=
  get_wire_loop xxh64 lz4_decompress fuel hash r.shards

/-- Parse a node by hash. -/
def get_node (r : NuDBReader) (hash : Hash256) : Except Error SHAMapNode := do
  let wire ← r.get_wire xxh64 lz4_decompress fuel hash
  let wire ← ok_or wire (.bail s!"node not found: {hex_encode hash}")
  from_shamap (SHAMapNode.from_wire_bytes hash wire)

end Fetch

/-- The reader finds what `store` holds, given rounds enough to follow the
    spill chains. -/
def Holds (xxh64 : Bytes → UInt64 → UInt64) (lz4_decompress : Bytes → Nat → Option Bytes)
    (r : NuDBReader) (store : Hash256 → Option SHAMapNode) : Prop :=
  ∀ h n, store h = some n →
    ∃ fuel₀, ∀ fuel ≥ fuel₀, r.get_node xxh64 lz4_decompress fuel h = .ok n

/-- A node is returned under the hash it is looked up by. -/
theorem get_node_hash {xxh64 : Bytes → UInt64 → UInt64} {lz4 : Bytes → Nat → Option Bytes}
    {fuel : Nat} {r : NuDBReader} {h : Hash256} {n : SHAMapNode}
    (hget : r.get_node xxh64 lz4 fuel h = .ok n) : n.hash = h := by
  obtain ⟨_, _, hget⟩ := bind_eq_ok.mp hget
  obtain ⟨_, _, hget⟩ := bind_eq_ok.mp hget
  exact SHAMapNode.from_wire_bytes_hash (from_shamap_eq_ok.mp hget)

end NuDBReader

/-! ## Walks over a store

    The walks below see the reader through `get_node` only. A walk has no
    bound in the source and a bound `fuel` here. -/

section Walk

variable (get_node : Hash256 → Except Error SHAMapNode)

/-- The loop of `collect_reachable`. -/
def collect_reachable_loop :
    Nat → List Hash256 → List Hash256 → List SHAMapNode → Except Error (List SHAMapNode)
  | 0, _, _, _ => .error .fuel
  | _ + 1, [], _, result => .ok result
  | fuel + 1, hash :: stack, visited, result =>
    if hash ∈ visited then collect_reachable_loop fuel stack visited result
    else do
      let visited := hash :: visited
      let node ← get_node hash
      if node.node_type.is_inner then do
        let inner ← from_shamap (InnerNode.from_node node)
        let pushed := inner.child_hashes.filter fun child => child ∉ visited
        collect_reachable_loop fuel (pushed.reverse ++ stack) visited (result ++ [node])
      else collect_reachable_loop fuel stack visited (result ++ [node])

def collect_reachable (fuel : Nat) (root_hash : Hash256) : Except Error (List SHAMapNode) :=
  collect_reachable_loop get_node fuel [root_hash] [] []

/-- What `collect_reachable_concurrent` carries through one level. -/
structure Level where
  visited : List Hash256
  next_frontier : List Hash256
  result : List SHAMapNode

/-- `if visited.insert(child) { next_frontier.push(child); }`. -/
def Level.push (l : Level) (child : Hash256) : Level :=
  if child ∈ l.visited then l
  else { l with visited := child :: l.visited, next_frontier := l.next_frontier ++ [child] }

/-- One fetched node of a level. -/
def Level.node (l : Level) (node : SHAMapNode) : Except Error Level :=
  if node.node_type.is_inner then do
    let inner ← from_shamap (InnerNode.from_node node)
    let l := inner.child_hashes.foldl Level.push l
    pure { l with result := l.result ++ [node] }
  else .ok { l with result := l.result ++ [node] }

/-- The level loop: fetch the whole frontier, then look at the nodes in the
    frontier's order. -/
def collect_level_loop :
    Nat → List Hash256 → List Hash256 → List SHAMapNode → Except Error (List SHAMapNode)
  | 0, _, _, _ => .error .fuel
  | _ + 1, [], _, result => .ok result
  | fuel + 1, h :: frontier, visited, result => do
    let l ← (h :: frontier).foldlM (fun (l : Level) hash => do
      let node ← get_node hash
      l.node node) { visited, next_frontier := [], result }
    collect_level_loop fuel l.next_frontier l.visited l.result

def collect_reachable_concurrent (fuel : Nat) (root_hash : Hash256) (concurrency : Nat) :
    Except Error (List SHAMapNode) :=
  if concurrency ≤ 1 then collect_reachable get_node fuel root_hash
  else collect_level_loop get_node fuel [root_hash] [root_hash] []

/-! ## Diffs -/

def collect_added : Nat → Hash256 → SHAMapDiff → Except Error SHAMapDiff
  | 0, _, _ => .error .fuel
  | fuel + 1, hash, diff =>
    if hash = ZERO_HASH then .ok diff
    else do
      let node ← get_node hash
      if node.node_type.is_inner then do
        let inner ← from_shamap (InnerNode.from_node node)
        let diff ← inner.child_hashes.foldlM (fun diff child => collect_added fuel child diff) diff
        pure { diff with added := diff.added ++ [node] }
      else pure { diff with added := diff.added ++ [node] }

/-- A node that is gone from the store is deleted all the same. -/
def collect_deleted : Nat → Hash256 → SHAMapDiff → Except Error SHAMapDiff
  | 0, _, _ => .error .fuel
  | fuel + 1, hash, diff =>
    if hash = ZERO_HASH then .ok diff
    else
      match get_node hash with
      | .error .fuel => .error .fuel
      | .error _ => .ok { diff with deleted := diff.deleted ++ [hash] }
      | .ok node =>
        if node.node_type.is_inner then do
          let inner ← from_shamap (InnerNode.from_node node)
          let diff ← inner.child_hashes.foldlM (fun diff child => collect_deleted fuel child diff) diff
          pure { diff with deleted := diff.deleted ++ [hash] }
        else .ok { diff with deleted := diff.deleted ++ [hash] }

def diff_nodes : Nat → Hash256 → Hash256 → SHAMapDiff → Except Error SHAMapDiff
  | 0, _, _, _ => .error .fuel
  | fuel + 1, old_hash, new_hash, diff =>
    if old_hash = new_hash then .ok diff
    else if new_hash = ZERO_HASH then collect_deleted get_node (fuel + 1) old_hash diff
    else if old_hash = ZERO_HASH then collect_added get_node (fuel + 1) new_hash diff
    else do
      let new_node ← get_node new_hash
      let old_node ← get_node old_hash
      if new_node.node_type.is_inner && old_node.node_type.is_inner then do
        let new_inner ← from_shamap (InnerNode.from_node new_node)
        let old_inner ← from_shamap (InnerNode.from_node old_node)
        let diff ← (List.finRange 16).foldlM (fun diff i =>
          let old_child := (old_inner.children i).getD ZERO_HASH
          let new_child := (new_inner.children i).getD ZERO_HASH
          if old_child ≠ new_child then diff_nodes fuel old_child new_child diff
          else .ok diff) diff
        pure { added := diff.added ++ [new_node], deleted := diff.deleted ++ [old_hash] }
      else do
        let diff ← collect_added get_node (fuel + 1) new_hash diff
        collect_deleted get_node (fuel + 1) old_hash diff

/-- The difference between two state roots, sorted by hash. -/
def diff (fuel : Nat) (old_root new_root : Hash256) : Except Error SHAMapDiff := do
  let diff ← diff_nodes get_node fuel old_root new_root { added := [], deleted := [] }
  pure { added := diff.added.insertionSort fun a b => a.hash ≤ b.hash,
         deleted := diff.deleted.insertionSort fun a b => a ≤ b }

/-- The pairs are independent; their diffs are returned in order. -/
def diff_batch_concurrent (fuel : Nat) (pairs : List (Hash256 × Hash256)) :
    Except Error (List SHAMapDiff) :=
  pairs.mapM fun p => diff get_node fuel p.1 p.2

end Walk

/-! ## Transactions -/

/-- The VL length decoder: the length, and the bytes it takes. -/
def read_vl (b : Bytes) : Except Error (Nat × Nat) := do
  let b0 ← ok_or b[0]? (.bail "vl: truncated")
  let b0 := b0.toNat
  if b0 ≤ 192 then .ok (b0, 1)
  else if b0 ≤ 240 then do
    let b1 ← ok_or b[1]? (.bail "vl: truncated (2)")
    .ok (193 + (b0 - 193) * 256 + b1.toNat, 2)
  else if b0 ≤ 254 then do
    let b1 ← ok_or b[1]? (.bail "vl: truncated (3a)")
    let b2 ← ok_or b[2]? (.bail "vl: truncated (3b)")
    .ok (12481 + (b0 - 241) * 65536 + b1.toNat * 256 + b2.toNat, 3)
  else .error (.bail s!"vl: invalid length byte {b0}")

/-- `{:02x?}` of a byte slice. -/
def debug_hex (b : Bytes) : String :=
  let digits (n : Nat) : String := (Nat.digitChar (n / 16)).toString ++ (Nat.digitChar (n % 16)).toString
  "[" ++ String.intercalate ", " (b.map fun x => digits x.toNat) ++ "]"

/-- A transaction leaf: the prefix `SND\0`, the two blobs with their VL
    lengths, and the transaction id. -/
def parse_tx_leaf (content : Bytes) : Except Error TxRecord := do
  bail_if (content.length < 4 + 32 ∨ content.take 4 ≠ [0x53, 0x4E, 0x44, 0x00])
    (.bail s!"unexpected tx leaf: len={content.length} prefix={debug_hex (content.take 4)}")
  let rest := content.drop 4
  let (tx_len, n) ← read_vl rest
  let rest := rest.drop n
  let tx_blob ← ok_or (readAt rest 0 tx_len) (.bail "tx leaf: tx blob truncated")
  let rest := rest.drop tx_len
  let (meta_len, n) ← read_vl rest
  let rest := rest.drop n
  let meta_blob ← ok_or (readAt rest 0 meta_len) (.bail "tx leaf: meta blob truncated")
  let rest := rest.drop meta_len
  bail_if (rest.length ≠ 32)
    (.bail s!"tx leaf: expected 32-byte txid, found {rest.length} bytes")
  pure { tx_hash := Hash256.ofBytes rest, tx_blob, meta_blob }

section Walk

variable (get_node : Hash256 → Except Error SHAMapNode)

/-- The loop of `collect_transactions`. -/
def collect_transactions_loop :
    Nat → List Hash256 → List Hash256 → List TxRecord → Except Error (List TxRecord)
  | 0, _, _, _ => .error .fuel
  | _ + 1, [], _, out => .ok out
  | fuel + 1, hash :: stack, visited, out =>
    if hash ∈ visited then collect_transactions_loop fuel stack visited out
    else do
      let visited := hash :: visited
      let node ← get_node hash
      if node.node_type.is_inner then do
        let inner ← from_shamap (InnerNode.from_node node)
        let pushed := inner.child_hashes.filter fun child => child ∉ visited
        collect_transactions_loop fuel (pushed.reverse ++ stack) visited out
      else do
        let tx ← parse_tx_leaf node.content
        collect_transactions_loop fuel stack visited (out ++ [tx])

/-- All transactions under a transaction root, sorted by id. -/
def collect_transactions (fuel : Nat) (tx_root : Hash256) : Except Error (List TxRecord) :=
  if tx_root = ZERO_HASH then .ok []
  else do
    let out ← collect_transactions_loop get_node fuel [tx_root] [] []
    pure (out.insertionSort fun a b => a.tx_hash ≤ b.tx_hash)

end Walk

end LedgerArchive
