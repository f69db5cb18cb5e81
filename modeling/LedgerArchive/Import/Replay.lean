import LedgerArchive.Common.Serialize
import LedgerArchive.Common.TxTree
import LedgerArchive.Common.StateMap
import LedgerArchive.Nudb.Dat

/-! # Replay (`xrla-import/src/main.rs`)

    The importer rebuilds the account state of a chunk ledger by ledger,
    hands every node to a sink as it goes and, with `verify`, checks what
    it rebuilds. `replay_chunk` works on a parsed chunk,
    `replay_chunk_streaming` on a file that it reads as it replays.

    A run carries `Outputs`: the sink, the transaction database and the
    calls made to them so far. The walk over the state tree has no bound in
    the source; its first argument here bounds it. -/

namespace LedgerArchive

open Lib

/-! ## Sinks and calls -/

/-- Where replayed nodes go. -/
structure NodeSink (σ : Type) where
  contains : σ → Hash256 → Bool
  write_node : σ → Hash256 → Bytes → Except Error σ

/-- `NullSink`: holds everything and writes nothing. -/
def NullSink : NodeSink Unit where
  contains _ _ := true
  write_node _ _ _ := .ok ()

/-- What replay uses of `TxDbSink`. -/
structure TxDb (τ : Type) where
  write_ledger : τ → TxMap → Except Error τ

/-- One call to the sink or to the transaction database. -/
inductive Call where
  | contains (hash : Hash256)
  | write_node (hash : Hash256) (value : Bytes)
  | write_ledger (tx_map : TxMap)
  deriving DecidableEq

structure Outputs (σ τ : Type) where
  sink : σ
  txdb : Option τ
  calls : List Call

/-! ## Completeness of the state tree -/

/-- The loop of `walk_complete`. Children are pushed in slot order, so the
    last one is popped first. -/
def walk_loop : Nat → List Hash256 → StateMap → Nat → Except Error Nat
  | 0, _, _, _ => .error .fuel
  | _ + 1, [], _, reached => .ok reached
  | fuel + 1, h :: stack, state, reached => do
    let node ← ok_or (state.lookup h)
      (.bail s!"node {hex_encode h} is referenced but missing")
    if node.node_type.is_inner then do
      let inner ← from_shamap (InnerNode.from_node node)
      walk_loop fuel (inner.child_hashes.reverse ++ stack) state (reached + 1)
    else walk_loop fuel stack state (reached + 1)

def walk_complete (fuel : Nat) (root : Hash256) (state : StateMap) : Except Error Nat :=
  walk_loop fuel [root] state 0

/-- The tree under `root` is complete and `state` holds nothing else. -/
def check_tree_complete (fuel : Nat) (what : String) (root : Hash256) (state : StateMap) :
    Except Error Unit := do
  let reached ← with_context s!"{what}: state tree incomplete" (walk_complete fuel root state)
  bail_if (reached ≠ state.keys.card)
    (.bail s!"{what}: {state.keys.card} nodes held but only {reached} reachable from root {hex_encode root}")

/-- Each added inner node's children are present. -/
def check_added_children (seq : UInt32) (added : List SHAMapNode) (deleted : List Hash256)
    (state : StateMap) : Except Error Unit :=
  (added.filter fun n => n.node_type.is_inner).forM fun node => do
    let inner ← from_shamap (InnerNode.from_node node)
    inner.child_hashes.forM fun child =>
      bail_if (child ∉ state)
        (.bail (s!"ledger {seq}: added node {hex_encode node.hash} points to child " ++
          s!"{hex_encode child} that is not present" ++
          if child ∈ deleted then " (it was removed by this same ledger's deletions)"
          else " (and this ledger did not delete it)"))

/-! ## Roots -/

/-- The child hashes of the added inner nodes. A node that does not parse
    as a full inner node refers to nothing here. -/
def referenced (added : List SHAMapNode) : List Hash256 :=
  (added.filter fun n => n.node_type = .Inner).flatMap fun node =>
    match InnerNode.from_full_bytes node.content with
    | .ok inner => inner.child_hashes
    | .error _ => []

/-- The new root is the added inner node that no other added inner node
    refers to; without one the root is unchanged. -/
def find_new_root (added : List SHAMapNode) (prev_root : Hash256) : Except Error Hash256 :=
  let roots := ((added.filter fun n => n.node_type = .Inner).filter fun n =>
    n.hash ∉ referenced added).map SHAMapNode.hash
  match roots with
  | [] => .ok prev_root
  | [root] => .ok root
  | _ => .error (.bail "multiple candidate root nodes in delta — unexpected")

/-! ## Results -/

/-- A row of xrpld's `Ledgers` table. -/
structure LedgerDbRow where
  ledger_hash : Hash256
  ledger_seq : UInt32
  prev_hash : Hash256
  total_coins : UInt64
  closing_time : UInt32
  prev_closing_time : UInt32
  close_time_resolution : UInt8
  close_flags : UInt8
  account_hash : Hash256
  trans_hash : Hash256
  deriving DecidableEq

structure ReplayResult where
  state : StateMap
  ledger_rows : List LedgerDbRow

/-- What the delta loop carries from one ledger to the next. -/
structure Replay (σ τ : Type) where
  state : StateMap
  out : Outputs σ τ
  current_root : Hash256
  prev_ledger_hash : Hash256
  ledger_rows : List LedgerDbRow

variable {σ τ : Type} (S : NodeSink σ) (T : TxDb τ) (sha512half : Bytes → Hash256)

/-! ## Calls to the outputs -/

def Outputs.write_node (out : Outputs σ τ) (hash : Hash256) (value : Bytes) :
    Except Error (Outputs σ τ) := do
  let sink ← S.write_node out.sink hash value
  pure { out with sink, calls := out.calls ++ [.write_node hash value] }

/-- `if let Some(t) = txdb.as_mut() { t.write_ledger(tx_map)?; }`. -/
def Outputs.write_ledger (out : Outputs σ τ) (tx_map : TxMap) : Except Error (Outputs σ τ) :=
  match out.txdb with
  | none => .ok out
  | some t => do
    let t ← T.write_ledger t tx_map
    pure { out with txdb := some t, calls := out.calls ++ [.write_ledger tx_map] }

/-- Encode a node and hand it to the sink, unless the sink has it. -/
def sink_node (out : Outputs σ τ) (node : SHAMapNode) : Except Error (Outputs σ τ) :=
  let asked := { out with calls := out.calls ++ [.contains node.hash] }
  if S.contains out.sink node.hash then .ok asked
  else asked.write_node S node.hash (encode_wire_to_value node.content node.node_type)

def sink_nodes (out : Outputs σ τ) (nodes : List SHAMapNode) : Except Error (Outputs σ τ) :=
  nodes.foldlM (sink_node S) out

/-- The header a ledger's hash is computed from. -/
def TxMap.header (tx_map : TxMap) (parent_hash tx_hash account_hash : Hash256) :
    LedgerHashInput :=
  { seq := tx_map.ledger_seq, drops := tx_map.drops, parent_hash, tx_hash, account_hash,
    parent_close_time := tx_map.parent_close_time, close_time := tx_map.close_time,
    close_time_resolution := tx_map.close_time_resolution, close_flags := tx_map.close_flags }

/-- With a transaction database: store the ledger header under the ledger's
    hash and write the ledger's rows. Nothing without one. -/
def write_ledger_outputs (out : Outputs σ τ) (tx_map : TxMap)
    (parent_hash tx_hash account_hash : Hash256) : Except Error (Outputs σ τ) :=
  match out.txdb with
  | none => .ok out
  | some _ => do
    let header := ledger_header_object (tx_map.header parent_hash tx_hash account_hash)
    let out ← out.write_node S tx_map.ledger_hash (encode_object_to_value NOTYPE_LEDGER header)
    out.write_ledger T tx_map

/-! ## Checks -/

def verify_txns_authentic (tx_map : TxMap) : Except Error Unit :=
  tx_map.txns.forM fun tx =>
    let expected := calculate_tx_id sha512half tx.tx_blob
    bail_if (expected ≠ tx.tx_hash)
      (.bail (s!"ledger {tx_map.ledger_seq}: tx_hash mismatch — stored " ++
        s!"{hex_encode tx.tx_hash}, recomputed {hex_encode expected}"))

/-- `verify_state_nodes`, with the error text of its caller. -/
def check_state_nodes (what : String) (nodes : List SHAMapNode) : Except Error Unit :=
  match verify_state_nodes sha512half nodes with
  | .ok () => .ok ()
  | .error bad_hash =>
    .error (.bail (s!"{what}: node {hex_encode bad_hash} does not hash to its own claimed " ++
      "content (source data corruption or a decode bug)"))

/-- The checks on one ledger after its transaction tree is rebuilt. -/
def check_ledger (tx_map : TxMap) (added : List SHAMapNode)
    (prev_ledger_hash tx_hash new_root : Hash256) : Except Error Unit := do
  verify_txns_authentic sha512half tx_map
  check_state_nodes sha512half s!"ledger {tx_map.ledger_seq}" added
  bail_if (new_root ≠ tx_map.account_hash)
    (.bail (s!"ledger {tx_map.ledger_seq}: replayed account root {hex_encode new_root} != " ++
      s!"stored account_hash {hex_encode tx_map.account_hash}"))
  let recomputed :=
    calculate_ledger_hash sha512half (tx_map.header prev_ledger_hash tx_hash new_root)
  bail_if (recomputed ≠ tx_map.ledger_hash)
    (.bail (s!"ledger {tx_map.ledger_seq}: recomputed LedgerHash {hex_encode recomputed} != " ++
      s!"stored {hex_encode tx_map.ledger_hash}"))

/-! ## One ledger -/

/-- New state = (old state - deleted) + added, with the added nodes sent to
    the sink. -/
def apply_delta (verify : Bool) (state : StateMap) (out : Outputs σ τ) (delta : LedgerDelta) :
    Except Error (StateMap × Outputs σ τ) := do
  check_if verify (delta.diff.deleted.forM fun hash =>
    bail_if (hash ∉ state) (.bail
      s!"ledger {delta.ledger_seq}: deleted node {hex_encode hash} was not in the state"))
  let state := remove_hashes state delta.diff.deleted
  let (state, out) ← delta.diff.added.foldlM (fun (so : StateMap × Outputs σ τ) node => do
    let out ← sink_node S so.2 node
    pure (so.1.insert node.hash node, out)) (state, out)
  check_if verify
    (check_added_children delta.ledger_seq delta.diff.added delta.diff.deleted state)
  pure (state, out)

/-- The rest of a round of the delta loop, once the delta is applied and
    the ledger's TX map is at hand. -/
def close_ledger (verify : Bool) (r : Replay σ τ) (delta : LedgerDelta) (tx_map : TxMap)
    (state : StateMap) (out : Outputs σ τ) : Except Error (Replay σ τ) := do
  bail_if (tx_map.ledger_seq ≠ delta.ledger_seq)
    (.bail (s!"delta/tx_map sequence mismatch: delta.ledger_seq={delta.ledger_seq} " ++
      s!"tx_map.ledger_seq={tx_map.ledger_seq}"))
  let new_root ← find_new_root delta.diff.added r.current_root
  let (tx_hash, nodes) ← build_tx_tree sha512half tx_map.txns
  let out ← sink_nodes S out nodes
  check_if verify
    (check_ledger sha512half tx_map delta.diff.added r.prev_ledger_hash tx_hash new_root)
  let out ← write_ledger_outputs S T out tx_map r.prev_ledger_hash tx_hash new_root
  let row : LedgerDbRow :=
    { ledger_hash := tx_map.ledger_hash, ledger_seq := tx_map.ledger_seq,
      prev_hash := r.prev_ledger_hash, total_coins := tx_map.drops,
      closing_time := tx_map.close_time, prev_closing_time := tx_map.parent_close_time,
      close_time_resolution := tx_map.close_time_resolution, close_flags := tx_map.close_flags,
      account_hash := new_root, trans_hash := tx_hash }
  pure { state, out, current_root := new_root, prev_ledger_hash := tx_map.ledger_hash,
         ledger_rows := r.ledger_rows ++ [row] }

/-- The checkpoint ledger's transactions, once its state is accepted. -/
def open_ledger (cp : TxMap) (state : StateMap) (out : Outputs σ τ) :
    Except Error (Replay σ τ) := do
  let out ← out.write_ledger T cp
  let (_, nodes) ← build_tx_tree sha512half cp.txns
  let out ← sink_nodes S out nodes
  pure { state, out, current_root := cp.account_hash, prev_ledger_hash := cp.ledger_hash,
         ledger_rows := [] }

/-- The end of both replays. -/
def finish_replay (fuel : Nat) (verify : Bool) (r : Replay σ τ) :
    Except Error (ReplayResult × Outputs σ τ) := do
  check_if verify (check_tree_complete fuel "final ledger" r.current_root r.state)
  pure ({ state := r.state, ledger_rows := r.ledger_rows }, r.out)

def checkpoint_missing (cp : TxMap) : Error :=
  .bail s!"checkpoint account_hash {hex_encode cp.account_hash} not found among checkpoint nodes"

/-- `ledger {seq} (checkpoint)`. -/
def checkpoint_name (cp : TxMap) : String := s!"ledger {cp.ledger_seq} (checkpoint)"

/-! ## Buffered replay -/

def replay_chunk (fuel : Nat) (chunk : Chunk) (verify : Bool) (out : Outputs σ τ) :
    Except Error (ReplayResult × Outputs σ τ) := do
  let state := checkpoint_state chunk.checkpoint
  let out ← sink_nodes S out chunk.checkpoint
  let cp ← ok_or chunk.tx_maps.head? (.bail "chunk has no TX_MAPS entries")
  bail_if (cp.account_hash ∉ state) (checkpoint_missing cp)
  check_if verify (check_tree_complete fuel (checkpoint_name cp) cp.account_hash state)
  check_if verify (do
    verify_txns_authentic sha512half cp
    check_state_nodes sha512half "checkpoint" chunk.checkpoint)
  let r ← open_ledger S T sha512half cp state out
  let r ← chunk.deltas.zipIdx.foldlM (fun r (di : LedgerDelta × Nat) => do
    let (state, out) ← apply_delta S verify r.state r.out di.1
    let tx_map ← ok_or chunk.tx_maps[di.2 + 1]?
      (.bail s!"missing TX_MAPS entry for delta index {di.2}")
    close_ledger S T sha512half verify r di.1 tx_map state out) r
  finish_replay fuel verify r

/-! ## Streaming replay -/

/-- What the closure passed to `read_checkpoint` fills in. -/
structure CheckpointLoad (σ τ : Type) where
  state : StateMap
  out : Outputs σ τ
  bad_checkpoint_hash : Option Hash256
  sink_err : Option Error

/-- The closure: check, send to the sink and keep one node. It cannot fail;
    the first error of each kind is remembered. -/
def CheckpointLoad.node (verify : Bool) (l : CheckpointLoad σ τ) (node : SHAMapNode) :
    CheckpointLoad σ τ :=
  let bad := if verify ∧ l.bad_checkpoint_hash = none ∧
      recompute_node_hash sha512half node ≠ node.hash
    then some node.hash else l.bad_checkpoint_hash
  let (out, sink_err) := match l.sink_err with
    | some e => (l.out, some e)
    | none => match sink_node S l.out node with
      | .ok out => (out, none)
      | .error e => (l.out, some e)
  { state := l.state.insert node.hash node, out, bad_checkpoint_hash := bad, sink_err }

def replay_chunk_streaming (fuel : Nat) (file : Bytes) (verify : Bool) (out : Outputs σ τ) :
    Except Error (ReplayResult × Outputs σ τ) := do
  let reader ← ChunkReader.open file
  let (load, reader) ← reader.read_checkpoint (CheckpointLoad.node S sha512half verify)
    { state := ∅, out, bad_checkpoint_hash := none, sink_err := none }
  match load.sink_err with
  | some e => .error e
  | none => do
    bail_if (load.bad_checkpoint_hash ≠ none) (.bail (s!"checkpoint: node " ++
      s!"{hex_encode (load.bad_checkpoint_hash.getD ZERO_HASH)} does not hash to its own " ++
      "claimed content (source data corruption or a decode bug)"))
    let (cp, reader) ← reader.read_checkpoint_tx_map
    bail_if (cp.account_hash ∉ load.state) (checkpoint_missing cp)
    check_if verify (check_tree_complete fuel (checkpoint_name cp) cp.account_hash load.state)
    check_if verify (verify_txns_authentic sha512half cp)
    let r ← open_ledger S T sha512half cp load.state load.out
    let (r, reader) ← reader.for_each_delta (fun r delta tx_map => do
      let (state, out) ← apply_delta S verify r.state r.out delta
      close_ledger S T sha512half verify r delta tx_map state out)
      (reader.deltas_remaining + 1) r
    reader.finish sha512half
    finish_replay fuel verify r

end LedgerArchive
