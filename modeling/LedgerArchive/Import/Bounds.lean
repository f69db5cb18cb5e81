import LedgerArchive.Import.Refinement
import LedgerArchive.Common.Layouts

/-! # How a replay can fail, and the bounds of a rebuilt tree

    The first half follows the errors of `replay_chunk` through its steps:
    what a kind of errors must include for all errors of the replay to be
    of that kind (`replay_chunk_errors`).

    The second half is about one of them, the index out of bounds in
    `nibble`. `build_level` has no bound on its depth. It splits a list of
    records on one nibble of their keys after another, so two records with
    one key are never separated, and at depth 64 the key has no nibble
    left. `replay_chunk` rebuilds a ledger's tree before it looks at the
    ledger's transactions. -/

namespace LedgerArchive

open Lib

variable {σ τ : Type} {S : NodeSink σ} {T : TxDb τ} {sha512half : Bytes → Hash256}
  {P : Error → Prop}

/-! ## Errors that the program reports -/

/-- `P` includes every error the program itself makes. Whether it includes
    the two outcomes that are no errors is left open. -/
structure Reported (P : Error → Prop) : Prop where
  bail : ∀ text, P (.bail text)
  chunk : ∀ e, P (.chunk e)
  shamap : ∀ e, P (.shamap e)

/-- The errors of the outputs are in `P`. -/
structure OutputErrorsIn (P : Error → Prop) (S : NodeSink σ) (T : TxDb τ) : Prop where
  write_node : ∀ s hash value, ErrorsIn P (S.write_node s hash value)
  write_ledger : ∀ t tx_map, ErrorsIn P (T.write_ledger t tx_map)

theorem from_shamap_errors {α : Type} (hP : Reported P) (x : Except SHAMapError α) :
    ErrorsIn P (from_shamap x) := by
  cases x with
  | ok a => exact errorsIn_ok a
  | error e => exact errorsIn_error.mpr (hP.shamap e)

/-! ## Calls to the outputs -/

theorem Outputs.write_node_errors (hO : OutputErrorsIn P S T) (out : Outputs σ τ)
    (hash : Hash256) (value : Bytes) : ErrorsIn P (out.write_node S hash value) := by
  apply ErrorsIn.bind (hO.write_node out.sink hash value)
  intro sink _
  exact errorsIn_ok _

theorem Outputs.write_ledger_errors (hO : OutputErrorsIn P S T) (out : Outputs σ τ)
    (tx_map : TxMap) : ErrorsIn P (out.write_ledger T tx_map) := by
  unfold Outputs.write_ledger
  split
  · exact errorsIn_ok out
  · next t _ =>
    apply ErrorsIn.bind (hO.write_ledger t tx_map)
    intro t' _
    exact errorsIn_ok _

theorem sink_nodes_errors (hO : OutputErrorsIn P S T) (out : Outputs σ τ)
    (nodes : List SHAMapNode) : ErrorsIn P (sink_nodes S out nodes) := by
  apply errorsIn_foldlM
  intro node _ out
  unfold sink_node
  by_cases hseen : S.contains out.sink node.hash = true
  · rw [if_pos hseen]
    exact errorsIn_ok _
  · rw [if_neg hseen]
    exact Outputs.write_node_errors hO _ _ _

theorem write_ledger_outputs_errors (hO : OutputErrorsIn P S T) (out : Outputs σ τ)
    (tx_map : TxMap) (parent_hash tx_hash account_hash : Hash256) :
    ErrorsIn P (write_ledger_outputs S T out tx_map parent_hash tx_hash account_hash) := by
  unfold write_ledger_outputs
  split
  · exact errorsIn_ok out
  · apply ErrorsIn.bind (Outputs.write_node_errors hO out _ _)
    intro out' _
    exact Outputs.write_ledger_errors hO out' tx_map

/-! ## Checks -/

theorem find_new_root_errors (hP : Reported P) (added : List SHAMapNode) (prev_root : Hash256) :
    ErrorsIn P (find_new_root added prev_root) := by
  unfold find_new_root
  simp only
  split
  · exact errorsIn_ok _
  · exact errorsIn_ok _
  · exact errorsIn_error.mpr (hP.bail _)

theorem check_added_children_errors (hP : Reported P) (seq : UInt32) (added : List SHAMapNode)
    (deleted : List Hash256) (state : StateMap) :
    ErrorsIn P (check_added_children seq added deleted state) := by
  apply errorsIn_forM
  intro node _
  apply ErrorsIn.bind (from_shamap_errors hP _)
  intro inner _
  apply errorsIn_forM
  intro child _
  exact errorsIn_bail_if (hP.bail _)

theorem verify_txns_authentic_errors (hP : Reported P) (tx_map : TxMap) :
    ErrorsIn P (verify_txns_authentic sha512half tx_map) := by
  apply errorsIn_forM
  intro tx _
  exact errorsIn_bail_if (hP.bail _)

theorem check_state_nodes_errors (hP : Reported P) (what : String) (nodes : List SHAMapNode) :
    ErrorsIn P (check_state_nodes sha512half what nodes) := by
  unfold check_state_nodes
  split
  · exact errorsIn_ok ()
  · exact errorsIn_error.mpr (hP.bail _)

theorem check_ledger_errors (hP : Reported P) (tx_map : TxMap) (added : List SHAMapNode)
    (prev_ledger_hash tx_hash new_root : Hash256) :
    ErrorsIn P (check_ledger sha512half tx_map added prev_ledger_hash tx_hash new_root) := by
  apply ErrorsIn.bind (verify_txns_authentic_errors hP tx_map)
  intro _ _
  apply ErrorsIn.bind (check_state_nodes_errors hP _ added)
  intro _ _
  apply ErrorsIn.bind (errorsIn_bail_if (hP.bail _))
  intro _ _
  exact errorsIn_bail_if (hP.bail _)

/-! ## One ledger -/

theorem apply_delta_errors (hP : Reported P) (hO : OutputErrorsIn P S T) (verify : Bool)
    (state : StateMap) (out : Outputs σ τ) (delta : LedgerDelta) :
    ErrorsIn P (apply_delta S verify state out delta) := by
  have hdeleted : ErrorsIn P (check_if verify (delta.diff.deleted.forM fun hash =>
      bail_if (hash ∉ state) (.bail
        s!"ledger {delta.ledger_seq}: deleted node {hex_encode hash} was not in the state"))) :=
    ErrorsIn.check_if fun _ => errorsIn_forM fun hash _ => errorsIn_bail_if (hP.bail _)
  apply hdeleted.bind
  intro _ _
  apply ErrorsIn.bind
  · apply errorsIn_foldlM
    intro node _ so
    apply ErrorsIn.bind (sink_nodes_errors hO so.2 [node]).of_bind
    intro out' _
    exact errorsIn_ok _
  · intro so _
    apply ErrorsIn.bind
      (ErrorsIn.check_if fun _ => check_added_children_errors hP _ _ _ _)
    intro _ _
    exact errorsIn_ok _

theorem close_ledger_errors (hP : Reported P) (hO : OutputErrorsIn P S T) {verify : Bool}
    {r : Replay σ τ} {delta : LedgerDelta} {tx_map : TxMap} {state : StateMap}
    {out : Outputs σ τ} (htree : ErrorsIn P (build_tx_tree sha512half tx_map.txns)) :
    ErrorsIn P (close_ledger S T sha512half verify r delta tx_map state out) := by
  apply ErrorsIn.bind (errorsIn_bail_if (hP.bail _))
  intro _ _
  apply ErrorsIn.bind (find_new_root_errors hP _ _)
  intro new_root _
  apply htree.bind
  intro tree _
  apply ErrorsIn.bind (sink_nodes_errors hO out _)
  intro out' _
  apply ErrorsIn.bind (ErrorsIn.check_if fun _ => check_ledger_errors hP _ _ _ _ _)
  intro _ _
  apply ErrorsIn.bind (write_ledger_outputs_errors hO out' _ _ _ _)
  intro out'' _
  exact errorsIn_ok _

theorem open_ledger_errors (hO : OutputErrorsIn P S T) {cp : TxMap} {state : StateMap}
    {out : Outputs σ τ} (htree : ErrorsIn P (build_tx_tree sha512half cp.txns)) :
    ErrorsIn P (open_ledger S T sha512half cp state out) := by
  apply ErrorsIn.bind (Outputs.write_ledger_errors hO out cp)
  intro out' _
  apply htree.bind
  intro tree _
  apply ErrorsIn.bind (sink_nodes_errors hO out' _)
  intro out'' _
  exact errorsIn_ok _

/-! ## All of a replay -/

/-- The errors of a replay are those of its outputs, of the trees it
    rebuilds and of its two walks, and what it reports itself. -/
theorem replay_chunk_errors (hP : Reported P) (hO : OutputErrorsIn P S T) {fuel : Nat}
    {chunk : Chunk} {verify : Bool} {out : Outputs σ τ}
    (htrees : ∀ m ∈ chunk.tx_maps, ErrorsIn P (build_tx_tree sha512half m.txns))
    (hwalk : ∀ cp, chunk.tx_maps.head? = some cp → verify = true →
      ErrorsIn P (check_tree_complete fuel (checkpoint_name cp) cp.account_hash
        (checkpoint_state chunk.checkpoint)))
    (hlast : ∀ cp out₁ r₀ r₁, verify = true → chunk.tx_maps.head? = some cp →
      sink_nodes S out chunk.checkpoint = .ok out₁ →
      verify_state_nodes sha512half chunk.checkpoint = .ok () →
      open_ledger S T sha512half cp (checkpoint_state chunk.checkpoint) out₁ = .ok r₀ →
      chunk.ledgers.foldlM (ledger_step S T sha512half verify) r₀ = .ok r₁ →
      ErrorsIn P (check_tree_complete fuel "final ledger" r₁.current_root r₁.state)) :
    ErrorsIn P (replay_chunk S T sha512half fuel chunk verify out) := by
  unfold replay_chunk
  apply ErrorsIn.bind (sink_nodes_errors hO out _)
  intro out₁ hsunk
  apply ErrorsIn.bind (errorsIn_ok_or (hP.bail _))
  intro cp hcp
  rw [ok_or_eq_ok] at hcp
  apply ErrorsIn.bind (errorsIn_bail_if (hP.bail _))
  intro _ _
  apply ErrorsIn.bind (ErrorsIn.check_if (hwalk cp hcp))
  intro _ _
  apply ErrorsIn.bind
  · refine ErrorsIn.check_if fun _ => ?_
    apply ErrorsIn.bind (verify_txns_authentic_errors hP cp)
    intro _ _
    exact check_state_nodes_errors hP _ _
  intro _ hchecked
  apply ErrorsIn.bind (open_ledger_errors hO (htrees cp (List.mem_of_mem_head? hcp)))
  intro r₀ hopened
  apply ErrorsIn.bind
  · apply errorsIn_foldlM
    intro di _ r
    apply ErrorsIn.bind (apply_delta_errors hP hO verify r.state r.out di.1)
    intro so _
    apply ErrorsIn.bind (errorsIn_ok_or (hP.bail _))
    intro tx_map htx
    rw [ok_or_eq_ok] at htx
    exact close_ledger_errors hP hO (htrees tx_map (List.mem_of_getElem? htx))
  intro r₁ hloop
  have htail : ∀ j, chunk.tx_maps[0 + j + 1]? = chunk.tx_maps.tail[j]? := by
    intro j
    rw [List.getElem?_tail, Nat.zero_add]
  obtain ⟨-, hreplayed⟩ := (delta_loop_ok htail).mp hloop
  unfold finish_replay
  apply ErrorsIn.bind
  · refine ErrorsIn.check_if fun hv => hlast cp out₁ r₀ r₁ hv hcp hsunk ?_ hopened hreplayed
    obtain ⟨_, -, hnodes⟩ := bind_eq_ok.mp (check_if_eq_ok.mp hchecked hv)
    exact check_state_nodes_ok.mp hnodes
  intro _ _
  exact errorsIn_ok _

/-! ## The depth of a rebuilt tree -/

/-- `build_tx_tree` returns, and no level lies deeper than depth 63: the 64
    levels of depths 0 to 63 are enough for it. -/
structure TreeInBounds (sha512half : Bytes → Hash256) (txns : List TxRecord) : Prop where
  returns : ∃ out, build_tx_tree sha512half txns = .ok out
  depth : txns ≠ [] → ∃ out, build_level sha512half 64 (txns.map (Item.of_tx sha512half)) 0
    ((txns.map (Item.of_tx sha512half)).map Item.node) = .ok out

/-- A rebuilt tree stays in bounds exactly when no two records have one
    key. -/
theorem tree_in_bounds_iff {txns : List TxRecord} :
    TreeInBounds sha512half txns ↔ (txns.map TxRecord.tx_hash).Nodup := by
  constructor
  · rintro ⟨⟨⟨root, nodes⟩, hbuild⟩, -⟩
    obtain ⟨t, ht, -⟩ := build_tx_tree_ok hbuild
    exact ht.nodup
  · intro hnodup
    refine ⟨build_tx_tree_of_distinct hnodup, fun _ => ?_⟩
    apply build_level_of_distinct (by omega) (by omega) hnodup
    intro a _ b _ e he
    omega

/-- Two records with one key: the index out of bounds. -/
theorem build_tx_tree_panic_iff {txns : List TxRecord} :
    build_tx_tree sha512half txns = .error .panic ↔ ¬ (txns.map TxRecord.tx_hash).Nodup := by
  constructor
  · intro hpanic hnodup
    obtain ⟨out, hout⟩ := @build_tx_tree_of_distinct sha512half txns hnodup
    rw [hpanic] at hout
    cases hout
  · intro htwice
    cases hbuild : build_tx_tree sha512half txns with
    | ok out =>
      obtain ⟨t, ht, -⟩ := @build_tx_tree_ok _ txns out.1 out.2 hbuild
      exact absurd ht.nodup htwice
    | error e => rw [build_tx_tree_errors txns e hbuild]

/-- Every tree of the chunk stays in bounds, and no replay of the chunk
    ends in an index out of bounds, whatever its outputs are. -/
structure RebuildsInBounds (sha512half : Bytes → Hash256) (chunk : Chunk) : Prop where
  trees : ∀ m ∈ chunk.tx_maps, TreeInBounds sha512half m.txns
  replay : ∀ {σ τ : Type} {S : NodeSink σ} {T : TxDb τ}, OutputErrorsIn (· ≠ .panic) S T →
    ∀ fuel verify out, replay_chunk S T sha512half fuel chunk verify out ≠ .error .panic

theorem reported_ne_panic : Reported (· ≠ .panic) where
  bail _ := by simp
  chunk _ := by simp
  shamap _ := by simp

theorem check_tree_complete_ne_panic (fuel : Nat) (what : String) (root : Hash256)
    (state : StateMap) : ErrorsIn (· ≠ .panic) (check_tree_complete fuel what root state) := by
  apply ErrorsIn.bind
  · -- The walk's error is wrapped in its context.
    unfold with_context
    split
    · exact errorsIn_ok _
    · exact errorsIn_error.mpr (by simp)
  intro reached _
  exact errorsIn_bail_if (by simp)

/-- Rebuilding the trees of a chunk stays in bounds exactly when no TX map
    lists a transaction hash twice. -/
theorem rebuilds_in_bounds_iff (chunk : Chunk) :
    RebuildsInBounds sha512half chunk ↔
      ∀ m ∈ chunk.tx_maps, (m.txns.map TxRecord.tx_hash).Nodup := by
  constructor
  · intro h m hm
    exact tree_in_bounds_iff.mp (h.trees m hm)
  · intro hnodup
    refine ⟨fun m hm => tree_in_bounds_iff.mpr (hnodup m hm), ?_⟩
    intro σ τ S T hO fuel verify out hpanic
    have herrors := @replay_chunk_errors σ τ S T sha512half (· ≠ .panic) reported_ne_panic hO fuel
      chunk verify out
      (fun m hm e he => by
        obtain ⟨tree, htree⟩ := @build_tx_tree_of_distinct sha512half m.txns (hnodup m hm)
        rw [htree] at he
        cases he)
      (fun cp _ _ => check_tree_complete_ne_panic _ _ _ _)
      (fun _ _ _ _ _ _ _ _ _ _ => check_tree_complete_ne_panic _ _ _ _)
    exact herrors .panic hpanic rfl

/-! ## A ledger that lists a transaction twice -/

/-- A record under its transaction id. -/
def lone_tx : TxRecord :=
  { tx_hash := calculate_tx_id sha2_sha512half [1], tx_blob := [1], meta_blob := [2] }

def twice_chunk : Chunk :=
  { network_id := 1, start_ledger := 7, end_ledger := 7, checkpoint_hash := ZERO_HASH,
    chunk_hash := ZERO_HASH, checkpoint := [lone_account], deltas := [],
    tx_maps := [{ empty_tx_map 7 ZERO_HASH lone_account.hash with txns := [lone_tx, lone_tx] }] }

/-- A replay does not look at the chunk hash. -/
theorem replay_chunk_chunk_hash (fuel : Nat) (chunk : Chunk) (h : Hash256) (verify : Bool)
    (out : Outputs σ τ) :
    replay_chunk S T sha512half fuel { chunk with chunk_hash := h } verify out =
      replay_chunk S T sha512half fuel chunk verify out := rfl

theorem panic_of_test {α : Type} {x : Except Error α}
    (h : (match x with | .error .panic => true | _ => false) = true) : x = .error .panic := by
  split at h
  · rfl
  · cases h

theorem twice_chunk_panics :
    replay_chunk NullSink NoTxDb sha2_sha512half 3 twice_chunk.sorted true ⟨(), none, []⟩ =
      .error .panic :=
  panic_of_test (by decide +kernel)

/-- Its file, read back, has good hashes throughout, and replaying it with
    verification ends in the index out of bounds. -/
theorem twice_listed_panics : ∃ chunk,
    deserialize_chunk sha2_sha512half (serialize_chunk sha2_sha512half twice_chunk) = .ok chunk ∧
      replay_chunk NullSink NoTxDb sha2_sha512half 3 chunk true ⟨(), none, []⟩ = .error .panic ∧
      ¬ RebuildsInBounds sha2_sha512half chunk := by
  refine ⟨_, serialize_chunk_read_back_iff.mpr ⟨by decide, by decide, by decide⟩, ?_⟩
  unfold Chunk.read_back
  rw [replay_chunk_chunk_hash]
  refine ⟨twice_chunk_panics, fun h => ?_⟩
  apply h.replay (S := NullSink) (T := NoTxDb) ⟨fun _ _ _ => errorsIn_ok _, fun _ _ => errorsIn_ok _⟩
    3 true ⟨(), none, []⟩
  rw [replay_chunk_chunk_hash]
  exact twice_chunk_panics

end LedgerArchive
