import LedgerArchive.Import.Verified

/-! # A checkpoint and its root

    A verified checkpoint hashes, node by node, to its own hashes, and the
    walk from its root reads every node it meets and makes as many visits
    as there are nodes. The type byte is not part of what is hashed except
    for the choice of formula: an inner node with content `c` and a leaf
    with content `MIN\0 ++ c` have the same hash. The walk follows the
    first and stops at the second.

    Two verified checkpoints with the same root therefore hold the same
    hashes exactly when neither uses this, or a node counted twice, against
    the other (`same_hashes_iff`). -/

namespace LedgerArchive

open Lib

/-- The byte strings whose hashes name the nodes. -/
def node_inputs (nodes : List SHAMapNode) : Set Bytes :=
  {x | ∃ n ∈ nodes, x = hash_input n}

/-! ## What the checks establish -/

/-- What verification has established about a checkpoint with this root. -/
structure CheckpointVerified (sha512half : Bytes → Hash256) (nodes : List SHAMapNode)
    (root : Hash256) : Prop where
  held : root ∈ checkpoint_state nodes
  rehash : ∀ n ∈ nodes, recompute_node_hash sha512half n = n.hash
  walk : ∃ visit, Walks (checkpoint_state nodes).refs [root] visit ∧
    visit.length = (checkpoint_state nodes).keys.card

section Facts

variable {σ τ : Type} {S : NodeSink σ} {T : TxDb τ} {sha512half : Bytes → Hash256} {fuel : Nat}
  {chunk : Chunk} {out out₁ : Outputs σ τ} {cp : TxMap} {r₀ r₁ : Replay σ τ}
  {res : ReplayResult × Outputs σ τ}

theorem ReplaySteps.checkpoint
    (h : ReplaySteps S T sha512half fuel chunk true out cp out₁ r₀ r₁ res) :
    CheckpointVerified sha512half chunk.checkpoint cp.account_hash := by
  refine ⟨h.root_held, verify_state_nodes_ok.mp (h.rehash rfl), ?_⟩
  obtain ⟨visit, hw, hcount, -⟩ := check_tree_complete_ok.mp (h.complete rfl)
  exact ⟨visit, hw, hcount⟩

end Facts

variable {sha512half : Bytes → Hash256} {a b : List SHAMapNode} {root : Hash256}

/-- Two inner nodes with the same hash refer to the same nodes. A full and
    a compressed inner node cannot have the same content: 512 is not a
    multiple of 33. -/
theorem refs_eq_of_hash_eq {S : Set Bytes} (hinj : Set.InjOn sha512half S) {m n : SHAMapNode}
    (hm : hash_input m ∈ S) (hn : hash_input n ∈ S)
    (hash_eq : recompute_node_hash sha512half m = recompute_node_hash sha512half n)
    (htm : m.node_type.is_inner = true) (htn : n.node_type.is_inner = true) {cs ds : List Hash256}
    (hcs : m.refs = some cs) (hds : n.refs = some ds) : cs = ds := by
  have hinput : hash_input m = hash_input n := hinj hm hn hash_eq
  rw [hash_input_inner htm, hash_input_inner htn] at hinput
  have hcontent : m.content = n.content := List.append_cancel_left hinput
  obtain ⟨im, him, rfl⟩ := (SHAMapNode.refs_inner htm).mp hcs
  obtain ⟨iN, hin, rfl⟩ := (SHAMapNode.refs_inner htn).mp hds
  have hlen : ∀ {k : SHAMapNode} {i : InnerNode}, InnerNode.from_node k = .ok i →
      (k.node_type = .Inner ∧ k.content.length = 512) ∨
        (k.node_type = .CompressedInner ∧ k.content.length % 33 = 0) := by
    intro k i hk
    unfold InnerNode.from_node at hk
    split at hk
    · next ht => exact .inl ⟨ht, (InnerNode.from_full_bytes_ok hk).1⟩
    · next ht =>
      unfold InnerNode.from_compressed_bytes at hk
      split at hk
      · cases hk
      · next hdiv => exact .inr ⟨ht, by omega⟩
    · cases hk
  have htype : m.node_type = n.node_type := by
    rcases hlen him with ⟨h1, h2⟩ | ⟨h1, h2⟩
    · rcases hlen hin with ⟨h3, h4⟩ | ⟨h3, h4⟩
      · rw [h1, h3]
      · rw [hcontent] at h2
        omega
    · rcases hlen hin with ⟨h3, h4⟩ | ⟨h3, h4⟩
      · rw [hcontent] at h2
        omega
      · rw [h1, h3]
  rw [InnerNode.from_node_congr htype hcontent, hin] at him
  rw [Except.ok.inj him]

/-! ## The condition -/

/-- The walk from `root` meets the inner node `h` and goes on to `cs`. -/
def Follows (nodes : List SHAMapNode) (root h : Hash256) (cs : List Hash256) : Prop :=
  Reaches (checkpoint_state nodes).refs root h ∧
    ∃ n, (checkpoint_state nodes).lookup h = some n ∧ n.node_type.is_inner = true ∧
      n.refs = some cs

/-- `b` hides nothing of `a`. A node that `a` follows and `b` holds without
    following it, as a leaf or out of reach of its walk, has its children
    in `b` all the same; and what `a` holds out of reach of its own walk is
    in `b`. -/
structure Covers (a b : List SHAMapNode) (root : Hash256) : Prop where
  unfollowed : ∀ h cs, Follows a root h cs → h ∈ checkpoint_state b →
    (¬ ∃ cs', Follows b root h cs') → ∀ c ∈ cs, c ∈ checkpoint_state b
  unreached : ∀ h ∈ checkpoint_state a, ¬ Reaches (checkpoint_state a).refs root h →
    h ∈ checkpoint_state b

/-- The two checkpoints contain the same node hashes. -/
def SameHashes (a b : List SHAMapNode) : Prop :=
  ∀ h, h ∈ a.map SHAMapNode.hash ↔ h ∈ b.map SHAMapNode.hash

theorem same_hashes_iff_state :
    SameHashes a b ↔ ∀ h, h ∈ checkpoint_state a ↔ h ∈ checkpoint_state b := by
  unfold SameHashes
  simp only [List.mem_map, mem_checkpoint]

/-- What the walk of a verified checkpoint reaches is held, and when it is
    an inner node it is followed. -/
theorem CheckpointVerified.reached (hv : CheckpointVerified sha512half a root) {h : Hash256}
    (hr : Reaches (checkpoint_state a).refs root h) :
    ∃ n cs, (checkpoint_state a).lookup h = some n ∧ n.refs = some cs := by
  obtain ⟨visit, hw, -⟩ := hv.walk
  obtain ⟨cs, hcs, -⟩ := hw.closed h (hw.mem_root_iff.mpr hr)
  obtain ⟨n, hl, hn⟩ := StateMap.refs_eq_some.mp hcs
  exact ⟨n, cs, hl, hn⟩

/-- The walk of `a` never leaves `b`: by induction along the walk, and at
    each step by whether `b` follows the same node. -/
theorem reached_in_cover {S : Set Bytes} (hinj : Set.InjOn sha512half S)
    (ha : CheckpointVerified sha512half a root) (hb : CheckpointVerified sha512half b root)
    (hSa : node_inputs a ⊆ S) (hSb : node_inputs b ⊆ S) (hcover : Covers a b root) {h : Hash256}
    (hr : Reaches (checkpoint_state a).refs root h) : h ∈ checkpoint_state b := by
  induction hr with
  | refl => exact hb.held
  | @tail x c hx href ih =>
    obtain ⟨cs, hcs, hc⟩ := href
    obtain ⟨m, hlm, hm⟩ := StateMap.refs_eq_some.mp hcs
    have htm : m.node_type.is_inner = true := SHAMapNode.is_inner_of_refs hm hc
    have hfa : Follows a root x cs := ⟨hx, m, hlm, htm, hm⟩
    by_cases hfb : ∃ ds, Follows b root x ds
    · -- Both follow `x`: the same content, so the same children.
      obtain ⟨ds, hreach, n, hln, htn, hn⟩ := hfb
      have hmem_m := lookup_checkpoint_mem hlm
      have hmem_n := lookup_checkpoint_mem hln
      have hhash : recompute_node_hash sha512half m = recompute_node_hash sha512half n := by
        rw [ha.rehash m hmem_m, hb.rehash n hmem_n, keyed_checkpoint a x m hlm,
          keyed_checkpoint b x n hln]
      have heq : cs = ds := refs_eq_of_hash_eq hinj (hSa ⟨m, hmem_m, rfl⟩) (hSb ⟨n, hmem_n, rfl⟩)
        hhash htm htn hm hn
      have hrc : Reaches (checkpoint_state b).refs root c :=
        .tail hreach ⟨ds, StateMap.refs_eq_some.mpr ⟨n, hln, hn⟩, heq ▸ hc⟩
      obtain ⟨k, ks, hlk, -⟩ := hb.reached hrc
      exact Finmap.mem_of_lookup_eq_some hlk
    · exact hcover.unfollowed x cs hfa ih hfb c hc

theorem held_in_cover {S : Set Bytes} (hinj : Set.InjOn sha512half S)
    (ha : CheckpointVerified sha512half a root) (hb : CheckpointVerified sha512half b root)
    (hSa : node_inputs a ⊆ S) (hSb : node_inputs b ⊆ S) (hcover : Covers a b root) :
    ∀ h ∈ checkpoint_state a, h ∈ checkpoint_state b := by
  intro h hh
  by_cases hr : Reaches (checkpoint_state a).refs root h
  · exact reached_in_cover hinj ha hb hSa hSb hcover hr
  · exact hcover.unreached h hh hr

/-- Equal sets of hashes leave nothing to hide. -/
theorem covers_of_same (ha : CheckpointVerified sha512half a root)
    (hsame : ∀ h ∈ checkpoint_state a, h ∈ checkpoint_state b) : Covers a b root := by
  constructor
  · intro h cs hf _ _ c hc
    obtain ⟨hr, n, hl, -, hn⟩ := hf
    have hrc : Reaches (checkpoint_state a).refs root c :=
      .tail hr ⟨cs, StateMap.refs_eq_some.mpr ⟨n, hl, hn⟩, hc⟩
    obtain ⟨k, ks, hlk, -⟩ := ha.reached hrc
    exact hsame c (Finmap.mem_of_lookup_eq_some hlk)
  · intro h hh _
    exact hsame h hh

theorem verified_same_hashes_iff {S : Set Bytes} (hinj : Set.InjOn sha512half S)
    (ha : CheckpointVerified sha512half a root) (hb : CheckpointVerified sha512half b root)
    (hSa : node_inputs a ⊆ S) (hSb : node_inputs b ⊆ S) :
    SameHashes a b ↔ Covers a b root ∧ Covers b a root := by
  rw [same_hashes_iff_state]
  constructor
  · intro hsame
    exact ⟨covers_of_same ha fun h hh => (hsame h).mp hh,
      covers_of_same hb fun h hh => (hsame h).mpr hh⟩
  · rintro ⟨hab, hba⟩ h
    exact ⟨held_in_cover hinj ha hb hSa hSb hab h, held_in_cover hinj hb ha hSb hSa hba h⟩

/-! ## Two accepted chunks -/

/-- The `account_hash` of the first TX map. -/
def Chunk.checkpoint_root (chunk : Chunk) : Option Hash256 :=
  chunk.tx_maps.head?.map TxMap.account_hash

/-- For two chunks accepted with verification, the same checkpoint root
    means the same checkpoint hashes exactly when neither checkpoint hides
    anything of the other. -/
theorem same_hashes_iff {σ σ' τ τ' : Type} {S : NodeSink σ} {S' : NodeSink σ'} {T : TxDb τ}
    {T' : TxDb τ'} {out : Outputs σ τ} {out' : Outputs σ' τ'} {a b : Chunk}
    {res : ReplayResult × Outputs σ τ} {res' : ReplayResult × Outputs σ' τ'}
    (ha : Replays S T sha512half true out a res) (hb : Replays S' T' sha512half true out' b res')
    (hinj : Set.InjOn sha512half (node_inputs a.checkpoint ∪ node_inputs b.checkpoint))
    {root : Hash256} (hra : a.checkpoint_root = some root) (hrb : b.checkpoint_root = some root) :
    SameHashes a.checkpoint b.checkpoint ↔
      Covers a.checkpoint b.checkpoint root ∧ Covers b.checkpoint a.checkpoint root := by
  obtain ⟨-, fuel, cp, out₁, r₀, r₁, hsteps⟩ := ha.steps
  obtain ⟨-, fuel', cp', out₁', r₀', r₁', hsteps'⟩ := hb.steps
  have hroot : cp.account_hash = root := by
    simpa [Chunk.checkpoint_root, hsteps.first] using hra
  have hroot' : cp'.account_hash = root := by
    simpa [Chunk.checkpoint_root, hsteps'.first] using hrb
  have hva := hsteps.checkpoint
  have hvb := hsteps'.checkpoint
  rw [hroot] at hva
  rw [hroot'] at hvb
  exact verified_same_hashes_iff hinj hva hvb Set.subset_union_left Set.subset_union_right

/-! ## A hidden subtree -/

/-- An inner node with one child, the account. -/
def one_child_content : Bytes := lone_account.hash.bytes ++ List.replicate 480 0

def one_child_hash : Hash256 := sha2_sha512half (HASH_PREFIX_INNER_NODE ++ one_child_content)

def chunk_of_checkpoint (checkpoint : List SHAMapNode) (root : Hash256) : Chunk :=
  { network_id := 1, start_ledger := 7, end_ledger := 7, checkpoint_hash := ZERO_HASH,
    chunk_hash := ZERO_HASH, checkpoint, deltas := [], tx_maps := [empty_tx_map 7 ZERO_HASH root] }

def whole_checkpoint : List SHAMapNode :=
  [⟨one_child_hash, .Inner, one_child_content⟩, lone_account]

/-- The same root as a leaf whose content starts with the inner prefix. -/
def hidden_checkpoint : List SHAMapNode :=
  [⟨one_child_hash, .AccountState, HASH_PREFIX_INNER_NODE ++ one_child_content⟩]

def whole_chunk : Chunk := chunk_of_checkpoint whole_checkpoint one_child_hash
def hidden_chunk : Chunk := chunk_of_checkpoint hidden_checkpoint one_child_hash

/-- A chunk is accepted if `replay_chunk` returns. -/
theorem replays_of_isSome {chunk : Chunk} (fuel : Nat)
    (hlen : chunk.tx_maps.length = chunk.deltas.length + 1)
    (h : (replay_chunk NullSink NoTxDb sha512half fuel chunk true ⟨(), none, []⟩).toOption.isSome =
      true) : ∃ res, Replays NullSink NoTxDb sha512half true ⟨(), none, []⟩ chunk res := by
  obtain ⟨res, hrun⟩ := exists_ok_of_isSome h
  exact ⟨res, .buffered fuel hlen hrun⟩

/-- Both replays return, and the hashes differ. -/
theorem whole_hidden_facts :
    (replay_chunk NullSink NoTxDb sha2_sha512half 3 whole_chunk true
        ⟨(), none, []⟩).toOption.isSome = true ∧
      (replay_chunk NullSink NoTxDb sha2_sha512half 3 hidden_chunk true
        ⟨(), none, []⟩).toOption.isSome = true ∧
      ([HASH_PREFIX_INNER_NODE ++ one_child_content, [1]].map sha2_sha512half).Nodup ∧
      lone_account.hash ≠ one_child_hash := by
  decide +kernel

theorem whole_chunk_replays :
    ∃ res, Replays NullSink NoTxDb sha2_sha512half true ⟨(), none, []⟩ whole_chunk res :=
  replays_of_isSome 3 rfl whole_hidden_facts.1

theorem hidden_chunk_replays :
    ∃ res, Replays NullSink NoTxDb sha2_sha512half true ⟨(), none, []⟩ hidden_chunk res :=
  replays_of_isSome 3 rfl whole_hidden_facts.2.1

/-- A hash is free of collisions on a finite set if the hashes differ. -/
theorem injOn_of_nodup {S : Set Bytes} (l : List Bytes) (hS : ∀ x ∈ S, x ∈ l)
    (hnd : (l.map sha512half).Nodup) : Set.InjOn sha512half S := by
  intro x hx y hy hxy
  exact List.inj_on_of_nodup_map hnd (hS x hx) (hS y hy) hxy

theorem whole_hidden_injOn : Set.InjOn sha2_sha512half
    (node_inputs whole_chunk.checkpoint ∪ node_inputs hidden_chunk.checkpoint) := by
  apply injOn_of_nodup [HASH_PREFIX_INNER_NODE ++ one_child_content, [1]]
  · intro x hx
    rcases hx with ⟨n, hn, rfl⟩ | ⟨n, hn, rfl⟩
    · rcases List.mem_cons.mp hn with rfl | hn
      · exact List.mem_cons_self
      · rw [List.mem_singleton.mp hn]
        exact List.mem_cons_of_mem _ List.mem_cons_self
    · rw [List.mem_singleton.mp hn]
      exact List.mem_cons_self
  · exact whole_hidden_facts.2.2.1

/-- Both chunks are accepted and carry the same root, and the second one
    has left the account out. -/
theorem hidden_subtree_accepted :
    (∃ res, Replays NullSink NoTxDb sha2_sha512half true ⟨(), none, []⟩ whole_chunk res) ∧
      (∃ res, Replays NullSink NoTxDb sha2_sha512half true ⟨(), none, []⟩ hidden_chunk res) ∧
      Set.InjOn sha2_sha512half
        (node_inputs whole_chunk.checkpoint ∪ node_inputs hidden_chunk.checkpoint) ∧
      whole_chunk.checkpoint_root = hidden_chunk.checkpoint_root ∧
      ¬ SameHashes whole_chunk.checkpoint hidden_chunk.checkpoint := by
  refine ⟨whole_chunk_replays, hidden_chunk_replays, whole_hidden_injOn, rfl, ?_⟩
  intro hsame
  have hmem : lone_account.hash ∈ hidden_chunk.checkpoint.map SHAMapNode.hash :=
    (hsame lone_account.hash).mp (by simp [whole_chunk, chunk_of_checkpoint, whole_checkpoint])
  have heq : lone_account.hash = one_child_hash := List.mem_singleton.mp hmem
  obtain ⟨-, -, -, hne⟩ := whole_hidden_facts
  exact hne heq

theorem same_hashes_iff_whole_hidden :
    SameHashes whole_chunk.checkpoint hidden_chunk.checkpoint ↔
      Covers whole_chunk.checkpoint hidden_chunk.checkpoint one_child_hash ∧
        Covers hidden_chunk.checkpoint whole_chunk.checkpoint one_child_hash := by
  obtain ⟨res, hwhole⟩ := whole_chunk_replays
  obtain ⟨res', hhidden⟩ := hidden_chunk_replays
  exact same_hashes_iff hwhole hhidden whole_hidden_injOn rfl rfl

end LedgerArchive
