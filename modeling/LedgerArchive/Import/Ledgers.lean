import LedgerArchive.Import.Checkpoint

/-! # The state of every ledger

    Replay checks the whole state tree at the checkpoint and after the last
    delta. In between it checks that deleted nodes were held and that the
    children of added inner nodes are held. What it does not check of one
    delta is `DeltaKeepsTree`: no surviving node loses a child, the root is
    held, and no node is left without a parent. The states of an accepted
    chunk are exactly the trees of their ledgers when each delta has these
    properties, and only then (`every_ledger_exact_iff`). -/

namespace LedgerArchive

open Lib

/-- The keys of the state map are exactly the nodes reachable from `root`. -/
def TreeExact (state : StateMap) (root : Hash256) : Prop :=
  ∀ h, h ∈ state ↔ Reaches state.refs root h

/-- The walk from `root` comes to its end and meets no node twice. -/
def NoNodeTwice (state : StateMap) (root : Hash256) : Prop :=
  ∃ visit, Walks state.refs [root] visit ∧ visit.Nodup

/-- What replay leaves unchecked about one delta and the root it leads to. -/
structure DeltaKeepsTree (old : StateMap) (diff : SHAMapDiff) (root : Hash256) : Prop where
  root_held : root ∈ apply_diff old diff
  /-- A node that is neither deleted nor replaced keeps its children: each
      is not deleted, or added again. -/
  surviving : ∀ h n, old.lookup h = some n → h ∉ diff.deleted → (∀ m ∈ diff.added, m.hash ≠ h) →
    ∀ cs, n.refs = some cs → ∀ c ∈ cs, c ∉ diff.deleted ∨ ∃ m ∈ diff.added, m.hash = c
  /-- Every other node than the root has a parent one level or more above. -/
  parented : ∃ level : Hash256 → Nat, ∀ h ∈ apply_diff old diff, h ≠ root →
    ∃ p ∈ apply_diff old diff, Refers (apply_diff old diff).refs p h ∧ level p < level h

/-! ## The checkpoint -/

/-- A verified checkpoint is the tree of its root exactly when its walk
    meets no node twice. -/
theorem checkpoint_exact_iff {sha512half : Bytes → Hash256} {nodes : List SHAMapNode}
    {root : Hash256} (hv : CheckpointVerified sha512half nodes root) :
    TreeExact (checkpoint_state nodes) root ↔ NoNodeTwice (checkpoint_state nodes) root := by
  obtain ⟨visit, hw, hcount⟩ := hv.walk
  have hheld : ∀ x ∈ visit, x ∈ (checkpoint_state nodes).keys := by
    intro x hx
    obtain ⟨cs, hcs, -⟩ := hw.closed x hx
    obtain ⟨n, hl, -⟩ := StateMap.refs_eq_some.mp hcs
    exact Finmap.mem_keys.mpr (Finmap.mem_of_lookup_eq_some hl)
  have hcover := Walks.covers_iff_nodup hheld hcount
  constructor
  · intro hexact
    refine ⟨visit, hw, hcover.mp fun x hx => ?_⟩
    exact hw.mem_root_iff.mpr ((hexact x).mp (Finmap.mem_keys.mp hx))
  · rintro ⟨visit', hw', hnd⟩ h
    have hsame : visit' = visit := hw'.unique hw
    rw [hsame] at hnd
    rw [← hw.mem_root_iff]
    constructor
    · intro hh
      exact hcover.mpr hnd h (Finmap.mem_keys.mpr hh)
    · intro hh
      exact Finmap.mem_keys.mp (hheld h hh)

/-! ## One delta -/

/-- A delta applied to the tree of the ledger before gives the tree of the
    next ledger exactly when it keeps to `DeltaKeepsTree`. The children of
    added nodes are replay's own check. -/
theorem delta_exact_iff {old : StateMap} {diff : SHAMapDiff} {prev_root root : Hash256}
    (hold : TreeExact old prev_root)
    (hadded : ∀ n ∈ diff.added, n.node_type.is_inner = true →
      ∃ cs, n.refs = some cs ∧ ∀ c ∈ cs, c ∈ apply_diff old diff) :
    TreeExact (apply_diff old diff) root ↔ DeltaKeepsTree old diff root := by
  unfold TreeExact
  rw [held_iff_reaches_iff]
  constructor
  · rintro ⟨hroot, hclosed, hlevel⟩
    refine ⟨hroot, ?_, hlevel⟩
    intro h n hl hdel hne cs hcs c hc
    have hl' : (apply_diff old diff).lookup h = some n := by
      unfold apply_diff
      rw [lookup_insert_nodes_of_not_mem hne, lookup_remove_hashes, if_neg hdel, hl]
    have hc' : c ∈ apply_diff old diff :=
      hclosed h c (Finmap.mem_of_lookup_eq_some hl')
        ⟨cs, StateMap.refs_eq_some.mpr ⟨n, hl', hcs⟩, hc⟩
    rcases mem_apply_diff.mp hc' with ⟨-, hdel⟩ | hadd
    · exact .inl hdel
    · exact .inr hadd
  · intro hkeeps
    refine ⟨hkeeps.root_held, ?_, hkeeps.parented⟩
    -- No reference leads out: an added node was checked, a surviving one
    -- had its children in the old tree.
    intro a b ha hr
    obtain ⟨cs, hcs, hb⟩ := hr
    obtain ⟨n, hl, hn⟩ := StateMap.refs_eq_some.mp hcs
    rcases lookup_apply_diff_cases hl with ⟨hadd, -⟩ | ⟨hl', hdel, hne⟩
    · obtain ⟨cs', hcs', hall⟩ := hadded n hadd (SHAMapNode.is_inner_of_refs hn hb)
      rw [hn, Option.some.injEq] at hcs'
      exact hall b (hcs' ▸ hb)
    · have hb_old : b ∈ old := by
        have hra : Reaches old.refs prev_root a :=
          (hold a).mp (Finmap.mem_of_lookup_eq_some hl')
        exact (hold b).mpr (.tail hra ⟨cs, StateMap.refs_eq_some.mpr ⟨n, hl', hn⟩, hb⟩)
      rw [mem_apply_diff]
      rcases hkeeps.surviving a n hl' hdel hne cs hn b hb with hkept | hadd
      · exact .inl ⟨hb_old, hkept⟩
      · exact .inr hadd

/-! ## Every ledger -/

theorem Chunk.state_after_succ {chunk : Chunk} {i : Nat} {d : LedgerDelta}
    (hd : chunk.deltas[i]? = some d) :
    chunk.state_after (i + 1) = apply_diff (chunk.state_after i) d.diff := by
  obtain ⟨hi, hdi⟩ := List.getElem?_eq_some_iff.mp hd
  unfold state_after
  rw [List.take_succ_eq_append_getElem hi, List.foldl_append, hdi]
  rfl

/-- The state after each ledger of the chunk is the tree of the ledger's
    stored `account_hash`. -/
def EveryLedgerExact (chunk : Chunk) : Prop :=
  ∀ i m, chunk.tx_maps[i]? = some m → TreeExact (chunk.state_after i) m.account_hash

variable {σ τ : Type} {S : NodeSink σ} {T : TxDb τ} {sha512half : Bytes → Hash256}

/-- For an accepted chunk the state is the tree of its ledger at every
    ledger exactly when the checkpoint meets no node twice and every delta
    keeps the tree. -/
theorem every_ledger_exact_iff {out : Outputs σ τ} {chunk : Chunk}
    {res : ReplayResult × Outputs σ τ} (h : Replays S T sha512half true out chunk res) :
    EveryLedgerExact chunk ↔
      (∀ m, chunk.tx_maps[0]? = some m → NoNodeTwice (chunk.state_after 0) m.account_hash) ∧
        ∀ i d m, chunk.deltas[i]? = some d → chunk.tx_maps[i + 1]? = some m →
          DeltaKeepsTree (chunk.state_after i) d.diff m.account_hash := by
  obtain ⟨hlen, fuel, cp, out₁, r₀, r₁, hsteps⟩ := h.steps
  have hcheckpoint : ∀ m, chunk.tx_maps[0]? = some m →
      (TreeExact (chunk.state_after 0) m.account_hash ↔
        NoNodeTwice (chunk.state_after 0) m.account_hash) := by
    intro m hm
    have hcp : cp = m := by
      have hfirst := hsteps.first
      rw [List.head?_eq_getElem?, hm] at hfirst
      exact (Option.some.inj hfirst).symm
    exact checkpoint_exact_iff (hcp ▸ hsteps.checkpoint)
  have hstep : ∀ i d m m', chunk.deltas[i]? = some d → chunk.tx_maps[i]? = some m →
      chunk.tx_maps[i + 1]? = some m' → TreeExact (chunk.state_after i) m.account_hash →
      (TreeExact (chunk.state_after (i + 1)) m'.account_hash ↔
        DeltaKeepsTree (chunk.state_after i) d.diff m'.account_hash) := by
    intro i d m m' hd hm hm' hold
    obtain ⟨_, _, _, _, r, r', _, _, _, _, hv, hstate, _⟩ := hsteps.ledger hlen hd
    rw [Chunk.state_after_succ hd]
    apply delta_exact_iff hold
    have hkids := hv.children_held
    rw [hv.state, hstate] at hkids
    exact hkids
  constructor
  · intro hall
    refine ⟨fun m hm => (hcheckpoint m hm).mp (hall 0 m hm), ?_⟩
    intro i d m' hd hm'
    obtain ⟨m, _, hm, _, _⟩ := hsteps.ledger hlen hd
    exact (hstep i d m m' hd hm hm' (hall i m hm)).mp (hall (i + 1) m' hm')
  · rintro ⟨hfirst, hkeeps⟩ i
    induction i with
    | zero =>
      intro m hm
      exact (hcheckpoint m hm).mpr (hfirst m hm)
    | succ i ih =>
      intro m' hm'
      have hi : i < chunk.deltas.length := by
        have := (List.getElem?_eq_some_iff.mp hm').1
        omega
      have hd : chunk.deltas[i]? = some chunk.deltas[i] := List.getElem?_eq_getElem hi
      obtain ⟨m, _, hm, _, _⟩ := hsteps.ledger hlen hd
      exact (hstep i _ m m' hd hm hm' (ih m hm)).mpr (hkeeps i _ m' hd hm')

/-! ## A tree that is incomplete in between -/

/-- An empty ledger that chains to `prev`. -/
def chained_tx_map (ledger_seq : UInt32) (prev account_hash : Hash256) : TxMap :=
  let m := empty_tx_map ledger_seq ZERO_HASH account_hash
  { m with ledger_hash := calculate_ledger_hash sha2_sha512half (m.header prev ZERO_HASH account_hash) }

def ledger_8 : TxMap := chained_tx_map 8 ZERO_HASH one_child_hash
def ledger_9 : TxMap := chained_tx_map 9 ledger_8.ledger_hash one_child_hash

/-- Ledger 8 deletes the account that the root still refers to, and ledger 9
    adds it again. -/
def vanishing_chunk : Chunk :=
  { chunk_of_checkpoint whole_checkpoint one_child_hash with
    end_ledger := 9
    deltas := [{ ledger_seq := 8, diff := { added := [], deleted := [lone_account.hash] } },
      { ledger_seq := 9, diff := { added := [lone_account], deleted := [] } }]
    tx_maps := [empty_tx_map 7 ZERO_HASH one_child_hash, ledger_8, ledger_9] }

/-- What is hashed for it. -/
def vanishing_inputs : List Bytes :=
  [HASH_PREFIX_INNER_NODE ++ one_child_content, [1],
    ledger_header_object (ledger_8.header ZERO_HASH ZERO_HASH one_child_hash),
    ledger_header_object (ledger_9.header ledger_8.ledger_hash ZERO_HASH one_child_hash)]

/-- The replay returns, the hashes differ, and in between the account is
    missing. -/
theorem vanishing_facts :
    (replay_chunk NullSink NoTxDb sha2_sha512half 3 vanishing_chunk true
        ⟨(), none, []⟩).toOption.isSome = true ∧
      (vanishing_inputs.map sha2_sha512half).Nodup ∧
      (vanishing_chunk.state_after 1).refs one_child_hash = some [lone_account.hash] ∧
      lone_account.hash ∉ vanishing_chunk.state_after 1 := by
  decide +kernel

theorem vanishing_chunk_replays :
    ∃ res, Replays NullSink NoTxDb sha2_sha512half true ⟨(), none, []⟩ vanishing_chunk res :=
  replays_of_isSome 3 rfl vanishing_facts.1

theorem vanishing_chunk_injOn :
    Set.InjOn sha2_sha512half (hashed sha2_sha512half vanishing_chunk) := by
  apply injOn_of_nodup vanishing_inputs
  · have hempty : ∀ m ∈ vanishing_chunk.tx_maps, m.txns = [] := by
      intro m hm
      simp only [vanishing_chunk, List.mem_cons, List.not_mem_nil, or_false] at hm
      rcases hm with rfl | rfl | rfl <;> rfl
    have hroot : ∀ m ∈ vanishing_chunk.tx_maps, ∀ root nodes,
        build_tx_tree sha2_sha512half m.txns = .ok (root, nodes) → root = ZERO_HASH ∧ nodes = [] := by
      intro m hm root nodes htree
      rw [hempty m hm] at htree
      cases htree
      exact ⟨rfl, rfl⟩
    intro x hx
    cases hx with
    | @checkpoint n hn =>
      rcases List.mem_cons.mp hn with rfl | hn
      · exact List.mem_cons_self
      · rw [List.mem_singleton.mp hn]
        exact List.mem_cons_of_mem _ List.mem_cons_self
    | @added d n hd hn =>
      rcases List.mem_cons.mp hd with rfl | hd
      · cases hn
      · rw [List.mem_singleton.mp hd] at hn
        rw [List.mem_singleton.mp hn]
        exact List.mem_cons_of_mem _ List.mem_cons_self
    | @tx_id m tx hm htx =>
      rw [hempty m hm] at htx
      cases htx
    | @tx_node m root nodes n hm htree hn =>
      rw [(hroot m hm root nodes htree).2] at hn
      cases hn
    | @header i prev m root nodes hprev hm htree =>
      rw [(hroot m (List.mem_of_getElem? hm) root nodes htree).1]
      match i with
      | 0 =>
        cases hprev; cases hm
        exact List.mem_cons_of_mem _ (List.mem_cons_of_mem _ List.mem_cons_self)
      | 1 =>
        cases hprev; cases hm
        exact List.mem_cons_of_mem _ (List.mem_cons_of_mem _
          (List.mem_cons_of_mem _ List.mem_cons_self))
      | i + 2 => simp [vanishing_chunk] at hm
  · exact vanishing_facts.2.1

/-- The chunk is accepted, and at ledger 8 its state lacks a node that the
    root of ledger 8 reaches. -/
theorem vanishing_chunk_not_exact :
    (∃ res, Replays NullSink NoTxDb sha2_sha512half true ⟨(), none, []⟩ vanishing_chunk res) ∧
      Set.InjOn sha2_sha512half (hashed sha2_sha512half vanishing_chunk) ∧
      ¬ EveryLedgerExact vanishing_chunk := by
  refine ⟨vanishing_chunk_replays, vanishing_chunk_injOn, ?_⟩
  intro hexact
  obtain ⟨-, -, hrefs, hmissing⟩ := vanishing_facts
  apply hmissing
  rw [hexact 1 ledger_8 rfl]
  exact .single ⟨_, hrefs, List.mem_cons_self⟩

theorem every_ledger_exact_iff_vanishing :
    EveryLedgerExact vanishing_chunk ↔
      (∀ m, vanishing_chunk.tx_maps[0]? = some m →
          NoNodeTwice (vanishing_chunk.state_after 0) m.account_hash) ∧
        ∀ i d m, vanishing_chunk.deltas[i]? = some d → vanishing_chunk.tx_maps[i + 1]? = some m →
          DeltaKeepsTree (vanishing_chunk.state_after i) d.diff m.account_hash := by
  obtain ⟨res, hres⟩ := vanishing_chunk_replays
  exact every_ledger_exact_iff hres

end LedgerArchive
