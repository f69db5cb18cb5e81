import LedgerArchive.Import.Refinement
import LedgerArchive.Lib.Walk

/-! # What a verified replay has established

    With `verify` on, each step of a replay leaves facts behind: about the
    checkpoint (`check_tree_complete_ok`), about one ledger
    (`ledger_step_ok`) and, by induction over the deltas, about all of them
    (`ReplaySteps.ledger`). -/

namespace LedgerArchive

open Lib

/-! ## The walk over the state tree -/

/-- `walk_loop` is the walk over the references of the map, with the
    children of a node in reverse. -/
theorem walk_loop_ok {fuel n m : Nat} {stack : List Hash256} {state : StateMap} :
    walk_loop fuel stack state n = .ok m ↔
      ∃ visit, Walks (fun h => (state.refs h).map List.reverse) stack visit ∧
        m = n + visit.length ∧ visit.length < fuel := by
  induction fuel generalizing stack n with
  | zero => simp [walk_loop]
  | succ fuel ih =>
    cases stack with
    | nil =>
      simp only [walk_loop, Except.ok.injEq]
      constructor
      · intro h
        exact ⟨[], .done, by simp [h], by simp⟩
      · rintro ⟨visit, hw, hm, _⟩
        cases hw
        simp [hm]
    | cons h stack =>
      -- One round: the node is held and its references are pushed.
      have hround : walk_loop (fuel + 1) (h :: stack) state n = .ok m ↔
          ∃ cs, state.refs h = some cs ∧
            walk_loop fuel (cs.reverse ++ stack) state (n + 1) = .ok m := by
        simp only [walk_loop, bind_eq_ok, ok_or_eq_ok, StateMap.refs_eq_some]
        constructor
        · rintro ⟨node, hl, hrest⟩
          by_cases ht : node.node_type.is_inner = true
          · rw [if_pos ht] at hrest
            obtain ⟨inner, hin, hrest⟩ := bind_eq_ok.mp hrest
            rw [from_shamap_eq_ok] at hin
            exact ⟨_, ⟨node, hl, (SHAMapNode.refs_inner ht).mpr ⟨inner, hin, rfl⟩⟩, hrest⟩
          · rw [if_neg ht] at hrest
            exact ⟨[], ⟨node, hl, SHAMapNode.refs_leaf (by simpa using ht)⟩, hrest⟩
        · rintro ⟨cs, ⟨node, hl, hrefs⟩, hrest⟩
          refine ⟨node, hl, ?_⟩
          by_cases ht : node.node_type.is_inner = true
          · obtain ⟨inner, hin, hcs⟩ := (SHAMapNode.refs_inner ht).mp hrefs
            rw [if_pos ht]
            exact bind_eq_ok.mpr ⟨inner, by simpa using hin, hcs ▸ hrest⟩
          · rw [SHAMapNode.refs_leaf (by simpa using ht)] at hrefs
            cases hrefs
            rw [if_neg ht]
            exact hrest
      rw [hround]
      constructor
      · rintro ⟨cs, hcs, hrest⟩
        obtain ⟨visit, hw, hm, hlt⟩ := ih.mp hrest
        refine ⟨h :: visit, .step (by simp [hcs]) hw, ?_, ?_⟩
        · rw [List.length_cons]
          omega
        · rw [List.length_cons]
          omega
      · rintro ⟨visit, hw, hm, hlt⟩
        cases hw with
        | step hs hw =>
          rw [Option.map_eq_some_iff] at hs
          obtain ⟨cs, hcs, hrev⟩ := hs
          subst hrev
          rw [List.length_cons] at hm hlt
          exact ⟨cs, hcs, ih.mpr ⟨_, hw, by omega, by omega⟩⟩

/-- The check that a state tree is complete: the walk comes to its end
    within the fuel and makes as many visits as the map has nodes. -/
theorem check_tree_complete_ok {fuel : Nat} {what : String} {root : Hash256} {state : StateMap} :
    check_tree_complete fuel what root state = .ok () ↔
      ∃ visit, Walks state.refs [root] visit ∧ visit.length = state.keys.card ∧
        visit.length < fuel := by
  unfold check_tree_complete walk_complete
  simp only [bind_eq_ok, with_context_eq_ok, bail_if_eq_ok, walk_loop_ok, not_not]
  constructor
  · rintro ⟨m, ⟨visit, hw, hm, hlt⟩, hcount⟩
    obtain ⟨v, hw', hp⟩ := hw.reorder state.refs (fun x _ cs hcs => by
      obtain ⟨cs', hcs', hrev⟩ := Option.map_eq_some_iff.mp hcs
      exact ⟨cs', hcs', hrev ▸ (List.reverse_perm cs').symm⟩) (List.Perm.refl _)
    exact ⟨v, hw', by rw [hp.length_eq]; omega, by rw [hp.length_eq]; omega⟩
  · rintro ⟨visit, hw, hcount, hlt⟩
    obtain ⟨v, hw', hp⟩ := hw.reorder (fun h => (state.refs h).map List.reverse)
      (fun x _ cs hcs => ⟨cs.reverse, by simp [hcs], List.reverse_perm cs⟩) (List.Perm.refl _)
    exact ⟨v.length, ⟨v, hw', by omega, by rw [hp.length_eq]; omega⟩, by rw [hp.length_eq]; omega⟩

theorem check_added_children_ok {seq : UInt32} {added : List SHAMapNode} {deleted : List Hash256}
    {state : StateMap} :
    check_added_children seq added deleted state = .ok () ↔
      ∀ n ∈ added, n.node_type.is_inner = true →
        ∃ cs, n.refs = some cs ∧ ∀ c ∈ cs, c ∈ state := by
  unfold check_added_children
  rw [forM_eq_ok]
  simp only [List.mem_filter, bind_eq_ok, from_shamap_eq_ok, forM_eq_ok, bail_if_eq_ok, not_not]
  constructor
  · intro h n hn ht
    obtain ⟨inner, hin, hall⟩ := h n ⟨hn, ht⟩
    exact ⟨_, (SHAMapNode.refs_inner ht).mpr ⟨inner, hin, rfl⟩, hall⟩
  · rintro h n ⟨hn, ht⟩
    obtain ⟨cs, hcs, hall⟩ := h n hn ht
    obtain ⟨inner, hin, rfl⟩ := (SHAMapNode.refs_inner ht).mp hcs
    exact ⟨inner, hin, hall⟩

variable {σ τ : Type} {S : NodeSink σ} {T : TxDb τ} {sha512half : Bytes → Hash256}

theorem verify_txns_authentic_ok {tx_map : TxMap} {u : Unit} :
    verify_txns_authentic sha512half tx_map = .ok u ↔
      ∀ tx ∈ tx_map.txns, calculate_tx_id sha512half tx.tx_blob = tx.tx_hash := by
  unfold verify_txns_authentic
  rw [forM_eq_ok]
  simp

/-! ## One ledger -/

/-- Inserting the added nodes and sending them to the sink go their own
    ways. -/
theorem insert_and_sink_ok {nodes : List SHAMapNode} {state state' : StateMap}
    {out out' : Outputs σ τ} :
    nodes.foldlM (fun (so : StateMap × Outputs σ τ) node => do
        let out ← sink_node S so.2 node
        pure (so.1.insert node.hash node, out)) (state, out) = .ok (state', out') ↔
      state' = insert_nodes state nodes ∧ sink_nodes S out nodes = .ok out' := by
  unfold sink_nodes
  induction nodes generalizing state out with
  | nil =>
    rw [foldlM_nil_ok, foldlM_nil_ok, Prod.mk.injEq]
    exact and_congr eq_comm Iff.rfl
  | cons n nodes ih =>
    rw [foldlM_cons_ok, foldlM_cons_ok]
    simp only [bind_eq_ok, pure_eq_ok]
    constructor
    · rintro ⟨t, ⟨o, ho, ht⟩, hrest⟩
      subst ht
      obtain ⟨hs, hsink⟩ := ih.mp hrest
      exact ⟨hs, o, ho, hsink⟩
    · rintro ⟨hs, o, ho, hsink⟩
      exact ⟨_, ⟨o, ho, rfl⟩, ih.mpr ⟨hs, hsink⟩⟩

/-- The row of a ledger. -/
def TxMap.row (tx_map : TxMap) (prev_hash account_hash trans_hash : Hash256) : LedgerDbRow :=
  { ledger_hash := tx_map.ledger_hash, ledger_seq := tx_map.ledger_seq, prev_hash,
    total_coins := tx_map.drops, closing_time := tx_map.close_time,
    prev_closing_time := tx_map.parent_close_time,
    close_time_resolution := tx_map.close_time_resolution, close_flags := tx_map.close_flags,
    account_hash, trans_hash }

/-- What a verified round of the delta loop takes and gives. `tx_hash` and
    `nodes` are the rebuilt transaction tree, `out₁` and `out₂` the outputs
    after the state nodes and after the transaction nodes. -/
structure LedgerVerified (S : NodeSink σ) (T : TxDb τ) (sha512half : Bytes → Hash256)
    (r : Replay σ τ) (delta : LedgerDelta) (tx_map : TxMap) (r' : Replay σ τ)
    (tx_hash : Hash256) (nodes : List SHAMapNode) (out₁ out₂ : Outputs σ τ) : Prop where
  deleted_held : ∀ h ∈ delta.diff.deleted, h ∈ r.state
  state : r'.state = apply_diff r.state delta.diff
  children_held : ∀ n ∈ delta.diff.added, n.node_type.is_inner = true →
    ∃ cs, n.refs = some cs ∧ ∀ c ∈ cs, c ∈ r'.state
  seq : tx_map.ledger_seq = delta.ledger_seq
  root : find_new_root delta.diff.added r.current_root = .ok r'.current_root
  account_hash : r'.current_root = tx_map.account_hash
  tree : build_tx_tree sha512half tx_map.txns = .ok (tx_hash, nodes)
  authentic : ∀ tx ∈ tx_map.txns, calculate_tx_id sha512half tx.tx_blob = tx.tx_hash
  rehash : ∀ n ∈ delta.diff.added, recompute_node_hash sha512half n = n.hash
  ledger_hash : calculate_ledger_hash sha512half
    (tx_map.header r.prev_ledger_hash tx_hash tx_map.account_hash) = tx_map.ledger_hash
  prev : r'.prev_ledger_hash = tx_map.ledger_hash
  rows : r'.ledger_rows =
    r.ledger_rows ++ [tx_map.row r.prev_ledger_hash tx_map.account_hash tx_hash]
  sunk_state : sink_nodes S r.out delta.diff.added = .ok out₁
  sunk_txns : sink_nodes S out₁ nodes = .ok out₂
  written : write_ledger_outputs S T out₂ tx_map r.prev_ledger_hash tx_hash tx_map.account_hash =
    .ok r'.out

theorem apply_delta_ok {state state' : StateMap} {out out' : Outputs σ τ} {delta : LedgerDelta} :
    apply_delta S true state out delta = .ok (state', out') ↔
      (∀ h ∈ delta.diff.deleted, h ∈ state) ∧ state' = apply_diff state delta.diff ∧
        sink_nodes S out delta.diff.added = .ok out' ∧
        ∀ n ∈ delta.diff.added, n.node_type.is_inner = true →
          ∃ cs, n.refs = some cs ∧ ∀ c ∈ cs, c ∈ state' := by
  unfold apply_delta
  simp only [bind_eq_ok, check_if_eq_ok, forM_eq_ok, bail_if_eq_ok, not_not, forall_const,
    Prod.exists, insert_and_sink_ok, check_added_children_ok, pure_eq_ok, Prod.mk.injEq]
  constructor
  · rintro ⟨_, hdel, s, o, ⟨hs, hsink⟩, _, hkids, hs', ho'⟩
    subst hs'; subst ho'
    exact ⟨hdel, hs, hsink, hkids⟩
  · rintro ⟨hdel, hs, hsink, hkids⟩
    exact ⟨(), hdel, state', out', ⟨hs, hsink⟩, (), hkids, rfl, rfl⟩

theorem check_ledger_ok {tx_map : TxMap} {added : List SHAMapNode}
    {prev_ledger_hash tx_hash new_root : Hash256} :
    check_ledger sha512half tx_map added prev_ledger_hash tx_hash new_root = .ok () ↔
      (∀ tx ∈ tx_map.txns, calculate_tx_id sha512half tx.tx_blob = tx.tx_hash) ∧
        (∀ n ∈ added, recompute_node_hash sha512half n = n.hash) ∧
        new_root = tx_map.account_hash ∧
        calculate_ledger_hash sha512half (tx_map.header prev_ledger_hash tx_hash new_root) =
          tx_map.ledger_hash := by
  unfold check_ledger
  simp only [bind_eq_ok, verify_txns_authentic_ok, check_state_nodes_ok, verify_state_nodes_ok,
    bail_if_eq_ok, not_not]
  constructor
  · rintro ⟨_, hauth, _, hrehash, _, hroot, hhash⟩
    exact ⟨hauth, hrehash, hroot, hhash⟩
  · rintro ⟨hauth, hrehash, hroot, hhash⟩
    exact ⟨(), hauth, (), hrehash, (), hroot, hhash⟩

theorem ledger_step_ok {r r' : Replay σ τ} {l : LedgerDelta × TxMap} :
    ledger_step S T sha512half true r l = .ok r' ↔
      ∃ tx_hash nodes out₁ out₂,
        LedgerVerified S T sha512half r l.1 l.2 r' tx_hash nodes out₁ out₂ := by
  unfold ledger_step close_ledger
  simp only [bind_eq_ok, Prod.exists, apply_delta_ok, bail_if_eq_ok, not_not, check_if_eq_ok,
    forall_const, check_ledger_ok, pure_eq_ok]
  constructor
  · rintro ⟨state, out₁, ⟨hdel, hstate, hsink, hkids⟩, _, hseq, root, hroot, tx_hash, nodes, htree,
      out₂, hsunk, _, ⟨hauth, hrehash, haccount, hhash⟩, out₃, hwritten, hr'⟩
    subst hr'
    subst haccount
    exact ⟨tx_hash, nodes, out₁, out₂, ⟨hdel, hstate, hkids, hseq, hroot, rfl, htree, hauth,
      hrehash, hhash, rfl, rfl, hsink, hsunk, hwritten⟩⟩
  · rintro ⟨tx_hash, nodes, out₁, out₂, hv⟩
    have haccount := hv.account_hash
    refine ⟨r'.state, out₁, ⟨hv.deleted_held, hv.state, hv.sunk_state, hv.children_held⟩, (),
      hv.seq, r'.current_root, hv.root, tx_hash, nodes, hv.tree, out₂, hv.sunk_txns, (),
      ⟨hv.authentic, hv.rehash, haccount, haccount ▸ hv.ledger_hash⟩, r'.out,
      haccount ▸ hv.written, ?_⟩
    obtain ⟨state', out', root', prev', rows'⟩ := r'
    have hprev := hv.prev
    have hrows := hv.rows
    simp only at haccount hprev hrows
    subst haccount; subst hprev; subst hrows
    rfl

/-! ## All ledgers -/

/-- The states of the delta loop, from the checkpoint on. -/
inductive LedgerRun (S : NodeSink σ) (T : TxDb τ) (sha512half : Bytes → Hash256) :
    Replay σ τ → List (LedgerDelta × TxMap) → Replay σ τ → Prop where
  | done (r : Replay σ τ) : LedgerRun S T sha512half r [] r
  | step {r r₁ r' : Replay σ τ} {l : LedgerDelta × TxMap} {ls : List (LedgerDelta × TxMap)}
      {tx_hash : Hash256} {nodes : List SHAMapNode} {out₁ out₂ : Outputs σ τ}
      (hv : LedgerVerified S T sha512half r l.1 l.2 r₁ tx_hash nodes out₁ out₂)
      (hrest : LedgerRun S T sha512half r₁ ls r') : LedgerRun S T sha512half r (l :: ls) r'

theorem ledger_run_iff {r r' : Replay σ τ} {ls : List (LedgerDelta × TxMap)} :
    ls.foldlM (ledger_step S T sha512half true) r = .ok r' ↔ LedgerRun S T sha512half r ls r' := by
  induction ls generalizing r with
  | nil =>
    rw [foldlM_nil_ok]
    constructor
    · intro h
      exact h ▸ .done r
    · intro h
      cases h
      rfl
  | cons l ls ih =>
    rw [foldlM_cons_ok]
    constructor
    · rintro ⟨r₁, hstep, hrest⟩
      obtain ⟨tx_hash, nodes, out₁, out₂, hv⟩ := ledger_step_ok.mp hstep
      exact .step hv (ih.mp hrest)
    · intro h
      cases h with
      | step hv hrest => exact ⟨_, ledger_step_ok.mpr ⟨_, _, _, _, hv⟩, ih.mpr hrest⟩

/-- The state map after the checkpoint and the first `i` deltas. -/
def Chunk.state_after (chunk : Chunk) (i : Nat) : StateMap :=
  (chunk.deltas.take i).foldl (fun s d => apply_diff s d.diff) (checkpoint_state chunk.checkpoint)

/-- The round of one ledger in a run, and the state it starts from. -/
theorem LedgerRun.get {r r' : Replay σ τ} {ls : List (LedgerDelta × TxMap)}
    (h : LedgerRun S T sha512half r ls r') {i : Nat} {l : LedgerDelta × TxMap}
    (hl : ls[i]? = some l) :
    ∃ r₀ r₁ tx_hash nodes out₁ out₂,
      LedgerVerified S T sha512half r₀ l.1 l.2 r₁ tx_hash nodes out₁ out₂ ∧
        r₀.state = (ls.take i).foldl (fun s l => apply_diff s l.1.diff) r.state ∧
        r₀.prev_ledger_hash = (ls.take i).foldl (fun _ l => l.2.ledger_hash) r.prev_ledger_hash := by
  induction h generalizing i with
  | done r => simp at hl
  | step hv _ ih =>
    cases i with
    | zero =>
      rw [List.getElem?_cons_zero, Option.some.injEq] at hl
      subst hl
      exact ⟨_, _, _, _, _, _, hv, rfl, rfl⟩
    | succ i =>
      rw [List.getElem?_cons_succ] at hl
      obtain ⟨r₀, r₁', tx_hash, nodes, out₁, out₂, hv', hstate, hprev⟩ := ih hl
      refine ⟨r₀, r₁', tx_hash, nodes, out₁, out₂, hv', ?_, ?_⟩
      · rw [hstate, hv.state]
        rfl
      · rw [hprev, hv.prev]
        rfl

variable {fuel : Nat} {chunk : Chunk} {out out₁ : Outputs σ τ} {cp : TxMap} {r₀ r₁ : Replay σ τ}
  {res : ReplayResult × Outputs σ τ}

theorem open_ledger_ok {state : StateMap} {r : Replay σ τ} :
    open_ledger S T sha512half cp state out = .ok r ↔
      ∃ out₁ tx_hash nodes, out.write_ledger T cp = .ok out₁ ∧
        build_tx_tree sha512half cp.txns = .ok (tx_hash, nodes) ∧
        sink_nodes S out₁ nodes = .ok r.out ∧ r.state = state ∧
        r.current_root = cp.account_hash ∧ r.prev_ledger_hash = cp.ledger_hash ∧
        r.ledger_rows = [] := by
  unfold open_ledger
  simp only [bind_eq_ok, Prod.exists, pure_eq_ok]
  constructor
  · rintro ⟨out₁, hwrite, tx_hash, nodes, htree, out₂, hsink, hr⟩
    subst hr
    exact ⟨out₁, tx_hash, nodes, hwrite, htree, hsink, rfl, rfl, rfl, rfl⟩
  · rintro ⟨out₁, tx_hash, nodes, hwrite, htree, hsink, h1, h2, h3, h4⟩
    obtain ⟨state', out', root', prev', rows'⟩ := r
    simp only at h1 h2 h3 h4 hsink
    subst h1; subst h2; subst h3; subst h4
    exact ⟨out₁, hwrite, tx_hash, nodes, htree, out', hsink, rfl⟩

theorem ReplaySteps.run (h : ReplaySteps S T sha512half fuel chunk true out cp out₁ r₀ r₁ res) :
    LedgerRun S T sha512half r₀ chunk.ledgers r₁ :=
  ledger_run_iff.mp h.replayed

/-- Ledger `i + 1` of a chunk: its delta and TX map, and the ledger before
    it. -/
theorem ReplaySteps.ledger
    (h : ReplaySteps S T sha512half fuel chunk true out cp out₁ r₀ r₁ res)
    (hlen : chunk.tx_maps.length = chunk.deltas.length + 1) {i : Nat} {delta : LedgerDelta}
    (hd : chunk.deltas[i]? = some delta) :
    ∃ prev tx_map, chunk.tx_maps[i]? = some prev ∧ chunk.tx_maps[i + 1]? = some tx_map ∧
      ∃ r r' tx_hash nodes out₂ out₃,
        LedgerVerified S T sha512half r delta tx_map r' tx_hash nodes out₂ out₃ ∧
          r.state = chunk.state_after i ∧ r.prev_ledger_hash = prev.ledger_hash := by
  have hi : i < chunk.deltas.length := (List.getElem?_eq_some_iff.mp hd).1
  obtain ⟨first, later, hmaps⟩ : ∃ first later, chunk.tx_maps = first :: later := by
    cases hm : chunk.tx_maps with
    | nil => rw [hm] at hlen; simp at hlen
    | cons first later => exact ⟨first, later, rfl⟩
  have hfirst : first = cp := by
    have := h.first
    rw [hmaps] at this
    exact Option.some.inj this
  have hlater : later.length = chunk.deltas.length := by
    rw [hmaps] at hlen
    simpa using hlen
  have htx : later[i]? = some later[i] := List.getElem?_eq_getElem (by omega)
  have hbound : i < (first :: later).length := by
    rw [List.length_cons]
    omega
  have hprev : (first :: later)[i]? = some (first :: later)[i] := List.getElem?_eq_getElem hbound
  refine ⟨(first :: later)[i], later[i], by rw [hmaps, hprev], by
    rw [hmaps, List.getElem?_cons_succ, htx], ?_⟩
  have hledgers : chunk.ledgers = chunk.deltas.zip later := by
    unfold Chunk.ledgers
    rw [hmaps]
    rfl
  have hl : chunk.ledgers[i]? = some (delta, later[i]) := by
    rw [hledgers, List.getElem?_zip_eq_some]
    exact ⟨hd, htx⟩
  obtain ⟨r, r', tx_hash, nodes, out₂, out₃, hv, hstate, hprevhash⟩ := h.run.get hl
  obtain ⟨o, th, ns, -, -, -, hopen, -, hopenprev, -⟩ := open_ledger_ok.mp h.opened
  have hfst : (chunk.ledgers.take i).map Prod.fst = chunk.deltas.take i := by
    rw [List.map_take, hledgers, List.map_fst_zip (by omega)]
  have hsnd : (chunk.ledgers.take i).map Prod.snd = later.take i := by
    rw [List.map_take, hledgers, List.map_snd_zip (by omega)]
  refine ⟨r, r', tx_hash, nodes, out₂, out₃, hv, ?_, ?_⟩
  · rw [hstate, hopen]
    unfold Chunk.state_after
    rw [← hfst, List.foldl_map]
  · rw [hprevhash, hopenprev]
    have hfold : (chunk.ledgers.take i).foldl (fun _ l => l.2.ledger_hash) cp.ledger_hash =
        (later.take i).foldl (fun _ m => m.ledger_hash) cp.ledger_hash := by
      rw [← hsnd, List.foldl_map]
    rw [hfold, ← hfirst]
    -- The fold keeps the hash of the last ledger it has passed.
    cases i with
    | zero => rfl
    | succ i =>
      have hsucc : later.take (i + 1) = later.take i ++ [later[i]] :=
        List.take_succ_eq_append_getElem (by omega)
      rw [hsucc, List.foldl_append]
      rfl

/-! ## What is hashed -/

/-- The byte strings that verification of a chunk hashes. -/
inductive Hashed (sha512half : Bytes → Hash256) (chunk : Chunk) : Bytes → Prop where
  | checkpoint {n : SHAMapNode} (hn : n ∈ chunk.checkpoint) :
      Hashed sha512half chunk (hash_input n)
  | added {d : LedgerDelta} {n : SHAMapNode} (hd : d ∈ chunk.deltas) (hn : n ∈ d.diff.added) :
      Hashed sha512half chunk (hash_input n)
  | tx_id {m : TxMap} {tx : TxRecord} (hm : m ∈ chunk.tx_maps) (htx : tx ∈ m.txns) :
      Hashed sha512half chunk (HASH_PREFIX_TRANSACTION_ID ++ tx.tx_blob)
  | tx_node {m : TxMap} {root : Hash256} {nodes : List SHAMapNode} {n : SHAMapNode}
      (hm : m ∈ chunk.tx_maps) (htree : build_tx_tree sha512half m.txns = .ok (root, nodes))
      (hn : n ∈ nodes) : Hashed sha512half chunk (hash_input n)
  | header {i : Nat} {prev m : TxMap} {root : Hash256} {nodes : List SHAMapNode}
      (hprev : chunk.tx_maps[i]? = some prev) (hm : chunk.tx_maps[i + 1]? = some m)
      (htree : build_tx_tree sha512half m.txns = .ok (root, nodes)) :
      Hashed sha512half chunk
        (ledger_header_object (m.header prev.ledger_hash root m.account_hash))

/-- All byte strings that verification of a chunk hashes. -/
def hashed (sha512half : Bytes → Hash256) (chunk : Chunk) : Set Bytes :=
  {x | Hashed sha512half chunk x}

end LedgerArchive
