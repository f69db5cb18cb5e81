import LedgerArchive.Common.Written
import LedgerArchive.Import.Ledgers
import LedgerArchive.Import.Main
import LedgerArchive.Import.Sink

/-! # The imported store serves every imported ledger

    A replay is a sequence of batches to the sink and an invocation a
    sequence of replays. What is below the roots of an imported ledger is
    therefore in the store, unless a checkpoint lists a hash twice with
    different types: the state map keeps the last node of a hash, the sink
    the first. -/

namespace LedgerArchive

open Lib

variable {sha512half : Bytes → Hash256} {xxh64 : Bytes → UInt64 → UInt64} {τ : Type}

/-! ## One replay -/

/-- The types of state nodes that the exporter writes. -/
def StateTyped (n : SHAMapNode) : Prop :=
  n.node_type = .Inner ∨ n.node_type = .AccountState

/-- No hash is listed first as an inner node and last as an account. The
    sink keeps the first node listed under a hash, the state map the last
    one. -/
def FirstAsLast (nodes : List SHAMapNode) : Prop :=
  ∀ m n, nodes.find? (fun k => k.hash = m.hash) = some m → m.node_type = .Inner →
    (checkpoint_state nodes).lookup m.hash = some n → n.node_type ≠ .AccountState

theorem StateTyped.exported {n : SHAMapNode} (h : StateTyped n) : n.node_type.is_exported = true := by
  rcases h with h | h
  · rw [h]; rfl
  · rw [h]; rfl

/-- A full node that parses has 512 bytes. -/
theorem full_of_refs {n : SHAMapNode} {cs : List Hash256} (hrefs : n.refs = some cs)
    (ht : n.node_type = .Inner) : n.content.length = 512 := by
  have hin : n.node_type.is_inner = true := by rw [ht]; rfl
  obtain ⟨inner, hparse, _⟩ := (SHAMapNode.refs_inner hin).mp hrefs
  unfold InnerNode.from_node at hparse
  rw [ht] at hparse
  exact (InnerNode.from_full_bytes_ok hparse).1

/-- The checkpoint's nodes fit, as they are listed first. -/
theorem CheckpointVerified.fits {nodes : List SHAMapNode} {root : Hash256}
    (hv : CheckpointVerified sha512half nodes root) (htyped : ∀ n ∈ nodes, StateTyped n)
    (honce : NoNodeTwice (checkpoint_state nodes) root) (hlast : FirstAsLast nodes)
    (hinj : Set.InjOn sha512half (node_inputs nodes)) {m : SHAMapNode}
    (hm : nodes.find? (fun k => k.hash = m.hash) = some m) :
    Fits sha512half (fun a => a ∈ nodes.map SHAMapNode.hash) m := by
  have hmem : m ∈ nodes := List.mem_of_find?_eq_some hm
  have hrehash := hv.rehash m hmem
  -- The state holds the last node of the hash, which the walk has read.
  obtain ⟨n, hn, hhash, hl⟩ := lookup_insert_nodes_of_mem ∅ hmem
  have hreach : Reaches (checkpoint_state nodes).refs root m.hash :=
    ((checkpoint_exact_iff hv).mpr honce m.hash).mp (Finmap.mem_of_lookup_eq_some hl)
  obtain ⟨n', cs, hl', hrefs⟩ := hv.reached hreach
  obtain rfl : n = n' := Option.some.inj (hl.symm.trans hl')
  rcases htyped m hmem with ht | ht
  · have htn : n.node_type = .Inner :=
      (htyped n hn).resolve_right (hlast m n hm ht hl)
    -- Equal hashes of two inner nodes: the same content.
    have hcontent : m.content = n.content := by
      have hsame : hash_input m = hash_input n := by
        apply hinj ⟨m, hmem, rfl⟩ ⟨n, hn, rfl⟩
        exact hrehash.trans (hhash.symm.trans (hv.rehash n hn).symm)
      rw [hash_input_inner (by rw [ht]; rfl), hash_input_inner (by rw [htn]; rfl)] at hsame
      exact List.append_cancel_left hsame
    have hfrom : m.refs = n.refs := by
      unfold SHAMapNode.refs
      rw [InnerNode.from_node_congr (ht.trans htn.symm) hcontent, ht, htn]
    refine ⟨StateTyped.exported (.inl ht), fun _ => ?_, hrehash, fun ds hds c hc => ?_⟩
    · rw [hcontent]
      exact full_of_refs hrefs htn
    · rw [hfrom, hrefs, Option.some.injEq] at hds
      subst hds
      have hchild : c ∈ checkpoint_state nodes :=
        ((checkpoint_exact_iff hv).mpr honce c).mpr
          (hreach.tail ⟨cs, StateMap.refs_eq_some.mpr ⟨n, hl, hrefs⟩, hc⟩)
      obtain ⟨k, hk, rfl⟩ := mem_checkpoint.mp hchild
      exact List.mem_map_of_mem hk
  · refine ⟨StateTyped.exported (.inr ht), fun h => ?_, hrehash, fun ds hds c hc => ?_⟩
    · rw [ht] at h
      cases h
    · rw [SHAMapNode.refs_leaf (by rw [ht]; rfl)] at hds
      cases hds
      cases hc

/-- The roots of a row are among the nodes written. -/
def RowHeld (nodes : List SHAMapNode) (row : LedgerDbRow) : Prop :=
  row.account_hash ∈ nodes.map SHAMapNode.hash ∧
    (row.trans_hash ≠ ZERO_HASH → row.trans_hash ∈ nodes.map SHAMapNode.hash)

theorem RowHeld.mono {nodes nodes' : List SHAMapNode} {row : LedgerDbRow} (h : RowHeld nodes row)
    (hsub : nodes ⊆ nodes') : RowHeld nodes' row :=
  ⟨List.map_subset _ hsub h.1, fun hz => List.map_subset _ hsub (h.2 hz)⟩

/-- What a replay keeps: the sink is closed and holds the state, the root
    and the roots of the rows. -/
structure ReplayServes (xxh64 : Bytes → UInt64 → UInt64) (sha512half : Bytes → Hash256)
    (r : Replay NuDbSink τ) (nodes : List SHAMapNode) : Prop where
  sink : SinkHolds xxh64 sha512half r.out.sink nodes
  txdb : r.out.txdb = none
  state : ∀ h, h ∈ r.state → h ∈ nodes.map SHAMapNode.hash
  root : r.current_root ∈ nodes.map SHAMapNode.hash
  rows : ∀ row ∈ r.ledger_rows, RowHeld nodes row

theorem find_new_root_mem {added : List SHAMapNode} {prev root : Hash256}
    (h : find_new_root added prev = .ok root) : root = prev ∨ ∃ n ∈ added, n.hash = root := by
  unfold find_new_root at h
  simp only at h
  split at h
  · exact .inl (Except.ok.inj h).symm
  · next r hr =>
    have hmem : r ∈ [r] := List.mem_singleton.mpr rfl
    rw [← hr] at hmem
    obtain ⟨n, hn, hhash⟩ := List.mem_map.mp hmem
    rw [Except.ok.injEq] at h
    exact .inr ⟨n, List.mem_of_mem_filter (List.mem_of_mem_filter hn), hhash.trans h⟩
  · cases h

/-- One ledger: its added nodes, then its transaction tree. -/
theorem ReplayServes.step {T : TxDb τ} {r r' : Replay NuDbSink τ} {nodes tx_nodes : List SHAMapNode}
    {delta : LedgerDelta} {tx_map : TxMap} {tx_hash : Hash256} {out₁ out₂ : Outputs NuDbSink τ}
    (hr : ReplayServes xxh64 sha512half r nodes)
    (hv : LedgerVerified (NuDbSink.node_sink xxh64) T sha512half r delta tx_map r' tx_hash tx_nodes
      out₁ out₂)
    (htyped : ∀ n ∈ delta.diff.added, StateTyped n) :
    ∃ nodes', ReplayServes xxh64 sha512half r' nodes' ∧ nodes ⊆ nodes' := by
  have hstate : ∀ h, h ∈ r'.state →
      h ∈ nodes.map SHAMapNode.hash ∨ h ∈ delta.diff.added.map SHAMapNode.hash := by
    intro h hh
    rw [hv.state, mem_apply_diff] at hh
    rcases hh with ⟨hh, _⟩ | ⟨n, hn, rfl⟩
    · exact .inl (hr.state h hh)
    · exact .inr (List.mem_map_of_mem hn)
  obtain ⟨nodes₁, hs₁, htx₁, hsub₁, hall₁⟩ := hr.sink.batch hv.sunk_state (by
    intro m hm
    have hmem : m ∈ delta.diff.added := List.mem_of_find?_eq_some hm
    have ht := htyped m hmem
    refine ⟨ht.exported, fun htin => ?_, hv.rehash m hmem, fun cs hcs c hc => ?_⟩
    · obtain ⟨cs, hcs, _⟩ := hv.children_held m hmem (by rw [htin]; rfl)
      exact full_of_refs hcs htin
    · obtain ⟨cs', hcs', hkids⟩ := hv.children_held m hmem (SHAMapNode.is_inner_of_refs hcs hc)
      rw [hcs, Option.some.injEq] at hcs'
      exact hstate c (hkids c (hcs' ▸ hc)))
  obtain ⟨htree, hroot⟩ := build_tx_tree_servable hv.tree
  obtain ⟨nodes₂, hs₂, htx₂, hsub₂, hall₂⟩ := hs₁.batch hv.sunk_txns (by
    intro m hm
    exact (htree m (List.mem_of_find?_eq_some hm)).mono fun a ha => .inr ha)
  -- Without a transaction database nothing else is written.
  have hnone : out₂.txdb = none := by rw [htx₂, htx₁, hr.txdb]
  have hout : r'.out = out₂ := by
    have hw := hv.written
    unfold write_ledger_outputs at hw
    rw [hnone] at hw
    exact (Except.ok.inj hw).symm
  have hmap : ∀ a, a ∈ nodes₁.map SHAMapNode.hash → a ∈ nodes₂.map SHAMapNode.hash :=
    fun a ha => List.map_subset _ hsub₂ ha
  have hold : ∀ a, a ∈ nodes.map SHAMapNode.hash → a ∈ nodes₂.map SHAMapNode.hash :=
    fun a ha => hmap a (List.map_subset _ hsub₁ ha)
  have hadded : ∀ a, a ∈ delta.diff.added.map SHAMapNode.hash → a ∈ nodes₂.map SHAMapNode.hash := by
    intro a ha
    obtain ⟨n, hn, rfl⟩ := List.mem_map.mp ha
    exact hmap _ (hall₁ n hn)
  have hcurrent : r'.current_root ∈ nodes₂.map SHAMapNode.hash := by
    rcases find_new_root_mem hv.root with h | ⟨n, hn, h⟩
    · rw [h]
      exact hold _ hr.root
    · rw [← h]
      exact hadded _ (List.mem_map_of_mem hn)
  refine ⟨nodes₂, ⟨hout ▸ hs₂, hout ▸ hnone, ?_, hcurrent, ?_⟩,
    List.Subset.trans hsub₁ hsub₂⟩
  · intro h hh
    rcases hstate h hh with hh | hh
    · exact hold h hh
    · exact hadded h hh
  · intro row hrow
    rw [hv.rows] at hrow
    rcases List.mem_append.mp hrow with hrow | hrow
    · exact (hr.rows row hrow).mono (List.Subset.trans hsub₁ hsub₂)
    · rw [List.mem_singleton.mp hrow]
      refine ⟨?_, fun hz => ?_⟩
      · show tx_map.account_hash ∈ _
        rw [← hv.account_hash]
        exact hcurrent
      · obtain ⟨n, hn, hhash⟩ := List.mem_map.mp (hroot hz)
        show tx_hash ∈ _
        rw [← hhash]
        exact hall₂ n hn

/-- All ledgers of a chunk. -/
theorem ReplayServes.run {T : TxDb τ} {r r' : Replay NuDbSink τ} {nodes : List SHAMapNode}
    {ls : List (LedgerDelta × TxMap)} (hr : ReplayServes xxh64 sha512half r nodes)
    (hrun : LedgerRun (NuDbSink.node_sink xxh64) T sha512half r ls r')
    (htyped : ∀ l ∈ ls, ∀ n ∈ l.1.diff.added, StateTyped n) :
    ∃ nodes', ReplayServes xxh64 sha512half r' nodes' ∧ nodes ⊆ nodes' := by
  induction hrun generalizing nodes with
  | done r => exact ⟨nodes, hr, List.Subset.refl _⟩
  | step hv _ ih =>
    obtain ⟨nodes₁, hr₁, hsub₁⟩ := hr.step hv (htyped _ List.mem_cons_self)
    obtain ⟨nodes₂, hr₂, hsub₂⟩ := ih hr₁ fun l hl => htyped l (List.mem_cons_of_mem _ hl)
    exact ⟨nodes₂, hr₂, List.Subset.trans hsub₁ hsub₂⟩

/-- What is supposed of a chunk: the exporter's node types, a checkpoint
    whose walk meets no node twice, and no two of its nodes with the same
    hash but different content. -/
structure ChunkSupposed (sha512half : Bytes → Hash256) (chunk : Chunk) : Prop where
  checkpoint_typed : ∀ n ∈ chunk.checkpoint, StateTyped n
  added_typed : ∀ d ∈ chunk.deltas, ∀ n ∈ d.diff.added, StateTyped n
  once : ∀ root, chunk.checkpoint_root = some root →
    NoNodeTwice (checkpoint_state chunk.checkpoint) root
  collision_free : Set.InjOn sha512half (node_inputs chunk.checkpoint)

/-- A replay leaves the sink closed, with the roots of its rows in it. -/
theorem Replays.serves {T : TxDb τ} {out : Outputs NuDbSink τ} {chunk : Chunk}
    {res : ReplayResult × Outputs NuDbSink τ} {nodes : List SHAMapNode}
    (h : Replays (NuDbSink.node_sink xxh64) T sha512half true out chunk res)
    (hs : SinkHolds xxh64 sha512half out.sink nodes) (htx : out.txdb = none)
    (hc : ChunkSupposed sha512half chunk) (hlast : FirstAsLast chunk.checkpoint) :
    ∃ nodes', SinkHolds xxh64 sha512half res.2.sink nodes' ∧ res.2.txdb = none ∧
      nodes ⊆ nodes' ∧ ∀ row ∈ res.1.ledger_rows, RowHeld nodes' row := by
  obtain ⟨-, fuel, cp, out₁, r₀, r₁, hsteps⟩ := h.steps
  have hroot : chunk.checkpoint_root = some cp.account_hash := by
    unfold Chunk.checkpoint_root
    rw [hsteps.first]
    rfl
  -- The checkpoint.
  obtain ⟨nodes₁, hs₁, htx₁, hsub₁, hall₁⟩ := hs.batch hsteps.sunk (by
    intro m hm
    exact (hsteps.checkpoint.fits hc.checkpoint_typed (hc.once _ hroot) hlast hc.collision_free
      hm).mono fun a ha => .inr ha)
  have hstate : ∀ a, a ∈ checkpoint_state chunk.checkpoint → a ∈ nodes₁.map SHAMapNode.hash := by
    intro a ha
    obtain ⟨n, hn, rfl⟩ := mem_checkpoint.mp ha
    exact hall₁ n hn
  -- The transactions of the checkpoint's ledger.
  obtain ⟨out₂, tx_hash, tx_nodes, hwrite, htree, hsunk, hst, hcur, -, hrows⟩ :=
    open_ledger_ok.mp hsteps.opened
  have hout₂ : out₂ = out₁ := by
    unfold Outputs.write_ledger at hwrite
    rw [htx₁.trans htx] at hwrite
    exact (Except.ok.inj hwrite).symm
  subst hout₂
  obtain ⟨nodes₂, hs₂, htx₂, hsub₂, -⟩ := hs₁.batch hsunk (by
    intro m hm
    exact ((build_tx_tree_servable htree).1 m (List.mem_of_find?_eq_some hm)).mono
      fun a ha => .inr ha)
  have hr₀ : ReplayServes xxh64 sha512half r₀ nodes₂ := by
    refine ⟨hs₂, htx₂.trans (htx₁.trans htx), ?_, ?_, ?_⟩
    · intro a ha
      rw [hst] at ha
      exact List.map_subset _ hsub₂ (hstate a ha)
    · rw [hcur]
      exact List.map_subset _ hsub₂ (hstate _ hsteps.root_held)
    · intro row hrow
      rw [hrows] at hrow
      cases hrow
  -- The deltas.
  obtain ⟨nodes₃, hr₁, hsub₃⟩ := hr₀.run hsteps.run (by
    intro l hl n hn
    exact hc.added_typed l.1 (List.of_mem_zip hl).1 n hn)
  have hres : ({ state := r₁.state, ledger_rows := r₁.ledger_rows }, r₁.out) = res := by
    have hfin := hsteps.finished
    unfold finish_replay at hfin
    obtain ⟨_, _, hfin⟩ := bind_eq_ok.mp hfin
    exact pure_eq_ok.mp hfin
  subst hres
  exact ⟨nodes₃, hr₁.sink, hr₁.txdb,
    List.Subset.trans hsub₁ (List.Subset.trans hsub₂ hsub₃), hr₁.rows⟩

/-! ## One import -/

/-- All files of an invocation. -/
theorem import_chunks_serves {T : TxDb τ} {fuel : Nat} {files : List Bytes}
    {acc res : List LedgerDbRow × Outputs NuDbSink τ} {nodes : List SHAMapNode}
    (hs : SinkHolds xxh64 sha512half acc.2.sink nodes) (htx : acc.2.txdb = none)
    (hrows : ∀ row ∈ acc.1, RowHeld nodes row)
    (hfiles : ∀ file ∈ files, ∀ chunk, FileHolds sha512half file chunk →
      ChunkSupposed sha512half chunk ∧ FirstAsLast chunk.checkpoint)
    (h : files.foldlM (fun (acc : List LedgerDbRow × Outputs NuDbSink τ) file => do
      let (replay, out) ← import_chunk (NuDbSink.node_sink xxh64) T sha512half fuel true file acc.2
      pure (acc.1 ++ replay.ledger_rows, out)) acc = .ok res) :
    ∃ nodes', SinkHolds xxh64 sha512half res.2.sink nodes' ∧ ∀ row ∈ res.1, RowHeld nodes' row := by
  induction files generalizing acc nodes with
  | nil =>
    rw [foldlM_nil_ok] at h
    subst h
    exact ⟨nodes, hs, hrows⟩
  | cons file files ih =>
    obtain ⟨acc₁, hfile, hrest⟩ := foldlM_cons_ok.mp h
    obtain ⟨replay, himport, hacc⟩ := bind_eq_ok.mp hfile
    rw [pure_eq_ok] at hacc
    subst hacc
    obtain ⟨chunk, hholds, hreplays⟩ := import_chunk_ok himport
    obtain ⟨hc, hlast⟩ := hfiles file List.mem_cons_self chunk hholds
    obtain ⟨nodes₁, hs₁, htx₁, hsub, hnew⟩ := hreplays.serves hs htx hc hlast
    refine ih hs₁ htx₁ ?_ (fun f hf => hfiles f (List.mem_cons_of_mem _ hf)) hrest
    intro row hrow
    rcases List.mem_append.mp hrow with hrow | hrow
    · exact (hrows row hrow).mono hsub
    · exact hnew row hrow

/-! ## The store -/

/-- The reader returns `n` for `h`, given rounds enough to follow the spill
    chains. -/
def NuDBReader.Returns (xxh64 : Bytes → UInt64 → UInt64) (lz4 : Bytes → Nat → Option Bytes)
    (r : NuDBReader) (h : Hash256) (n : SHAMapNode) : Prop :=
  ∃ fuel₀, ∀ fuel ≥ fuel₀, r.get_node xxh64 lz4 fuel h = .ok n

/-- Following inner nodes as the reader returns them leads to `h`. -/
inductive FoundBelow (xxh64 : Bytes → UInt64 → UInt64) (lz4 : Bytes → Nat → Option Bytes)
    (r : NuDBReader) (root : Hash256) : Hash256 → Prop where
  | root : FoundBelow xxh64 lz4 r root root
  | child {h c : Hash256} {n : SHAMapNode} {cs : List Hash256}
      (hh : FoundBelow xxh64 lz4 r root h) (hn : r.Returns xxh64 lz4 h n)
      (hcs : n.refs = some cs) (hc : c ∈ cs) : FoundBelow xxh64 lz4 r root c

/-- Everything below the root is returned under its own hash, parses and
    hashes to that hash. -/
def ServesTree (xxh64 : Bytes → UInt64 → UInt64) (lz4 : Bytes → Nat → Option Bytes)
    (sha512half : Bytes → Hash256) (r : NuDBReader) (root : Hash256) : Prop :=
  ∀ h, FoundBelow xxh64 lz4 r root h → ∃ n, r.Returns xxh64 lz4 h n ∧ n.hash = h ∧
    recompute_node_hash sha512half n = h ∧ n.refs.isSome = true

def ServesRow (xxh64 : Bytes → UInt64 → UInt64) (lz4 : Bytes → Nat → Option Bytes)
    (sha512half : Bytes → Hash256) (r : NuDBReader) (row : LedgerDbRow) : Prop :=
  ServesTree xxh64 lz4 sha512half r row.account_hash ∧
    (row.trans_hash ≠ ZERO_HASH → ServesTree xxh64 lz4 sha512half r row.trans_hash)

/-- The files of a sink open, and the reader returns what was written and
    nothing else. -/
theorem Stored.opens {lz4 : Bytes → Nat → Option Bytes} {sink : NuDbSink}
    {nodes : List SHAMapNode} {dat key : Bytes} (hs : Stored xxh64 sink (encode_calls nodes))
    (hstorable : ∀ n ∈ nodes, n.node_type.is_exported = true ∧
      (n.node_type = .Inner → n.content.length = 512))
    (hfin : sink.finish xxh64 = (dat, key)) (hdat : dat.length < 2 ^ 48)
    (hkey : key.length < 2 ^ 48) :
    ∃ reader, NuDBReader.open_single (dat, key) = .ok reader ∧
      ∀ h n, reader.Returns xxh64 lz4 h n ↔ nodes_store nodes h = some n := by
  have hf := finish_finished hs.offset_eq hfin
  refine ⟨{ shards := [finished_shard sink dat key] }, ?_, fun h n => ?_⟩
  · simp [NuDBReader.open_single, NuDBReader.open, hf.open_eq hkey, bail_if, Bind.bind,
      Except.bind, Pure.pure, Except.pure]
  obtain ⟨fuel₀, hfetch⟩ := hs.fetch hf hdat h
  rw [lookup_encode_calls] at hfetch
  have hheld : ∀ m, nodes_store nodes h = some m → ∀ fuel ≥ fuel₀,
      NuDBReader.get_node xxh64 lz4 fuel { shards := [finished_shard sink dat key] } h = .ok m := by
    intro m hm fuel hfuel
    have hmem : m ∈ nodes := List.mem_of_find?_eq_some hm
    have hhash := List.find?_some hm
    rw [decide_eq_true_eq] at hhash
    subst hhash
    refine get_node_of_fetch (hstorable m hmem).1 (hstorable m hmem).2 ?_
    rw [hfetch fuel hfuel, hm]
    rfl
  constructor
  · rintro ⟨fuel₁, hget⟩
    have hget := hget (max fuel₀ fuel₁) (le_max_right _ _)
    cases hm : nodes_store nodes h with
    | some m =>
      rw [hheld m hm _ (le_max_left _ _)] at hget
      rw [Except.ok.inj hget]
    | none =>
      -- Nothing is stored under the hash, and `get_node` says so.
      exfalso
      have hnone := hfetch (max fuel₀ fuel₁) (le_max_left _ _)
      rw [hm] at hnone
      simp [NuDBReader.get_node, NuDBReader.get_wire, NuDBReader.get_wire_loop, hnone, Bind.bind,
        Except.bind, ok_or] at hget
  · intro hm
    exact ⟨fuel₀, hheld n hm⟩

theorem written_files_open {lz4 : Bytes → Nat → Option Bytes} {nodes : List SHAMapNode}
    (hstorable : ∀ n ∈ nodes, n.node_type.is_exported = true ∧
      (n.node_type = .Inner → n.content.length = 512))
    (hdat : (written_files xxh64 nodes).1.length < 2 ^ 48)
    (hkey : (written_files xxh64 nodes).2.length < 2 ^ 48) :
    ∃ reader, NuDBReader.open_single ((written_files xxh64 nodes).1, (written_files xxh64 nodes).2) =
        .ok reader ∧
      ∀ h n, reader.Returns xxh64 lz4 h n ↔ nodes_store nodes h = some n :=
  (stored_create.write_nodes _).opens hstorable rfl hdat hkey

theorem Fits.refs_isSome {known : Hash256 → Prop} {n : SHAMapNode} (h : Fits sha512half known n) :
    n.refs.isSome = true := by
  by_cases hin : n.node_type = .Inner
  · have hparse : ∃ inner, InnerNode.from_node n = .ok inner := by
      unfold InnerNode.from_node InnerNode.from_full_bytes
      rw [hin]
      simp [h.full hin]
    obtain ⟨inner, hparse⟩ := hparse
    rw [(SHAMapNode.refs_inner (by rw [hin]; rfl)).mpr ⟨inner, hparse, rfl⟩]
    rfl
  · have hleaf : n.node_type.is_inner = false := by
      have he := h.exported
      cases ht : n.node_type with
      | Inner => exact absurd ht hin
      | CompressedInner => rw [ht] at he; cases he
      | _ => rfl
    rw [SHAMapNode.refs_leaf hleaf]
    rfl

/-- A reader of a closed store serves every tree whose root is stored. -/
theorem Servable.serves_tree {lz4 : Bytes → Nat → Option Bytes} {reader : NuDBReader}
    {nodes : List SHAMapNode} (hs : Servable sha512half nodes)
    (hreader : ∀ h n, reader.Returns xxh64 lz4 h n ↔ nodes_store nodes h = some n)
    {root : Hash256} (hroot : root ∈ nodes.map SHAMapNode.hash) :
    ServesTree xxh64 lz4 sha512half reader root := by
  -- Along the way down every hash is one of a stored node.
  have hheld : ∀ h, FoundBelow xxh64 lz4 reader root h → h ∈ nodes.map SHAMapNode.hash := by
    intro h hh
    induction hh with
    | root => exact hroot
    | child _ hn hcs hc _ =>
      have hmem := List.mem_of_find?_eq_some ((hreader _ _).mp hn)
      exact (hs _ hmem).children _ hcs _ hc
  intro h hh
  obtain ⟨n, hn⟩ := Option.isSome_iff_exists.mp (nodes_store_isSome.mpr (hheld h hh))
  have hhash : n.hash = h := by simpa using List.find?_some hn
  have hfits := hs n (List.mem_of_find?_eq_some hn)
  exact ⟨n, (hreader h n).mpr hn, hhash, hfits.rehash.trans hhash, hfits.refs_isSome⟩

/-- The store that an import with verification leaves serves the state and
    the transactions of every imported ledger, unless a checkpoint lists a
    hash first as an inner node and last as an account. -/
theorem imported_store_serves {lz4 : Bytes → Nat → Option Bytes} {fuel : Nat} {files : List Bytes}
    {rows : List LedgerDbRow} {dat key : Bytes}
    (h : import_main xxh64 sha512half fuel true files = .ok (rows, dat, key))
    (hfiles : ∀ file ∈ files, ∀ chunk, FileHolds sha512half file chunk →
      ChunkSupposed sha512half chunk ∧ FirstAsLast chunk.checkpoint)
    (hdat : dat.length < 2 ^ 48) (hkey : key.length < 2 ^ 48) :
    ∃ reader, NuDBReader.open_single (dat, key) = .ok reader ∧
      ∀ row ∈ rows, ServesRow xxh64 lz4 sha512half reader row := by
  obtain ⟨⟨rows', out⟩, himport, hres⟩ := bind_eq_ok.mp h
  rw [pure_eq_ok, Prod.mk.injEq] at hres
  obtain ⟨hrows, hfin⟩ := hres
  subst hrows
  have hempty : SinkHolds xxh64 sha512half NuDbSink.create [] :=
    ⟨stored_create, fun n hn => (by cases hn)⟩
  obtain ⟨nodes, hs, hheld⟩ := import_chunks_serves hempty rfl (fun row hrow => (by cases hrow)) hfiles himport
  obtain ⟨reader, hopen, hreader⟩ := @Stored.opens xxh64 lz4 _ _ _ _ hs.stored
    (fun n hn => ⟨(hs.servable n hn).exported, (hs.servable n hn).full⟩) hfin hdat hkey
  refine ⟨reader, hopen, fun row hrow => ?_⟩
  obtain ⟨haccount, htrans⟩ := hheld row hrow
  exact ⟨hs.servable.serves_tree hreader haccount,
    fun hz => hs.servable.serves_tree hreader (htrans hz)⟩

/-! ## A relabelled root -/

theorem detect_version_of_layout {file body rest : Bytes} {h : ChunkHeader} {chunk : Chunk}
    (hl : Layout file h body rest chunk) :
    detect_version file = .ok FORMAT_VERSION_STREAMED := by
  obtain ⟨⟨fields, hfile, -⟩, -⟩ := hl
  have hread : read_exact_at file 0 5 = .ok (MAGIC_HEADER ++ [FORMAT_VERSION_STREAMED]) :=
    read_exact_at_of_hasAt ⟨[], fields ++ (body ++ rest), by rw [hfile]; simp, rfl⟩ rfl
  unfold detect_version
  rw [hread]
  rfl

/-- A file with the v3 layout holds no other chunk. -/
theorem Layout.holds_only {file body rest : Bytes} {h : ChunkHeader} {chunk : Chunk}
    (hl : Layout file h body rest chunk) {P : Chunk → Prop} (hP : P chunk) :
    ∀ chunk', FileHolds sha512half file chunk' → P chunk' := by
  intro chunk' hf
  unfold FileHolds at hf
  rw [if_pos hl.version] at hf
  obtain ⟨h₂, body₂, rest₂, hl₂⟩ := hf
  rw [(hl₂.unique hl).2.2.2]
  exact hP

def fresh_outputs : Outputs NuDbSink Unit := { sink := NuDbSink.create, txdb := none, calls := [] }

/-- One v3 file with a correct chunk hash is imported as its chunk is
    replayed. -/
theorem import_main_of_replay {fuel : Nat} {file body : Bytes} {h : ChunkHeader} {chunk : Chunk}
    {rows : List LedgerDbRow} {sink : NuDbSink} (hl : Layout file h body [] chunk)
    (hhash : sha512half body = h.stored_chunk_hash)
    (hrun : (replay_chunk (NuDbSink.node_sink xxh64) NoTxDb sha512half fuel chunk true
      fresh_outputs).map (fun res => (res.1.ledger_rows, res.2.sink)) = .ok (rows, sink)) :
    import_main xxh64 sha512half fuel true [file] = .ok (rows, sink.finish xxh64) := by
  obtain ⟨res, hres, hparts⟩ : ∃ res, replay_chunk (NuDbSink.node_sink xxh64) NoTxDb sha512half
      fuel chunk true fresh_outputs = .ok res ∧ (res.1.ledger_rows, res.2.sink) = (rows, sink) := by
    cases hr : replay_chunk (NuDbSink.node_sink xxh64) NoTxDb sha512half fuel chunk true
        fresh_outputs with
    | error e => rw [hr] at hrun; cases hrun
    | ok res => rw [hr] at hrun; exact ⟨res, rfl, Except.ok.inj hrun⟩
  rw [Prod.mk.injEq] at hparts
  obtain ⟨hrows, hsink⟩ := hparts
  subst hrows; subst hsink
  have hstream : replay_chunk_streaming (NuDbSink.node_sink xxh64) NoTxDb sha512half fuel file true
      fresh_outputs = .ok res :=
    replay_chunk_streaming_ok.mpr ⟨h, body, [], chunk, hl, hhash, (replay_chunk_ok.mp hres).2⟩
  have hchunk : import_chunk (NuDbSink.node_sink xxh64) NoTxDb sha512half fuel true file
      fresh_outputs = .ok res :=
    bind_eq_ok.mpr ⟨FORMAT_VERSION_STREAMED, detect_version_of_layout hl, by
      rw [if_pos rfl]; exact hstream⟩
  refine bind_eq_ok.mpr ⟨(res.1.ledger_rows, res.2), ?_, rfl⟩
  exact foldlM_cons_ok.mpr ⟨_, bind_eq_ok.mpr ⟨res, hchunk, rfl⟩, foldlM_nil_ok.mpr rfl⟩

/-- Ledger 8 without changes. -/
def empty_delta_8 : LedgerDelta := { ledger_seq := 8, diff := { added := [], deleted := [] } }

/-- Ledger 7 with the given state, and ledger 8. -/
def idle_ledger_file (checkpoint : List SHAMapNode) : Bytes :=
  (((((ChunkWriter.create 1 7 8 ZERO_HASH).write_checkpoint checkpoint).write_tx_map
    (empty_tx_map 7 ZERO_HASH one_child_hash)).write_delta empty_delta_8).write_tx_map
    ledger_8).finish sha2_sha512half |>.2

def idle_ledger_body (checkpoint : List SHAMapNode) : Bytes :=
  written_body checkpoint (empty_tx_map 7 ZERO_HASH one_child_hash) [(empty_delta_8, ledger_8)]

def idle_ledger_header (checkpoint : List SHAMapNode) : ChunkHeader :=
  { network_id := 1, start_ledger := 7, end_ledger := 8, checkpoint_hash := ZERO_HASH,
    stored_chunk_hash := sha2_sha512half (idle_ledger_body checkpoint ++ MAGIC_FOOTER) }

def idle_ledger_chunk (checkpoint : List SHAMapNode) : Chunk :=
  (idle_ledger_header checkpoint).written_chunk checkpoint (empty_tx_map 7 ZERO_HASH one_child_hash)
    [(empty_delta_8, ledger_8)]

theorem idle_ledger_chunk_checkpoint (checkpoint : List SHAMapNode) :
    (idle_ledger_chunk checkpoint).checkpoint = sort_nodes checkpoint := rfl

/-- The import of the file, from the replay of its chunk. -/
theorem idle_ledger_import {checkpoint nodes : List SHAMapNode} {rows : List LedgerDbRow}
    (hl : Layout (idle_ledger_file checkpoint) (idle_ledger_header checkpoint)
      (idle_ledger_body checkpoint ++ MAGIC_FOOTER) [] (idle_ledger_chunk checkpoint))
    (hrun : (replay_chunk (NuDbSink.node_sink xxh64) NoTxDb sha2_sha512half 3
      (idle_ledger_chunk checkpoint) true fresh_outputs).map
        (fun res => (res.1.ledger_rows, res.2.sink)) =
      .ok (rows, NuDbSink.create.write_nodes xxh64 (encode_calls nodes))) :
    import_main xxh64 sha2_sha512half 3 true [idle_ledger_file checkpoint] =
      .ok (rows, (written_files xxh64 nodes).1, (written_files xxh64 nodes).2) :=
  import_main_of_replay hl rfl hrun

theorem idle_ledger_layout {checkpoint : List SHAMapNode} (hcount : checkpoint.length < 2 ^ 32)
    (hnarrow : ∀ n ∈ checkpoint, n.Narrow) :
    Layout (idle_ledger_file checkpoint) (idle_ledger_header checkpoint)
      (idle_ledger_body checkpoint ++ MAGIC_FOOTER) [] (idle_ledger_chunk checkpoint) := by
  have hempty : ∀ seq hash root, (empty_tx_map seq hash root).Narrow := by
    intro seq hash root
    exact ⟨by show 0 < 2 ^ 16; omega, fun tx htx => (by cases htx)⟩
  have hone : (idle_ledger_header checkpoint).delta_count = 1 := by
    show (8 - 7 : UInt32).toNat = 1
    decide
  refine ChunkWriter.Wrote.layout ?_ ⟨hcount, hnarrow, hempty _ _ _, ?_⟩ hone rfl
  · have hw := ((((ChunkWriter.create_wrote (idle_ledger_header checkpoint)).write_checkpoint
      checkpoint).write_tx_map (empty_tx_map 7 ZERO_HASH one_child_hash)).write_delta
      empty_delta_8).write_tx_map ledger_8
    unfold written_body
    rw [List.nil_append, List.append_assoc _ (write_delta empty_delta_8)] at hw
    rw [List.flatMap_singleton]
    exact hw
  · intro p hp
    rw [List.mem_singleton.mp hp]
    exact ⟨⟨by show 0 < 2 ^ 32; omega, fun n hn => (by cases hn), by show 0 < 2 ^ 32; omega⟩,
      ⟨by show 0 < 2 ^ 16; omega, fun tx htx => (by cases htx)⟩⟩

/-- What is supposed of the chunk, from the walk of its checkpoint. -/
theorem idle_ledger_supposed {checkpoint : List SHAMapNode} {hashes : List Hash256}
    (htyped : ∀ n ∈ sort_nodes checkpoint, StateTyped n)
    (hwalk : Walks (checkpoint_state (sort_nodes checkpoint)).refs [one_child_hash] hashes)
    (hnodup : hashes.Nodup)
    (hinj : Set.InjOn sha2_sha512half (node_inputs (sort_nodes checkpoint))) :
    ChunkSupposed sha2_sha512half (idle_ledger_chunk checkpoint) := by
  refine ⟨htyped, ?_, ?_, hinj⟩
  · intro d hd n hn
    rw [List.mem_singleton.mp hd] at hn
    cases hn
  · intro root hroot
    have heq : root = one_child_hash := (Option.some.inj hroot).symm
    rw [idle_ledger_chunk_checkpoint, heq]
    exact ⟨hashes, hwalk, hnodup⟩

/-- The row of ledger 8. -/
def row_8 : LedgerDbRow := ledger_8.row ZERO_HASH one_child_hash ZERO_HASH

/-- The root of an account state with one account. -/
def inner_root : SHAMapNode := ⟨one_child_hash, .Inner, one_child_content⟩

/-- The same hash as an account. -/
def account_root : SHAMapNode :=
  ⟨one_child_hash, .AccountState, HASH_PREFIX_INNER_NODE ++ one_child_content⟩

def relabelled_checkpoint : List SHAMapNode := [inner_root, account_root]

theorem mem_relabelled {n : SHAMapNode} :
    n ∈ sort_nodes relabelled_checkpoint ↔ n = inner_root ∨ n = account_root := by
  rw [(sort_nodes_perm relabelled_checkpoint).mem_iff]
  unfold relabelled_checkpoint
  rw [List.mem_cons, List.mem_singleton]

theorem one_child_content_length : one_child_content.length = 512 := by
  unfold one_child_content
  rw [List.length_append, lone_account.hash.length_eq, List.length_replicate]

theorem relabelled_layout :
    Layout (idle_ledger_file relabelled_checkpoint) (idle_ledger_header relabelled_checkpoint)
      (idle_ledger_body relabelled_checkpoint ++ MAGIC_FOOTER) []
      (idle_ledger_chunk relabelled_checkpoint) := by
  refine idle_ledger_layout (by decide) fun n hn => ?_
  rw [← (sort_nodes_perm relabelled_checkpoint).mem_iff, mem_relabelled] at hn
  rcases hn with hn | hn
  · rw [hn]
    show one_child_content.length < 2 ^ 16
    rw [one_child_content_length]
    decide
  · rw [hn]
    show (HASH_PREFIX_INNER_NODE ++ one_child_content).length < 2 ^ 16
    rw [List.length_append, one_child_content_length]
    decide

theorem relabelled_injOn :
    Set.InjOn sha2_sha512half (node_inputs (sort_nodes relabelled_checkpoint)) := by
  -- Both nodes hash the same bytes.
  have hinput : ∀ x ∈ node_inputs (sort_nodes relabelled_checkpoint), x = hash_input inner_root := by
    rintro x ⟨n, hn, hx⟩
    rcases mem_relabelled.mp hn with hn | hn
    · rw [hx, hn]
    · rw [hx, hn]
      rfl
  intro x hx y hy _
  exact (hinput x hx).trans (hinput y hy).symm

/-- The state map holds the account, and the sink has written the inner node
    only. -/
theorem relabelled_facts :
    (checkpoint_state (sort_nodes relabelled_checkpoint)).refs one_child_hash = some [] ∧
      (replay_chunk (NuDbSink.node_sink Xxh64.digest) NoTxDb sha2_sha512half 3
        (idle_ledger_chunk relabelled_checkpoint) true fresh_outputs).map
          (fun res => (res.1.ledger_rows, res.2.sink)) =
        .ok ([row_8], NuDbSink.create.write_nodes Xxh64.digest (encode_calls [inner_root])) ∧
      (written_files Xxh64.digest [inner_root]).1.length < 2 ^ 48 ∧
      (written_files Xxh64.digest [inner_root]).2.length < 2 ^ 48 ∧
      inner_root.refs = some [lone_account.hash] ∧
      nodes_store [inner_root] lone_account.hash = none := by
  decide +kernel

/-- The chunk meets what is supposed of it: its checkpoint's walk ends at
    the root, which the state map holds as an account. -/
theorem relabelled_supposed :
    ChunkSupposed sha2_sha512half (idle_ledger_chunk relabelled_checkpoint) := by
  have htyped : ∀ n ∈ sort_nodes relabelled_checkpoint, StateTyped n := by
    intro n hn
    rcases mem_relabelled.mp hn with hn | hn
    · rw [hn]
      exact .inl rfl
    · rw [hn]
      exact .inr rfl
  obtain ⟨hrefs, -⟩ := relabelled_facts
  exact idle_ledger_supposed htyped (.step hrefs .done) (List.nodup_singleton _) relabelled_injOn

/-- A reader that has the inner node and nothing else does not serve the
    row. -/
theorem inner_root_not_served {lz4 : Bytes → Nat → Option Bytes} {reader : NuDBReader}
    (hreturns : ∀ h n, reader.Returns xxh64 lz4 h n ↔ nodes_store [inner_root] h = some n) :
    ¬ ServesRow xxh64 lz4 sha512half reader row_8 := by
  obtain ⟨-, -, -, -, hrefs, hnone⟩ := relabelled_facts
  intro hserves
  have hroot : reader.Returns xxh64 lz4 one_child_hash inner_root :=
    (hreturns one_child_hash inner_root).mpr (by simp [nodes_store, inner_root])
  obtain ⟨n, hn, -, -⟩ := hserves.1 lone_account.hash
    (.child .root hroot hrefs List.mem_cons_self)
  rw [hreturns, hnone] at hn
  cases hn

/-- The file is imported with verification, and its store returns the root
    of ledger 8 as an inner node whose child it does not have. -/
theorem relabelled_root_not_served :
    ∃ rows dat key, import_main Xxh64.digest sha2_sha512half 3 true
        [idle_ledger_file relabelled_checkpoint] = .ok (rows, dat, key) ∧
      (∀ chunk, FileHolds sha2_sha512half (idle_ledger_file relabelled_checkpoint) chunk →
        ChunkSupposed sha2_sha512half chunk) ∧
      dat.length < 2 ^ 48 ∧ key.length < 2 ^ 48 ∧
      ∀ reader, NuDBReader.open_single (dat, key) = .ok reader →
        ∃ row ∈ rows, ¬ ServesRow Xxh64.digest (fun _ _ => none) sha2_sha512half reader row := by
  obtain ⟨-, hreplay, hdat, hkey, -⟩ := relabelled_facts
  refine ⟨[row_8], (written_files Xxh64.digest [inner_root]).1,
    (written_files Xxh64.digest [inner_root]).2, idle_ledger_import relabelled_layout hreplay,
    relabelled_layout.holds_only relabelled_supposed, hdat, hkey, fun reader hopen => ?_⟩
  obtain ⟨reader', hopen', hreturns⟩ := @written_files_open Xxh64.digest (fun _ _ => none)
    [inner_root] (by
      intro n hn
      rw [List.mem_singleton.mp hn]
      exact ⟨rfl, fun _ => one_child_content_length⟩) hdat hkey
  obtain rfl : reader = reader' := Except.ok.inj (hopen.symm.trans hopen')
  exact ⟨row_8, List.mem_singleton.mpr rfl, inner_root_not_served hreturns⟩

/-! ## An ordinary import -/

theorem whole_layout :
    Layout (idle_ledger_file whole_checkpoint) (idle_ledger_header whole_checkpoint)
      (idle_ledger_body whole_checkpoint ++ MAGIC_FOOTER) []
      (idle_ledger_chunk whole_checkpoint) := by
  refine idle_ledger_layout (by decide) fun n hn => ?_
  unfold whole_checkpoint at hn
  rcases List.mem_cons.mp hn with hn | hn
  · rw [hn]
    show one_child_content.length < 2 ^ 16
    rw [one_child_content_length]
    decide
  · rw [List.mem_singleton.mp hn]
    show 1 < 2 ^ 16
    decide

theorem mem_whole {n : SHAMapNode} :
    n ∈ sort_nodes whole_checkpoint ↔ n = inner_root ∨ n = lone_account := by
  rw [(sort_nodes_perm whole_checkpoint).mem_iff]
  unfold whole_checkpoint
  rw [List.mem_cons, List.mem_singleton]
  rfl

theorem whole_facts :
    ([HASH_PREFIX_INNER_NODE ++ one_child_content, [1]].map sha2_sha512half).Nodup ∧
      (checkpoint_state (sort_nodes whole_checkpoint)).refs one_child_hash =
        some [lone_account.hash] ∧
      (checkpoint_state (sort_nodes whole_checkpoint)).refs lone_account.hash = some [] ∧
      [one_child_hash, lone_account.hash].Nodup ∧
      (checkpoint_state (sort_nodes whole_checkpoint)).lookup inner_root.hash = some inner_root ∧
      (replay_chunk (NuDbSink.node_sink Xxh64.digest) NoTxDb sha2_sha512half 3
        (idle_ledger_chunk whole_checkpoint) true fresh_outputs).map
          (fun res => (res.1.ledger_rows, res.2.sink)) =
        .ok ([row_8], NuDbSink.create.write_nodes Xxh64.digest
          (encode_calls (sort_nodes whole_checkpoint))) ∧
      (written_files Xxh64.digest (sort_nodes whole_checkpoint)).1.length < 2 ^ 48 ∧
      (written_files Xxh64.digest (sort_nodes whole_checkpoint)).2.length < 2 ^ 48 := by
  decide +kernel

theorem whole_injOn : Set.InjOn sha2_sha512half (node_inputs (sort_nodes whole_checkpoint)) := by
  apply injOn_of_nodup [HASH_PREFIX_INNER_NODE ++ one_child_content, [1]]
  · rintro x ⟨n, hn, hx⟩
    rcases mem_whole.mp hn with hn | hn
    · rw [hx, hn]
      exact List.mem_cons_self
    · rw [hx, hn]
      exact List.mem_cons_of_mem _ List.mem_cons_self
  · exact whole_facts.1

theorem whole_supposed :
    ChunkSupposed sha2_sha512half (idle_ledger_chunk whole_checkpoint) ∧
      FirstAsLast (idle_ledger_chunk whole_checkpoint).checkpoint := by
  have htyped : ∀ n ∈ sort_nodes whole_checkpoint, StateTyped n := by
    intro n hn
    rcases mem_whole.mp hn with hn | hn
    · rw [hn]
      exact .inl rfl
    · rw [hn]
      exact .inr rfl
  obtain ⟨-, hroot_refs, hleaf_refs, hne, hlast, -⟩ := whole_facts
  refine ⟨idle_ledger_supposed htyped (.step hroot_refs (.step hleaf_refs .done)) hne
    whole_injOn, ?_⟩
  -- The two hashes differ, so the last node of a hash is the first one.
  rw [idle_ledger_chunk_checkpoint]
  intro m n hm ht hl
  rcases mem_whole.mp (List.mem_of_find?_eq_some hm) with h | h
  · rw [h, hlast, Option.some.injEq] at hl
    rw [← hl]
    intro hc
    cases hc
  · rw [h] at ht
    cases ht

theorem imported_store_serves_whole :
    ∃ rows dat key, import_main Xxh64.digest sha2_sha512half 3 true
        [idle_ledger_file whole_checkpoint] = .ok (rows, dat, key) ∧
      ∃ reader, NuDBReader.open_single (dat, key) = .ok reader ∧
        ∀ row ∈ rows, ServesRow Xxh64.digest (fun _ _ => none) sha2_sha512half reader row := by
  obtain ⟨-, -, -, -, -, hrun, hdat, hkey⟩ := whole_facts
  have himport := idle_ledger_import whole_layout hrun
  exact ⟨_, _, _, himport, imported_store_serves himport (by
    intro file hfile
    rw [List.mem_singleton.mp hfile]
    exact whole_layout.holds_only whole_supposed) hdat hkey⟩

end LedgerArchive
