import Mathlib.Data.List.Permutation
import LedgerArchive.Import.Servable

/-! # The order in which chunks are imported

    A sink keeps the first value written under a hash, so what an import
    leaves in the store is the first value among all nodes that its chunks
    hand to the sink (`Chunk.sunk_nodes`), chunk after chunk. Whether a
    replay accepts a chunk does not depend on the sink
    (`ReplaySteps.into_store`).

    Verification pins down the bytes that are hashed. The value stored for
    a node is these bytes behind an object type (`encode_eq_object`), and
    the object type comes from the node's type byte, which is not hashed. -/

namespace LedgerArchive

open Lib

variable {sha512half : Bytes → Hash256} {xxh64 : Bytes → UInt64 → UInt64} {σ τ : Type}
  {S : NodeSink σ} {T : TxDb τ}

/-! ## Values -/

/-- The `NodeObjectType` that a node is stored with. -/
def NodeType.object_type : NodeType → UInt8
  | .Inner | .CompressedInner => NOTYPE_UNKNOWN
  | .AccountState => NOTYPE_ACCOUNT
  | .TransactionWithMeta | .Transaction => NOTYPE_TRANSACTION

/-- A node is stored as its object type and the bytes that are hashed. -/
theorem encode_eq_object (n : SHAMapNode) :
    encode_wire_to_value n.content n.node_type =
      encode_object_to_value n.node_type.object_type (hash_input n) := by
  obtain ⟨hash, node_type, content⟩ := n
  cases node_type <;>
    simp [encode_wire_to_value, encode_object_to_value, NodeType.object_type, hash_input]

theorem encode_object_type {s t : UInt8} {data data' : Bytes}
    (h : encode_object_to_value s data = encode_object_to_value t data') : s = t := by
  have htype : ∀ (u : UInt8) (d : Bytes), (encode_object_to_value u d)[9]? = some u := by
    intro u d
    rfl
  have hbyte := htype s data
  rw [h, htype t data'] at hbyte
  exact (Option.some.inj hbyte).symm

/-! ## Nodes handed to the sink -/

/-- The nodes of the tree rebuilt from the records. -/
def tx_nodes (sha512half : Bytes → Hash256) (txns : List TxRecord) : List SHAMapNode :=
  match build_tx_tree sha512half txns with
  | .ok (_, nodes) => nodes
  | .error _ => []

/-- Everything a replay of the chunk hands to the sink, in order. -/
def Chunk.sunk_nodes (sha512half : Bytes → Hash256) (chunk : Chunk) : List SHAMapNode :=
  chunk.checkpoint ++ (chunk.tx_maps.head?.toList.flatMap fun cp => tx_nodes sha512half cp.txns) ++
    chunk.ledgers.flatMap fun l => l.1.diff.added ++ tx_nodes sha512half l.2.txns

theorem tx_nodes_eq {txns : List TxRecord} {root : Hash256} {nodes : List SHAMapNode}
    (h : build_tx_tree sha512half txns = .ok (root, nodes)) :
    tx_nodes sha512half txns = nodes := by
  unfold tx_nodes
  rw [h]

theorem tx_nodes_rehash {txns : List TxRecord} :
    ∀ n ∈ tx_nodes sha512half txns, recompute_node_hash sha512half n = n.hash := by
  intro n hn
  cases hbuild : build_tx_tree sha512half txns with
  | error e =>
    unfold tx_nodes at hn
    rw [hbuild] at hn
    cases hn
  | ok out =>
    rw [@tx_nodes_eq _ _ out.1 out.2 hbuild] at hn
    exact ((build_tx_tree_servable hbuild).1 n hn).rehash

/-! ## The sink of an import -/

/-- Handing nodes to the sink is writing them: a node that the sink has is
    not written by `write_node` either. -/
theorem sink_nodes_written (out : Outputs NuDbSink τ) (batch : List SHAMapNode) :
    ∃ out', sink_nodes (NuDbSink.node_sink xxh64) out batch = .ok out' ∧
      out'.sink = out.sink.write_nodes xxh64 (encode_calls batch) ∧ out'.txdb = out.txdb := by
  induction batch generalizing out with
  | nil => exact ⟨out, foldlM_nil_ok.mpr rfl, rfl, rfl⟩
  | cons n batch ih =>
    have hstep : ∃ out₁, sink_node (NuDbSink.node_sink xxh64) out n = .ok out₁ ∧
        out₁.sink = out.sink.write_node xxh64 n.hash (encode_wire_to_value n.content n.node_type) ∧
        out₁.txdb = out.txdb := by
      unfold sink_node
      by_cases hseen : n.hash ∈ out.sink.seen
      · have hcontains : (NuDbSink.node_sink xxh64).contains out.sink n.hash = true :=
          List.contains_iff_mem.mpr hseen
        rw [if_pos hcontains]
        refine ⟨_, rfl, ?_, rfl⟩
        unfold NuDbSink.write_node
        rw [if_pos hseen]
      · have hcontains : ¬ (NuDbSink.node_sink xxh64).contains out.sink n.hash = true :=
          fun hc => hseen (List.contains_iff_mem.mp hc)
        rw [if_neg hcontains]
        exact ⟨_, rfl, rfl, rfl⟩
    obtain ⟨out₁, hsink, hwrite, htx⟩ := hstep
    obtain ⟨out', hrest, hwrites, htx'⟩ := ih out₁
    refine ⟨out', foldlM_cons_ok.mpr ⟨out₁, hsink, hrest⟩, ?_, htx'.trans htx⟩
    rw [hwrites, hwrite]
    rfl

theorem write_nodes_append (s : NuDbSink) (a b : List SHAMapNode) :
    s.write_nodes xxh64 (encode_calls (a ++ b)) =
      (s.write_nodes xxh64 (encode_calls a)).write_nodes xxh64 (encode_calls b) := by
  unfold encode_calls NuDbSink.write_nodes
  rw [List.map_append, List.foldl_append]

/-! ## A replay into another sink -/

/-- The same replay into a store, which has written `nodes` since `sink`. -/
structure SameReplay (xxh64 : Bytes → UInt64 → UInt64) (r : Replay σ τ)
    (q : Replay NuDbSink Unit) (sink : NuDbSink) (nodes : List SHAMapNode) : Prop where
  state : q.state = r.state
  current_root : q.current_root = r.current_root
  prev_ledger_hash : q.prev_ledger_hash = r.prev_ledger_hash
  ledger_rows : q.ledger_rows = r.ledger_rows
  sink : q.out.sink = sink.write_nodes xxh64 (encode_calls nodes)
  txdb : q.out.txdb = none

/-- One ledger of the replay into the store. -/
theorem SameReplay.step {r r' : Replay σ τ} {q : Replay NuDbSink Unit} {sink : NuDbSink}
    {written nodes : List SHAMapNode} {l : LedgerDelta × TxMap} {tx_hash : Hash256}
    {out₁ out₂ : Outputs σ τ} (hq : SameReplay xxh64 r q sink written)
    (hv : LedgerVerified S T sha512half r l.1 l.2 r' tx_hash nodes out₁ out₂) :
    ∃ q' o₁ o₂, LedgerVerified (NuDbSink.node_sink xxh64) NoTxDb sha512half q l.1 l.2 q' tx_hash
        nodes o₁ o₂ ∧
      SameReplay xxh64 r' q' sink
        (written ++ (l.1.diff.added ++ tx_nodes sha512half l.2.txns)) := by
  obtain ⟨o₁, hsink₁, hw₁, htx₁⟩ := @sink_nodes_written xxh64 Unit q.out l.1.diff.added
  obtain ⟨o₂, hsink₂, hw₂, htx₂⟩ := @sink_nodes_written xxh64 Unit o₁ nodes
  have hnone : o₂.txdb = none := htx₂.trans (htx₁.trans hq.txdb)
  let q' : Replay NuDbSink Unit :=
    { state := r'.state, out := o₂, current_root := r'.current_root,
      prev_ledger_hash := r'.prev_ledger_hash, ledger_rows := r'.ledger_rows }
  refine ⟨q', o₁, o₂, ?_, ?_⟩
  · refine ⟨?_, ?_, hv.children_held, hv.seq, ?_, hv.account_hash, hv.tree, hv.authentic,
      hv.rehash, ?_, hv.prev, ?_, hsink₁, hsink₂, ?_⟩
    · rw [hq.state]
      exact hv.deleted_held
    · rw [hq.state]
      exact hv.state
    · rw [hq.current_root]
      exact hv.root
    · rw [hq.prev_ledger_hash]
      exact hv.ledger_hash
    · rw [hq.prev_ledger_hash, hq.ledger_rows]
      exact hv.rows
    · unfold write_ledger_outputs
      rw [hnone]
  · refine ⟨rfl, rfl, rfl, rfl, ?_, hnone⟩
    show o₂.sink = _
    rw [hw₂, hw₁, hq.sink, tx_nodes_eq hv.tree, write_nodes_append, write_nodes_append]

/-- All ledgers of the replay into the store. -/
theorem SameReplay.run {r r' : Replay σ τ} {q : Replay NuDbSink Unit} {sink : NuDbSink}
    {written : List SHAMapNode} {ls : List (LedgerDelta × TxMap)}
    (hq : SameReplay xxh64 r q sink written) (hrun : LedgerRun S T sha512half r ls r') :
    ∃ q', LedgerRun (NuDbSink.node_sink xxh64) NoTxDb sha512half q ls q' ∧
      SameReplay xxh64 r' q' sink (written ++
        ls.flatMap fun l => l.1.diff.added ++ tx_nodes sha512half l.2.txns) := by
  induction hrun generalizing q written with
  | done r =>
    refine ⟨q, .done q, ?_⟩
    rwa [List.flatMap_nil, List.append_nil]
  | step hv _ ih =>
    obtain ⟨q₁, o₁, o₂, hv₁, hq₁⟩ := hq.step hv
    obtain ⟨q', hrun', hq'⟩ := ih hq₁
    refine ⟨q', .step hv₁ hrun', ?_⟩
    rwa [List.flatMap_cons, ← List.append_assoc written]

/-- What was accepted with one sink is accepted by a store, which writes
    the nodes of the chunk. -/
theorem ReplaySteps.into_store {fuel : Nat} {chunk : Chunk} {out : Outputs σ τ} {cp : TxMap}
    {out₁ : Outputs σ τ} {r₀ r₁ : Replay σ τ} {res : ReplayResult × Outputs σ τ}
    (h : ReplaySteps S T sha512half fuel chunk true out cp out₁ r₀ r₁ res)
    (o : Outputs NuDbSink Unit) (ho : o.txdb = none) :
    ∃ o₁ q₀ q₁ o', ReplaySteps (NuDbSink.node_sink xxh64) NoTxDb sha512half fuel chunk true o cp
        o₁ q₀ q₁ (res.1, o') ∧
      o'.sink = o.sink.write_nodes xxh64 (encode_calls (chunk.sunk_nodes sha512half)) ∧
      o'.txdb = none := by
  obtain ⟨o₁, hsink₁, hw₁, htx₁⟩ := @sink_nodes_written xxh64 Unit o chunk.checkpoint
  obtain ⟨_, tx_hash, nodes, -, htree, -, hstate, hcur, hprev, hrows⟩ := open_ledger_ok.mp h.opened
  obtain ⟨o₂, hsink₂, hw₂, htx₂⟩ := @sink_nodes_written xxh64 Unit o₁ nodes
  have hwrite : o₁.write_ledger NoTxDb cp = .ok o₁ := by
    unfold Outputs.write_ledger
    rw [htx₁.trans ho]
  let q₀ : Replay NuDbSink Unit :=
    { state := r₀.state, out := o₂, current_root := r₀.current_root,
      prev_ledger_hash := r₀.prev_ledger_hash, ledger_rows := r₀.ledger_rows }
  have hopened : open_ledger (NuDbSink.node_sink xxh64) NoTxDb sha512half cp
      (checkpoint_state chunk.checkpoint) o₁ = .ok q₀ :=
    open_ledger_ok.mpr ⟨o₁, tx_hash, nodes, hwrite, htree, hsink₂, hstate, hcur, hprev, hrows⟩
  have hq₀ : SameReplay xxh64 r₀ q₀ o.sink (chunk.checkpoint ++ nodes) := by
    refine ⟨rfl, rfl, rfl, rfl, ?_, htx₂.trans (htx₁.trans ho)⟩
    show o₂.sink = _
    rw [hw₂, hw₁, write_nodes_append]
  obtain ⟨q₁, hrun, hq₁⟩ := hq₀.run h.run
  -- The last walk is over the same state.
  obtain ⟨_, hcheck, hres⟩ := bind_eq_ok.mp h.finished
  rw [pure_eq_ok] at hres
  refine ⟨o₁, q₀, q₁, q₁.out, ⟨h.first, hsink₁, h.root_held, h.complete, h.authentic, h.rehash,
    hopened, ledger_run_iff.mpr hrun, ?_⟩, ?_, hq₁.txdb⟩
  · unfold finish_replay
    rw [hq₁.current_root, hq₁.state, hq₁.ledger_rows]
    refine bind_eq_ok.mpr ⟨(), hcheck, ?_⟩
    rw [← hres]
    rfl
  · rw [hq₁.sink]
    unfold Chunk.sunk_nodes
    rw [h.first, tx_nodes_eq htree |>.symm]
    simp

/-! ## Importing the files -/

variable {files : List Bytes} {chunk_of : Bytes → Chunk}

/-- Replay accepts the file, with verification. -/
def ReplayAccepts (sha512half : Bytes → Hash256) (file : Bytes) : Prop :=
  ∃ fuel res, import_chunk NullSink NoTxDb sha512half fuel true file ⟨(), none, []⟩ = .ok res

/-- More rounds for the walks change nothing. -/
theorem ReplaySteps.more_fuel {fuel fuel' : Nat} {chunk : Chunk} {out : Outputs σ τ} {cp : TxMap}
    {out₁ : Outputs σ τ} {r₀ r₁ : Replay σ τ} {res : ReplayResult × Outputs σ τ}
    (h : ReplaySteps S T sha512half fuel chunk true out cp out₁ r₀ r₁ res) (hle : fuel ≤ fuel') :
    ReplaySteps S T sha512half fuel' chunk true out cp out₁ r₀ r₁ res := by
  have hcheck : ∀ (what : String) (root : Hash256) (state : StateMap),
      check_tree_complete fuel what root state = .ok () →
        check_tree_complete fuel' what root state = .ok () := by
    intro what root state hok
    obtain ⟨visit, hw, hcount, hlt⟩ := check_tree_complete_ok.mp hok
    exact check_tree_complete_ok.mpr ⟨visit, hw, hcount, by omega⟩
  refine ⟨h.first, h.sunk, h.root_held, fun hv => hcheck _ _ _ (h.complete hv), h.authentic,
    h.rehash, h.opened, h.replayed, ?_⟩
  obtain ⟨u, hfinal, hres⟩ := bind_eq_ok.mp h.finished
  rw [check_if_eq_ok] at hfinal
  exact bind_eq_ok.mpr ⟨u, check_if_eq_ok.mpr fun hv => hcheck _ _ _ (hfinal hv), hres⟩

/-- A file that is accepted with one sink is accepted by a store, which
    writes the nodes of the chunk it holds. -/
theorem import_chunk_into_store {fuel fuel' : Nat} {file : Bytes} {out : Outputs σ τ}
    {res : ReplayResult × Outputs σ τ} {chunk : Chunk}
    (h : import_chunk S T sha512half fuel true file out = .ok res)
    (hholds : FileHolds sha512half file chunk) (hle : fuel ≤ fuel') (o : Outputs NuDbSink Unit)
    (ho : o.txdb = none) :
    ∃ o', import_chunk (NuDbSink.node_sink xxh64) NoTxDb sha512half fuel' true file o =
        .ok (res.1, o') ∧
      o'.sink = o.sink.write_nodes xxh64 (encode_calls (chunk.sunk_nodes sha512half)) ∧
      o'.txdb = none := by
  unfold import_chunk at h
  obtain ⟨v, hv, h⟩ := bind_eq_ok.mp h
  have hv4 := detect_version_ok hv
  unfold FileHolds at hholds
  by_cases h3 : v = FORMAT_VERSION_STREAMED
  · rw [if_pos h3] at h
    rw [if_pos (by rw [hv4, h3])] at hholds
    obtain ⟨header, body, rest, hl⟩ := hholds
    obtain ⟨h₂, body₂, rest₂, chunk₂, hl₂, hhash, cp, out₁, r₀, r₁, hsteps⟩ :=
      replay_chunk_streaming_ok.mp h
    obtain ⟨rfl, rfl, rfl, rfl⟩ := hl.unique hl₂
    obtain ⟨o₁, q₀, q₁, o', hsteps', hsink, htx⟩ := (hsteps.more_fuel hle).into_store o ho
    refine ⟨o', bind_eq_ok.mpr ⟨v, hv, ?_⟩, hsink, htx⟩
    rw [if_pos h3]
    exact replay_chunk_streaming_ok.mpr ⟨_, _, _, _, hl, hhash, cp, o₁, q₀, q₁, hsteps'⟩
  · rw [if_neg h3] at h
    rw [if_neg fun hc => h3 (Option.some.inj (hv4.symm.trans hc))] at hholds
    obtain ⟨chunk₂, hparse, h⟩ := bind_eq_ok.mp h
    rw [from_chunk_eq_ok, hholds, Except.ok.injEq] at hparse
    subst hparse
    obtain ⟨hlen, cp, out₁, r₀, r₁, hsteps⟩ := replay_chunk_ok.mp h
    obtain ⟨o₁, q₀, q₁, o', hsteps', hsink, htx⟩ := (hsteps.more_fuel hle).into_store o ho
    refine ⟨o', bind_eq_ok.mpr ⟨v, hv, ?_⟩, hsink, htx⟩
    rw [if_neg h3]
    refine bind_eq_ok.mpr ⟨chunk, from_chunk_eq_ok.mpr hholds, ?_⟩
    exact replay_chunk_ok.mpr ⟨hlen, cp, o₁, q₀, q₁, hsteps'⟩

/-- The nodes that the files hand to the sink. -/
def files_nodes (sha512half : Bytes → Hash256) (chunk_of : Bytes → Chunk) (files : List Bytes) :
    List SHAMapNode :=
  files.flatMap fun file => (chunk_of file).sunk_nodes sha512half

/-- The chunk loop over accepted files. -/
theorem import_chunks_nodes (haccept : ∀ file ∈ files, ReplayAccepts sha512half file)
    (hholds : ∀ file ∈ files, FileHolds sha512half file (chunk_of file)) :
    ∃ fuel₀, ∀ fuel ≥ fuel₀, ∀ acc : List LedgerDbRow × Outputs NuDbSink Unit, acc.2.txdb = none →
      ∃ res, files.foldlM (fun (acc : List LedgerDbRow × Outputs NuDbSink Unit) file => do
          let (replay, out) ← import_chunk (NuDbSink.node_sink xxh64) NoTxDb sha512half fuel true
            file acc.2
          pure (acc.1 ++ replay.ledger_rows, out)) acc = .ok res ∧
        res.2.sink = acc.2.sink.write_nodes xxh64
          (encode_calls (files_nodes sha512half chunk_of files)) := by
  induction files with
  | nil => exact ⟨0, fun fuel _ acc _ => ⟨acc, foldlM_nil_ok.mpr rfl, rfl⟩⟩
  | cons file files ih =>
    obtain ⟨fuel₁, res₁, h₁⟩ := haccept file List.mem_cons_self
    obtain ⟨fuel₂, h₂⟩ := ih (fun f hf => haccept f (List.mem_cons_of_mem _ hf))
      fun f hf => hholds f (List.mem_cons_of_mem _ hf)
    refine ⟨max fuel₁ fuel₂, fun fuel hfuel acc hacc => ?_⟩
    obtain ⟨o, hrun, hsink, htx⟩ := @import_chunk_into_store sha512half xxh64 _ _ _ _ _ fuel _ _ _ _
      h₁ (hholds file List.mem_cons_self) (by omega) acc.2 hacc
    obtain ⟨res, hrest, hwritten⟩ := h₂ fuel (by omega) (acc.1 ++ res₁.1.ledger_rows, o) htx
    refine ⟨res, foldlM_cons_ok.mpr ⟨_, bind_eq_ok.mpr ⟨_, hrun, rfl⟩, hrest⟩, ?_⟩
    rw [hwritten, hsink]
    unfold files_nodes
    rw [List.flatMap_cons, write_nodes_append]

/-! ## The order of the files -/

/-- Importing the files with verification leaves this store, given rounds
    enough for the walks. -/
def Imports (xxh64 : Bytes → UInt64 → UInt64) (sha512half : Bytes → Hash256) (files : List Bytes)
    (store : Bytes × Bytes) : Prop :=
  ∃ fuel₀, ∀ fuel ≥ fuel₀, ∃ rows,
    import_main xxh64 sha512half fuel true files = .ok (rows, store)

theorem Imports.unique {a b : Bytes × Bytes} (ha : Imports xxh64 sha512half files a)
    (hb : Imports xxh64 sha512half files b) : a = b := by
  obtain ⟨fuel₁, ha⟩ := ha
  obtain ⟨fuel₂, hb⟩ := hb
  obtain ⟨rows, ha⟩ := ha (max fuel₁ fuel₂) (le_max_left _ _)
  obtain ⟨rows', hb⟩ := hb (max fuel₁ fuel₂) (le_max_right _ _)
  have hsame := Except.ok.inj (ha.symm.trans hb)
  exact (Prod.mk.inj hsame).2

theorem imports_files (haccept : ∀ file ∈ files, ReplayAccepts sha512half file)
    (hholds : ∀ file ∈ files, FileHolds sha512half file (chunk_of file)) :
    Imports xxh64 sha512half files
      (written_files xxh64 (files_nodes sha512half chunk_of files)) := by
  obtain ⟨fuel₀, hrun⟩ := @import_chunks_nodes sha512half xxh64 _ _ haccept hholds
  refine ⟨fuel₀, fun fuel hfuel => ?_⟩
  obtain ⟨res, hfold, hsink⟩ := hrun fuel hfuel
    ([], { sink := NuDbSink.create, txdb := none, calls := [] }) rfl
  refine ⟨res.1, bind_eq_ok.mpr ⟨res, hfold, ?_⟩⟩
  rw [pure_eq_ok, hsink]
  rfl

/-- `Shard::fetch` returns the same value from both stores, for every
    hash. -/
def SameFetch (xxh64 : Bytes → UInt64 → UInt64) (a b : Bytes × Bytes) : Prop :=
  ∃ s t, Shard.open a.1 a.2 = .ok s ∧ Shard.open b.1 b.2 = .ok t ∧
    ∀ h, ∃ fuel₀, ∀ fuel ≥ fuel₀, s.fetch xxh64 fuel h = t.fetch xxh64 fuel h

/-- The files can be imported in every order, and what the store returns
    does not depend on it. -/
def OrderIrrelevant (xxh64 : Bytes → UInt64 → UInt64) (sha512half : Bytes → Hash256)
    (files : List Bytes) : Prop :=
  ∀ files', files'.Perm files → ∃ a b, Imports xxh64 sha512half files a ∧
    Imports xxh64 sha512half files' b ∧ SameFetch xxh64 a b

/-- Two chunks that hand a node of one hash to the sink, each for the first
    time, do so with types of one object type: both inner, both account
    state or both transaction. -/
def SameTypes (sha512half : Bytes → Hash256) (files : List Bytes) : Prop :=
  ∀ f ∈ files, ∀ g ∈ files, ∀ c d, FileHolds sha512half f c → FileHolds sha512half g d →
    ∀ h m n, nodes_store (c.sunk_nodes sha512half) h = some m →
      nodes_store (d.sunk_nodes sha512half) h = some n →
        m.node_type.object_type = n.node_type.object_type

/-- The byte strings hashed for the nodes that the files hand to the sink. -/
def sunk_inputs (sha512half : Bytes → Hash256) (files : List Bytes) : Set Bytes :=
  {x | ∃ f ∈ files, ∃ c, FileHolds sha512half f c ∧
    ∃ n ∈ c.sunk_nodes sha512half, x = hash_input n}

/-- In every order, the store stays within the range of its 48-bit
    offsets. -/
def StoresInRange (xxh64 : Bytes → UInt64 → UInt64) (sha512half : Bytes → Hash256)
    (files : List Bytes) : Prop :=
  ∀ files', files'.Perm files → ∀ store, Imports xxh64 sha512half files' store →
    store.1.length < 2 ^ 48 ∧ store.2.length < 2 ^ 48

/-- A finished store returns, for each hash, the first node written under
    it. -/
theorem written_files_fetch {nodes : List SHAMapNode}
    (hdat : (written_files xxh64 nodes).1.length < 2 ^ 48)
    (hkey : (written_files xxh64 nodes).2.length < 2 ^ 48) :
    ∃ s, Shard.open (written_files xxh64 nodes).1 (written_files xxh64 nodes).2 = .ok s ∧
      ∀ h, ∃ fuel₀, ∀ fuel ≥ fuel₀, s.fetch xxh64 fuel h =
        .ok ((nodes_store nodes h).map fun n => encode_wire_to_value n.content n.node_type) := by
  have hs : Stored xxh64 (NuDbSink.create.write_nodes xxh64 (encode_calls nodes))
      (encode_calls nodes) := stored_create.write_nodes _
  have hf : Finished xxh64 _ (written_files xxh64 nodes).1 (written_files xxh64 nodes).2 _ :=
    finish_finished hs.offset_eq rfl
  refine ⟨_, hf.open_eq hkey, fun h => ?_⟩
  obtain ⟨fuel₀, hfetch⟩ := hs.fetch hf hdat h
  rw [lookup_encode_calls] at hfetch
  exact ⟨fuel₀, hfetch⟩

/-- Two stores return the same values exactly when the first nodes of each
    hash have the same encoding. -/
theorem same_fetch_iff {a b : List SHAMapNode}
    (ha : (written_files xxh64 a).1.length < 2 ^ 48 ∧ (written_files xxh64 a).2.length < 2 ^ 48)
    (hb : (written_files xxh64 b).1.length < 2 ^ 48 ∧ (written_files xxh64 b).2.length < 2 ^ 48) :
    SameFetch xxh64 (written_files xxh64 a) (written_files xxh64 b) ↔
      ∀ h, (nodes_store a h).map (fun n => encode_wire_to_value n.content n.node_type) =
        (nodes_store b h).map fun n => encode_wire_to_value n.content n.node_type := by
  obtain ⟨s, hs, hfetch_s⟩ := written_files_fetch ha.1 ha.2
  obtain ⟨t, ht, hfetch_t⟩ := written_files_fetch hb.1 hb.2
  constructor
  · intro hsame h
    obtain ⟨s', t', hs', ht', hfetch⟩ := hsame
    obtain rfl : s = s' := Except.ok.inj (hs.symm.trans hs')
    obtain rfl : t = t' := Except.ok.inj (ht.symm.trans ht')
    obtain ⟨f₁, h₁⟩ := hfetch_s h
    obtain ⟨f₂, h₂⟩ := hfetch_t h
    obtain ⟨f₃, h₃⟩ := hfetch h
    let fuel := max f₁ (max f₂ f₃)
    have heq := h₃ fuel (by omega)
    rw [h₁ fuel (by omega), h₂ fuel (by omega)] at heq
    exact Except.ok.inj heq
  · intro hsame
    refine ⟨s, t, hs, ht, fun h => ?_⟩
    obtain ⟨f₁, h₁⟩ := hfetch_s h
    obtain ⟨f₂, h₂⟩ := hfetch_t h
    refine ⟨max f₁ f₂, fun fuel hfuel => ?_⟩
    rw [h₁ fuel (by omega), h₂ fuel (by omega), hsame h]

/-- Every node of an accepted chunk that reaches the sink hashes to its own
    hash. -/
theorem sunk_nodes_rehash {file : Bytes} {chunk : Chunk} (haccept : ReplayAccepts sha512half file)
    (hholds : FileHolds sha512half file chunk) :
    ∀ n ∈ chunk.sunk_nodes sha512half, recompute_node_hash sha512half n = n.hash := by
  obtain ⟨fuel, res, h⟩ := haccept
  obtain ⟨chunk', hholds', hreplays⟩ := import_chunk_ok h
  obtain rfl : chunk = chunk' := FileHolds.unique hholds hholds'
  obtain ⟨-, fuel, cp, out₁, r₀, r₁, hsteps⟩ := hreplays.steps
  intro n hn
  unfold Chunk.sunk_nodes at hn
  rcases List.mem_append.mp hn with hn | hn
  · rcases List.mem_append.mp hn with hn | hn
    · exact verify_state_nodes_ok.mp (hsteps.rehash rfl) n hn
    · obtain ⟨cp, -, hn⟩ := List.mem_flatMap.mp hn
      exact tx_nodes_rehash n hn
  · obtain ⟨l, hl, hn⟩ := List.mem_flatMap.mp hn
    rcases List.mem_append.mp hn with hn | hn
    · obtain ⟨i, hi⟩ := List.getElem?_of_mem hl
      obtain ⟨_, _, _, _, _, _, hv, -, -⟩ := hsteps.run.get hi
      exact hv.rehash n hn
    · exact tx_nodes_rehash n hn

theorem nodes_store_files_nodes {h : Hash256} {n : SHAMapNode}
    (hn : nodes_store (files_nodes sha512half chunk_of files) h = some n) :
    ∃ file ∈ files, nodes_store ((chunk_of file).sunk_nodes sha512half) h = some n := by
  unfold nodes_store files_nodes at hn
  rw [List.find?_flatMap] at hn
  exact List.exists_of_findSome?_eq_some hn

/-- The first file decides what is stored for a hash of its nodes. -/
theorem nodes_store_cons {file : Bytes} {h : Hash256} {n : SHAMapNode}
    (hn : nodes_store ((chunk_of file).sunk_nodes sha512half) h = some n) :
    nodes_store (files_nodes sha512half chunk_of (file :: files)) h = some n := by
  unfold nodes_store files_nodes
  rw [List.flatMap_cons, List.find?_append]
  unfold nodes_store at hn
  rw [hn, Option.some_or]

theorem files_nodes_subset {files' : List Bytes} (hp : files'.Perm files) :
    files_nodes sha512half chunk_of files' ⊆ files_nodes sha512half chunk_of files := by
  intro n hn
  obtain ⟨f, hf, hn⟩ := List.mem_flatMap.mp hn
  exact List.mem_flatMap.mpr ⟨f, hp.mem_iff.mp hf, hn⟩

/-- The chunks of accepted files. -/
theorem chunks_held (haccept : ∀ file ∈ files, ReplayAccepts sha512half file) :
    ∃ chunk_of : Bytes → Chunk, ∀ file ∈ files, FileHolds sha512half file (chunk_of file) := by
  have hheld : ∀ file, ∃ chunk, file ∈ files → FileHolds sha512half file chunk := by
    intro file
    by_cases hfile : file ∈ files
    · obtain ⟨fuel, res, hrun⟩ := haccept file hfile
      obtain ⟨chunk, hholds, -⟩ := import_chunk_ok hrun
      exact ⟨chunk, fun _ => hholds⟩
    · exact ⟨⟨0, 0, 0, ZERO_HASH, ZERO_HASH, [], [], []⟩, fun hc => absurd hc hfile⟩
  choose chunk_of hholds using hheld
  exact ⟨chunk_of, hholds⟩

section Orders

variable (haccept : ∀ file ∈ files, ReplayAccepts sha512half file)
  (hsize : StoresInRange xxh64 sha512half files)

include haccept hsize

/-- Two orders leave the same store when the first nodes of each hash have
    the same encoding. -/
theorem order_irrelevant_nodes
    (hholds : ∀ file ∈ files, FileHolds sha512half file (chunk_of file)) :
    OrderIrrelevant xxh64 sha512half files ↔ ∀ files', files'.Perm files → ∀ h,
      (nodes_store (files_nodes sha512half chunk_of files) h).map
          (fun n => encode_wire_to_value n.content n.node_type) =
        (nodes_store (files_nodes sha512half chunk_of files') h).map
          fun n => encode_wire_to_value n.content n.node_type := by
  have himport : ∀ files', files'.Perm files → Imports xxh64 sha512half files'
      (written_files xxh64 (files_nodes sha512half chunk_of files')) := by
    intro files' hp
    exact imports_files (fun f hf => haccept f (hp.mem_iff.mp hf))
      fun f hf => hholds f (hp.mem_iff.mp hf)
  have hself := himport files (List.Perm.refl _)
  have hrange := hsize files (List.Perm.refl _) _ hself
  constructor
  · intro hirr files' hp
    obtain ⟨a, b, ha, hb, hfetch⟩ := hirr files' hp
    rw [ha.unique hself, hb.unique (himport files' hp)] at hfetch
    exact (same_fetch_iff hrange (hsize files' hp _ (himport files' hp))).mp hfetch
  · intro hsame files' hp
    exact ⟨_, _, hself, himport files' hp,
      (same_fetch_iff hrange (hsize files' hp _ (himport files' hp))).mpr (hsame files' hp)⟩

/-- If the order does not matter, each hash comes with one object type: any
    file can be the first. -/
theorem OrderIrrelevant.same_types (hirr : OrderIrrelevant xxh64 sha512half files) :
    SameTypes sha512half files := by
  intro f hf g hg c d hc hd h m n hm hn
  obtain ⟨chunk_of, hholds⟩ := chunks_held haccept
  have hsame := (order_irrelevant_nodes haccept hsize hholds).mp hirr
  rw [hc.unique (hholds f hf)] at hm
  rw [hd.unique (hholds g hg)] at hn
  have hfirst_f := hsame (f :: files.erase f) (List.perm_cons_erase hf).symm h
  have hfirst_g := hsame (g :: files.erase g) (List.perm_cons_erase hg).symm h
  rw [nodes_store_cons hm] at hfirst_f
  rw [nodes_store_cons hn] at hfirst_g
  have hencode := Option.some.inj (hfirst_f.symm.trans hfirst_g)
  dsimp only at hencode
  rw [encode_eq_object, encode_eq_object] at hencode
  exact encode_object_type hencode

/-- Importing the files in any order leaves stores that return the same
    values exactly when no two of their chunks store a hash under different
    object types. -/
theorem order_irrelevant_iff (hinj : Set.InjOn sha512half (sunk_inputs sha512half files)) :
    OrderIrrelevant xxh64 sha512half files ↔ SameTypes sha512half files := by
  constructor
  · exact OrderIrrelevant.same_types haccept hsize
  intro htypes
  obtain ⟨chunk_of, hholds⟩ := chunks_held haccept
  rw [order_irrelevant_nodes haccept hsize hholds]
  intro files' hp h
  by_cases hmem : h ∈ (files_nodes sha512half chunk_of files).map SHAMapNode.hash
  · have hmem' : h ∈ (files_nodes sha512half chunk_of files').map SHAMapNode.hash :=
      List.map_subset _ (files_nodes_subset hp.symm) hmem
    obtain ⟨m, hm⟩ := Option.isSome_iff_exists.mp (nodes_store_isSome.mpr hmem)
    obtain ⟨n, hn⟩ := Option.isSome_iff_exists.mp (nodes_store_isSome.mpr hmem')
    rw [hm, hn]
    obtain ⟨f, hf, hfm⟩ := nodes_store_files_nodes hm
    obtain ⟨g, hg, hgn⟩ := nodes_store_files_nodes hn
    have hg' : g ∈ files := hp.mem_iff.mp hg
    have htype := htypes f hf g hg' _ _ (hholds f hf) (hholds g hg') h m n hfm hgn
    have hm_mem := List.mem_of_find?_eq_some hfm
    have hn_mem := List.mem_of_find?_eq_some hgn
    have hm_hash : m.hash = h := by simpa using List.find?_some hfm
    have hn_hash : n.hash = h := by simpa using List.find?_some hgn
    -- Equal hashes: the same bytes behind the object type.
    have hinput : hash_input m = hash_input n := by
      apply hinj ⟨f, hf, _, hholds f hf, m, hm_mem, rfl⟩ ⟨g, hg', _, hholds g hg', n, hn_mem, rfl⟩
      have hm_re := sunk_nodes_rehash (haccept f hf) (hholds f hf) m hm_mem
      have hn_re := sunk_nodes_rehash (haccept g hg') (hholds g hg') n hn_mem
      exact hm_re.trans (hm_hash.trans (hn_hash.symm.trans hn_re.symm))
    rw [Option.map_some, Option.map_some, encode_eq_object, encode_eq_object, htype, hinput]
  · have hmem' : h ∉ (files_nodes sha512half chunk_of files').map SHAMapNode.hash :=
      fun hc => hmem (List.map_subset _ (files_nodes_subset hp) hc)
    have hnone : ∀ nodes : List SHAMapNode, h ∉ nodes.map SHAMapNode.hash →
        nodes_store nodes h = none := by
      intro nodes hout
      rw [← Option.not_isSome_iff_eq_none, nodes_store_isSome]
      exact hout
    rw [hnone _ hmem, hnone _ hmem']

end Orders

/-! ## A root listed as an account -/

/-- The state with its root as an inner node above the account, and the
    state with the same root as an account. -/
def two_files : List Bytes := [idle_ledger_file whole_checkpoint, idle_ledger_file [account_root]]

theorem account_root_layout :
    Layout (idle_ledger_file [account_root]) (idle_ledger_header [account_root])
      (idle_ledger_body [account_root] ++ MAGIC_FOOTER) [] (idle_ledger_chunk [account_root]) := by
  refine idle_ledger_layout (by decide) fun n hn => ?_
  rw [List.mem_singleton.mp hn]
  show (HASH_PREFIX_INNER_NODE ++ one_child_content).length < 2 ^ 16
  rw [List.length_append, one_child_content_length]
  decide

theorem Layout.held {file body rest : Bytes} {h : ChunkHeader} {chunk : Chunk}
    (hl : Layout file h body rest chunk) : FileHolds sha512half file chunk := by
  unfold FileHolds
  rw [if_pos hl.version]
  exact ⟨h, body, rest, hl⟩

/-- A file with a correct chunk hash is accepted if its chunk is. -/
theorem accepts_of_isSome {fuel : Nat} {file body : Bytes} {h : ChunkHeader} {chunk : Chunk}
    (hl : Layout file h body [] chunk) (hhash : sha512half body = h.stored_chunk_hash)
    (hrun : (replay_chunk NullSink NoTxDb sha512half fuel chunk true ⟨(), none, []⟩).toOption.isSome =
      true) : ReplayAccepts sha512half file := by
  obtain ⟨res, hr⟩ := exists_ok_of_isSome hrun
  refine ⟨fuel, res, bind_eq_ok.mpr ⟨FORMAT_VERSION_STREAMED, detect_version_of_layout hl, ?_⟩⟩
  rw [if_pos rfl]
  exact replay_chunk_streaming_ok.mpr ⟨h, body, [], chunk, hl, hhash, (replay_chunk_ok.mp hr).2⟩

theorem idle_sunk_nodes (checkpoint : List SHAMapNode) :
    (idle_ledger_chunk checkpoint).sunk_nodes sha512half = sort_nodes checkpoint := by
  have hempty : tx_nodes sha512half [] = [] := rfl
  show sort_nodes checkpoint ++ (tx_nodes sha512half [] ++ []) ++
    ([] ++ tx_nodes sha512half [] ++ []) = sort_nodes checkpoint
  rw [hempty]
  simp

/-- Both replays return, the stores are in range in either order, and each
    file has a node of its own under the root. -/
theorem two_files_facts :
    (replay_chunk NullSink NoTxDb sha2_sha512half 3 (idle_ledger_chunk whole_checkpoint) true
        ⟨(), none, []⟩).toOption.isSome = true ∧
      (replay_chunk NullSink NoTxDb sha2_sha512half 3 (idle_ledger_chunk [account_root]) true
        ⟨(), none, []⟩).toOption.isSome = true ∧
      ([HASH_PREFIX_INNER_NODE ++ one_child_content, [1]].map sha2_sha512half).Nodup ∧
      (∀ nodes ∈ [sort_nodes whole_checkpoint ++ [account_root],
          [account_root] ++ sort_nodes whole_checkpoint],
        (written_files Xxh64.digest nodes).1.length < 2 ^ 48 ∧
          (written_files Xxh64.digest nodes).2.length < 2 ^ 48) ∧
      nodes_store (sort_nodes whole_checkpoint) one_child_hash = some inner_root ∧
      nodes_store (sort_nodes [account_root]) one_child_hash = some account_root := by
  decide +kernel

theorem two_files_accepted : ∀ file ∈ two_files, ReplayAccepts sha2_sha512half file := by
  obtain ⟨hwhole, haccount, -⟩ := two_files_facts
  intro file hfile
  rcases List.mem_cons.mp hfile with hfile | hfile
  · rw [hfile]
    exact @accepts_of_isSome _ 3 _ _ _ _ whole_layout rfl hwhole
  · rw [List.mem_singleton.mp hfile]
    exact @accepts_of_isSome _ 3 _ _ _ _ account_root_layout rfl haccount

-- What a file holds is not to be found out by computing it.
seal FileHolds

theorem whole_mem : idle_ledger_file whole_checkpoint ∈ two_files := List.mem_cons_self

theorem account_mem : idle_ledger_file [account_root] ∈ two_files :=
  List.mem_cons_of_mem _ List.mem_cons_self

theorem whole_held : FileHolds sha2_sha512half (idle_ledger_file whole_checkpoint)
    (idle_ledger_chunk whole_checkpoint) := whole_layout.held

theorem account_held : FileHolds sha2_sha512half (idle_ledger_file [account_root])
    (idle_ledger_chunk [account_root]) := account_root_layout.held

/-- What the two files hand to the sink. -/
theorem two_files_held {file : Bytes} {chunk : Chunk} (hfile : file ∈ two_files)
    (hholds : FileHolds sha2_sha512half file chunk) :
    chunk.sunk_nodes sha2_sha512half = sort_nodes whole_checkpoint ∨
      chunk.sunk_nodes sha2_sha512half = [account_root] := by
  rcases List.mem_cons.mp hfile with hfile | hfile
  · rw [hfile] at hholds
    rw [FileHolds.unique hholds whole_held]
    exact .inl (idle_sunk_nodes _)
  · rw [List.mem_singleton.mp hfile] at hholds
    rw [FileHolds.unique hholds account_held]
    exact .inr (idle_sunk_nodes _)

theorem two_files_injOn :
    Set.InjOn sha2_sha512half (sunk_inputs sha2_sha512half two_files) := by
  apply injOn_of_nodup [HASH_PREFIX_INNER_NODE ++ one_child_content, [1]]
  · intro x hx
    obtain ⟨f, hf, c, hc, n, hn, rfl⟩ := hx
    have hcases : n = inner_root ∨ n = lone_account ∨ n = account_root := by
      rcases two_files_held hf hc with hs | hs
      · rw [hs, mem_whole] at hn
        exact hn.elim .inl fun h => .inr (.inl h)
      · rw [hs] at hn
        exact .inr (.inr (List.mem_singleton.mp hn))
    rcases hcases with h | h | h
    · rw [h]
      exact List.mem_cons_self
    · rw [h]
      exact List.mem_cons_of_mem _ List.mem_cons_self
    · rw [h]
      exact List.mem_cons_self
  · exact two_files_facts.2.2.1

theorem two_files_in_range : StoresInRange Xxh64.digest sha2_sha512half two_files := by
  obtain ⟨-, -, -, hrange, -⟩ := two_files_facts
  intro files' hp store hstore
  obtain ⟨chunk_of, hholds⟩ := chunks_held two_files_accepted
  have himport := @imports_files sha2_sha512half Xxh64.digest files' chunk_of
    (fun f hf => two_files_accepted f (hp.mem_iff.mp hf)) fun f hf => hholds f (hp.mem_iff.mp hf)
  have hwhole : (chunk_of (idle_ledger_file whole_checkpoint)).sunk_nodes sha2_sha512half =
      sort_nodes whole_checkpoint := by
    rw [FileHolds.unique (hholds _ whole_mem) whole_held]
    exact idle_sunk_nodes _
  have haccount : (chunk_of (idle_ledger_file [account_root])).sunk_nodes sha2_sha512half =
      [account_root] := by
    rw [FileHolds.unique (hholds _ account_mem) account_held]
    exact idle_sunk_nodes _
  rw [hstore.unique himport]
  rcases List.perm_pair.mp hp with horder | horder
  · rw [horder]
    unfold files_nodes
    rw [List.flatMap_cons, List.flatMap_singleton, hwhole, haccount]
    exact hrange _ List.mem_cons_self
  · rw [horder]
    unfold files_nodes
    rw [List.flatMap_cons, List.flatMap_singleton, hwhole, haccount]
    exact hrange _ (List.mem_cons_of_mem _ List.mem_cons_self)

/-- Replay accepts both files, and the root comes out of the store as an
    inner node or as an account, whichever file was imported first. -/
theorem import_order_matters :
    (∀ file ∈ two_files, ReplayAccepts sha2_sha512half file) ∧
      Set.InjOn sha2_sha512half (sunk_inputs sha2_sha512half two_files) ∧
      StoresInRange Xxh64.digest sha2_sha512half two_files ∧
      ¬ OrderIrrelevant Xxh64.digest sha2_sha512half two_files := by
  refine ⟨two_files_accepted, two_files_injOn, two_files_in_range, fun hirr => ?_⟩
  obtain ⟨-, -, -, -, hinner, haccount⟩ := two_files_facts
  rw [← @idle_sunk_nodes sha2_sha512half] at hinner haccount
  have htypes := hirr.same_types two_files_accepted two_files_in_range
  have hsame := htypes _ whole_mem _ account_mem _ _ whole_held account_held one_child_hash
    inner_root account_root hinner haccount
  cases hsame

theorem order_irrelevant_iff_two_files :
    OrderIrrelevant Xxh64.digest sha2_sha512half two_files ↔
      SameTypes sha2_sha512half two_files :=
  order_irrelevant_iff two_files_accepted two_files_in_range two_files_injOn

end LedgerArchive
