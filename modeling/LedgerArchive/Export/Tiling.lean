import LedgerArchive.Export.Deterministic
import LedgerArchive.Export.Overflow
import LedgerArchive.Lib.Tiling

/-! # Chunks tile the range

    The end in a chunk's header is computed when the chunk starts, and the
    switch to the next chunk is found by counting ledgers, inside batches
    with bounds of their own. All three are `u32` arithmetic. As long as
    the numbers fit (`NumbersFit`) they agree: the chunks tile the range, and a
    chunk has its first ledger's checkpoint and TX map and one pair for each
    further ledger (`exports_tile_iff`). -/

namespace LedgerArchive

open Lib

/-! ## What is in a chunk -/

/-- What a chunk file was written from. -/
structure WrittenChunk where
  header : ChunkHeader
  checkpoint : List SHAMapNode
  first : TxMap
  pairs : List (LedgerDelta × TxMap)

namespace WrittenChunk

def body (c : WrittenChunk) : Bytes := written_body c.checkpoint c.first c.pairs

/-- The finished file. -/
def file (sha512half : Bytes → Hash256) (c : WrittenChunk) : ChunkFile :=
  let chunk_hash := sha512half (c.body ++ MAGIC_FOOTER)
  { name := chunk_filename c.header.network_id c.header.start_ledger c.header.end_ledger
    chunk_hash
    bytes := c.header.front ++ chunk_hash.bytes ++ (c.body ++ MAGIC_FOOTER) }

def first_ledger (c : WrittenChunk) : Nat := c.header.start_ledger.toNat

def next_ledger (c : WrittenChunk) : Nat := c.header.end_ledger.toNat + 1

/-- The ledgers that have a TX map. -/
def ledgers (c : WrittenChunk) : List UInt32 :=
  c.first.ledger_seq :: c.pairs.map fun p => p.2.ledger_seq

end WrittenChunk

section Contents

variable (sha512half : Bytes → Hash256) (args : Args)
  (get_node : Hash256 → Except Error SHAMapNode) (fuel : Nat) (ledger_db : LedgerIndex)
  (concurrency : Nat)

/-- The TX map of a ledger: its row and its transactions. -/
def TxMapOf (seq : UInt32) (m : TxMap) : Prop :=
  ∃ info txns ledger_hash, ledger_db.get seq = .ok info ∧
    info.verify_ledger_hash sha512half seq = .ok ledger_hash ∧
    ledger_txns get_node fuel info seq = .ok txns ∧ m = info.tx_map seq ledger_hash txns

/-- The delta of a ledger: the diff of its state tree to the one before. -/
def DeltaOf (seq : UInt32) (d : LedgerDelta) : Prop :=
  d.ledger_seq = seq ∧ ∃ old info, ledger_db.get (seq - 1) = .ok old ∧
    ledger_db.get seq = .ok info ∧
    diff get_node fuel old.account_hash info.account_hash = .ok d.diff

/-- The state at a ledger: the walk of the first one, and the diffs up to
    this one. -/
inductive StateAt : UInt32 → StateMap → Prop
  | first {info : LedgerInfo} {nodes : List SHAMapNode}
      (hrow : ledger_db.get args.start = .ok info)
      (hwalk : collect_reachable_concurrent get_node fuel info.account_hash concurrency =
        .ok nodes) : StateAt args.start (checkpoint_state nodes)
  | next {seq : UInt32} {state : StateMap} {d : LedgerDelta} (hstate : StateAt seq state)
      (hdelta : DeltaOf get_node fuel ledger_db (seq + 1) d) :
      StateAt (seq + 1) (apply_diff state d.diff)

/-- The chunk has what it should have up to this ledger: the checkpoint and
    the TX map of its first ledger, and a delta and a TX map for each
    further one, in order. -/
structure CompleteUpTo (c : WrittenChunk) (last : UInt32) : Prop where
  network_id : c.header.network_id = args.network_id
  checkpoint_hash : c.header.checkpoint_hash = c.first.ledger_hash
  checkpoint : ∃ state,
    StateAt args get_node fuel ledger_db concurrency c.header.start_ledger state ∧
      (c.checkpoint : Multiset SHAMapNode) = state.entries.map Sigma.snd
  first : TxMapOf sha512half get_node fuel ledger_db c.header.start_ledger c.first
  pairs : List.Forall₂ (fun seq p => DeltaOf get_node fuel ledger_db seq p.1 ∧
      TxMapOf sha512half get_node fuel ledger_db seq p.2)
    (batch_seqs (c.header.start_ledger + 1) last) c.pairs

/-- The files are chunks whose headers tile the range. Each has what it
    should have up to the end in its header, and every ledger of the range
    is in them once, in order. -/
def FilesTile (files : List ChunkFile) : Prop :=
  ∃ chunks : List WrittenChunk, files = chunks.map (WrittenChunk.file sha512half) ∧
    Tiles WrittenChunk.first_ledger WrittenChunk.next_ledger args.start.toNat chunks
      (args.end.toNat + 1) ∧
    (∀ c ∈ chunks, CompleteUpTo sha512half args get_node fuel ledger_db concurrency c
      c.header.end_ledger) ∧
    chunks.flatMap WrittenChunk.ledgers = batch_seqs args.start args.end

end Contents

/-! ## A run, ledger by ledger -/

variable {sha512half : Bytes → Hash256} {args : Args} {order : MapOrder}
  {get_node : Hash256 → Except Error SHAMapNode} {fuel : Nat} {ledger_db : LedgerIndex}
  {concurrency : Nat} {e e' : Export} {last : UInt32} {done : List WrittenChunk}
  {current : WrittenChunk}

/-- The exporter behind the ledger `last`: the chunks that are done, and the
    one that is being written. -/
structure Running (sha512half : Bytes → Hash256) (args : Args)
    (get_node : Hash256 → Except Error SHAMapNode) (fuel : Nat) (ledger_db : LedgerIndex)
    (concurrency : Nat) (e : Export) (last : UInt32) (done : List WrittenChunk)
    (current : WrittenChunk) : Prop where
  files : e.files = done.map (WrittenChunk.file sha512half)
  tiles : Tiles WrittenChunk.first_ledger WrittenChunk.next_ledger args.start.toNat done
    e.chunk_start.toNat
  complete : ∀ c ∈ done, CompleteUpTo sha512half args get_node fuel ledger_db concurrency c
    c.header.end_ledger
  writer : e.chunk_writer.Wrote current.header current.body
  start_ledger : current.header.start_ledger = e.chunk_start
  end_ledger : current.header.end_ledger = e.chunk_end
  chunk_end : e.chunk_end = args.chunk_end e.chunk_start
  written : CompleteUpTo sha512half args get_node fuel ledger_db concurrency current last
  grid : OnGrid args e last.toNat
  state : StateAt args get_node fuel ledger_db concurrency last e.state
  prev : ∃ info, ledger_db.get last = .ok info ∧ e.prev_account_hash = info.account_hash

/-- The numbers up to the next one. -/
theorem batch_seqs_next {a : UInt32} (ha : a.toNat ≤ last.toNat + 1)
    (hnext : (last + 1).toNat = last.toNat + 1) :
    batch_seqs a (last + 1) = batch_seqs a last ++ [last + 1] := by
  have hcount : last.toNat + 1 + 1 - a.toNat = last.toNat + 1 - a.toNat + 1 := by omega
  have hlast : a.toNat + 1 * (last.toNat + 1 - a.toNat) = (last + 1).toNat := by omega
  unfold batch_seqs
  rw [hnext, hcount, List.range'_concat, List.map_append, hlast, List.map_singleton,
    UInt32.ofNat_toNat]

/-- The header of a new chunk, with nothing in the place of its hash. -/
def Args.new_header (args : Args) (chunk_start : UInt32) (ledger_hash : Hash256) : ChunkHeader where
  network_id := args.network_id
  start_ledger := chunk_start
  end_ledger := args.chunk_end chunk_start
  checkpoint_hash := ledger_hash
  stored_chunk_hash := ZERO_HASH

theorem create_chunk_wrote (k : Nat) (state : StateMap) (chunk_start : UInt32)
    (ledger_hash : Hash256) (tx_map : TxMap) :
    (create_chunk args order k state chunk_start ledger_hash tx_map).Wrote
      (args.new_header chunk_start ledger_hash)
      (written_body (order.values k state) tx_map []) := by
  have hcreate := ChunkWriter.create_wrote (args.new_header chunk_start ledger_hash)
  have hwrote := (hcreate.write_checkpoint (order.values k state)).write_tx_map tx_map
  unfold written_body
  rwa [List.flatMap_nil, List.append_nil]

/-- The chunk that is being written, when it is finished. -/
theorem Running.finish (h : Running sha512half args get_node fuel ledger_db concurrency e last done
    current) :
    e.finish_chunk sha512half args = (done ++ [current]).map (WrittenChunk.file sha512half) := by
  have hhash : (e.chunk_writer.finish sha512half).1 =
      sha512half (current.body ++ MAGIC_FOOTER) := by
    show sha512half (e.chunk_writer.body MAGIC_FOOTER).hasher = _
    rw [(h.writer.body MAGIC_FOOTER).hasher]
  have hbytes := @ChunkWriter.Wrote.finish sha512half _ _ _ h.writer
  unfold Export.finish_chunk
  rw [List.map_append, List.map_singleton, h.files]
  unfold WrittenChunk.file
  dsimp only
  rw [hhash, hbytes, h.written.network_id, h.start_ledger, h.end_ledger]

/-- A chunk that has come to the end in its header is one more tile. -/
theorem Running.close (h : Running sha512half args get_node fuel ledger_db concurrency e last done
      current) (hend : current.header.end_ledger = last) :
    Tiles WrittenChunk.first_ledger WrittenChunk.next_ledger args.start.toNat (done ++ [current])
        (last.toNat + 1) ∧
      ∀ c ∈ done ++ [current], CompleteUpTo sha512half args get_node fuel ledger_db concurrency c
        c.header.end_ledger := by
  have hfirst : current.first_ledger = e.chunk_start.toNat := congrArg UInt32.toNat h.start_ledger
  have hnext : current.next_ledger = last.toNat + 1 := by
    unfold WrittenChunk.next_ledger
    rw [hend]
  have hstart_le := h.grid.start_le
  constructor
  · rw [← hnext]
    exact Tiles.concat (hfirst ▸ h.tiles) (by omega)
  · intro c hc
    rcases List.mem_append.mp hc with hc | hc
    · exact h.complete c hc
    · rw [List.mem_singleton.mp hc, hend]
      exact h.written

/-- A new chunk behind those that are done. -/
theorem Running.new {state : StateMap} {tx_map : TxMap} {k : Nat} {info : LedgerInfo}
    {txns : List TxRecord} {ledger_hash : Hash256} {seq : UInt32}
    (hfiles : e.files = done.map (WrittenChunk.file sha512half))
    (htiles : Tiles WrittenChunk.first_ledger WrittenChunk.next_ledger args.start.toNat done
      seq.toNat)
    (hcomplete : ∀ c ∈ done, CompleteUpTo sha512half args get_node fuel ledger_db concurrency c
      c.header.end_ledger)
    (hrow : ledger_db.get seq = .ok info)
    (hhash : info.verify_ledger_hash sha512half seq = .ok ledger_hash)
    (htxns : ledger_txns get_node fuel info seq = .ok txns)
    (hmap : tx_map = info.tx_map seq ledger_hash txns)
    (hstate : StateAt args get_node fuel ledger_db concurrency seq state)
    (hgrid : OnGrid args e seq.toNat) (hlt : seq.toNat + 1 < 2 ^ 32)
    (he : e = { state, chunk_start := seq, chunk_end := args.chunk_end seq,
                chunk_writer := create_chunk args order k state seq ledger_hash tx_map,
                prev_account_hash := info.account_hash, files := e.files }) :
    Running sha512half args get_node fuel ledger_db concurrency e seq done
      { header := args.new_header seq ledger_hash, checkpoint := order.values k state,
        first := tx_map, pairs := [] } := by
  have hnone : batch_seqs (seq + 1) seq = [] := by
    apply batch_seqs_empty
    rw [UInt32.lt_iff_toNat_lt, toNat_succ hlt]
    exact Nat.lt_succ_self _
  rw [he] at hgrid ⊢
  refine ⟨hfiles, htiles, hcomplete, create_chunk_wrote k state seq ledger_hash tx_map, rfl, rfl,
    rfl, ?_, hgrid, hstate, info, hrow, rfl⟩
  · refine ⟨rfl, ?_, ⟨state, hstate, order.values_perm k state⟩, ?_, ?_⟩
    · rw [hmap]
      rfl
    · exact ⟨info, txns, ledger_hash, hrow, hhash, htxns, hmap⟩
    · show List.Forall₂ _ (batch_seqs (seq + 1) seq) []
      rw [hnone]
      exact .nil

/-- The end in a header is the ledger before the next chunk. -/
theorem chunk_end_eq {a : UInt32} (h : a.toNat + args.chunk_size.toNat = last.toNat + 1)
    (hfit : last.toNat + 1 < 2 ^ 32) (hle : last ≤ args.end) : args.chunk_end a = last := by
  rw [UInt32.le_iff_toNat_le] at hle
  have hend := @toNat_min_last a args.chunk_size args.end (by omega) (by omega)
  apply UInt32.toNat_inj.mp
  show (min (a + args.chunk_size - 1) args.end).toNat = last.toNat
  omega

/-- One more pair. -/
theorem written_body_concat (checkpoint : List SHAMapNode) (first : TxMap)
    (pairs : List (LedgerDelta × TxMap)) (p : LedgerDelta × TxMap) :
    written_body checkpoint first (pairs ++ [p]) =
      written_body checkpoint first pairs ++ write_delta p.1 ++ write_tx_map p.2 := by
  unfold written_body
  rw [List.flatMap_append, List.flatMap_singleton]
  simp only [List.append_assoc]

/-- The next ledger: a pair in the same chunk, or the start of a new one. -/
theorem Running.next (hsize : args.chunk_size ≠ 0) (hmax : args.end.toNat + 1 < 2 ^ 32)
    (h : Running sha512half args get_node fuel ledger_db concurrency e last done current)
    (hlt : last.toNat < args.end.toNat)
    (hrun : export_next sha512half args order get_node fuel ledger_db e (last + 1) = .ok e') :
    ∃ done current,
      Running sha512half args get_node fuel ledger_db concurrency e' (last + 1) done current := by
  have hnext : (last + 1).toNat = last.toNat + 1 := toNat_succ (by omega)
  obtain ⟨info, hrow, hrun⟩ := bind_eq_ok.mp hrun
  obtain ⟨ledger_hash, hhash, hrun⟩ := bind_eq_ok.mp hrun
  obtain ⟨d, hd, hrun⟩ := bind_eq_ok.mp hrun
  obtain ⟨txns, htxns, hrun⟩ := bind_eq_ok.mp hrun
  obtain ⟨old, hold, hprev⟩ := h.prev
  rw [hprev] at hd
  have hdelta : DeltaOf get_node fuel ledger_db (last + 1)
      { ledger_seq := last + 1, diff := d } := by
    refine ⟨rfl, old, info, ?_, hrow, hd⟩
    rwa [UInt32.add_sub_cancel]
  have hmap : TxMapOf sha512half get_node fuel ledger_db (last + 1)
      (info.tx_map (last + 1) ledger_hash txns) :=
    ⟨info, txns, ledger_hash, hrow, hhash, htxns, rfl⟩
  have hstate := StateAt.next h.state hdelta
  obtain ⟨-, hwritten⟩ := @written_eq args e last.toNat (last + 1) hnext h.grid.start_le
  dsimp only at hrun
  by_cases hcase : last + 1 - e.chunk_start = args.chunk_size
  · -- The count of ledgers says that the chunk is full, and so does its header.
    rw [if_pos hcase] at hrun
    have hend := hwritten.mp hcase
    have hchunk_end : current.header.end_ledger = last := by
      rw [h.end_ledger, h.chunk_end]
      exact chunk_end_eq hend.symm (by omega) (UInt32.le_iff_toNat_le.mpr (by omega))
    obtain ⟨htiles, hcomplete⟩ := h.close hchunk_end
    rw [← hnext] at htiles
    have hgrid := @OnGrid.switch args e last.toNat e' h.grid hsize
      (by rw [← pure_eq_ok.mp hrun, hnext]) hend
    rw [← hnext] at hgrid
    rw [← pure_eq_ok.mp hrun] at hgrid ⊢
    exact ⟨_, _, .new h.finish htiles hcomplete hrow hhash htxns rfl hstate hgrid (by omega) rfl⟩
  · -- The pair is appended to the chunk.
    rw [if_neg hcase] at hrun
    have hno := mt hwritten.mpr hcase
    have hstart_le := h.grid.start_le
    have hgrid := @OnGrid.stay args e last.toNat e' h.grid (by rw [← pure_eq_ok.mp hrun]) hno
    rw [← hnext] at hgrid
    rw [← pure_eq_ok.mp hrun] at hgrid ⊢
    refine ⟨done, { current with pairs := current.pairs ++ [({ ledger_seq := last + 1, diff := d },
      info.tx_map (last + 1) ledger_hash txns)] }, h.files, h.tiles, h.complete, ?_,
      h.start_ledger, h.end_ledger, h.chunk_end, ?_, hgrid, hstate, info, hrow, rfl⟩
    · have hwrote := (h.writer.write_delta { ledger_seq := last + 1, diff := d }).write_tx_map
        (info.tx_map (last + 1) ledger_hash txns)
      unfold WrittenChunk.body
      rw [written_body_concat]
      exact hwrote
    · obtain ⟨hnetwork, hcheckpoint_hash, hcheckpoint, hfirst, hpairs⟩ := h.written
      refine ⟨hnetwork, hcheckpoint_hash, hcheckpoint, hfirst, ?_⟩
      -- The header's first ledger is the checkpoint's; the pairs begin behind it.
      show List.Forall₂ _ (batch_seqs (current.header.start_ledger + 1) (last + 1)) _
      have hfrom : (current.header.start_ledger + 1).toNat ≤ last.toNat + 1 := by
        rw [h.start_ledger, toNat_succ (by omega)]
        omega
      rw [batch_seqs_next hfrom hnext]
      exact List.rel_append hpairs (.cons ⟨hdelta, hmap⟩ .nil)

theorem running_all {stop : UInt32} (hsize : args.chunk_size ≠ 0)
    (hmax : args.end.toNat + 1 < 2 ^ 32) (hstop : stop ≤ args.end)
    (n : Nat) (h : Running sha512half args get_node fuel ledger_db concurrency e last done current)
    (hle : last.toNat + n = stop.toNat)
    (hrun : ((List.range' (last.toNat + 1) n).map UInt32.ofNat).foldlM
      (export_next sha512half args order get_node fuel ledger_db) e = .ok e') :
    ∃ done current,
      Running sha512half args get_node fuel ledger_db concurrency e' stop done current := by
  rw [UInt32.le_iff_toNat_le] at hstop
  induction n generalizing e last done current with
  | zero =>
    have hlast : last = stop := UInt32.toNat_inj.mp hle
    rw [← foldlM_nil_ok.mp hrun, ← hlast]
    exact ⟨done, current, h⟩
  | succ n ih =>
    have hnext : (last + 1).toNat = last.toNat + 1 := toNat_succ (by omega)
    rw [List.range'_succ, List.map_cons, ← hnext, UInt32.ofNat_toNat] at hrun
    obtain ⟨e₁, hledger, hrun⟩ := foldlM_cons_ok.mp hrun
    obtain ⟨done₁, current₁, h₁⟩ := h.next hsize hmax (by omega) hledger
    exact ih h₁ (by omega) hrun

/-- Behind the first ledger. -/
theorem Running.start (hsize : args.chunk_size ≠ 0) (hlt : args.start.toNat + 1 < 2 ^ 32)
    (h : export_start sha512half args order get_node fuel ledger_db concurrency = .ok e) :
    ∃ current,
      Running sha512half args get_node fuel ledger_db concurrency e args.start [] current := by
  unfold export_start at h
  simp only [bind_eq_ok, pure_eq_ok] at h
  obtain ⟨info, hrow, ledger_hash, hhash, nodes, hnodes, txns, htxns, rfl⟩ := h
  exact ⟨_, .new rfl rfl (by simp) hrow hhash htxns rfl (.first hrow hnodes) (.first hsize rfl)
    hlt rfl⟩

theorem forall₂_ledgers {seqs : List UInt32} {pairs : List (LedgerDelta × TxMap)}
    (h : List.Forall₂ (fun seq p => DeltaOf get_node fuel ledger_db seq p.1 ∧
      TxMapOf sha512half get_node fuel ledger_db seq p.2) seqs pairs) :
    pairs.map (fun p => p.2.ledger_seq) = seqs := by
  induction h with
  | nil => rfl
  | cons hp _ ih =>
    obtain ⟨-, info, txns, ledger_hash, -, -, -, hmap⟩ := hp
    rw [List.map_cons, ih, hmap]
    rfl

/-- A complete chunk has the ledgers that its header says. -/
theorem CompleteUpTo.ledgers {c : WrittenChunk}
    (h : CompleteUpTo sha512half args get_node fuel ledger_db concurrency c c.header.end_ledger)
    (hlt : c.first_ledger < c.next_ledger) (hfit : c.next_ledger < 2 ^ 32) :
    c.ledgers = (List.range' c.first_ledger (c.next_ledger - c.first_ledger)).map UInt32.ofNat := by
  obtain ⟨info, txns, ledger_hash, -, -, -, hmap⟩ := h.first
  dsimp only [WrittenChunk.first_ledger, WrittenChunk.next_ledger] at hlt hfit ⊢
  have hnext : (c.header.start_ledger + 1).toNat = c.header.start_ledger.toNat + 1 :=
    toNat_succ (by omega)
  have hcount : c.header.end_ledger.toNat + 1 - c.header.start_ledger.toNat =
      c.header.end_ledger.toNat + 1 - (c.header.start_ledger.toNat + 1) + 1 := by omega
  unfold WrittenChunk.ledgers
  rw [forall₂_ledgers h.pairs, hmap, hcount, List.range'_succ, List.map_cons, UInt32.ofNat_toNat,
    batch_seqs, hnext]
  rfl

/-- The last chunk goes up to the end of the range. -/
theorem Running.chunk_end_eq_end (hf : ChunksFit args args.end.toNat)
    (h : Running sha512half args get_node fuel ledger_db concurrency e args.end done current) :
    current.header.end_ledger = args.end := by
  -- The chunk starts on the grid, so the number behind it fits and the minimum is the end.
  obtain ⟨k, hk⟩ := h.grid.start
  have hstart_le := h.grid.start_le
  have hlast_lt := h.grid.last_lt
  have hfit := hf k (hk ▸ hstart_le)
  rw [← hk] at hfit
  have hend := @toNat_min_last e.chunk_start args.chunk_size args.end (by omega) (by omega)
  rw [h.end_ledger, h.chunk_end]
  apply UInt32.toNat_inj.mp
  show (min (e.chunk_start + args.chunk_size - 1) args.end).toNat = args.end.toNat
  omega

/-- A run behind the last ledger: all its chunks, with the last one, tile
    the range. -/
theorem Running.files_tile (hf : NumbersFit args (batch_size concurrency))
    (h : Running sha512half args get_node fuel ledger_db concurrency e args.end done current) :
    FilesTile sha512half args get_node fuel ledger_db concurrency
      (e.finish_chunk sha512half args) := by
  have hend := h.chunk_end_eq_end hf.chunks
  have hmax := hf.end_lt
  obtain ⟨htiles, hcomplete⟩ := h.close hend
  refine ⟨done ++ [current], h.finish, htiles, hcomplete, ?_⟩
  have hledgers : ∀ c ∈ done ++ [current], c.ledgers =
      (List.range' c.first_ledger (c.next_ledger - c.first_ledger)).map UInt32.ofNat := by
    intro c hc
    obtain ⟨hlt, hle⟩ := htiles.of_mem hc
    exact (hcomplete c hc).ledgers hlt (lt_of_le_of_lt hle hmax)
  rw [List.flatMap_congr hledgers, ← List.map_flatMap, htiles.numbers]
  rfl

/-- The export of a range whose numbers fit. -/
theorem export_main_tiles {files : List ChunkFile} (hf : NumbersFit args (batch_size concurrency))
    (h : export_main sha512half args order get_node fuel ledger_db concurrency = .ok files) :
    FilesTile sha512half args get_node fuel ledger_db concurrency files := by
  obtain ⟨hrange, hsize, e, e', hstart, hloop, rfl⟩ := export_main_ok.mp h
  have hrange := UInt32.not_le.mp hrange
  have hnext := toNat_succ_of_lt hrange
  have hlt := UInt32.lt_iff_toNat_lt.mp hrange
  have hmax := hf.end_lt
  have hw : NoWrap args (batch_size concurrency) (args.start + 1).toNat := hnext ▸ hf.no_wrap
  have hall := (export_loop_iff hw (by omega)).mp ⟨fuel, hloop⟩
  obtain ⟨current, hrunning⟩ := Running.start hsize (by omega) hstart
  have hcount : args.end.toNat + 1 - (args.start.toNat + 1) =
      args.end.toNat - args.start.toNat := by omega
  rw [batch_seqs, hnext, hcount] at hall
  obtain ⟨done, current, hrunning⟩ := running_all hsize hmax (UInt32.le_refl _) _ hrunning
    (by omega) hall
  exact hrunning.files_tile hf

/-- If the ledgers can be exported one by one, the exporter comes to its
    end. -/
theorem export_main_ends (hf : NumbersFit args (batch_size concurrency))
    (hrange : args.start < args.end) (hsize : args.chunk_size ≠ 0)
    (hstart : export_start sha512half args order get_node fuel ledger_db concurrency = .ok e)
    (hall : (batch_seqs (args.start + 1) args.end).foldlM
      (export_next sha512half args order get_node fuel ledger_db) e = .ok e') :
    ∃ fuel', export_main sha512half args order get_node fuel' ledger_db concurrency =
      .ok (e'.finish_chunk sha512half args) := by
  have hmax := hf.end_lt
  have hw : NoWrap args (batch_size concurrency) (args.start + 1).toNat :=
    toNat_succ_of_lt hrange ▸ hf.no_wrap
  obtain ⟨rounds, hloop⟩ := (export_loop_iff hw (by omega)).mpr hall
  have hsame := Answers.refl get_node
  have hle : fuel ≤ max fuel rounds := le_max_left _ _
  exact ⟨max fuel rounds, export_main_ok.mpr ⟨UInt32.not_le.mpr hrange, hsize, e, e',
    export_start_within hsame hle concurrency e hstart,
    export_loop_within hsame hle (le_max_right _ _) _ (export_start_keyed hstart) hloop, rfl⟩⟩

/-! ## The exporter -/

/-- With these arguments and at this level of concurrency the exporter does
    what it should, whatever is in the databases: no arithmetic overflows,
    the chunks of a finished export tile the range, and an export whose
    ledgers can all be exported comes to its end. -/
structure ExportsTile (args : Args) (concurrency : Nat) : Prop where
  no_overflow : ∀ sha512half order get_node fuel ledger_db,
    ¬ (export_main_checked sha512half args order get_node fuel ledger_db concurrency).Overflows
  tile : ∀ sha512half order get_node fuel ledger_db files,
    export_main sha512half args order get_node fuel ledger_db concurrency = .ok files →
      FilesTile sha512half args get_node fuel ledger_db concurrency files
  ends : ∀ sha512half order get_node fuel ledger_db e e',
    export_start sha512half args order get_node fuel ledger_db concurrency = .ok e →
      (batch_seqs (args.start + 1) args.end).foldlM
        (export_next sha512half args order get_node fuel ledger_db) e = .ok e' →
      ∃ fuel', export_main sha512half args order get_node fuel' ledger_db concurrency =
        .ok (e'.finish_chunk sha512half args)

/-! ### Databases in which every ledger is the same -/

/-- A ledger without transactions whose state is one leaf. -/
def quiet_info : LedgerInfo :=
  { ledger_hash := ZERO_HASH, account_hash := Hash256.ofBytes [1], tx_hash := ZERO_HASH,
    parent_hash := ZERO_HASH, total_coins := 0, closing_time := 0, prev_closing_time := 0,
    close_time_resolution := 10, close_flags := 0 }

def quiet_rows : LedgerIndex := fun _ => some quiet_info.row

/-- Every hash is a leaf's. -/
def leaf_node (hash : Hash256) : Except Error SHAMapNode := .ok ⟨hash, .AccountState, [1]⟩

def quiet_hash (_ : Bytes) : Hash256 := ZERO_HASH

theorem quiet_get (seq : UInt32) : quiet_rows.get seq = .ok quiet_info :=
  LedgerIndex.get_row rfl

theorem quiet_txns (seq : UInt32) : ledger_txns leaf_node 5 quiet_info seq = .ok [] :=
  with_context_eq_ok.mpr rfl

theorem quiet_start (concurrency : Nat) :
    ∃ e, export_start quiet_hash args by_hash leaf_node 5 quiet_rows concurrency = .ok e ∧
      e.prev_account_hash = quiet_info.account_hash := by
  have hwalk : ∃ nodes, collect_reachable_concurrent leaf_node 5 quiet_info.account_hash
      concurrency = .ok nodes := by
    unfold collect_reachable_concurrent
    by_cases hlevel : concurrency ≤ 1
    · rw [if_pos hlevel]
      exact ⟨_, rfl⟩
    · rw [if_neg hlevel]
      exact ⟨_, rfl⟩
  obtain ⟨nodes, hnodes⟩ := hwalk
  exact ⟨_, bind_eq_ok.mpr ⟨_, quiet_get _, bind_eq_ok.mpr ⟨_, rfl, bind_eq_ok.mpr ⟨nodes, hnodes,
    bind_eq_ok.mpr ⟨_, quiet_txns _, rfl⟩⟩⟩⟩, rfl⟩

theorem quiet_next (he : e.prev_account_hash = quiet_info.account_hash) (seq : UInt32) :
    ∃ e', export_next quiet_hash args by_hash leaf_node 5 quiet_rows e seq = .ok e' ∧
      e'.prev_account_hash = quiet_info.account_hash := by
  have hdiff : diff leaf_node 5 e.prev_account_hash quiet_info.account_hash =
      .ok { added := [], deleted := [] } := by
    rw [he]
    rfl
  have hledger : ∃ e', export_ledger quiet_hash args by_hash leaf_node 5 e seq quiet_info ZERO_HASH
      { added := [], deleted := [] } = .ok e' := by
    unfold export_ledger
    by_cases hcase : seq - e.chunk_start = args.chunk_size
    · exact ⟨_, bind_eq_ok.mpr ⟨[], quiet_txns seq, if_pos hcase⟩⟩
    · exact ⟨_, bind_eq_ok.mpr ⟨[], quiet_txns seq, if_neg hcase⟩⟩
  obtain ⟨e', hledger⟩ := hledger
  refine ⟨e', ?_, (export_ledger_ok hledger).2⟩
  exact bind_eq_ok.mpr ⟨_, quiet_get seq, bind_eq_ok.mpr ⟨ZERO_HASH, rfl,
    bind_eq_ok.mpr ⟨_, hdiff, hledger⟩⟩⟩

theorem quiet_all (seqs : List UInt32) (he : e.prev_account_hash = quiet_info.account_hash) :
    ∃ e', seqs.foldlM (export_next quiet_hash args by_hash leaf_node 5 quiet_rows) e = .ok e' := by
  induction seqs generalizing e with
  | nil => exact ⟨e, rfl⟩
  | cons seq seqs ih =>
    obtain ⟨e₁, hnext, he₁⟩ := quiet_next he seq
    obtain ⟨e', hrest⟩ := ih he₁
    exact ⟨e', foldlM_cons_ok.mpr ⟨e₁, hnext, hrest⟩⟩

/-- An exporter that does what it should finds out that all numbers fit:
    the export of quiet ledgers comes to its end without an overflow. -/
theorem ExportsTile.fits (h : ExportsTile args concurrency) :
    NumbersFit args (batch_size concurrency) := by
  -- Nothing in these databases stops a run before its arithmetic does.
  obtain ⟨e, hstart, he⟩ := @quiet_start args concurrency
  obtain ⟨e', hall⟩ := @quiet_all args e (batch_seqs (args.start + 1) args.end) he
  obtain ⟨fuel, hmain⟩ := h.ends _ _ _ _ _ _ _ hstart hall
  have hsafe := h.no_overflow quiet_hash by_hash leaf_node fuel quiet_rows
  have hagrees := @export_main_agrees quiet_hash args by_hash leaf_node fuel quiet_rows concurrency
  exact export_main_checked_fits (hagrees.run_eq_some.mpr ⟨hsafe, hmain⟩)

/-- When the exporter does what it should: the number behind the range, the
    number behind every chunk and the number behind every batch are `u32`
    numbers, and the batches are not empty. -/
theorem exports_tile_iff (args : Args) (concurrency : Nat) (hrange : args.start < args.end)
    (hsize : args.chunk_size ≠ 0) :
    ExportsTile args concurrency ↔ NumbersFit args (batch_size concurrency) := by
  constructor
  · intro h
    exact h.fits
  · intro hf
    refine ⟨?_, ?_, ?_⟩
    · intro sha512half order get_node fuel ledger_db
      exact export_main_checked_safe hf
    · intro sha512half order get_node fuel ledger_db files h
      exact export_main_tiles hf h
    · intro sha512half order get_node fuel ledger_db e e' hstart hall
      exact export_main_ends hf hrange hsize hstart hall

/-- Five ledgers in chunks of two and batches of four. -/
theorem exports_tile_iff_five :
    ExportsTile { start := 1, «end» := 5, network_id := 1, chunk_size := 2 } 4 := by
  have hfour : (batch_size 4).toNat = 4 := by decide
  refine (exports_tile_iff _ 4 (by decide) (by decide)).mpr ⟨by decide, ?_, by decide, ?_⟩
  · intro k hk
    dsimp only at hk ⊢
    simp only [UInt32.reduceToNat] at hk ⊢
    omega
  · intro k hk
    rw [hfour] at hk ⊢
    simp only [UInt32.reduceToNat] at hk ⊢
    omega

/-- Ledgers 2 and 3, with a chunk size meant as everything. -/
def everything_args : Args :=
  { start := 2, «end» := 3, network_id := 1, chunk_size := 4294967295 }

/-- The first chunk's end wraps around: with overflow checks there is no
    export, and without them the one chunk says that it ends at ledger 0. -/
theorem everything_in_one_chunk :
    ¬ ExportsTile everything_args 1 ∧
      ∃ files, Exports Xxh64.digest (fun _ _ => none) sha2_sha512half everything_args
          (leaf_rows 2 3) leaf_reader 1 by_hash files ∧
        files.map ChunkFile.name = ["xrla_1_0000000002_0000000000.xrla"] := by
  constructor
  · intro h
    have hfit := h.fits.chunks 0 (by decide)
    exact absurd hfit (by decide)
  · have hrun : ((export_main sha2_sha512half everything_args by_hash
        (leaf_reader.get_node Xxh64.digest (fun _ _ => none) 5) 5 (leaf_rows 2 3) 1).toOption.map
          fun files => files.map ChunkFile.name) = some ["xrla_1_0000000002_0000000000.xrla"] := by
      decide +kernel
    cases hmain : export_main sha2_sha512half everything_args by_hash
        (leaf_reader.get_node Xxh64.digest (fun _ _ => none) 5) 5 (leaf_rows 2 3) 1 with
    | error err =>
      rw [hmain] at hrun
      cases hrun
    | ok files =>
      rw [hmain] at hrun
      exact ⟨files, ⟨5, hmain⟩, Option.some.inj hrun⟩

end LedgerArchive
