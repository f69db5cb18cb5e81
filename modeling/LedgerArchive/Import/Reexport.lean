import LedgerArchive.Import.LedgerDb
import LedgerArchive.Import.Replica

/-! # Exporting again from an imported store

    What is exported is imported, with its rows, into a fresh store and a
    fresh `ledger.db`. The store then holds the trees of every ledger of the
    files, each node as the source has it (`NodesHold`), and the database
    the rows of all ledgers but the first one of each file. From there any
    range of ledgers within a file can be exported again, with the same
    files as from the source (`reexport_agrees`). -/

namespace LedgerArchive

open Lib

variable {sha512half : Bytes → Hash256} {store : Store} {nodes : List SHAMapNode}
  {xxh64 : Bytes → UInt64 → UInt64} {lz4 : Bytes → Nat → Option Bytes}
  {txns txns' : List TxRecord} {root : Hash256}

/-! ## The nodes of a chunk -/

/-- Everything a replay of the chunk's file hands to the sink. -/
def WrittenChunk.sunk (sha512half : Bytes → Hash256) (c : WrittenChunk) : List SHAMapNode :=
  (c.header.written_chunk c.checkpoint c.first c.pairs).sunk_nodes sha512half

theorem WrittenChunk.mem_sunk {c : WrittenChunk} {n : SHAMapNode} :
    n ∈ c.sunk sha512half ↔ n ∈ c.checkpoint ∨ n ∈ tx_nodes sha512half c.first.sorted.txns ∨
      ∃ p ∈ c.pairs, n ∈ p.1.diff.added ∨ n ∈ tx_nodes sha512half p.2.sorted.txns := by
  unfold WrittenChunk.sunk Chunk.sunk_nodes ChunkHeader.written_chunk
  rw [ledgers_streamed, List.mem_append, List.mem_append, or_assoc]
  show n ∈ sort_nodes c.checkpoint ∨ n ∈ (some c.first.sorted).toList.flatMap _ ∨ _ ↔ _
  rw [(sort_nodes_perm c.checkpoint).mem_iff, Option.toList_some, List.flatMap_singleton,
    List.flatMap_map, List.mem_flatMap]
  have hadded : ∀ p : LedgerDelta × TxMap, n ∈ p.1.sorted.diff.added ↔ n ∈ p.1.diff.added :=
    fun p => (sort_nodes_perm p.1.diff.added).mem_iff
  simp only [List.mem_append, hadded]

variable {args : Args} {get_node : Hash256 → Except Error SHAMapNode} {fuel : Nat}
  {ledger_db : LedgerIndex} {concurrency : Nat} {seq last : UInt32} {info old : LedgerInfo}
  {visit visit' : List Hash256} {c : WrittenChunk}

/-- The nodes have the state tree of a ledger and its transactions. -/
structure NodesHold (sha512half : Bytes → Hash256) (nodes : List SHAMapNode)
    (visit : List Hash256) (txns : List TxRecord) : Prop where
  state : visit ⊆ nodes.map SHAMapNode.hash
  txns : tx_nodes sha512half (sort_txns txns) ⊆ nodes

namespace Exportable

variable (hr : Exportable sha512half args store get_node fuel ledger_db)

include hr

theorem delta_drawn {delta : LedgerDelta} (hdelta : DeltaOf get_node fuel ledger_db seq delta) :
    Drawn store delta.diff.added := by
  obtain ⟨-, old, info, hold, hrow, hd⟩ := hdelta
  obtain ⟨visit, txns, h⟩ := hr.read hold
  obtain ⟨visit', txns', h'⟩ := hr.read hrow
  obtain ⟨d, hd', hdiff⟩ := h.diffOf h'
  obtain rfl := Except.ok.inj (hd.symm.trans hd')
  exact hdiff.stored

theorem tx_map_drawn (hs : TypedStore store) {m : TxMap}
    (hm : TxMapOf sha512half get_node fuel ledger_db seq m) :
    Drawn store (tx_nodes sha512half m.sorted.txns) := by
  obtain ⟨info, _, _, hrow, -, -, -⟩ := id hm
  obtain ⟨visit, txns, h⟩ := hr.read hrow
  rw [h.tx_map_eq hm]
  exact h.stored_txns.drawn hs (sort_txns_perm txns)

/-- Along the pairs the nodes keep up with the ledgers. -/
theorem nodes_hold_run {n : Nat} {pairs : List (LedgerDelta × TxMap)}
    (hle : last.toNat + n ≤ args.end.toNat)
    (hlast : LedgerRead sha512half store get_node fuel ledger_db last old visit txns)
    (hheld : NodesHold sha512half nodes visit txns)
    (hpairs : List.Forall₂ (fun seq p => DeltaOf get_node fuel ledger_db seq p.1 ∧
      TxMapOf sha512half get_node fuel ledger_db seq p.2)
      ((List.range' (last.toNat + 1) n).map UInt32.ofNat) pairs)
    (hsub : ∀ p ∈ pairs, p.1.diff.added ⊆ nodes ∧ tx_nodes sha512half p.2.sorted.txns ⊆ nodes)
    (hfirst : last ≤ seq) (hseq : seq.toNat ≤ last.toNat + n) :
    ∃ info visit txns, LedgerRead sha512half store get_node fuel ledger_db seq info visit txns ∧
      NodesHold sha512half nodes visit txns := by
  rw [UInt32.le_iff_toNat_le] at hfirst
  induction n generalizing last old visit txns pairs with
  | zero =>
    obtain rfl : last = seq := UInt32.toNat_inj.mp (by omega)
    exact ⟨old, visit, txns, hlast, hheld⟩
  | succ n ih =>
    by_cases heq : last = seq
    · rw [← heq]
      exact ⟨old, visit, txns, hlast, hheld⟩
    have hne : last.toNat ≠ seq.toNat := fun h => heq (UInt32.toNat_inj.mp h)
    have hmax := args.end.toNat_lt
    have hnext : (last + 1).toNat = last.toNat + 1 := toNat_succ (by omega)
    rw [List.range'_succ, List.map_cons, ← hnext, UInt32.ofNat_toNat] at hpairs
    cases hpairs with
    | @cons _ p _ pairs hp hpairs =>
      -- The delta of the chunk is the diff between these two ledgers.
      obtain ⟨hdelta, hmap⟩ := hp
      obtain ⟨-, old', info, hold, hrow, hd⟩ := hdelta
      rw [UInt32.add_sub_cancel] at hold
      obtain rfl := Except.ok.inj (hold.symm.trans hlast.row)
      obtain ⟨visit', txns', h'⟩ := hr.read hrow
      obtain ⟨d, hd', hdiff⟩ := hlast.diffOf h'
      obtain rfl := Except.ok.inj (hd.symm.trans hd')
      obtain ⟨hadded, htxns⟩ := hsub p List.mem_cons_self
      refine ih (by omega) h' ⟨?_, ?_⟩ hpairs (fun q hq => hsub q (List.mem_cons_of_mem _ hq))
        (by omega) (by omega)
      · -- A node of the new tree was added, or is one of the old tree.
        obtain ⟨common, hpo, hpn⟩ := hdiff.split
        intro h hh
        rcases List.mem_append.mp (hpn.mem_iff.mp hh) with hh | hh
        · exact List.map_subset _ hadded hh
        · exact hheld.state (hpo.mem_iff.mpr (List.mem_append_right _ hh))
      · rw [h'.tx_map_eq hmap] at htxns
        exact htxns

/-- A complete chunk is made of nodes of the store, and has what its ledgers
    need. -/
theorem chunk_held (hs : TypedStore store)
    (hc : CompleteUpTo sha512half args get_node fuel ledger_db concurrency c c.header.end_ledger)
    (hlt : c.first_ledger < c.next_ledger) (hle : c.next_ledger ≤ args.end.toNat + 1)
    (hmax : args.end.toNat + 1 < 2 ^ 32) :
    Drawn store (c.sunk sha512half) ∧ ∀ seq, c.header.start_ledger ≤ seq →
      seq ≤ c.header.end_ledger → ∃ info visit txns,
        LedgerRead sha512half store get_node fuel ledger_db seq info visit txns ∧
          NodesHold sha512half (c.sunk sha512half) visit txns := by
  unfold WrittenChunk.first_ledger WrittenChunk.next_ledger at hlt
  unfold WrittenChunk.next_ledger at hle
  obtain ⟨info, visit, txns, hread, hcollected, -⟩ := hr.checkpoint hc
  have hpairs := hc.pairs
  have hseqs : batch_seqs (c.header.start_ledger + 1) c.header.end_ledger =
      (List.range' (c.header.start_ledger.toNat + 1)
        (c.header.end_ledger.toNat - c.header.start_ledger.toNat)).map UInt32.ofNat := by
    unfold batch_seqs
    rw [toNat_succ (by omega), Nat.add_sub_add_right]
  rw [hseqs] at hpairs
  constructor
  · intro n hn
    rcases WrittenChunk.mem_sunk.mp hn with hn | hn | ⟨p, hp, hn⟩
    · exact hcollected.stored n hn
    · exact hr.tx_map_drawn hs hc.first n hn
    · obtain ⟨i, hi, rfl⟩ := List.mem_iff_getElem.mp hp
      obtain ⟨hdelta, hmap⟩ := hpairs.get (by rw [hpairs.length_eq]; exact hi) hi
      rcases hn with hn | hn
      · exact hr.delta_drawn hdelta n hn
      · exact hr.tx_map_drawn hs hmap n hn
  · intro seq hfirst hlast
    rw [UInt32.le_iff_toNat_le] at hlast
    -- From the checkpoint on, delta by delta.
    refine hr.nodes_hold_run (by omega) hread ⟨?_, ?_⟩ hpairs ?_ hfirst (by omega)
    · intro h hh
      refine List.map_subset _ (fun n hn => ?_) (hcollected.perm.mem_iff.mpr hh)
      exact WrittenChunk.mem_sunk.mpr (.inl hn)
    · intro n hn
      rw [WrittenChunk.mem_sunk, hread.tx_map_eq hc.first]
      exact .inr (.inl hn)
    · intro p hp
      exact ⟨fun n hn => WrittenChunk.mem_sunk.mpr (.inr (.inr ⟨p, hp, .inl hn⟩)),
        fun n hn => WrittenChunk.mem_sunk.mpr (.inr (.inr ⟨p, hp, .inr hn⟩))⟩

end Exportable

/-! ## Importing what was exported -/

/-- An import of the chunk's file returns the rows of its ledgers behind the
    first one, and writes its nodes. -/
def ImportsAs (xxh64 : Bytes → UInt64 → UInt64) (sha512half : Bytes → Hash256)
    (ledger_db : LedgerIndex) (c : WrittenChunk) : Prop :=
  ∃ fuel₀, ∀ fuel ≥ fuel₀, ∀ o : Outputs NuDbSink Unit, o.txdb = none → ∃ result o',
    import_chunk (NuDbSink.node_sink xxh64) NoTxDb sha512half fuel true (c.file sha512half).bytes o =
        .ok (result, o') ∧
      List.Forall₂ (SourceRow ledger_db)
        (batch_seqs (c.header.start_ledger + 1) c.header.end_ledger) result.ledger_rows ∧
      o'.sink = o.sink.write_nodes xxh64 (encode_calls (c.sunk sha512half)) ∧ o'.txdb = none

theorem Exportable.imports (hr : Exportable sha512half args store get_node fuel ledger_db)
    (hc : CompleteUpTo sha512half args get_node fuel ledger_db concurrency c c.header.end_ledger)
    (hlt : c.first_ledger < c.next_ledger) (hle : c.next_ledger ≤ args.end.toNat + 1)
    (hmax : args.end.toNat + 1 < 2 ^ 32) : ImportsAs xxh64 sha512half ledger_db c := by
  obtain ⟨info, visit, txns, hread, hcollected, -⟩ := hr.checkpoint hc
  have hcount : c.header.delta_count = c.pairs.length := by
    have hlength := hc.pairs.length_eq
    unfold WrittenChunk.first_ledger WrittenChunk.next_ledger at hlt
    unfold WrittenChunk.next_ledger at hle
    unfold batch_seqs at hlength
    rw [toNat_succ (by omega), List.length_map, List.length_range'] at hlength
    unfold ChunkHeader.delta_count
    rw [UInt32.toNat_sub_of_le _ _ (UInt32.le_iff_toNat_le.mpr (by omega)), ← hlength]
    omega
  obtain ⟨header, body, hlayout, -⟩ :=
    @WrittenChunk.layout sha512half c (hr.narrow_parts hc hread hcollected) hcount
  -- A sink that writes nothing accepts the file, and so does the store.
  have htakes : TakesAll NullSink NoTxDb := ⟨fun _ _ _ => ⟨(), rfl⟩, fun _ _ => ⟨(), rfl⟩⟩
  obtain ⟨fuel₀, haccept⟩ := hr.accepted hc hlt hle hmax Unit Unit NullSink NoTxDb ⟨(), none, []⟩ htakes
  refine ⟨fuel₀, fun fuel' hfuel o ho => ?_⟩
  obtain ⟨result, out', hrun, hrows⟩ := haccept fuel' hfuel
  have himport : import_chunk NullSink NoTxDb sha512half fuel' true (c.file sha512half).bytes
      ⟨(), none, []⟩ = .ok (result, out') := by
    refine bind_eq_ok.mpr ⟨_, detect_version_of_layout hlayout, ?_⟩
    rw [if_pos rfl]
    exact hrun
  obtain ⟨o', hinto, hsink, htx⟩ := import_chunk_into_store himport hlayout.held (le_refl _) o ho
  exact ⟨result, o', hinto, hrows, hsink, htx⟩

/-- The rows of all files, chunk after chunk. -/
def later_seqs (chunks : List WrittenChunk) : List UInt32 :=
  chunks.flatMap fun c => batch_seqs (c.header.start_ledger + 1) c.header.end_ledger

/-- One invocation over all files. -/
theorem import_exported {chunks : List WrittenChunk}
    (h : ∀ c ∈ chunks, ImportsAs xxh64 sha512half ledger_db c) :
    ∃ fuel₀, ∀ fuel ≥ fuel₀, ∀ acc : List LedgerDbRow × Outputs NuDbSink Unit, acc.2.txdb = none →
      ∃ rows out, (chunks.map fun c => (c.file sha512half).bytes).foldlM
          (fun (acc : List LedgerDbRow × Outputs NuDbSink Unit) file => do
            let (replay, out) ← import_chunk (NuDbSink.node_sink xxh64) NoTxDb sha512half fuel true
              file acc.2
            pure (acc.1 ++ replay.ledger_rows, out)) acc = .ok (acc.1 ++ rows, out) ∧
        List.Forall₂ (SourceRow ledger_db) (later_seqs chunks) rows ∧
        out.sink = acc.2.sink.write_nodes xxh64
          (encode_calls (chunks.flatMap (WrittenChunk.sunk sha512half))) := by
  induction chunks with
  | nil =>
    refine ⟨0, fun fuel _ acc _ => ⟨[], acc.2, foldlM_nil_ok.mpr ?_, .nil, rfl⟩⟩
    rw [List.append_nil]
  | cons c chunks ih =>
    obtain ⟨fuel₁, hfirst⟩ := h c List.mem_cons_self
    obtain ⟨fuel₂, hrest⟩ := ih fun d hd => h d (List.mem_cons_of_mem _ hd)
    refine ⟨max fuel₁ fuel₂, fun fuel hfuel acc hacc => ?_⟩
    -- The first file, and the others on the outputs it leaves.
    obtain ⟨result, o, himport, hrows, hsink, htx⟩ := hfirst fuel (by omega) acc.2 hacc
    obtain ⟨rows, out, hrun, hrows', hsink'⟩ :=
      hrest fuel (by omega) (acc.1 ++ result.ledger_rows, o) htx
    refine ⟨result.ledger_rows ++ rows, out, ?_, ?_, ?_⟩
    · rw [← List.append_assoc]
      exact foldlM_cons_ok.mpr ⟨_, bind_eq_ok.mpr ⟨_, himport, rfl⟩, hrun⟩
    · exact List.rel_append hrows hrows'
    · rw [hsink', hsink, List.flatMap_cons, write_nodes_append]

theorem import_main_exported {chunks : List WrittenChunk}
    (h : ∀ c ∈ chunks, ImportsAs xxh64 sha512half ledger_db c) :
    ∃ fuel₀, ∀ fuel ≥ fuel₀, ∃ rows,
      import_main xxh64 sha512half fuel true (chunks.map fun c => (c.file sha512half).bytes) =
          .ok (rows, written_files xxh64 (chunks.flatMap (WrittenChunk.sunk sha512half))) ∧
        List.Forall₂ (SourceRow ledger_db) (later_seqs chunks) rows := by
  obtain ⟨fuel₀, hrun⟩ := @import_exported sha512half xxh64 ledger_db chunks h
  refine ⟨fuel₀, fun fuel hfuel => ?_⟩
  obtain ⟨rows, out, hfold, hrows, hsink⟩ :=
    hrun fuel hfuel ([], { sink := NuDbSink.create, txdb := none, calls := [] }) rfl
  refine ⟨rows, bind_eq_ok.mpr ⟨(rows, out), hfold, ?_⟩, hrows⟩
  rw [pure_eq_ok, hsink]
  rfl

/-! ## The rows of an import as a database -/

/-- The rows can be bound, and no two of them have one LedgerHash. -/
structure RowsFit (ledger_db : LedgerIndex) (seqs : List UInt32) : Prop where
  bindable : ∀ seq ∈ seqs, ∀ info, ledger_db.get seq = .ok info → info.total_coins.toNat < 2 ^ 63
  distinct : ∀ seq ∈ seqs, ∀ seq' ∈ seqs, ∀ info info', ledger_db.get seq = .ok info →
    ledger_db.get seq' = .ok info' → info.ledger_hash = info'.ledger_hash → seq = seq'

theorem SourceRow.info_eq {row : LedgerDbRow} (h : SourceRow ledger_db seq row) :
    row.ledger_seq = seq ∧ ledger_db.get seq = .ok row.info := by
  obtain ⟨info, hrow, rfl⟩ := h
  exact ⟨rfl, hrow⟩

/-- A row is given back by what it is read as, and its number. -/
theorem LedgerDbRow.eq_of_info {a b : LedgerDbRow} (hseq : a.ledger_seq = b.ledger_seq)
    (hinfo : a.info = b.info) : a = b := by
  unfold LedgerDbRow.info at hinfo
  simp only [LedgerInfo.mk.injEq] at hinfo
  obtain ⟨h1, h2, h3, h4, h5, h6, h7, h8, h9⟩ := hinfo
  obtain ⟨⟩ := a
  obtain ⟨⟩ := b
  simp only at hseq h1 h2 h3 h4 h5 h6 h7 h8 h9
  simp only [hseq, h1, h2, h3, h4, h5, h6, h7, h8, h9]

/-- Each row is that of one of the ledgers, and each ledger has one. -/
theorem source_rows {seqs : List UInt32} {rows : List LedgerDbRow}
    (hrows : List.Forall₂ (SourceRow ledger_db) seqs rows) :
    (∀ row ∈ rows, ∃ seq ∈ seqs, SourceRow ledger_db seq row) ∧
      ∀ seq ∈ seqs, ∃ row ∈ rows, SourceRow ledger_db seq row := by
  constructor
  · intro row hrow
    obtain ⟨i, hi, rfl⟩ := List.mem_iff_getElem.mp hrow
    have hi' : i < seqs.length := hrows.length_eq ▸ hi
    exact ⟨seqs[i], List.getElem_mem hi', hrows.get hi' hi⟩
  · intro seq hseq
    obtain ⟨i, hi, rfl⟩ := List.mem_iff_getElem.mp hseq
    have hi' : i < rows.length := hrows.length_eq ▸ hi
    exact ⟨rows[i], List.getElem_mem hi', hrows.get hi hi'⟩

/-- A fresh database takes all the rows. -/
theorem mem_written_rows {seqs : List UInt32} {rows : List LedgerDbRow}
    (hrows : List.Forall₂ (SourceRow ledger_db) seqs rows) (hfit : RowsFit ledger_db seqs) :
    (write_ledger_db rows Table.empty).2 = .ok () ∧ ∀ r,
      r ∈ (write_ledger_db rows Table.empty).1.rows ↔ r ∈ rows.map LedgerDbRow.columns := by
  obtain ⟨hsource, -⟩ := source_rows hrows
  have hall : written_rows rows = rows := by
    unfold written_rows
    rw [List.takeWhile_eq_self_iff]
    intro row hrow
    obtain ⟨seq, hseq, hs⟩ := hsource row hrow
    exact decide_eq_true (hfit.bindable seq hseq row.info hs.info_eq.2)
  -- Rows with one LedgerHash are rows of one ledger.
  have hkeys : Set.InjOn (fun r : LedgersRow => r.ledger_hash)
      {r | r ∈ (Table.empty : LedgersTable).rows ∨ r ∈ rows.map LedgerDbRow.columns} := by
    rintro r (hr | hr) r' (hr' | hr') hhash
    · cases hr
    · cases hr
    · cases hr'
    · obtain ⟨a, ha, rfl⟩ := List.mem_map.mp hr
      obtain ⟨b, hb, rfl⟩ := List.mem_map.mp hr'
      obtain ⟨seq, hseq, hs⟩ := hsource a ha
      obtain ⟨seq', hseq', hs'⟩ := hsource b hb
      obtain ⟨hnumber, hinfo⟩ := hs.info_eq
      obtain ⟨hnumber', hinfo'⟩ := hs'.info_eq
      obtain rfl := hfit.distinct seq hseq seq' hseq' _ _ hinfo hinfo' (hex_encode_upper_inj hhash)
      rw [LedgerDbRow.eq_of_info (hnumber.trans hnumber'.symm)
        (Except.ok.inj (hinfo.symm.trans hinfo'))]
  refine ⟨write_ledger_db_ok.mpr hall, fun r => ?_⟩
  rw [write_ledger_db_eq, hall, Table.mem_foldl_ignore hkeys]
  exact or_iff_right List.not_mem_nil

/-- The rows of an import, written to a fresh database, are read as the
    source's rows of these ledgers. -/
theorem written_rows_read {seqs : List UInt32} {rows : List LedgerDbRow}
    (hrows : List.Forall₂ (SourceRow ledger_db) seqs rows) (hfit : RowsFit ledger_db seqs)
    (seq : UInt32) (info : LedgerInfo) :
    (write_ledger_db rows Table.empty).1.index.get seq = .ok info ↔
      seq ∈ seqs ∧ ledger_db.get seq = .ok info := by
  obtain ⟨hsource, hrow_of⟩ := source_rows hrows
  obtain ⟨-, hmem⟩ := mem_written_rows hrows hfit
  -- Whatever row is found by the number is the source's.
  have hread : ∀ r, (write_ledger_db rows Table.empty).1.rows.find?
      (fun r => r.ledger_seq = seq) = some r → ∃ row : LedgerDbRow, seq ∈ seqs ∧
        ledger_db.get seq = .ok row.info ∧
        (write_ledger_db rows Table.empty).1.index.get seq = .ok row.info := by
    intro r hfind
    obtain ⟨row, hrow, rfl⟩ := List.mem_map.mp ((hmem r).mp (List.mem_of_find?_eq_some hfind))
    obtain ⟨seq', hseq', hs⟩ := hsource row hrow
    obtain ⟨hnumber, hinfo⟩ := hs.info_eq
    have hseq : row.columns.ledger_seq = seq := by simpa using List.find?_some hfind
    obtain rfl : seq' = seq := hnumber.symm.trans hseq
    refine ⟨row, hseq', hinfo, ?_⟩
    rw [← hnumber] at hfind ⊢
    exact LedgersTable.get_row hfind
  constructor
  · intro hget
    obtain ⟨r, hindex, -⟩ := bind_eq_ok.mp hget
    rw [ok_or_eq_ok] at hindex
    obtain ⟨r', hfind, -⟩ := Option.map_eq_some_iff.mp hindex
    obtain ⟨row, hseq, hinfo, hget'⟩ := hread r' hfind
    rw [Except.ok.inj (hget.symm.trans hget')]
    exact ⟨hseq, hinfo⟩
  · rintro ⟨hseq, hinfo⟩
    obtain ⟨row, hrow, hs⟩ := hrow_of seq hseq
    obtain ⟨r, hfind⟩ : ∃ r, (write_ledger_db rows Table.empty).1.rows.find?
        (fun r => r.ledger_seq = seq) = some r := by
      apply Option.isSome_iff_exists.mp
      rw [List.find?_isSome]
      exact ⟨row.columns, (hmem _).mpr (List.mem_map_of_mem hrow), decide_eq_true hs.info_eq.1⟩
    obtain ⟨row', -, hinfo', hget⟩ := hread r hfind
    rw [hget, Except.ok.inj (hinfo'.symm.trans hinfo)]

/-! ## Reading the ledgers again -/

/-- The transactions are collected from the nodes. -/
theorem StoredTxns.collect_nodes (h : StoredTxns sha512half (nodes_store nodes) root txns) :
    ∃ fuel₀, ∀ fuel ≥ fuel₀, collect_transactions (lookup_of nodes) fuel root = .ok txns := by
  rcases h with ⟨rfl, rfl⟩ | ⟨kids, hstored, rfl⟩
  · exact ⟨0, fun fuel _ => if_pos rfl⟩
  · obtain ⟨visit, hv⟩ := hstored.visit
    refine ⟨visit.length + 1, fun fuel hfuel => ?_⟩
    exact hv.collect (lookup_of_serves nodes visit) (by omega) hstored.treeOf.nodup hstored.stored.1

/-- A ledger that the nodes have is read from them as from the source. -/
theorem LedgerRead.again {ledger_db' : LedgerIndex} (hs : TypedStore store)
    (hd : Drawn store nodes)
    (h : LedgerRead sha512half store get_node fuel ledger_db seq info visit txns)
    (hheld : NodesHold sha512half nodes visit txns) (hrow : ledger_db'.get seq = .ok info) :
    ∃ k, ∀ n ≥ k, LedgerRead sha512half (nodes_store nodes) (lookup_of nodes) n ledger_db' seq info
      visit txns := by
  have htxns := h.stored_txns.within hs hd (sort_txns_perm txns) hheld.txns
  obtain ⟨k, hcollect⟩ := htxns.collect_nodes
  refine ⟨max k (visit.length + visit.length + 1), fun n hn => ⟨⟨hrow, h.verified,
    hd.treeAt h.tree hheld.state, h.once, htxns, h.authentic, h.tx_count⟩,
    lookup_of_serves nodes visit, by omega, ?_⟩⟩
  unfold ledger_txns
  rw [with_context_eq_ok]
  exact hcollect n (by omega)

/-- An export from one source ends with certain files exactly when it does
    from the other, for every range of ledgers of the chunk behind its first
    one. -/
def ExportsAgree (xxh64 : Bytes → UInt64 → UInt64) (lz4 : Bytes → Nat → Option Bytes)
    (sha512half : Bytes → Hash256) (c : WrittenChunk) (a b : LedgerIndex × NuDBReader) : Prop :=
  ∀ (args : Args) (order : MapOrder) (concurrency : Nat), c.header.start_ledger < args.start →
    args.end ≤ c.header.end_ledger → NumbersFit args (batch_size concurrency) → ∀ files,
      Exports xxh64 lz4 sha512half args a.1 a.2 concurrency order files ↔
        Exports xxh64 lz4 sha512half args b.1 b.2 concurrency order files

/-- Where every ledger of the range is held, the two sources agree. -/
theorem exports_agree {order : MapOrder} {r reader : NuDBReader} {rows ledger_db' : LedgerIndex}
    (hs : TypedStore store) (hd : Drawn store nodes) (hr : r.Holds xxh64 lz4 store)
    (hreader : reader.Holds xxh64 lz4 (nodes_store nodes))
    (hrows : ∀ seq, Within (ledger_db'.get seq) (ledger_db.get seq))
    (hf : NumbersFit args (batch_size concurrency))
    (hroot : ∀ info, ledger_db'.get args.start = .ok info → info.account_hash ≠ ZERO_HASH)
    (hheld : ∀ seq, args.start ≤ seq → seq ≤ args.end → ∃ info visit txns,
      LedgerRead sha512half store get_node fuel rows seq info visit txns ∧
        NodesHold sha512half nodes visit txns ∧ ledger_db'.get seq = .ok info)
    (files : List ChunkFile) :
    Exports xxh64 lz4 sha512half args ledger_db' reader concurrency order files ↔
      Exports xxh64 lz4 sha512half args ledger_db r concurrency order files := by
  by_cases hrange : args.start < args.end ∧ args.chunk_size ≠ 0
  swap
  · -- Both refuse the arguments.
    have hrefused : ∀ (db : LedgerIndex) (reader : NuDBReader),
        ¬ Exports xxh64 lz4 sha512half args db reader concurrency order files := by
      rintro db reader ⟨fuel, hmain⟩
      obtain ⟨hlt, hsize, -⟩ := export_main_ok.mp hmain
      exact hrange ⟨UInt32.not_le.mp hlt, hsize⟩
    exact ⟨fun h => absurd h (hrefused _ _), fun h => absurd h (hrefused _ _)⟩
  obtain ⟨hrange, hsize⟩ := hrange
  -- Seen through the nodes alone, the export comes to its end.
  have hread : ∃ k, ∀ n ≥ k,
      RangeRead sha512half args (nodes_store nodes) (lookup_of nodes) n ledger_db' := by
    apply exists_rounds
    intro seq
    by_cases hin : args.start ≤ seq ∧ seq ≤ args.end
    · obtain ⟨info, visit, txns, h, hnodes, hrow⟩ := hheld seq hin.1 hin.2
      obtain ⟨k, hk⟩ := h.again hs hd hnodes hrow
      exact ⟨k, fun n hn _ _ => ⟨info, visit, txns, hk n hn⟩⟩
    · exact ⟨0, fun n _ hfirst hlast => absurd ⟨hfirst, hlast⟩ hin⟩
  obtain ⟨k, hread⟩ := hread
  obtain ⟨n, -, files', hmain⟩ := @RangeRead.exports sha512half args order _ _ _ _ concurrency
    (lookup_of_named nodes) (hread k (le_refl k)) hrange hsize hf hroot
  -- Both readers answer what the nodes answer.
  have hends : ∀ (db : LedgerIndex) (reader : NuDBReader),
      reader.Holds xxh64 lz4 (nodes_store nodes) →
      (∀ seq, Within (ledger_db'.get seq) (db.get seq)) →
      Exports xxh64 lz4 sha512half args db reader concurrency order files' := by
    intro db reader hholds hwithin
    obtain ⟨k, hanswers⟩ := lookup_of_answers hholds
    have hmore := hanswers.trans (get_node_answers reader (le_max_left k n))
    refine ⟨max k n, export_main_within hmore (le_max_right k n) concurrency files' ?_⟩
    exact export_main_rows hwithin files' hmain
  have himported := hends ledger_db' reader hreader fun seq => Within.refl _
  have hsource := hends ledger_db r (hd.holds hr) hrows
  constructor
  · intro h
    rw [h.unique himported]
    exact hsource
  · intro h
    rw [h.unique hsource]
    exact himported

/-! ## The cycle -/

/-- The chunks of an export, and what it takes to read them. -/
theorem Source.exportable {r : NuDBReader} (hr : r.Holds xxh64 lz4 store)
    (hs : Source sha512half args store ledger_db) (hrange : args.start < args.end)
    (hsize : args.chunk_size ≠ 0) (hf : NumbersFit args (batch_size concurrency))
    (hfits : ∀ seq info, args.start ≤ seq → seq ≤ args.end → ledger_db.get seq = .ok info →
      FitsChunk store info.account_hash) (order : MapOrder) :
    ∃ fuel chunks, Exportable sha512half args store (r.get_node xxh64 lz4 fuel) fuel
        (ledger_db.within args) ∧
      Exports xxh64 lz4 sha512half args ledger_db r concurrency order
        (chunks.map (WrittenChunk.file sha512half)) ∧
      Tiles WrittenChunk.first_ledger WrittenChunk.next_ledger args.start.toNat chunks
        (args.end.toNat + 1) ∧
      ∀ c ∈ chunks, CompleteUpTo sha512half args (r.get_node xxh64 lz4 fuel) fuel
        (ledger_db.within args) concurrency c c.header.end_ledger := by
  have hs' : Source sha512half args store (ledger_db.within args) := hs.within
  have hfits' : ∀ seq info, (ledger_db.within args).get seq = .ok info →
      FitsChunk store info.account_hash := by
    intro seq info hrow
    obtain ⟨⟨hfirst, hlast⟩, hrow⟩ := LedgerIndex.within_get.mp hrow
    exact hfits seq info hfirst hlast hrow
  obtain ⟨k, hread⟩ := hs'.read hr
  obtain ⟨fuel, hfuel, files, hmain⟩ := @Source.exports sha512half args order store _ concurrency
    xxh64 lz4 r hr hs' hrange hsize hf (fun info hrow => (hfits' _ info hrow).inner.nonzero) k
  obtain ⟨chunks, rfl, htiles, hcomplete, -⟩ := export_main_tiles hf hmain
  refine ⟨fuel, chunks, ⟨hs', hread fuel hfuel, ?_, hfits', ?_, ?_⟩, ⟨fuel, ?_⟩, htiles, hcomplete⟩
  · exact fun seq info hrow => (LedgerIndex.within_get.mp hrow).1
  · exact fun h n => NuDBReader.get_node_hash
  · exact fun h n => NuDBReader.get_node_inner
  · exact export_main_rows (fun seq info hrow => (LedgerIndex.within_get.mp hrow).2) _ hmain

theorem mem_batch_seqs {first last : UInt32} (hlast : last.toNat + 1 < 2 ^ 32) :
    seq ∈ batch_seqs first last ↔ first ≤ seq ∧ seq ≤ last := by
  unfold batch_seqs
  rw [List.mem_map, UInt32.le_iff_toNat_le, UInt32.le_iff_toNat_le]
  constructor
  · rintro ⟨k, hk, rfl⟩
    rw [List.mem_range'_1] at hk
    have hk' : k < UInt32.size := by
      rw [show UInt32.size = 2 ^ 32 from rfl]
      omega
    rw [UInt32.toNat_ofNat_of_lt' hk']
    omega
  · intro h
    exact ⟨seq.toNat, List.mem_range'_1.mpr (by omega), UInt32.ofNat_toNat⟩

/-- The ledgers with rows, of chunks that tile a range. -/
theorem mem_later_seqs {chunks : List WrittenChunk} {lo hi : Nat}
    (htiles : Tiles WrittenChunk.first_ledger WrittenChunk.next_ledger lo chunks hi)
    (hmax : hi < 2 ^ 32) :
    seq ∈ later_seqs chunks ↔ ∃ c ∈ chunks,
      c.header.start_ledger < seq ∧ seq ≤ c.header.end_ledger := by
  unfold later_seqs
  rw [List.mem_flatMap]
  apply exists_congr
  intro c
  apply and_congr_right
  intro hc
  obtain ⟨hlt, hle⟩ := htiles.of_mem hc
  unfold WrittenChunk.first_ledger WrittenChunk.next_ledger at hlt
  unfold WrittenChunk.next_ledger at hle
  rw [mem_batch_seqs (by omega), UInt32.le_iff_toNat_le, toNat_succ (by omega),
    UInt32.lt_iff_toNat_lt]
  exact Iff.rfl

theorem later_seqs_within {chunks : List WrittenChunk}
    (htiles : Tiles WrittenChunk.first_ledger WrittenChunk.next_ledger args.start.toNat chunks
      (args.end.toNat + 1)) (hmax : args.end.toNat + 1 < 2 ^ 32) (hseq : seq ∈ later_seqs chunks) :
    args.start ≤ seq ∧ seq ≤ args.end := by
  obtain ⟨c, hc, hfirst, hlast⟩ := (mem_later_seqs htiles hmax).mp hseq
  obtain ⟨-, hle⟩ := htiles.of_mem hc
  have hstart := htiles.le_of_mem hc
  unfold WrittenChunk.next_ledger at hle
  unfold WrittenChunk.first_ledger at hstart
  rw [UInt32.lt_iff_toNat_lt] at hfirst
  rw [UInt32.le_iff_toNat_le] at hlast
  constructor
  · rw [UInt32.le_iff_toNat_le]
    omega
  · rw [UInt32.le_iff_toNat_le]
    omega

theorem RowsFit.mono {ledger_db' : LedgerIndex} {seqs seqs' : List UInt32}
    (h : RowsFit ledger_db seqs) (hsub : ∀ seq ∈ seqs', seq ∈ seqs)
    (hget : ∀ seq ∈ seqs', ∀ info, ledger_db'.get seq = .ok info → ledger_db.get seq = .ok info) :
    RowsFit ledger_db' seqs' := by
  refine ⟨?_, ?_⟩
  · intro seq hseq info hinfo
    exact h.bindable seq (hsub seq hseq) info (hget seq hseq info hinfo)
  · intro seq hseq seq' hseq' info info' hinfo hinfo'
    exact h.distinct seq (hsub seq hseq) seq' (hsub seq' hseq') info info'
      (hget seq hseq info hinfo) (hget seq' hseq' info' hinfo')

/-- What is exported comes back: the files of an export are imported, with
    verification, into a fresh store and a fresh database, and these take
    the place of the source. The database has the rows of all ledgers but
    the first one of each file, and every range of ledgers of a file behind
    that one is exported again with the same files. -/
theorem reexport_agrees (xxh64 : Bytes → UInt64 → UInt64) (lz4 : Bytes → Nat → Option Bytes)
    (r : NuDBReader) (hr : r.Holds xxh64 lz4 store) (htx : TxLeavesTyped store)
    (hs : Source sha512half args store ledger_db) (hrange : args.start < args.end)
    (hsize : args.chunk_size ≠ 0) (hf : NumbersFit args (batch_size concurrency))
    (hfits : ∀ seq info, args.start ≤ seq → seq ≤ args.end → ledger_db.get seq = .ok info →
      FitsChunk store info.account_hash)
    (hrows : RowsFit ledger_db (batch_seqs args.start args.end)) (order : MapOrder) :
    ∃ chunks : List WrittenChunk,
      Exports xxh64 lz4 sha512half args ledger_db r concurrency order
          (chunks.map (WrittenChunk.file sha512half)) ∧
        ∃ fuel₀, ∀ fuel ≥ fuel₀, ∃ rows dat key,
          import_main xxh64 sha512half fuel true
              (chunks.map fun c => (c.file sha512half).bytes) = .ok (rows, dat, key) ∧
            (write_ledger_db rows Table.empty).2 = .ok () ∧
            (∀ seq info, (write_ledger_db rows Table.empty).1.index.get seq = .ok info ↔
              seq ∈ later_seqs chunks ∧ ledger_db.get seq = .ok info) ∧
            (dat.length < 2 ^ 48 → key.length < 2 ^ 48 → ∃ reader,
              NuDBReader.open_single (dat, key) = .ok reader ∧ ∀ c ∈ chunks,
                ExportsAgree xxh64 lz4 sha512half c
                  ((write_ledger_db rows Table.empty).1.index, reader) (ledger_db, r)) := by
  have hts : TypedStore store := htx.typed hr
  obtain ⟨fuel, chunks, hexportable, hexports, htiles, hcomplete⟩ :=
    hs.exportable hr hrange hsize hf hfits order
  have hmax := hf.end_lt
  have hheld : ∀ c ∈ chunks, Drawn store (c.sunk sha512half) ∧ _ := fun c hc =>
    hexportable.chunk_held hts (hcomplete c hc) (htiles.of_mem hc).1 (htiles.of_mem hc).2 hmax
  have hdrawn : Drawn store (chunks.flatMap (WrittenChunk.sunk sha512half)) := by
    intro n hn
    obtain ⟨c, hc, hn⟩ := List.mem_flatMap.mp hn
    exact (hheld c hc).1 n hn
  obtain ⟨fuel₀, himport⟩ := @import_main_exported sha512half xxh64 (ledger_db.within args) chunks
    fun c hc => hexportable.imports (hcomplete c hc) (htiles.of_mem hc).1 (htiles.of_mem hc).2 hmax
  have hget : ∀ seq ∈ later_seqs chunks, ∀ info,
      (ledger_db.within args).get seq = .ok info ↔ ledger_db.get seq = .ok info := by
    intro seq hseq info
    rw [LedgerIndex.within_get]
    exact and_iff_right (later_seqs_within htiles hmax hseq)
  have hfit : RowsFit (ledger_db.within args) (later_seqs chunks) :=
    hrows.mono (fun seq hseq => (mem_batch_seqs hmax).mpr (later_seqs_within htiles hmax hseq))
      fun seq hseq info => (hget seq hseq info).mp
  refine ⟨chunks, hexports, fuel₀, fun fuel' hfuel' => ?_⟩
  obtain ⟨rows, hmain, hsource⟩ := himport fuel' hfuel'
  have hindex := written_rows_read hsource hfit
  refine ⟨rows, _, _, hmain, (mem_written_rows hsource hfit).1, ?_, ?_⟩
  · intro seq info
    rw [hindex]
    exact and_congr_right fun hseq => hget seq hseq info
  intro hdat hkey
  obtain ⟨reader, hopen, hreturns⟩ := @written_files_open xxh64 lz4
    (chunks.flatMap (WrittenChunk.sunk sha512half))
    (fun n hn => ⟨hts.exported n.hash n (hdrawn n hn), hts.full n.hash n (hdrawn n hn)⟩) hdat hkey
  refine ⟨reader, hopen, fun c hc args' order' concurrency' hstart hend hf' => ?_⟩
  have hin : ∀ seq, args'.start ≤ seq → seq ≤ args'.end →
      c.header.start_ledger < seq ∧ seq ≤ c.header.end_ledger := by
    intro seq hfirst hlast
    exact ⟨UInt32.lt_of_lt_of_le hstart hfirst, UInt32.le_trans hlast hend⟩
  have hrow : ∀ seq info, (ledger_db.within args).get seq = .ok info →
      args'.start ≤ seq → seq ≤ args'.end →
      (write_ledger_db rows Table.empty).1.index.get seq = .ok info := by
    intro seq info hinfo hfirst hlast
    exact (hindex seq info).mpr ⟨(mem_later_seqs htiles hmax).mpr ⟨c, hc, hin seq hfirst hlast⟩, hinfo⟩
  apply exports_agree hts hdrawn hr (fun h n => (hreturns h n).mpr) _ hf'
  · intro info hinfo
    exact (hexportable.fits _ _ ((hindex _ info).mp hinfo).2).inner.nonzero
  · intro seq hfirst hlast
    obtain ⟨hlt, hle⟩ := hin seq hfirst hlast
    obtain ⟨info, visit, txns, hread, hnodes⟩ := (hheld c hc).2 seq (UInt32.le_of_lt hlt) hle
    have hsub : c.sunk sha512half ⊆ chunks.flatMap (WrittenChunk.sunk sha512half) :=
      fun n hn => List.mem_flatMap.mpr ⟨c, hc, hn⟩
    exact ⟨info, visit, txns, hread, ⟨fun h hh => List.map_subset _ hsub (hnodes.state hh),
      fun n hn => hsub (hnodes.txns hn)⟩, hrow seq info hread.row hfirst hlast⟩
  · intro seq info hinfo
    obtain ⟨hseq, hinfo⟩ := (hindex seq info).mp hinfo
    exact (hget seq hseq info).mp hinfo

/-! ## Two ledgers -/

theorem pair_again_facts :
    (∀ n ∈ pair_nodes, n.node_type.is_inner = false →
      (parse_tx_leaf n.content).toOption.isSome = true → n.node_type = .TransactionWithMeta) ∧
      pair_first.ledger_hash ≠ pair_second.ledger_hash := by
  decide +kernel

theorem pair_rows_fit : RowsFit pair_rows (batch_seqs two_args.start two_args.end) := by
  have hseqs : batch_seqs two_args.start two_args.end = [7, 8] := by decide
  have hfirst : pair_rows.get 7 = .ok pair_first := LedgerIndex.get_row rfl
  have hsecond : pair_rows.get 8 = .ok pair_second := LedgerIndex.get_row rfl
  rw [hseqs]
  refine ⟨?_, ?_⟩
  · intro seq hseq info hinfo
    rcases List.mem_pair.mp hseq with rfl | rfl
    · rw [← Except.ok.inj (hfirst.symm.trans hinfo)]
      exact Nat.two_pow_pos 63
    · rw [← Except.ok.inj (hsecond.symm.trans hinfo)]
      exact Nat.two_pow_pos 63
  · intro seq hseq seq' hseq' info info' hinfo hinfo' hhash
    rcases List.mem_pair.mp hseq with rfl | rfl
    · rcases List.mem_pair.mp hseq' with rfl | rfl
      · rfl
      · rw [← Except.ok.inj (hfirst.symm.trans hinfo), ← Except.ok.inj (hsecond.symm.trans hinfo')]
          at hhash
        exact absurd hhash pair_again_facts.2
    · rcases List.mem_pair.mp hseq' with rfl | rfl
      · rw [← Except.ok.inj (hsecond.symm.trans hinfo), ← Except.ok.inj (hfirst.symm.trans hinfo')]
          at hhash
        exact absurd hhash.symm pair_again_facts.2
      · rfl

theorem reexport_agrees_pair :
    ∃ chunks : List WrittenChunk,
      Exports Xxh64.digest (fun _ _ => none) sha2_sha512half two_args pair_rows
          (written_reader Xxh64.digest pair_nodes) 1 by_hash
          (chunks.map (WrittenChunk.file sha2_sha512half)) ∧
        ∃ fuel₀, ∀ fuel ≥ fuel₀, ∃ rows dat key,
          import_main Xxh64.digest sha2_sha512half fuel true
              (chunks.map fun c => (c.file sha2_sha512half).bytes) = .ok (rows, dat, key) ∧
            (write_ledger_db rows Table.empty).2 = .ok () ∧
            (∀ seq info, (write_ledger_db rows Table.empty).1.index.get seq = .ok info ↔
              seq ∈ later_seqs chunks ∧ pair_rows.get seq = .ok info) ∧
            (dat.length < 2 ^ 48 → key.length < 2 ^ 48 → ∃ reader,
              NuDBReader.open_single (dat, key) = .ok reader ∧ ∀ c ∈ chunks,
                ExportsAgree Xxh64.digest (fun _ _ => none) sha2_sha512half c
                  ((write_ledger_db rows Table.empty).1.index, reader)
                  (pair_rows, written_reader Xxh64.digest pair_nodes)) := by
  obtain ⟨hverify, hformats, -, -, -, -, -, -, -, -, hsize⟩ := pair_facts
  obtain ⟨visit, visit', txns, hfirst, hsecond, hfits, hfits'⟩ := pair_stored
  refine reexport_agrees _ _ _ (written_reader_holds _ _ pair_nodes
    (fun n hn => (hformats n hn).2) hsize) ?_ (two_rows_source hverify
    (fun n hn => (hformats n hn).1) hfirst hsecond rfl) (by decide) (by decide) two_args_fit ?_
    pair_rows_fit by_hash
  · intro h n tx hn hleaf hparse
    refine pair_again_facts.1 n (List.mem_of_find?_eq_some hn) hleaf ?_
    rw [hparse]
    rfl
  · intro seq info hstart hend hrow
    rcases two_args_cases hstart hend with rfl | rfl
    · rw [← Except.ok.inj (hfirst.row.symm.trans hrow)]
      exact hfits
    · rw [← Except.ok.inj (hsecond.row.symm.trans hrow)]
      exact hfits'

end LedgerArchive
