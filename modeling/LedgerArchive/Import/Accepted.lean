import LedgerArchive.Export.Source
import LedgerArchive.Import.Complete
import LedgerArchive.Import.Verified

/-! # The replay accepts what the exporter writes

    A chunk file holds the state tree of its first ledger and the diff to
    each further one. The replay of such a file is at the tree of a ledger
    when it has taken the ledger's delta (`ReplayAt`), so that every check
    passes, the root is found and the row is the source's
    (`ReplayAt.next`). Every file of an export is therefore accepted with
    verification, and the rows are those it was made from
    (`exports_accepted`). -/

namespace LedgerArchive

open Lib

variable {sha512half : Bytes → Hash256} {args : Args} {order : MapOrder} {store : Store}
  {get_node : Hash256 → Except Error SHAMapNode} {fuel : Nat} {ledger_db : LedgerIndex}
  {concurrency : Nat} {seq last : UInt32} {info old : LedgerInfo} {visit visit' : List Hash256}
  {txns txns' : List TxRecord} {state : StateMap} {d : SHAMapDiff}

/-! ## The map of a tree -/

theorem Exactly.lookup_eq (he : Exactly store state visit) {h : Hash256} (hh : h ∈ visit) :
    state.lookup h = store h := by
  apply Option.ext
  intro n
  rw [he h n]
  exact and_iff_right hh

theorem Exactly.refs_eq (he : Exactly store state visit) {h : Hash256} (hh : h ∈ visit) :
    state.refs h = store.refs h := by
  unfold StateMap.refs Store.refs
  rw [he.lookup_eq hh]

/-- The walk of the store is a walk of the map. -/
theorem Exactly.walk (he : Exactly store state visit) {root : Hash256}
    (hw : Walks store.refs [root] visit) : Walks state.refs [root] visit :=
  hw.congr fun _ hx => he.refs_eq hx

theorem Exactly.mem_iff (he : Exactly store state visit) {root h : Hash256}
    (ht : TreeAt store root visit) : h ∈ state ↔ h ∈ visit := by
  rw [(he.holdsTree ht).mem_iff, ht.mem_iff]

theorem Exactly.card (he : Exactly store state visit) {root : Hash256} (ht : TreeAt store root visit)
    (hnd : visit.Nodup) : visit.length = state.keys.card := by
  rw [← List.toFinset_card_of_nodup hnd]
  congr 1
  ext h
  rw [List.mem_toFinset, Finmap.mem_keys, he.mem_iff ht]

/-- The completeness check of the tree the map holds. -/
theorem Exactly.complete (he : Exactly store state visit) {root : Hash256}
    (ht : TreeAt store root visit) (hnd : visit.Nodup) (hroot : root ≠ ZERO_HASH) {rounds : Nat}
    (hrounds : visit.length < rounds) (what : String) :
    check_tree_complete rounds what root state = .ok () := by
  have hw : Walks store.refs [root] visit := (ht.resolve_left fun hz => hroot hz.1).2
  exact check_tree_complete_ok.mpr ⟨visit, he.walk hw, he.card ht hnd, hrounds⟩

/-- The nodes of the map, in any order, are the nodes of the tree. -/
theorem Exactly.collected (he : Exactly store state visit) (hs : Serves get_node store visit)
    {root : Hash256} (ht : TreeAt store root visit) (hnd : visit.Nodup) {nodes : List SHAMapNode}
    (hnodes : (nodes : Multiset SHAMapNode) = state.entries.map Sigma.snd) :
    Collected store nodes visit := by
  have hkeyed : Keyed state := by
    intro h n hl
    obtain ⟨hh, hn⟩ := (he h n).mp hl
    exact (hs h hh n hn).2
  have hmem : ∀ n, n ∈ nodes ↔ state.lookup n.hash = some n := by
    intro n
    rw [← Multiset.mem_coe, hnodes, Multiset.mem_map]
    constructor
    · rintro ⟨entry, hentry, rfl⟩
      have hl := Finmap.lookup_eq_some_iff.mpr hentry
      rw [hkeyed entry.1 entry.2 hl]
      exact hl
    · intro hl
      exact ⟨⟨n.hash, n⟩, Finmap.lookup_eq_some_iff.mp hl, rfl⟩
  refine ⟨?_, fun n hn => ((he n.hash n).mp ((hmem n).mp hn)).2⟩
  rw [List.perm_ext_iff_of_nodup (entries_hash_nodup hkeyed hnodes) hnd]
  intro h
  rw [List.mem_map]
  constructor
  · rintro ⟨n, hn, rfl⟩
    exact ((he n.hash n).mp ((hmem n).mp hn)).1
  · intro hh
    obtain ⟨n, hn⟩ := ht.stored hh
    obtain rfl := (hs h hh n hn).2
    exact ⟨n, (hmem n).mpr ((he n.hash n).mpr ⟨hh, hn⟩), rfl⟩

/-! ## Diffs -/

variable {old_visit new_visit : List Hash256}

theorem DiffOf.deleted_mem (hd : DiffOf store d old_visit new_visit) {h : Hash256}
    (hh : h ∈ d.deleted) : h ∈ old_visit := by
  obtain ⟨common, hpo, -⟩ := hd.split
  exact hpo.mem_iff.mpr (List.mem_append_left _ hh)

/-- A diff lists no more than the trees have. -/
theorem DiffOf.counts (hd : DiffOf store d old_visit new_visit) :
    d.added.length ≤ new_visit.length ∧ d.deleted.length ≤ old_visit.length := by
  obtain ⟨common, hpo, hpn⟩ := hd.split
  have hold := hpo.length_eq
  have hnew := hpn.length_eq
  rw [List.length_append] at hold hnew
  rw [List.length_map] at hnew
  omega

/-- The children of an added node are in the new tree. -/
theorem DiffOf.children (hd : DiffOf store d old_visit new_visit) {root : Hash256}
    (hw : Walks store.refs [root] new_visit) {n : SHAMapNode} (hn : n ∈ d.added) :
    ∃ cs, n.refs = some cs ∧ ∀ c ∈ cs, c ∈ new_visit := by
  obtain ⟨cs, hcs, hkids⟩ := hw.closed n.hash (hd.mem_new hn)
  refine ⟨cs, ?_, hkids⟩
  unfold Store.refs at hcs
  rwa [hd.stored n hn] at hcs

/-- The lists of a diff are sorted, so that a delta is written as it
    stands. -/
theorem diff_sorted {old_root new_root : Hash256}
    (h : diff get_node fuel old_root new_root = .ok d) (seq : UInt32) :
    LedgerDelta.sorted { ledger_seq := seq, diff := d } = { ledger_seq := seq, diff := d } := by
  obtain ⟨d₁, -, h⟩ := bind_eq_ok.mp h
  have hadded := insertionSort_key_pairwise SHAMapNode.hash d₁.added
  have hdeleted := insertionSort_key_pairwise (fun h : Hash256 => h) d₁.deleted
  rw [← pure_eq_ok.mp h]
  unfold LedgerDelta.sorted sort_nodes sort_hashes
  dsimp only
  rw [hadded.insertionSort_eq, hdeleted.insertionSort_eq]

/-! ## A source that can be read -/

/-- The TX map of a ledger that can be read. -/
theorem LedgerRead.tx_map_eq
    (h : LedgerRead sha512half store get_node fuel ledger_db seq info visit txns)
    {m : TxMap} (hm : TxMapOf sha512half get_node fuel ledger_db seq m) :
    m = info.tx_map seq info.ledger_hash txns := by
  obtain ⟨info', txns', ledger_hash, hrow, hhash, htxns, rfl⟩ := hm
  obtain rfl := Except.ok.inj (hrow.symm.trans h.row)
  obtain rfl := Except.ok.inj (htxns.symm.trans h.collected)
  rw [(verify_ledger_hash_ok.mp hhash).1]

/-- What a chunk asks of a state tree: an inner node at the root, and no
    more nodes than the count in the file has room for. -/
structure FitsChunk (store : Store) (root : Hash256) : Prop where
  inner : InnerRoot store root
  count : ∀ visit, TreeAt store root visit → visit.length < 2 ^ 32

/-- The ledgers of the range and no others, with lookups and rounds to read
    them all. -/
structure Exportable (sha512half : Bytes → Hash256) (args : Args) (store : Store)
    (get_node : Hash256 → Except Error SHAMapNode) (fuel : Nat) (ledger_db : LedgerIndex) : Prop where
  source : Source sha512half args store ledger_db
  range : RangeRead sha512half args store get_node fuel ledger_db
  rows : ∀ seq info, ledger_db.get seq = .ok info → args.start ≤ seq ∧ seq ≤ args.end
  fits : ∀ seq info, ledger_db.get seq = .ok info → FitsChunk store info.account_hash
  named : Named get_node
  full : ∀ h n, get_node h = .ok n → n.node_type.is_inner = true → n.node_type = .Inner

namespace Exportable

variable (hr : Exportable sha512half args store get_node fuel ledger_db)

include hr

theorem read (hrow : ledger_db.get seq = .ok info) : ∃ visit txns,
    LedgerRead sha512half store get_node fuel ledger_db seq info visit txns := by
  obtain ⟨hfirst, hlast⟩ := hr.rows seq info hrow
  obtain ⟨info', visit, txns, h⟩ := hr.range seq hfirst hlast
  obtain rfl := Except.ok.inj (hrow.symm.trans h.row)
  exact ⟨visit, txns, h⟩

theorem walk (h : LedgerRead sha512half store get_node fuel ledger_db seq info visit txns) :
    Walks store.refs [info.account_hash] visit :=
  (h.tree.resolve_left fun hz => (hr.fits seq info h.row).inner.nonzero hz.1).2

theorem rehash {n : SHAMapNode} (hn : store n.hash = some n) :
    recompute_node_hash sha512half n = n.hash := hr.source.addressed n.hash n hn

theorem narrow {n : SHAMapNode} (hn : store n.hash = some n) : n.Narrow :=
  hr.source.short n.hash n hn

/-- The state the exporter keeps is the tree of the ledger it is at. -/
theorem state_exactly (hs : StateAt args get_node fuel ledger_db concurrency seq state) :
    ∃ info visit txns, LedgerRead sha512half store get_node fuel ledger_db seq info visit txns ∧
      Exactly store state visit := by
  induction hs with
  | @first info nodes hrow hwalk =>
    obtain ⟨visit, txns, h⟩ := hr.read hrow
    obtain ⟨nodes', hnodes', hc⟩ := h.collect (hr.fits _ _ hrow).inner.nonzero
    -- Whatever its level, the walk has made the map of the serial one.
    have hserial : collect_reachable_concurrent get_node fuel info.account_hash 1 = .ok nodes' :=
      hnodes'
    have hsame := (collect_reachable_concurrent_walking hr.named hwalk).state_eq
      (collect_reachable_concurrent_walking hr.named hserial)
    rw [hsame]
    exact ⟨info, visit, txns, h, hc.exactly⟩
  | @next seq state delta _ hdelta ih =>
    obtain ⟨-, old, info, hold, hrow, hd⟩ := hdelta
    obtain ⟨old', visit, txns, h, he⟩ := ih
    obtain ⟨visit', txns', h'⟩ := hr.read hrow
    rw [UInt32.add_sub_cancel] at hold
    obtain rfl := Except.ok.inj (hold.symm.trans h.row)
    obtain ⟨d, hd', hdiff⟩ := h.diffOf h'
    obtain rfl := Except.ok.inj (hd.symm.trans hd')
    exact ⟨info, visit', txns', h', hdiff.apply h.once h'.once he⟩

/-- From a ledger's delta its root is found. -/
theorem finds_root {seq' : UInt32}
    (h : LedgerRead sha512half store get_node fuel ledger_db seq old visit txns)
    (h' : LedgerRead sha512half store get_node fuel ledger_db seq' info visit' txns')
    (hd : diff get_node fuel old.account_hash info.account_hash = .ok d)
    (hdiff : DiffOf store d visit visit') :
    find_new_root d.added old.account_hash = .ok info.account_hash := by
  by_cases heq : old.account_hash = info.account_hash
  · -- Nothing was added, and the root stays.
    have hfuel : 0 < fuel := lt_of_le_of_lt (Nat.zero_le _) h.rounds
    rw [← heq, diff_self hfuel] at hd
    rw [← Except.ok.inj hd, heq]
    rfl
  · have htree := diff_addedTree hr.named hr.full h'.tree h'.serves h'.once
      (hr.fits _ _ h'.row).inner heq hdiff h.once hd
    exact htree.finds _

end Exportable

/-! ## Outputs -/

variable {σ τ : Type} {S : NodeSink σ} {T : TxDb τ}

/-- The sink takes every node and the database every ledger. -/
structure TakesAll (S : NodeSink σ) (T : TxDb τ) : Prop where
  node : ∀ s hash value, ∃ s', S.write_node s hash value = .ok s'
  ledger : ∀ t tx_map, ∃ t', T.write_ledger t tx_map = .ok t'

namespace TakesAll

variable (ht : TakesAll S T)

include ht

theorem write_node (out : Outputs σ τ) (hash : Hash256) (value : Bytes) :
    ∃ out', out.write_node S hash value = .ok out' := by
  obtain ⟨s, hs⟩ := ht.node out.sink hash value
  exact ⟨_, bind_eq_ok.mpr ⟨s, hs, rfl⟩⟩

theorem sink_nodes (out : Outputs σ τ) (nodes : List SHAMapNode) :
    ∃ out', sink_nodes S out nodes = .ok out' := by
  apply foldlM_exists_ok
  intro out node _
  unfold sink_node
  dsimp only
  split
  · exact ⟨_, rfl⟩
  · exact ht.write_node _ _ _

theorem write_ledger (out : Outputs σ τ) (tx_map : TxMap) :
    ∃ out', out.write_ledger T tx_map = .ok out' := by
  unfold Outputs.write_ledger
  cases out.txdb with
  | none => exact ⟨out, rfl⟩
  | some t =>
    obtain ⟨t', ht'⟩ := ht.ledger t tx_map
    exact ⟨_, bind_eq_ok.mpr ⟨t', ht', rfl⟩⟩

theorem write_ledger_outputs (out : Outputs σ τ) (tx_map : TxMap)
    (parent_hash tx_hash account_hash : Hash256) :
    ∃ out', write_ledger_outputs S T out tx_map parent_hash tx_hash account_hash = .ok out' := by
  unfold LedgerArchive.write_ledger_outputs
  cases out.txdb with
  | none => exact ⟨out, rfl⟩
  | some t =>
    obtain ⟨out₁, hnode⟩ := ht.write_node out tx_map.ledger_hash (encode_object_to_value
      NOTYPE_LEDGER (ledger_header_object (tx_map.header parent_hash tx_hash account_hash)))
    obtain ⟨out₂, hledger⟩ := ht.write_ledger out₁ tx_map
    exact ⟨out₂, bind_eq_ok.mpr ⟨out₁, hnode, hledger⟩⟩

end TakesAll

/-! ## Ledger by ledger -/

/-- The row of a ledger, as the importer should return it. -/
def LedgerInfo.db_row (info : LedgerInfo) (seq : UInt32) : LedgerDbRow :=
  { ledger_hash := info.ledger_hash, ledger_seq := seq, prev_hash := info.parent_hash,
    total_coins := info.total_coins, closing_time := info.closing_time,
    prev_closing_time := info.prev_closing_time,
    close_time_resolution := info.close_time_resolution, close_flags := info.close_flags,
    account_hash := info.account_hash, trans_hash := info.tx_hash }

/-- The row is that of the ledger in the source. -/
def SourceRow (ledger_db : LedgerIndex) (seq : UInt32) (row : LedgerDbRow) : Prop :=
  ∃ info, ledger_db.get seq = .ok info ∧ row = info.db_row seq

/-- The replay is behind a ledger: it holds the ledger's tree, and the next
    ledger is linked to this one. -/
structure ReplayAt (store : Store) (rep : Replay σ τ) (info : LedgerInfo) (visit : List Hash256) :
    Prop where
  state : Exactly store rep.state visit
  root : rep.current_root = info.account_hash
  prev : rep.prev_ledger_hash = info.ledger_hash

variable {rep : Replay σ τ}

/-- The next ledger passes every check. -/
theorem ReplayAt.next (hr : Exportable sha512half args store get_node fuel ledger_db)
    (ht : TakesAll S T) (hlt : last < args.end)
    (hlast : LedgerRead sha512half store get_node fuel ledger_db last old visit txns)
    (h : ReplayAt store rep old visit) {p : LedgerDelta × TxMap}
    (hdelta : DeltaOf get_node fuel ledger_db (last + 1) p.1)
    (hmap : TxMapOf sha512half get_node fuel ledger_db (last + 1) p.2) :
    ∃ rep' info visit' txns',
      LedgerRead sha512half store get_node fuel ledger_db (last + 1) info visit' txns' ∧
      ReplayAt store rep' info visit' ∧
      ledger_step S T sha512half true rep (p.1.sorted, p.2.sorted) = .ok rep' ∧
      rep'.ledger_rows = rep.ledger_rows ++ [info.db_row (last + 1)] := by
  obtain ⟨hseq, old', info, hold, hrow, hd⟩ := hdelta
  rw [UInt32.add_sub_cancel] at hold
  obtain rfl := Except.ok.inj (hold.symm.trans hlast.row)
  obtain ⟨visit', txns', h'⟩ := hr.read hrow
  obtain ⟨d, hd', hdiff⟩ := hlast.diffOf h'
  obtain rfl := Except.ok.inj (hd.symm.trans hd')
  have hsorted : p.1.sorted = p.1 := diff_sorted hd p.1.ledger_seq
  -- The row is chained to the last ledger, whose hash the replay has kept.
  have hparent : info.parent_hash = old'.ledger_hash :=
    hr.source.chained last old' info (hr.rows last old' hlast.row).1 hlt hlast.row hrow
  have hstate := hdiff.apply hlast.once h'.once h.state
  -- The tree of the sorted transactions is the stored one, root and all.
  obtain ⟨nodes, hbuild⟩ := h'.stored_txns.build (sort_txns_perm txns')
  obtain ⟨-, hledger_hash⟩ := verify_ledger_hash_ok.mp h'.verified.choose_spec
  obtain ⟨out₁, hsunk₁⟩ := ht.sink_nodes rep.out p.1.diff.added
  obtain ⟨out₂, hsunk₂⟩ := ht.sink_nodes out₁ nodes
  obtain ⟨out₃, hwritten⟩ := ht.write_ledger_outputs out₂ p.2.sorted rep.prev_ledger_hash info.tx_hash
    info.account_hash
  have hlink : rep.prev_ledger_hash = info.parent_hash := h.prev.trans hparent.symm
  rw [h'.tx_map_eq hmap] at hwritten ⊢
  rw [hsorted]
  let rep' : Replay σ τ :=
    { state := apply_diff rep.state p.1.diff, out := out₃, current_root := info.account_hash,
      prev_ledger_hash := info.ledger_hash,
      ledger_rows := rep.ledger_rows ++ [info.db_row (last + 1)] }
  refine ⟨rep', info, visit', txns', h', ⟨hstate, rfl, rfl⟩,
    ledger_step_ok.mpr ⟨info.tx_hash, nodes, out₁, out₂, ?_⟩, rfl⟩
  refine ⟨?_, rfl, ?_, hseq.symm, ?_, rfl, hbuild, ?_, ?_, ?_, rfl, ?_, hsunk₁, hsunk₂, hwritten⟩
  · intro hash hmem
    exact (h.state.mem_iff hlast.tree).mpr (hdiff.deleted_mem hmem)
  · intro n hn _
    obtain ⟨cs, hcs, hkids⟩ := hdiff.children (hr.walk h') hn
    exact ⟨cs, hcs, fun c hc => (hstate.mem_iff h'.tree).mpr (hkids c hc)⟩
  · rw [h.root]
    exact hr.finds_root hlast h' hd hdiff
  · intro tx htx
    exact h'.authentic tx ((sort_txns_perm txns').mem_iff.mp htx)
  · intro n hn
    exact hr.rehash (hdiff.stored n hn)
  · rw [hlink]
    exact hledger_hash
  · rw [hlink]
    rfl

/-- The replay is opened at the first ledger. -/
theorem LedgerRead.opens (ht : TakesAll S T) {cp : TxMap}
    (hread : LedgerRead sha512half store get_node fuel ledger_db seq info visit txns)
    (hcp : cp = (info.tx_map seq info.ledger_hash txns).sorted) (he : Exactly store state visit)
    (out : Outputs σ τ) :
    ∃ rep, open_ledger S T sha512half cp state out = .ok rep ∧ rep.ledger_rows = [] ∧
      ReplayAt store rep info visit := by
  obtain ⟨nodes, hbuild⟩ := hread.stored_txns.build (sort_txns_perm txns)
  obtain ⟨out₁, hwritten⟩ := ht.write_ledger out cp
  obtain ⟨out₂, hsunk⟩ := ht.sink_nodes out₁ nodes
  rw [hcp] at hwritten ⊢
  let rep : Replay σ τ :=
    { state, out := out₂, current_root := info.account_hash, prev_ledger_hash := info.ledger_hash,
      ledger_rows := [] }
  exact ⟨rep, open_ledger_ok.mpr ⟨out₁, info.tx_hash, nodes, hwritten, hbuild, hsunk, rfl, rfl, rfl,
    rfl⟩, rfl, ⟨he, rfl, rfl⟩⟩

/-- All further ledgers, one after the other. -/
theorem ReplayAt.run (hr : Exportable sha512half args store get_node fuel ledger_db)
    (ht : TakesAll S T) {n : Nat} (hle : last.toNat + n ≤ args.end.toNat)
    (hlast : LedgerRead sha512half store get_node fuel ledger_db last old visit txns)
    (h : ReplayAt store rep old visit) {pairs : List (LedgerDelta × TxMap)}
    (hpairs : List.Forall₂ (fun seq p => DeltaOf get_node fuel ledger_db seq p.1 ∧
        TxMapOf sha512half get_node fuel ledger_db seq p.2)
      ((List.range' (last.toNat + 1) n).map UInt32.ofNat) pairs) :
    ∃ rep' seq info visit' txns' rows,
      LedgerRead sha512half store get_node fuel ledger_db seq info visit' txns' ∧
      ReplayAt store rep' info visit' ∧
      (pairs.map fun p => (p.1.sorted, p.2.sorted)).foldlM (ledger_step S T sha512half true) rep =
        .ok rep' ∧
      rep'.ledger_rows = rep.ledger_rows ++ rows ∧
      List.Forall₂ (SourceRow ledger_db) ((List.range' (last.toNat + 1) n).map UInt32.ofNat) rows := by
  -- The invariant is `ReplayAt`, at the ledger before the next pair.
  induction n generalizing rep last old visit txns pairs with
  | zero =>
    cases hpairs
    exact ⟨rep, last, old, visit, txns, [], hlast, h, rfl, (List.append_nil _).symm, .nil⟩
  | succ n ih =>
    have hmax := args.end.toNat_lt
    have hnext : (last + 1).toNat = last.toNat + 1 := toNat_succ (by omega)
    rw [List.range'_succ, List.map_cons, ← hnext, UInt32.ofNat_toNat] at hpairs ⊢
    cases hpairs with
    | @cons _ p _ pairs hp hpairs =>
      obtain ⟨rep₁, info, visit₁, txns₁, hread, h₁, hstep, hrows₁⟩ := h.next hr ht
        (UInt32.lt_iff_toNat_lt.mpr (by omega)) hlast hp.1 hp.2
      obtain ⟨rep', seq, info', visit', txns', rows, hread', h', hrun, hrows, hsource⟩ :=
        ih (by omega) hread h₁ hpairs
      refine ⟨rep', seq, info', visit', txns', info.db_row (last + 1) :: rows, hread', h',
        foldlM_cons_ok.mpr ⟨rep₁, hstep, hrun⟩, ?_, .cons ⟨info, hread.row, rfl⟩ hsource⟩
      rw [hrows, hrows₁, List.append_assoc]
      rfl

/-! ## Whole files -/

/-- The file of a chunk has the layout of what is in it. -/
theorem WrittenChunk.layout (c : WrittenChunk) (hn : NarrowParts c.checkpoint c.first c.pairs)
    (hcount : c.header.delta_count = c.pairs.length) :
    ∃ header body, Layout (c.file sha512half).bytes header body []
        (header.written_chunk c.checkpoint c.first c.pairs) ∧
      sha512half body = header.stored_chunk_hash := by
  have hbody := @read_body_reads { c.header with
    stored_chunk_hash := sha512half (c.body ++ MAGIC_FOOTER) } _ _ _ hn hcount
  refine ⟨_, c.body ++ MAGIC_FOOTER, ⟨⟨_, ?_, read_header_fields_reads _⟩, hbody⟩, rfl⟩
  unfold WrittenChunk.file ChunkHeader.front
  simp only [List.append_assoc, List.append_nil]

theorem Collected.perm_nodes {nodes nodes' : List SHAMapNode} (hc : Collected store nodes visit)
    (hp : nodes'.Perm nodes) : Collected store nodes' visit :=
  ⟨(hp.map SHAMapNode.hash).trans hc.perm, fun n hn => hc.stored n (hp.mem_iff.mp hn)⟩

/-- A verifying replay accepts the file, whatever its outputs are as long as
    they take everything, and returns the rows of the ledgers behind the
    first one. -/
def Accepted (sha512half : Bytes → Hash256) (ledger_db : LedgerIndex) (first last : UInt32)
    (file : Bytes) : Prop :=
  ∀ (σ τ : Type) (S : NodeSink σ) (T : TxDb τ) (out : Outputs σ τ), TakesAll S T →
    ∃ fuel₀, ∀ fuel ≥ fuel₀, ∃ result out',
      replay_chunk_streaming S T sha512half fuel file true out = .ok (result, out') ∧
        List.Forall₂ (SourceRow ledger_db) (batch_seqs (first + 1) last) result.ledger_rows

namespace Exportable

variable (hr : Exportable sha512half args store get_node fuel ledger_db)

include hr

theorem tx_map_narrow {m : TxMap} (hm : TxMapOf sha512half get_node fuel ledger_db seq m) :
    m.Narrow := by
  obtain ⟨info, _, _, hrow, -, -, -⟩ := id hm
  obtain ⟨visit, txns, h⟩ := hr.read hrow
  rw [h.tx_map_eq hm]
  refine ⟨h.tx_count, fun tx htx => ?_⟩
  obtain ⟨hblob, hmeta⟩ := h.stored_txns.encodable tx htx
  unfold VL_MAX at hblob hmeta
  constructor
  · omega
  · omega

theorem delta_narrow {delta : LedgerDelta} (hdelta : DeltaOf get_node fuel ledger_db seq delta) :
    delta.Narrow := by
  obtain ⟨-, old, info, hold, hrow, hd⟩ := hdelta
  obtain ⟨visit, txns, h⟩ := hr.read hold
  obtain ⟨visit', txns', h'⟩ := hr.read hrow
  obtain ⟨d, hd', hdiff⟩ := h.diffOf h'
  obtain rfl := Except.ok.inj (hd.symm.trans hd')
  obtain ⟨hadded, hdeleted⟩ := hdiff.counts
  have hcount := (hr.fits _ _ hold).count visit h.tree
  have hcount' := (hr.fits _ _ hrow).count visit' h'.tree
  exact ⟨by omega, fun n hn => hr.narrow (hdiff.stored n hn), by omega⟩

/-- The records of a complete chunk fit their fields. -/
theorem narrow_parts {c : WrittenChunk}
    (hc : CompleteUpTo sha512half args get_node fuel ledger_db concurrency c last)
    (hread : LedgerRead sha512half store get_node fuel ledger_db c.header.start_ledger info visit txns)
    (hcollected : Collected store c.checkpoint visit) :
    NarrowParts c.checkpoint c.first c.pairs := by
  refine ⟨?_, fun n hn => hr.narrow (hcollected.stored n hn), hr.tx_map_narrow hc.first, ?_⟩
  · have hlength := hcollected.perm.length_eq
    rw [List.length_map] at hlength
    rw [hlength]
    exact (hr.fits _ _ hread.row).count visit hread.tree
  · intro p hp
    obtain ⟨i, hi, rfl⟩ := List.mem_iff_getElem.mp hp
    obtain ⟨hdelta, hmap⟩ := hc.pairs.get (by rw [hc.pairs.length_eq]; exact hi) hi
    exact ⟨hr.delta_narrow hdelta, hr.tx_map_narrow hmap⟩

/-- The checkpoint of a complete chunk, sorted as it is written, is the tree
    of its first ledger. -/
theorem checkpoint {c : WrittenChunk}
    (hc : CompleteUpTo sha512half args get_node fuel ledger_db concurrency c last) :
    ∃ info visit txns,
      LedgerRead sha512half store get_node fuel ledger_db c.header.start_ledger info visit txns ∧
      Collected store c.checkpoint visit ∧
      Exactly store (checkpoint_state (sort_nodes c.checkpoint)) visit := by
  obtain ⟨state, hstate, hentries⟩ := hc.checkpoint
  obtain ⟨info, visit, txns, hread, he⟩ := hr.state_exactly hstate
  have hcollected := he.collected hread.serves hread.tree hread.once hentries
  exact ⟨info, visit, txns, hread, hcollected,
    (hcollected.perm_nodes (sort_nodes_perm c.checkpoint)).exactly⟩

/-- Every complete chunk of ledgers of the range is accepted. -/
theorem accepted {c : WrittenChunk}
    (hc : CompleteUpTo sha512half args get_node fuel ledger_db concurrency c c.header.end_ledger)
    (hlt : c.first_ledger < c.next_ledger) (hle : c.next_ledger ≤ args.end.toNat + 1)
    (hmax : args.end.toNat + 1 < 2 ^ 32) :
    Accepted sha512half ledger_db c.header.start_ledger c.header.end_ledger
      (c.file sha512half).bytes := by
  unfold WrittenChunk.first_ledger WrittenChunk.next_ledger at hlt
  unfold WrittenChunk.next_ledger at hle
  -- The replay starts from the map of the checkpoint, which is the tree of
  -- the first ledger.
  obtain ⟨info, visit, txns, hread, hcollected, he⟩ := hr.checkpoint hc
  have hfirst := hread.tx_map_eq hc.first
  have hheld : info.account_hash ∈ checkpoint_state (sort_nodes c.checkpoint) :=
    (he.mem_iff hread.tree).mpr ((hr.walk hread).stack_subset _ List.mem_cons_self)
  -- The pairs are numbered from the ledger behind the first one on.
  have hseqs : batch_seqs (c.header.start_ledger + 1) c.header.end_ledger =
      (List.range' (c.header.start_ledger.toNat + 1)
        (c.header.end_ledger.toNat - c.header.start_ledger.toNat)).map UInt32.ofNat := by
    unfold batch_seqs
    rw [toNat_succ (by omega), Nat.add_sub_add_right]
  have hpairs := hc.pairs
  rw [hseqs] at hpairs
  have hcount : c.header.delta_count = c.pairs.length := by
    have hlength := hpairs.length_eq
    rw [List.length_map, List.length_range'] at hlength
    unfold ChunkHeader.delta_count
    rw [UInt32.toNat_sub_of_le _ _ (UInt32.le_iff_toNat_le.mpr (by omega)), hlength]
  obtain ⟨header, body, hlayout, hhash⟩ :=
    @WrittenChunk.layout sha512half c (hr.narrow_parts hc hread hcollected) hcount
  intro σ τ S T out ht
  obtain ⟨out₁, hsunk⟩ := ht.sink_nodes out (sort_nodes c.checkpoint)
  obtain ⟨rep₀, hopened, hempty, hat⟩ :=
    hread.opens ht (congrArg TxMap.sorted hfirst) he out₁
  obtain ⟨rep₁, seq, info', visit', txns', rows, hread', hat', hrun, hrows, hsource⟩ :=
    hat.run hr ht (by omega) hread hpairs
  -- Only the two completeness checks walk a tree, the first one and the last.
  refine ⟨max visit.length visit'.length + 1, fun fuel hfuel => ?_⟩
  refine ⟨{ state := rep₁.state, ledger_rows := rep₁.ledger_rows }, rep₁.out,
    replay_chunk_streaming_ok.mpr ⟨header, body, [], _, hlayout, hhash, c.first.sorted, out₁, rep₀,
      rep₁, ?_⟩, ?_⟩
  · refine ⟨rfl, hsunk, ?_, ?_, ?_, ?_, hopened, ?_, ?_⟩
    · rw [hfirst]
      exact hheld
    · intro _
      rw [hfirst]
      exact he.complete hread.tree hread.once (hr.fits _ _ hread.row).inner.nonzero (by omega) _
    · intro _
      rw [verify_txns_authentic_ok, hfirst]
      intro tx htx
      exact hread.authentic tx ((sort_txns_perm txns).mem_iff.mp htx)
    · intro _
      rw [verify_state_nodes_ok]
      intro n hn
      exact hr.rehash (hcollected.stored n ((sort_nodes_perm _).mem_iff.mp hn))
    · rw [ChunkHeader.written_chunk, ledgers_streamed]
      exact hrun
    · refine bind_eq_ok.mpr ⟨(), check_if_eq_ok.mpr fun _ => ?_, rfl⟩
      rw [hat'.root]
      exact hat'.state.complete hread'.tree hread'.once (hr.fits _ _ hread'.row).inner.nonzero
        (by omega) _
  · rw [hseqs, hrows, hempty]
    exact hsource

end Exportable

/-! ## Exports -/

theorem SourceRow.of_within {row : LedgerDbRow} (h : SourceRow (ledger_db.within args) seq row) :
    SourceRow ledger_db seq row := by
  obtain ⟨info, hrow, rfl⟩ := h
  exact ⟨info, (LedgerIndex.within_get.mp hrow).2, rfl⟩

/-- The export comes to its end, its files tile the range, and each is
    accepted with the rows of the source. -/
def ExportAccepted (sha512half : Bytes → Hash256) (xxh64 : Bytes → UInt64 → UInt64)
    (lz4 : Bytes → Nat → Option Bytes) (args : Args) (ledger_db : LedgerIndex) (r : NuDBReader)
    (concurrency : Nat) (order : MapOrder) : Prop :=
  ∃ chunks : List WrittenChunk,
    Exports xxh64 lz4 sha512half args ledger_db r concurrency order
        (chunks.map (WrittenChunk.file sha512half)) ∧
      Tiles WrittenChunk.first_ledger WrittenChunk.next_ledger args.start.toNat chunks
        (args.end.toNat + 1) ∧
      ∀ c ∈ chunks, Accepted sha512half ledger_db c.header.start_ledger c.header.end_ledger
        (c.file sha512half).bytes

/-- Other ranges and empty chunks are refused. -/
theorem ExportAccepted.range {xxh64 : Bytes → UInt64 → UInt64} {lz4 : Bytes → Nat → Option Bytes}
    {r : NuDBReader} (h : ExportAccepted sha512half xxh64 lz4 args ledger_db r concurrency order) :
    args.start < args.end ∧ args.chunk_size ≠ 0 := by
  obtain ⟨chunks, ⟨fuel, hmain⟩, -⟩ := h
  obtain ⟨hrange, hsize, -⟩ := export_main_ok.mp hmain
  exact ⟨UInt32.not_le.mp hrange, hsize⟩

/-- What is exported of a source whose state trees fit a chunk is
    accepted. -/
theorem exports_accepted (xxh64 : Bytes → UInt64 → UInt64) (lz4 : Bytes → Nat → Option Bytes)
    (r : NuDBReader) (hr : r.Holds xxh64 lz4 store)
    (hs : Source sha512half args store ledger_db) (hrange : args.start < args.end)
    (hsize : args.chunk_size ≠ 0) (hf : NumbersFit args (batch_size concurrency))
    (hfits : ∀ seq info, args.start ≤ seq → seq ≤ args.end → ledger_db.get seq = .ok info →
      FitsChunk store info.account_hash) (order : MapOrder) :
    ExportAccepted sha512half xxh64 lz4 args ledger_db r concurrency order := by
  -- Rows outside the range are not part of the source, and are left out.
  have hs' : Source sha512half args store (ledger_db.within args) := hs.within
  have hfits' : ∀ seq info, (ledger_db.within args).get seq = .ok info →
      FitsChunk store info.account_hash := by
    intro seq info hrow
    obtain ⟨⟨hfirst, hlast⟩, hrow⟩ := LedgerIndex.within_get.mp hrow
    exact hfits seq info hfirst hlast hrow
  obtain ⟨k, hread⟩ := hs'.read hr
  obtain ⟨fuel, hfuel, files, hmain⟩ := @Source.exports sha512half args order store _ concurrency
    xxh64 lz4 r hr hs' hrange hsize hf (fun info hrow => (hfits' _ info hrow).inner.nonzero) k
  obtain ⟨chunks, rfl, htiles, hcomplete, -⟩ := export_main_tiles hf hmain
  have hexportable : Exportable sha512half args store (r.get_node xxh64 lz4 fuel) fuel
      (ledger_db.within args) := by
    refine ⟨hs', hread fuel hfuel, ?_, hfits', ?_, ?_⟩
    · intro seq info hrow
      exact (LedgerIndex.within_get.mp hrow).1
    · intro h n hget
      exact NuDBReader.get_node_hash hget
    · intro h n hget
      exact NuDBReader.get_node_inner hget
  refine ⟨chunks, ⟨fuel, ?_⟩, htiles, ?_⟩
  · -- The rows outside the range make no difference.
    refine export_main_rows (fun seq info hrow => ?_) _ hmain
    exact (LedgerIndex.within_get.mp hrow).2
  · intro c hc σ τ S T out ht
    obtain ⟨hlt, hle⟩ := htiles.of_mem hc
    obtain ⟨fuel₀, haccept⟩ := hexportable.accepted (hcomplete c hc) hlt hle hf.end_lt σ τ S T out ht
    refine ⟨fuel₀, fun fuel' hfuel' => ?_⟩
    obtain ⟨result, out', hrun, hrows⟩ := haccept fuel' hfuel'
    exact ⟨result, out', hrun, hrows.imp fun _ _ hrow => hrow.of_within⟩

/-! ## Two ledgers -/

/-- The row of an otherwise empty ledger with these trees, under its
    hash. -/
def hashed_info (seq : UInt32) (parent_hash account_hash tx_hash : Hash256) : LedgerInfo :=
  let info : LedgerInfo :=
    { ledger_hash := ZERO_HASH, account_hash, tx_hash, parent_hash, total_coins := 0,
      closing_time := 0, prev_closing_time := 0, close_time_resolution := 10, close_flags := 0 }
  { info with ledger_hash := calculate_ledger_hash sha2_sha512half (info.hash_input seq) }

/-- The rows of the ledgers 7 and 8. -/
def two_rows (first second : LedgerInfo) : LedgerIndex := fun seq =>
  if seq = 7 then some first.row else if seq = 8 then some second.row else none

/-- Both ledgers in one chunk. -/
def two_args : Args := { start := 7, «end» := 8, network_id := 1, chunk_size := 2 }

theorem two_args_fit : NumbersFit two_args (batch_size 1) := by
  have hone : (batch_size 1).toNat = 1 := by decide
  refine ⟨by decide, ?_, by decide, ?_⟩
  · intro k hk
    dsimp only [two_args] at hk ⊢
    simp only [UInt32.reduceToNat] at hk ⊢
    omega
  · intro k hk
    rw [hone] at hk ⊢
    dsimp only [two_args] at hk ⊢
    simp only [UInt32.reduceToNat] at hk ⊢
    omega

theorem two_args_cases (hfirst : two_args.start ≤ seq) (hlast : seq ≤ two_args.end) :
    seq = 7 ∨ seq = 8 := by
  rw [UInt32.le_iff_toNat_le] at hfirst hlast
  have hfirst : 7 ≤ seq.toNat := hfirst
  have hlast : seq.toNat ≤ 8 := hlast
  rcases (show seq.toNat = 7 ∨ seq.toNat = 8 by omega) with h | h
  · exact .inl (UInt32.toNat_inj.mp h)
  · exact .inr (UInt32.toNat_inj.mp h)

theorem two_rows_source {first second : LedgerInfo} {nodes : List SHAMapNode}
    (hnodes : verify_state_nodes sha2_sha512half nodes = .ok ())
    (hshort : ∀ n ∈ nodes, n.content.length < 2 ^ 16)
    (hfirst : LedgerStored sha2_sha512half (nodes_store nodes) (two_rows first second) 7 first
      visit txns)
    (hsecond : LedgerStored sha2_sha512half (nodes_store nodes) (two_rows first second) 8 second
      visit' txns')
    (hlink : second.parent_hash = first.ledger_hash) :
    Source sha2_sha512half two_args (nodes_store nodes) (two_rows first second) := by
  have hmem : ∀ {h n}, nodes_store nodes h = some n → n ∈ nodes ∧ n.hash = h := by
    intro h n hn
    have hfind : (nodes.find? fun n => n.hash = h) = some n := hn
    have hhash := List.find?_some hfind
    rw [decide_eq_true_eq] at hhash
    exact ⟨List.mem_of_find?_eq_some hfind, hhash⟩
  refine ⟨?_, ?_, ?_, ?_⟩
  · intro h n hn
    obtain ⟨hin, rfl⟩ := hmem hn
    exact verify_state_nodes_ok.mp hnodes n hin
  · intro h n hn
    exact hshort n (hmem hn).1
  · intro seq hstart hend
    rcases two_args_cases hstart hend with rfl | rfl
    · exact ⟨_, _, _, hfirst⟩
    · exact ⟨_, _, _, hsecond⟩
  · intro seq old info hstart hend hold hinfo
    rcases two_args_cases hstart (UInt32.le_of_lt hend) with rfl | rfl
    · obtain rfl := Except.ok.inj (hold.symm.trans hfirst.row)
      obtain rfl := Except.ok.inj (hinfo.symm.trans hsecond.row)
      exact hlink
    · exact absurd hend (by decide)

theorem hashed_stored {rows : LedgerIndex} {parent_hash account_hash tx_hash : Hash256}
    (hrow : rows seq = some (hashed_info seq parent_hash account_hash tx_hash).row)
    (htree : TreeAt store account_hash visit) (hnd : visit.Nodup)
    (htxns : StoredTxns sha2_sha512half store tx_hash txns)
    (hauthentic : ∀ tx ∈ txns, calculate_tx_id sha2_sha512half tx.tx_blob = tx.tx_hash)
    (hcount : txns.length < 2 ^ 16) :
    LedgerStored sha2_sha512half store rows seq (hashed_info seq parent_hash account_hash tx_hash)
      visit txns :=
  ⟨LedgerIndex.get_row hrow, ⟨_, verify_ledger_hash_ok.mpr ⟨rfl, rfl⟩⟩, htree, hnd, htxns,
    hauthentic, hcount⟩

theorem quiet_stored {rows : LedgerIndex} {parent_hash account_hash : Hash256}
    (hrow : rows seq = some (hashed_info seq parent_hash account_hash ZERO_HASH).row)
    (htree : TreeAt store account_hash visit) (hnd : visit.Nodup) :
    LedgerStored sha2_sha512half store rows seq (hashed_info seq parent_hash account_hash ZERO_HASH)
      visit [] :=
  hashed_stored hrow htree hnd (.inl ⟨rfl, rfl⟩) (by simp) (by simp)

/-! ### Two accounts and a transaction -/

/-- The content of an inner node over two accounts. -/
def pair_content : Bytes :=
  lone_account.hash.bytes ++ stray_account.hash.bytes ++ List.replicate 448 0

def pair_hash : Hash256 := sha2_sha512half (HASH_PREFIX_INNER_NODE ++ pair_content)

/-- A transaction under its id. -/
def paid_tx : TxRecord := ⟨calculate_tx_id sha2_sha512half [1], [1], [2]⟩

def paid_tree : Hash256 × List SHAMapNode :=
  (build_tx_tree sha2_sha512half [paid_tx]).toOption.getD (ZERO_HASH, [])

def pair_nodes : List SHAMapNode :=
  [⟨one_child_hash, .Inner, one_child_content⟩, ⟨pair_hash, .Inner, pair_content⟩, lone_account,
    stray_account] ++ paid_tree.2

def pair_first : LedgerInfo := hashed_info 7 ZERO_HASH one_child_hash ZERO_HASH
def pair_second : LedgerInfo := hashed_info 8 pair_first.ledger_hash pair_hash paid_tree.1

def pair_rows : LedgerIndex := two_rows pair_first pair_second

theorem pair_facts :
    verify_state_nodes sha2_sha512half pair_nodes = .ok () ∧
      (∀ n ∈ pair_nodes, n.content.length < 2 ^ 16 ∧ n.node_type.is_exported = true ∧
        (n.node_type = .Inner → n.content.length = 512)) ∧
      (∀ n ∈ paid_tree.2, n.hash ≠ ZERO_HASH ∧ nodes_store pair_nodes n.hash = some n) ∧
      nodes_store pair_nodes one_child_hash = some ⟨one_child_hash, .Inner, one_child_content⟩ ∧
      nodes_store pair_nodes pair_hash = some ⟨pair_hash, .Inner, pair_content⟩ ∧
      Store.refs (nodes_store pair_nodes) one_child_hash = some [lone_account.hash] ∧
      Store.refs (nodes_store pair_nodes) pair_hash = some [lone_account.hash, stray_account.hash] ∧
      Store.refs (nodes_store pair_nodes) lone_account.hash = some [] ∧
      Store.refs (nodes_store pair_nodes) stray_account.hash = some [] ∧
      [ZERO_HASH, one_child_hash, pair_hash, lone_account.hash, stray_account.hash].Nodup ∧
      (written_files Xxh64.digest pair_nodes).1.length < 2 ^ 48 := by
  decide +kernel

theorem paid_tree_built :
    build_tx_tree sha2_sha512half [paid_tx] = .ok (paid_tree.1, paid_tree.2) := by
  have hbuilt := @build_tx_tree_of_distinct sha2_sha512half [paid_tx] (List.nodup_singleton _)
  obtain ⟨p, hp⟩ := hbuilt
  unfold paid_tree
  rw [hp]
  rfl

theorem FitsChunk.of_tree {root : Hash256} (ht : TreeAt store root visit)
    (hinner : InnerRoot store root) (hcount : visit.length < 2 ^ 32) : FitsChunk store root := by
  refine ⟨hinner, fun visit' ht' => ?_⟩
  rw [ht'.unique ht]
  exact hcount

/-- Ledger 7 has one account. Ledger 8 adds another one and has a
    transaction. -/
theorem pair_stored : ∃ visit visit' txns,
    LedgerStored sha2_sha512half (nodes_store pair_nodes) pair_rows 7 pair_first visit [] ∧
      LedgerStored sha2_sha512half (nodes_store pair_nodes) pair_rows 8 pair_second visit' txns ∧
      FitsChunk (nodes_store pair_nodes) pair_first.account_hash ∧
      FitsChunk (nodes_store pair_nodes) pair_second.account_hash := by
  obtain ⟨-, -, hpaid, hinner, hinner', hone, hpair, hlone, hstray, hdistinct, -⟩ := pair_facts
  simp only [List.nodup_cons, List.mem_cons, List.not_mem_nil, or_false, not_or] at hdistinct
  obtain ⟨⟨hz, hz', -⟩, ⟨-, h13, -⟩, ⟨h23, h24⟩, h34, -⟩ := hdistinct
  have hfirst : TreeAt (nodes_store pair_nodes) one_child_hash [one_child_hash, lone_account.hash] :=
    .inr ⟨Ne.symm hz, .step hone (.step hlone .done)⟩
  have hsecond : TreeAt (nodes_store pair_nodes) pair_hash
      [pair_hash, lone_account.hash, stray_account.hash] :=
    .inr ⟨Ne.symm hz', .step hpair (.step hlone (.step hstray .done))⟩
  obtain ⟨kids, hstored, hitems⟩ := @StoredTxTree.of_build sha2_sha512half (nodes_store pair_nodes)
    [paid_tx] paid_tree.1 paid_tree.2 paid_tree_built (List.cons_ne_nil _ _)
    (fun tx htx => List.mem_singleton.mp htx ▸ ⟨Nat.le_of_ble_eq_true rfl, Nat.le_of_ble_eq_true rfl⟩)
    (fun n hn => (hpaid n hn).1) (fun n hn => (hpaid n hn).2)
  have htxns : [paid_tx] = sort_txns (Radix.node kids).items := by
    rw [List.perm_singleton.mp hitems]
    rfl
  have hnodup : [one_child_hash, lone_account.hash].Nodup := by
    simpa using h13
  have hnodup' : [pair_hash, lone_account.hash, stray_account.hash].Nodup := by
    simpa using ⟨⟨h23, h24⟩, h34⟩
  have hauthentic : ∀ tx ∈ [paid_tx], calculate_tx_id sha2_sha512half tx.tx_blob = tx.tx_hash := by
    intro tx htx
    rw [List.mem_singleton.mp htx]
    rfl
  exact ⟨_, _, [paid_tx], quiet_stored rfl hfirst hnodup,
    hashed_stored rfl hsecond hnodup' (.inr ⟨kids, hstored, htxns⟩) hauthentic
      (Nat.lt_of_sub_ne_zero nofun),
    .of_tree hfirst ⟨Ne.symm hz, _, hinner, rfl⟩ (by simp),
    .of_tree hsecond ⟨Ne.symm hz', _, hinner', rfl⟩ (by simp)⟩

theorem exports_accepted_pair :
    ExportAccepted sha2_sha512half Xxh64.digest (fun _ _ => none) two_args pair_rows
      (written_reader Xxh64.digest pair_nodes) 1 by_hash := by
  obtain ⟨hverify, hformats, -, -, -, -, -, -, -, -, hsize⟩ := pair_facts
  obtain ⟨visit, visit', txns, hfirst, hsecond, hfits, hfits'⟩ := pair_stored
  refine exports_accepted _ _ _ (written_reader_holds _ _ pair_nodes (fun n hn => (hformats n hn).2)
    hsize) (two_rows_source hverify (fun n hn => (hformats n hn).1) hfirst hsecond rfl) (by decide)
    (by decide) two_args_fit ?_ by_hash
  intro seq info hstart hend hrow
  rcases two_args_cases hstart hend with rfl | rfl
  · rw [← Except.ok.inj (hfirst.row.symm.trans hrow)]
    exact hfits
  · rw [← Except.ok.inj (hsecond.row.symm.trans hrow)]
    exact hfits'

/-! ### A leaf at the root -/

/-- The second ledger of an accepted chunk has the root that is found from
    its delta. -/
theorem replay_second_root {S : NodeSink σ} {T : TxDb τ} {file : Bytes} {out : Outputs σ τ}
    {res : ReplayResult × Outputs σ τ} {chunk : Chunk} {cp m : TxMap} {delta : LedgerDelta}
    {maps : List TxMap} {deltas : List LedgerDelta}
    (hread : deserialize_chunk sha512half file = .ok chunk)
    (hrun : replay_chunk_streaming S T sha512half fuel file true out = .ok res)
    (hmaps : chunk.tx_maps = cp :: m :: maps) (hdeltas : chunk.deltas = delta :: deltas) :
    find_new_root delta.diff.added cp.account_hash = .ok m.account_hash := by
  obtain ⟨_, _, _, chunk', hl, -, cp', out₁, r₀, r₁, hsteps⟩ := replay_chunk_streaming_ok.mp hrun
  obtain ⟨_, _, _, hl', -⟩ := (deserialize_chunk_ok hl.version).mp hread
  obtain ⟨-, -, -, rfl⟩ := hl.unique hl'
  have hfirst : cp = cp' := by
    have hhead := hsteps.first
    rw [hmaps] at hhead
    exact Option.some.inj hhead
  obtain ⟨_, _, _, -, -, -, -, hroot, -, -⟩ := open_ledger_ok.mp hsteps.opened
  have hledgers : chunk'.ledgers = (delta, m) :: deltas.zip maps := by
    unfold Chunk.ledgers
    rw [hmaps, hdeltas]
    rfl
  have hledger_run := hsteps.run
  rw [hledgers] at hledger_run
  -- The first round starts from the checkpoint's root.
  cases hledger_run with
  | step hv _ =>
    rw [hfirst, ← hroot, hv.root, hv.account_hash]

/-- The second ledger of the chunk has another root than the one that is
    found. -/
def MissesRoot (chunk : Chunk) : Bool :=
  match chunk.tx_maps, chunk.deltas with
  | cp :: m :: _, delta :: _ => find_new_root delta.diff.added cp.account_hash ≠ .ok m.account_hash
  | _, _ => false

theorem MissesRoot.not_accepted {first last : UInt32} {file : Bytes} {chunk : Chunk}
    (hmiss : MissesRoot chunk = true) (hread : deserialize_chunk sha512half file = .ok chunk) :
    ¬ Accepted sha512half ledger_db first last file := by
  intro haccept
  -- Acceptance is for every pair of outputs: these drop what they are given.
  have htakes : TakesAll NullSink NoTxDb := ⟨fun s _ _ => ⟨s, rfl⟩, fun t _ => ⟨t, rfl⟩⟩
  obtain ⟨fuel, hrun⟩ := haccept Unit Unit NullSink NoTxDb ⟨(), none, []⟩ htakes
  obtain ⟨result, out', hrun, -⟩ := hrun fuel le_rfl
  unfold MissesRoot at hmiss
  split at hmiss
  · next hmaps hdeltas =>
    exact of_decide_eq_true hmiss (replay_second_root hread hrun hmaps hdeltas)
  · cases hmiss

/-- One account, which another one replaces, without an inner node above
    them. -/
def bare_nodes : List SHAMapNode := [lone_account, stray_account]

def bare_first : LedgerInfo := hashed_info 7 ZERO_HASH lone_account.hash ZERO_HASH
def bare_second : LedgerInfo := hashed_info 8 bare_first.ledger_hash stray_account.hash ZERO_HASH

def bare_rows : LedgerIndex := two_rows bare_first bare_second

def bare_export : Except Error (List ChunkFile) :=
  export_main sha2_sha512half two_args by_hash
    ((written_reader Xxh64.digest bare_nodes).get_node Xxh64.digest (fun _ _ => none) 5) 5 bare_rows 1

theorem bare_facts :
    verify_state_nodes sha2_sha512half bare_nodes = .ok () ∧
      (∀ n ∈ bare_nodes, n.content.length < 2 ^ 16 ∧ n.node_type.is_exported = true ∧
        (n.node_type = .Inner → n.content.length = 512)) ∧
      Store.refs (nodes_store bare_nodes) lone_account.hash = some [] ∧
      Store.refs (nodes_store bare_nodes) stray_account.hash = some [] ∧
      lone_account.hash ≠ ZERO_HASH ∧ stray_account.hash ≠ ZERO_HASH ∧
      (written_files Xxh64.digest bare_nodes).1.length < 2 ^ 48 ∧
      ∃ files ∈ bare_export.toOption, ∃ file ∈ files,
        ∃ chunk ∈ (deserialize_chunk sha2_sha512half file.bytes).toOption,
          MissesRoot chunk = true := by
  decide +kernel

theorem leaf_root_rejected :
    (written_reader Xxh64.digest bare_nodes).Holds Xxh64.digest (fun _ _ => none)
        (nodes_store bare_nodes) ∧
      Source sha2_sha512half two_args (nodes_store bare_nodes) bare_rows ∧
      two_args.start < two_args.end ∧ two_args.chunk_size ≠ 0 ∧
      NumbersFit two_args (batch_size 1) ∧
      ¬ ExportAccepted sha2_sha512half Xxh64.digest (fun _ _ => none) two_args bare_rows
        (written_reader Xxh64.digest bare_nodes) 1 by_hash := by
  obtain ⟨hverify, hformats, hlone, hstray, hz, hz', hsize, files, hfiles, file, hfile, chunk, hchunk,
    hmiss⟩ := bare_facts
  have hfirst : TreeAt (nodes_store bare_nodes) lone_account.hash [lone_account.hash] :=
    .inr ⟨hz, .step hlone .done⟩
  have hsecond : TreeAt (nodes_store bare_nodes) stray_account.hash [stray_account.hash] :=
    .inr ⟨hz', .step hstray .done⟩
  refine ⟨written_reader_holds _ _ bare_nodes (fun n hn => (hformats n hn).2) hsize,
    two_rows_source hverify (fun n hn => (hformats n hn).1)
      (quiet_stored rfl hfirst (List.nodup_singleton _))
      (quiet_stored rfl hsecond (List.nodup_singleton _)) rfl,
    by decide, by decide, two_args_fit, ?_⟩
  -- Whatever number of rounds is meant, the files are those of the run above.
  rintro ⟨chunks, hexports, -, haccepted⟩
  have hexports' : Exports Xxh64.digest (fun _ _ => none) sha2_sha512half two_args bare_rows
      (written_reader Xxh64.digest bare_nodes) 1 by_hash files :=
    ⟨5, toOption_eq_some.mp hfiles⟩
  rw [hexports'.unique hexports] at hfile
  obtain ⟨c, hc, rfl⟩ := List.mem_map.mp hfile
  exact MissesRoot.not_accepted hmiss (toOption_eq_some.mp hchunk) (haccepted c hc)

end LedgerArchive
