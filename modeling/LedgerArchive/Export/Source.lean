import LedgerArchive.Export.Tiling
import LedgerArchive.Import.NewRoot
import LedgerArchive.Nudb.Transactions
import Mathlib.Data.FinEnum
import Mathlib.Order.Filter.AtTopBot.Basic
import Mathlib.Order.Filter.Finite

/-! # What an export needs

    A range of ledgers can be exported when every row passes its hash, every
    state tree is complete in the node store and every transaction root
    names a stored transaction tree (`Source`). With enough rounds every
    ledger of such a range can be read (`Source.read`), and the export comes
    to its end (`Source.exports`). -/

namespace LedgerArchive

open Lib

variable {sha512half : Bytes → Hash256} {args : Args} {order : MapOrder} {store : Store}
  {get_node : Hash256 → Except Error SHAMapNode} {fuel : Nat} {ledger_db : LedgerIndex}
  {concurrency : Nat} {e e' : Export} {seq last : UInt32} {info info' : LedgerInfo}
  {visit visit' : List Hash256} {txns txns' : List TxRecord}

/-! ## Stored ledgers -/

/-- The records of the transaction tree under `root`, in the order of their
    ids. The zero hash names the empty tree. -/
def StoredTxns (sha512half : Bytes → Hash256) (store : Store) (root : Hash256)
    (txns : List TxRecord) : Prop :=
  (root = ZERO_HASH ∧ txns = []) ∨
    ∃ kids, StoredTxTree sha512half store root kids ∧ txns = sort_txns (Radix.node kids).items

/-- The row of a ledger, and what the store holds for it: the state tree,
    complete and with no node at two positions, and the transactions. -/
structure LedgerStored (sha512half : Bytes → Hash256) (store : Store) (ledger_db : LedgerIndex)
    (seq : UInt32) (info : LedgerInfo) (visit : List Hash256) (txns : List TxRecord) : Prop where
  row : ledger_db.get seq = .ok info
  verified : ∃ ledger_hash, info.verify_ledger_hash sha512half seq = .ok ledger_hash
  tree : TreeAt store info.account_hash visit
  once : visit.Nodup
  stored_txns : StoredTxns sha512half store info.tx_hash txns
  authentic : ∀ tx ∈ txns, calculate_tx_id sha512half tx.tx_blob = tx.tx_hash
  tx_count : txns.length < 2 ^ 16

/-- The ledgers of the range in a content-addressed store of short nodes,
    each row naming the hash of the row before it as its parent's. -/
structure Source (sha512half : Bytes → Hash256) (args : Args) (store : Store)
    (ledger_db : LedgerIndex) : Prop where
  addressed : ∀ h n, store h = some n → recompute_node_hash sha512half n = h
  short : ∀ h n, store h = some n → n.content.length < 2 ^ 16
  ledgers : ∀ seq, args.start ≤ seq → seq ≤ args.end →
    ∃ info visit txns, LedgerStored sha512half store ledger_db seq info visit txns
  chained : ∀ seq old info, args.start ≤ seq → seq < args.end → ledger_db.get seq = .ok old →
    ledger_db.get (seq + 1) = .ok info → info.parent_hash = old.ledger_hash

theorem verify_ledger_hash_ok {ledger_hash : Hash256} :
    info.verify_ledger_hash sha512half seq = .ok ledger_hash ↔
      ledger_hash = info.ledger_hash ∧
        calculate_ledger_hash sha512half (info.hash_input seq) = info.ledger_hash := by
  unfold LedgerInfo.verify_ledger_hash
  dsimp only
  rw [bail_if_bind_ok, pure_eq_ok, not_not]
  constructor
  · rintro ⟨hsame, hhash⟩
    exact ⟨hhash.symm.trans hsame, hsame⟩
  · rintro ⟨hhash, hsame⟩
    exact ⟨hsame, hsame.trans hhash.symm⟩

/-! ## Transactions -/

/-- The blobs of a stored leaf have lengths that can be encoded. -/
theorem StoredTree.encodable {t : Radix 16 TxRecord} {h : Hash256}
    (ht : StoredTree sha512half store t h) : ∀ tx ∈ t.items, tx.Encodable := by
  induction t generalizing h with
  | empty =>
    intro tx htx
    cases htx
  | leaf tx' =>
    intro tx htx
    obtain ⟨-, n, -, -, hparse, -⟩ := ht
    rw [List.mem_singleton.mp htx]
    exact (parse_tx_leaf_iff.mp hparse).2
  | node kids ih =>
    intro tx htx
    obtain ⟨-, n, inner, -, -, -, hkids⟩ := ht
    obtain ⟨i, -, hi⟩ := List.mem_flatMap.mp htx
    exact ih i (hkids i) tx hi

theorem StoredTxns.encodable {root : Hash256} (h : StoredTxns sha512half store root txns) :
    ∀ tx ∈ txns, tx.Encodable := by
  intro tx htx
  rcases h with ⟨-, rfl⟩ | ⟨kids, hstored, rfl⟩
  · cases htx
  · exact hstored.stored.encodable tx ((sort_txns_perm _).mem_iff.mp htx)

/-- From the records, in any order, the root is rebuilt. -/
theorem StoredTxns.build {root : Hash256} (h : StoredTxns sha512half store root txns)
    (hp : txns'.Perm txns) : ∃ nodes, build_tx_tree sha512half txns' = .ok (root, nodes) := by
  rcases h with ⟨rfl, rfl⟩ | ⟨kids, hstored, rfl⟩
  · rw [hp.eq_nil]
    exact ⟨_, rfl⟩
  · have htree := hstored.treeOf.perm (hp.trans (sort_txns_perm _)).symm
    obtain ⟨⟨root', nodes⟩, hbuild⟩ := @build_tx_tree_of_distinct sha512half txns' htree.nodup
    obtain ⟨t, ht, hroot, -⟩ := build_tx_tree_ok hbuild
    obtain rfl := ht.unique htree
    exact ⟨nodes, by rw [hbuild, hroot, hstored.stored.hash_eq]⟩

variable {xxh64 : Bytes → UInt64 → UInt64} {lz4 : Bytes → Nat → Option Bytes} {r : NuDBReader}

theorem StoredTxns.collect (hr : r.Holds xxh64 lz4 store) {root : Hash256}
    (h : StoredTxns sha512half store root txns) :
    ∃ fuel₀, ∀ fuel ≥ fuel₀,
      collect_transactions (r.get_node xxh64 lz4 fuel) fuel root = .ok txns := by
  rcases h with ⟨rfl, rfl⟩ | ⟨kids, hstored, rfl⟩
  · exact ⟨0, fun fuel _ => if_pos rfl⟩
  · exact hstored.collect hr hstored.treeOf.nodup

/-! ## Reading a ledger -/

/-- The ledger can be read with these lookups and this many rounds. -/
structure LedgerRead (sha512half : Bytes → Hash256) (store : Store)
    (get_node : Hash256 → Except Error SHAMapNode) (fuel : Nat) (ledger_db : LedgerIndex)
    (seq : UInt32) (info : LedgerInfo) (visit : List Hash256) (txns : List TxRecord) : Prop
    extends LedgerStored sha512half store ledger_db seq info visit txns where
  serves : Serves get_node store visit
  rounds : visit.length + visit.length < fuel
  collected : ledger_txns get_node fuel info seq = .ok txns

/-- What holds of each ledger from some number of rounds on holds of all
    ledgers from some number on. -/
theorem exists_rounds {P : UInt32 → Nat → Prop} (h : ∀ seq, ∃ k, ∀ n ≥ k, P seq n) :
    ∃ k, ∀ n ≥ k, ∀ seq, P seq n := by
  simp only [ge_iff_le, ← Filter.eventually_atTop] at h ⊢
  exact Filter.eventually_all.mpr h

theorem LedgerStored.read (hr : r.Holds xxh64 lz4 store)
    (h : LedgerStored sha512half store ledger_db seq info visit txns) :
    ∃ fuel₀, ∀ fuel ≥ fuel₀,
      LedgerRead sha512half store (r.get_node xxh64 lz4 fuel) fuel ledger_db seq info visit txns := by
  obtain ⟨k, hserves⟩ := exists_serves hr visit
  obtain ⟨k', hcollect⟩ := h.stored_txns.collect hr
  refine ⟨max (max k k') (visit.length + visit.length + 1), fun fuel hfuel => ?_⟩
  refine ⟨h, hserves fuel (by omega), by omega, ?_⟩
  unfold ledger_txns
  rw [with_context_eq_ok]
  exact hcollect fuel (by omega)

/-- Every ledger of the range can be read. -/
def RangeRead (sha512half : Bytes → Hash256) (args : Args) (store : Store)
    (get_node : Hash256 → Except Error SHAMapNode) (fuel : Nat) (ledger_db : LedgerIndex) : Prop :=
  ∀ seq, args.start ≤ seq → seq ≤ args.end →
    ∃ info visit txns, LedgerRead sha512half store get_node fuel ledger_db seq info visit txns

theorem Source.read (hr : r.Holds xxh64 lz4 store) (h : Source sha512half args store ledger_db) :
    ∃ fuel₀, ∀ fuel ≥ fuel₀,
      RangeRead sha512half args store (r.get_node xxh64 lz4 fuel) fuel ledger_db := by
  apply exists_rounds
  intro seq
  by_cases hin : args.start ≤ seq ∧ seq ≤ args.end
  · obtain ⟨info, visit, txns, hstored⟩ := h.ledgers seq hin.1 hin.2
    obtain ⟨k, hread⟩ := hstored.read hr
    exact ⟨k, fun n hn _ _ => ⟨info, visit, txns, hread n hn⟩⟩
  · exact ⟨0, fun n _ hfirst hlast => absurd ⟨hfirst, hlast⟩ hin⟩

/-- The diff between two ledgers. -/
theorem LedgerRead.diffOf {seq' : UInt32}
    (h : LedgerRead sha512half store get_node fuel ledger_db seq info visit txns)
    (h' : LedgerRead sha512half store get_node fuel ledger_db seq' info' visit' txns') :
    ∃ d, diff get_node fuel info.account_hash info'.account_hash = .ok d ∧
      DiffOf store d visit visit' := by
  have hrounds := h.rounds
  have hrounds' := h'.rounds
  exact diff_diffOf h.tree h'.tree h.serves h'.serves (by omega)

/-! ## The export -/

theorem LedgerRead.exports_next (args : Args) (order : MapOrder) {old : LedgerInfo}
    (hlast : LedgerRead sha512half store get_node fuel ledger_db last old visit txns)
    (h : LedgerRead sha512half store get_node fuel ledger_db seq info visit' txns')
    (hprev : e.prev_account_hash = old.account_hash) :
    ∃ e', export_next sha512half args order get_node fuel ledger_db e seq = .ok e' ∧
      e'.prev_account_hash = info.account_hash := by
  obtain ⟨ledger_hash, hhash⟩ := h.verified
  obtain ⟨d, hd, -⟩ := hlast.diffOf h
  have hledger : ∃ e', export_ledger sha512half args order get_node fuel e seq info ledger_hash d =
      .ok e' := by
    unfold export_ledger
    by_cases hcase : seq - e.chunk_start = args.chunk_size
    · exact ⟨_, bind_eq_ok.mpr ⟨txns', h.collected, if_pos hcase⟩⟩
    · exact ⟨_, bind_eq_ok.mpr ⟨txns', h.collected, if_neg hcase⟩⟩
  obtain ⟨e', hledger⟩ := hledger
  rw [← hprev] at hd
  refine ⟨e', ?_, (export_ledger_ok hledger).2⟩
  exact bind_eq_ok.mpr ⟨info, h.row, bind_eq_ok.mpr ⟨ledger_hash, hhash,
    bind_eq_ok.mpr ⟨d, hd, hledger⟩⟩⟩

theorem RangeRead.exports_all (hread : RangeRead sha512half args store get_node fuel ledger_db)
    (n : Nat) (hstart : args.start ≤ last) (hle : last.toNat + n = args.end.toNat)
    (hrow : ledger_db.get last = .ok info) (hprev : e.prev_account_hash = info.account_hash) :
    ∃ e', ((List.range' (last.toNat + 1) n).map UInt32.ofNat).foldlM
      (export_next sha512half args order get_node fuel ledger_db) e = .ok e' := by
  induction n generalizing e last info with
  | zero => exact ⟨e, rfl⟩
  | succ n ih =>
    have hmax := args.end.toNat_lt
    have hnext : (last + 1).toNat = last.toNat + 1 := toNat_succ (by omega)
    rw [UInt32.le_iff_toNat_le] at hstart
    obtain ⟨old, visit, txns, hlast⟩ := hread last (UInt32.le_iff_toNat_le.mpr hstart)
      (UInt32.le_iff_toNat_le.mpr (by omega))
    obtain ⟨info', visit', txns', h⟩ := hread (last + 1) (UInt32.le_iff_toNat_le.mpr (by omega))
      (UInt32.le_iff_toNat_le.mpr (by omega))
    obtain rfl := Except.ok.inj (hrow.symm.trans hlast.row)
    obtain ⟨e₁, hrun, hprev₁⟩ := hlast.exports_next args order h hprev
    obtain ⟨e', hrest⟩ := ih (UInt32.le_iff_toNat_le.mpr (by omega)) (by omega) h.row hprev₁
    rw [List.range'_succ, List.map_cons, ← hnext, UInt32.ofNat_toNat]
    exact ⟨e', foldlM_cons_ok.mpr ⟨e₁, hrun, hrest⟩⟩

/-- The state tree of a ledger is not empty, and the first walk returns
    it. -/
theorem LedgerRead.collect
    (h : LedgerRead sha512half store get_node fuel ledger_db seq info visit txns)
    (hroot : info.account_hash ≠ ZERO_HASH) :
    ∃ nodes, collect_reachable get_node fuel info.account_hash = .ok nodes ∧
      Collected store nodes visit := by
  have hw : Walks store.refs [info.account_hash] visit := (h.tree.resolve_left fun hz => hroot hz.1).2
  have hrounds := h.rounds
  exact collect_reachable_ok hw h.serves h.once (by omega)

theorem LedgerRead.exports_start (hn : Named get_node)
    (h : LedgerRead sha512half store get_node fuel ledger_db args.start info visit txns)
    (hroot : info.account_hash ≠ ZERO_HASH) :
    ∃ e fuel₀, e.prev_account_hash = info.account_hash ∧ ∀ fuel' ≥ fuel₀,
      export_start sha512half args order get_node fuel' ledger_db concurrency = .ok e := by
  obtain ⟨ledger_hash, hhash⟩ := h.verified
  obtain ⟨nodes, hnodes, -⟩ := h.collect hroot
  -- The serial walk comes to its end, and so does the one at any other level.
  have hserial : ∃ e, export_start sha512half args order get_node fuel ledger_db 1 = .ok e ∧
      e.prev_account_hash = info.account_hash :=
    ⟨_, bind_eq_ok.mpr ⟨info, h.row, bind_eq_ok.mpr ⟨ledger_hash, hhash, bind_eq_ok.mpr ⟨nodes, hnodes,
      bind_eq_ok.mpr ⟨txns, h.collected, rfl⟩⟩⟩⟩, rfl⟩
  obtain ⟨e, hstart, hprev⟩ := hserial
  obtain ⟨fuel₀, hall⟩ := export_start_level order concurrency (Answers.refl get_node) hn hstart
  exact ⟨e, fuel₀, hprev, hall⟩

/-- A range that can be read is exported, with rounds enough. -/
theorem RangeRead.exports (hn : Named get_node)
    (hread : RangeRead sha512half args store get_node fuel ledger_db) (hrange : args.start < args.end)
    (hsize : args.chunk_size ≠ 0) (hf : NumbersFit args (batch_size concurrency))
    (hroot : ∀ info, ledger_db.get args.start = .ok info → info.account_hash ≠ ZERO_HASH) :
    ∃ fuel' ≥ fuel, ∃ files, export_main sha512half args order get_node fuel' ledger_db concurrency =
      .ok files := by
  have hrange' := UInt32.lt_iff_toNat_lt.mp hrange
  obtain ⟨info, visit, txns, hfirst⟩ := hread args.start (UInt32.le_refl _)
    (UInt32.le_of_lt hrange)
  obtain ⟨e, k', hprev, hstart⟩ := @LedgerRead.exports_start sha512half args order store _ fuel ledger_db
    concurrency info visit txns hn hfirst (hroot info hfirst.row)
  obtain ⟨e', hall⟩ := @RangeRead.exports_all sha512half args order _ _ _ _ e args.start info hread
    (args.end.toNat - args.start.toNat) (UInt32.le_refl _) (by omega) hfirst.row hprev
  have hstart := hstart (max fuel k') (le_max_right fuel k')
  have hcount : args.end.toNat + 1 - (args.start.toNat + 1) = args.end.toNat - args.start.toNat := by
    omega
  have hseqs : (batch_seqs (args.start + 1) args.end).foldlM (export_next sha512half args order
      get_node (max fuel k') ledger_db) e = .ok e' := by
    apply export_all_within order (Answers.refl _) (le_max_left fuel k') (export_start_keyed hstart)
    rw [batch_seqs, toNat_succ_of_lt hrange, hcount]
    exact hall
  obtain ⟨rounds, hmain⟩ := export_main_ends hf hrange hsize hstart hseqs
  refine ⟨max fuel rounds, le_max_left fuel rounds, e'.finish_chunk sha512half args, ?_⟩
  exact export_main_within (Answers.refl _) (le_max_right fuel rounds) concurrency _ hmain

/-- The export comes to its end, with lookups and rounds beyond any
    bound. -/
theorem Source.exports (hr : r.Holds xxh64 lz4 store) (h : Source sha512half args store ledger_db)
    (hrange : args.start < args.end) (hsize : args.chunk_size ≠ 0)
    (hf : NumbersFit args (batch_size concurrency))
    (hroot : ∀ info, ledger_db.get args.start = .ok info → info.account_hash ≠ ZERO_HASH)
    (bound : Nat) :
    ∃ fuel ≥ bound, ∃ files, export_main sha512half args order (r.get_node xxh64 lz4 fuel) fuel
      ledger_db concurrency = .ok files := by
  obtain ⟨k, hread⟩ := h.read hr
  have hread := hread (max k bound) (le_max_left k bound)
  have hn : Named (r.get_node xxh64 lz4 (max k bound)) := fun h n hget =>
    NuDBReader.get_node_hash hget
  obtain ⟨fuel, hle, files, hmain⟩ := @RangeRead.exports sha512half args order _ _ _ _ concurrency hn
    hread hrange hsize hf hroot
  refine ⟨fuel, le_trans (le_max_right k bound) hle, files, ?_⟩
  exact export_main_within (get_node_answers r hle) le_rfl concurrency _ hmain

/-! ## Rows outside the range -/

/-- The rows of the range. -/
def LedgerIndex.within (ledger_db : LedgerIndex) (args : Args) : LedgerIndex :=
  fun seq => if args.start ≤ seq ∧ seq ≤ args.end then ledger_db seq else none

theorem LedgerIndex.within_get :
    (ledger_db.within args).get seq = .ok info ↔
      (args.start ≤ seq ∧ seq ≤ args.end) ∧ ledger_db.get seq = .ok info := by
  unfold LedgerIndex.get LedgerIndex.within
  by_cases hin : args.start ≤ seq ∧ seq ≤ args.end
  · rw [if_pos hin]
    exact (and_iff_right hin).symm
  · rw [if_neg hin]
    constructor
    · intro h
      cases h
    · intro h
      exact absurd h.1 hin

theorem Source.within (h : Source sha512half args store ledger_db) :
    Source sha512half args store (ledger_db.within args) := by
  refine ⟨h.addressed, h.short, ?_, ?_⟩
  · intro seq hfirst hlast
    obtain ⟨info, visit, txns, hs⟩ := h.ledgers seq hfirst hlast
    exact ⟨info, visit, txns, LedgerIndex.within_get.mpr ⟨⟨hfirst, hlast⟩, hs.row⟩, hs.verified,
      hs.tree, hs.once, hs.stored_txns, hs.authentic, hs.tx_count⟩
  · intro seq old info hfirst hlast hold hinfo
    exact h.chained seq old info hfirst hlast (LedgerIndex.within_get.mp hold).2
      (LedgerIndex.within_get.mp hinfo).2

/-- An export finishes the same way when the database has more rows. -/
theorem export_main_rows {ledger_db' : LedgerIndex}
    (hrows : ∀ seq, Within (ledger_db.get seq) (ledger_db'.get seq)) :
    Within (export_main sha512half args order get_node fuel ledger_db concurrency)
      (export_main sha512half args order get_node fuel ledger_db' concurrency) := by
  have hnext : ∀ e seq, Within (export_next sha512half args order get_node fuel ledger_db e seq)
      (export_next sha512half args order get_node fuel ledger_db' e seq) := by
    intro e seq
    apply (hrows seq).bind
    intro info _
    exact Within.refl _
  have hloop : ∀ batch n seq e,
      Within (export_loop sha512half args order get_node fuel ledger_db batch n seq e)
        (export_loop sha512half args order get_node fuel ledger_db' batch n seq e) := by
    intro batch n
    induction n with
    | zero =>
      intro seq e
      exact Within.refl _
    | succ n ih =>
      intro seq e
      unfold export_loop
      by_cases hle : seq ≤ args.end
      · rw [if_pos hle, if_pos hle]
        refine Within.bind ?_ fun e _ => ih _ e
        intro e' h
        rw [export_batch_ok] at h ⊢
        exact within_foldlM (fun seq _ e => hnext e seq) e' h
      · rw [if_neg hle, if_neg hle]
        exact Within.refl _
  intro files h
  obtain ⟨hrange, hsize, e, e', hstart, hrun, hfiles⟩ := export_main_ok.mp h
  refine export_main_ok.mpr ⟨hrange, hsize, e, e', ?_, hloop _ _ _ _ _ hrun, hfiles⟩
  exact (hrows args.start).bind (fun info _ => Within.refl _) e hstart

end LedgerArchive
