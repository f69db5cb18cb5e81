import LedgerArchive.Import.Chain
import LedgerArchive.Import.TxDb
import LedgerArchive.Lib.Xxh64
import Mathlib.Data.List.Flatten

/-! # Overlapping chunks and `transaction.db`

    An import writes the ledgers of all its chunks, one after the other, to
    one transaction database. A transaction that comes again replaces its
    row in `Transactions`; in `AccountTransactions` its accounts are
    inserted again. The database is that of the ledgers imported once if and
    only if no two transactions of the chunks have an id and an account in
    common (`overlapping_chunks_iff`). -/

namespace LedgerArchive

open Lib

/-! ## Ids and accounts as text -/

theorem upper_digit_inj : ∀ a < 16, ∀ b < 16,
    (Nat.digitChar a).toUpper = (Nat.digitChar b).toUpper → a = b := by decide

theorem hex_encode_upper_inj {a b : Hash256} (h : hex_encode_upper a = hex_encode_upper b) :
    a = b := by
  have htext : ∀ h : Hash256, (hex_encode_upper h).toList = h.bytes.flatMap fun b =>
      [(Nat.digitChar (b.toNat / 16)).toUpper, (Nat.digitChar (b.toNat % 16)).toUpper] := by
    intro h
    unfold hex_encode_upper
    simp [String.toList_join, List.flatMap_map]
  have hpairs := congrArg String.toList h
  rw [htext, htext] at hpairs
  apply Hash256.bytes_inj
  generalize a.bytes = xs at hpairs
  generalize b.bytes = ys at hpairs
  induction xs generalizing ys with
  | nil =>
    cases ys with
    | nil => rfl
    | cons y ys => cases hpairs
  | cons x xs ih =>
    cases ys with
    | nil => cases hpairs
    | cons y ys =>
      rw [List.flatMap_cons, List.flatMap_cons, List.cons_append, List.cons_append,
        List.cons_append, List.cons_append, List.cons.injEq, List.cons.injEq] at hpairs
      obtain ⟨hhigh, hlow, hrest⟩ := hpairs
      have hx := x.toNat_lt
      have hy := y.toNat_lt
      have hdiv := upper_digit_inj _ (by omega) _ (by omega) hhigh
      have hmod := upper_digit_inj _ (by omega) _ (by omega) hlow
      have hxy : x = y := UInt8.toNat_inj.mp (by omega)
      rw [hxy, ih ys hrest]

/-! ## One history of all chunks -/

section Replay

variable {σ τ : Type} {S : NodeSink σ} {T : TxDb τ} {sha512half : Bytes → Hash256} {fuel : Nat}
  {verify : Bool}

theorem sink_nodes_txdb {nodes : List SHAMapNode} {out out' : Outputs σ τ}
    (h : sink_nodes S out nodes = .ok out') : out'.txdb = out.txdb := by
  refine foldlM_invariant (P := fun o => o.txdb = out.txdb) ?_ rfl h
  intro o n o' _ ho hsink
  unfold sink_node Outputs.write_node at hsink
  split at hsink
  · rw [← Except.ok.inj hsink]
    exact ho
  · obtain ⟨sink, -, hsink⟩ := bind_eq_ok.mp hsink
    rw [← pure_eq_ok.mp hsink]
    exact ho

theorem write_ledger_txdb {out out' : Outputs σ τ} {m : TxMap} {t : τ} (ht : out.txdb = some t)
    (h : out.write_ledger T m = .ok out') :
    ∃ t', out'.txdb = some t' ∧ T.write_ledger t m = .ok t' := by
  unfold Outputs.write_ledger at h
  rw [ht] at h
  obtain ⟨t', ht', h⟩ := bind_eq_ok.mp h
  rw [← pure_eq_ok.mp h]
  exact ⟨t', rfl, ht'⟩

/-- A round of the delta loop writes its ledger. -/
theorem ledger_step_txdb {r r' : Replay σ τ} {l : LedgerDelta × TxMap} {t : τ}
    (ht : r.out.txdb = some t) (h : ledger_step S T sha512half verify r l = .ok r') :
    ∃ t', r'.out.txdb = some t' ∧ T.write_ledger t l.2 = .ok t' := by
  unfold ledger_step apply_delta close_ledger at h
  simp only [bind_eq_ok, Prod.exists, insert_and_sink_ok, pure_eq_ok, Prod.mk.injEq] at h
  obtain ⟨state, out₁, ⟨-, -, s, o, ⟨-, hdelta⟩, -, -, rfl, rfl⟩, -, -, root, -, tx_hash, nodes, -,
    out₂, htxns, -, -, out₃, hwrite, rfl⟩ := h
  have ht₂ : out₂.txdb = some t := by
    rw [sink_nodes_txdb htxns, sink_nodes_txdb hdelta, ht]
  unfold write_ledger_outputs at hwrite
  rw [ht₂] at hwrite
  obtain ⟨out₄, hheader, hwrite⟩ := bind_eq_ok.mp hwrite
  have ht₄ : out₄.txdb = some t := by
    unfold Outputs.write_node at hheader
    obtain ⟨sink, -, hheader⟩ := bind_eq_ok.mp hheader
    rw [← pure_eq_ok.mp hheader]
    exact ht₂
  exact write_ledger_txdb ht₄ hwrite

theorem ledger_steps_txdb {ls : List (LedgerDelta × TxMap)} {r r' : Replay σ τ} {t : τ}
    (ht : r.out.txdb = some t) (h : ls.foldlM (ledger_step S T sha512half verify) r = .ok r') :
    ∃ t', r'.out.txdb = some t' ∧ (ls.map Prod.snd).foldlM T.write_ledger t = .ok t' := by
  induction ls generalizing r t with
  | nil =>
    rw [← foldlM_nil_ok.mp h]
    exact ⟨t, ht, rfl⟩
  | cons l ls ih =>
    obtain ⟨r₁, hstep, hrest⟩ := foldlM_cons_ok.mp h
    obtain ⟨t₁, ht₁, hwrite⟩ := ledger_step_txdb ht hstep
    obtain ⟨t', ht', hfold⟩ := ih ht₁ hrest
    exact ⟨t', ht', foldlM_cons_ok.mpr ⟨t₁, hwrite, hfold⟩⟩

/-- A replay writes the ledgers of its chunk, in order. -/
theorem Replays.txdb {chunk : Chunk} {out : Outputs σ τ} {res : ReplayResult × Outputs σ τ} {t : τ}
    (h : Replays S T sha512half verify out chunk res) (ht : out.txdb = some t) :
    ∃ t', res.2.txdb = some t' ∧ chunk.tx_maps.foldlM T.write_ledger t = .ok t' := by
  obtain ⟨hlength, fuel, cp, out₁, r₀, r₁, hsteps⟩ := h.steps
  have ht₁ : out₁.txdb = some t := by rw [sink_nodes_txdb hsteps.sunk, ht]
  obtain ⟨out₂, tx_hash, nodes, hwrite, -, hsunk, -⟩ := open_ledger_ok.mp hsteps.opened
  obtain ⟨t₂, ht₂, hfirst⟩ := write_ledger_txdb ht₁ hwrite
  have ht₀ : r₀.out.txdb = some t₂ := by rw [sink_nodes_txdb hsunk, ht₂]
  obtain ⟨t', ht', hrest⟩ := ledger_steps_txdb ht₀ hsteps.replayed
  have hmaps : chunk.tx_maps = cp :: chunk.ledgers.map Prod.snd := by
    have hhead := hsteps.first
    unfold Chunk.ledgers
    cases htx : chunk.tx_maps with
    | nil => rw [htx] at hhead; cases hhead
    | cons first later =>
      rw [htx] at hhead hlength
      rw [Option.some.inj hhead, List.tail_cons, List.map_snd_zip]
      rw [List.length_cons] at hlength
      omega
  refine ⟨t', ?_, ?_⟩
  · obtain ⟨-, -, hres⟩ := bind_eq_ok.mp hsteps.finished
    rw [← pure_eq_ok.mp hres]
    exact ht'
  · rw [hmaps]
    exact foldlM_cons_ok.mpr ⟨t₂, hfirst, hrest⟩

/-- An import writes the ledgers of all its chunks, in order. -/
theorem import_chunks_txdb {files : List Bytes} {acc res : List LedgerDbRow × Outputs σ τ} {t : τ}
    (ht : acc.2.txdb = some t)
    (h : files.foldlM (fun (acc : List LedgerDbRow × Outputs σ τ) file => do
      let (replay, out) ← import_chunk S T sha512half fuel verify file acc.2
      pure (acc.1 ++ replay.ledger_rows, out)) acc = .ok res) :
    ∃ chunks, List.Forall₂ (FileHolds sha512half) files chunks ∧ ∃ t', res.2.txdb = some t' ∧
      (chunks.flatMap Chunk.tx_maps).foldlM T.write_ledger t = .ok t' := by
  induction files generalizing acc t with
  | nil =>
    rw [← foldlM_nil_ok.mp h]
    exact ⟨[], .nil, t, ht, rfl⟩
  | cons file files ih =>
    obtain ⟨acc₁, hfile, hrest⟩ := foldlM_cons_ok.mp h
    obtain ⟨⟨replay, out⟩, himport, hacc⟩ := bind_eq_ok.mp hfile
    have hacc₁ := pure_eq_ok.mp hacc
    obtain ⟨chunk, hholds, hreplays⟩ := import_chunk_ok himport
    obtain ⟨t₁, ht₁, hfirst⟩ := hreplays.txdb ht
    obtain ⟨chunks, hchunks, t', ht', hothers⟩ := ih (by rw [← hacc₁]; exact ht₁) hrest
    refine ⟨chunk :: chunks, .cons hholds hchunks, t', ht', ?_⟩
    rw [List.flatMap_cons]
    exact foldlM_append_ok.mpr ⟨t₁, hfirst, hothers⟩

end Replay

/-! ## Each transaction once -/

theorem SameLedger.refl (m : TxMap) : SameLedger m m :=
  ⟨rfl, rfl, rfl, rfl, rfl, rfl, rfl, rfl, fun _ => Iff.rfl⟩

/-- The columns of `AccountTransactions` that say whose history a
    transaction is in. -/
def AccountTransaction.entry (r : AccountTransaction) : String × String := (r.trans_id, r.account)

/-- What the transaction database has to say of whose history a transaction
    is in. -/
def history_entries (sha256 : Bytes → Hash256) (t : TxRecord) : List (String × String) :=
  (affected_accounts t).map fun a =>
    (hex_encode_upper t.tx_hash, account_id_to_classic_address sha256 a)

/-- The database holds each transaction of the ledgers once, and once for
    each account, as it does when each of the ledgers is imported once. -/
structure HistoryOnce (sha256 : Bytes → Hash256) (tx_maps : List TxMap) (db : TransactionDb) :
    Prop where
  transactions : (db.transactions.rows.map Transaction.trans_id).Nodup
  transactions_of : ∀ id, id ∈ db.transactions.rows.map Transaction.trans_id ↔
    ∃ m ∈ tx_maps, ∃ t ∈ m.txns, hex_encode_upper t.tx_hash = id
  accounts : (db.account_transactions.map AccountTransaction.entry).Nodup
  accounts_of : ∀ e, e ∈ db.account_transactions.map AccountTransaction.entry ↔
    ∃ m ∈ tx_maps, ∃ t ∈ m.txns, e ∈ history_entries sha256 t
  same_rows : ∃ once : List TxMap, once ⊆ tx_maps ∧
    once.Pairwise (fun a b => ¬ SameLedger a b) ∧ (∀ m ∈ tx_maps, ∃ m' ∈ once, SameLedger m m') ∧
    ∃ db₁, once.foldlM (TxDbSink.write_ledger sha256) .fresh = .ok db₁ ∧
      db.transactions.rows.Perm db₁.transactions.rows ∧
      db.account_transactions.Perm db₁.account_transactions

/-- Two transactions of the chunks, or one that comes twice, with one id
    affect no account in common. -/
def DisjointHistory (tx_maps : List TxMap) : Prop :=
  (tx_maps.flatMap TxMap.txns).Pairwise fun t t' =>
    t.tx_hash = t'.tx_hash → (affected_accounts t).Disjoint (affected_accounts t')

variable {sha256 : Bytes → Hash256}

theorem mem_history_entries {t : TxRecord} {e : String × String} :
    e ∈ history_entries sha256 t ↔ ∃ a ∈ affected_accounts t,
      (hex_encode_upper t.tx_hash, account_id_to_classic_address sha256 a) = e := List.mem_map

theorem history_entries_nodup (t : TxRecord) : (history_entries sha256 t).Nodup := by
  apply List.Nodup.map _ (affected_accounts_nodup t)
  intro a b hab
  exact classic_address_inj (Prod.mk.inj hab).2

/-- Ids and addresses tell ids and accounts apart. -/
theorem history_entries_disjoint {t t' : TxRecord} :
    (history_entries sha256 t).Disjoint (history_entries sha256 t') ↔
      (t.tx_hash = t'.tx_hash → (affected_accounts t).Disjoint (affected_accounts t')) := by
  constructor
  · intro h hid a ha ha'
    refine h (mem_history_entries.mpr ⟨a, ha, rfl⟩) (mem_history_entries.mpr ⟨a, ha', ?_⟩)
    rw [hid]
  · intro h e he he'
    obtain ⟨a, ha, rfl⟩ := mem_history_entries.mp he
    obtain ⟨a', ha', heq⟩ := mem_history_entries.mp he'
    obtain ⟨hid, haccount⟩ := Prod.mk.inj heq
    have haa : a' = a := classic_address_inj haccount
    rw [haa] at ha'
    exact h (hex_encode_upper_inj hid.symm) ha ha'

theorem ledger_accounts_entries (tx_maps : List TxMap) :
    (tx_maps.flatMap (ledger_accounts sha256)).map AccountTransaction.entry =
      (tx_maps.flatMap TxMap.txns).flatMap (history_entries sha256) := by
  rw [List.map_flatMap, List.flatMap_assoc]
  congr 1
  funext m
  unfold ledger_accounts
  rw [List.map_flatMap]
  congr 1
  funext t
  unfold account_rows history_entries
  rw [List.map_map]
  rfl

/-- An account row comes once exactly when no history is shared. -/
theorem entries_nodup_iff {tx_maps : List TxMap} :
    ((tx_maps.flatMap (ledger_accounts sha256)).map AccountTransaction.entry).Nodup ↔
      DisjointHistory tx_maps := by
  rw [ledger_accounts_entries, List.nodup_flatMap]
  unfold DisjointHistory
  constructor
  · rintro ⟨-, hdisjoint⟩
    exact hdisjoint.imp history_entries_disjoint.mp
  · intro h
    exact ⟨fun t _ => history_entries_nodup t, h.imp history_entries_disjoint.mpr⟩

theorem DisjointHistory.sublist {once tx_maps : List TxMap} (h : DisjointHistory tx_maps)
    (hsub : once.Sublist tx_maps) : DisjointHistory once :=
  List.Pairwise.sublist (hsub.flatMap TxMap.txns) h

/-- Two lists of the same ledgers, neither of which shares a history, have
    the same account rows. -/
theorem ledger_accounts_perm {once tx_maps : List TxMap} (h : DisjointHistory tx_maps)
    (hsub : once.Sublist tx_maps) (hcovered : ∀ m ∈ tx_maps, ∃ m' ∈ once, SameLedger m m') :
    (tx_maps.flatMap (ledger_accounts sha256)).Perm (once.flatMap (ledger_accounts sha256)) := by
  have hall := List.Nodup.of_map _ ((@entries_nodup_iff sha256 _).mpr h)
  have honce := List.Nodup.of_map _ ((@entries_nodup_iff sha256 _).mpr (h.sublist hsub))
  apply (List.perm_ext_iff_of_nodup hall honce).mpr
  intro r
  rw [List.mem_flatMap, List.mem_flatMap]
  constructor
  · rintro ⟨m, hm, hr⟩
    obtain ⟨m', hm', hsame⟩ := hcovered m hm
    obtain ⟨t, ht, hr⟩ := List.mem_flatMap.mp hr
    refine ⟨m', hm', List.mem_flatMap.mpr ⟨t, (hsame.txns t).mp ht, ?_⟩⟩
    rw [← hsame.ledger_seq]
    exact hr
  · rintro ⟨m, hm, hr⟩
    exact ⟨m, hsub.subset hm, hr⟩

theorem transaction_of_ok {seq : UInt32} {t : TxRecord} {rows : TransactionRows}
    (h : transaction_rows sha256 seq t = .ok rows) : transaction_of sha256 seq t = some rows.1 := by
  unfold transaction_of
  rw [h]
  rfl

theorem ledger_transactions_ids {m : TxMap} (hm : Decodable sha256 m) :
    (ledger_transactions sha256 m).map Transaction.trans_id =
      m.txns.map fun t => hex_encode_upper t.tx_hash := by
  unfold ledger_transactions
  rw [List.map_filterMap, ← List.filterMap_eq_map]
  apply List.filterMap_congr
  intro t ht
  obtain ⟨rows, hrows⟩ := hm t ht
  rw [transaction_of_ok hrows, Option.map_some, (transaction_rows_ok hrows).1]
  rfl

theorem same_ledger_keys {m m' : TxMap} (h : SameLedger m m') :
    (ledger_transactions sha256 m).map Transaction.trans_id ⊆
      (ledger_transactions sha256 m').map Transaction.trans_id := by
  apply List.map_subset
  intro r hr
  obtain ⟨t, ht, hr⟩ := List.mem_filterMap.mp hr
  rw [h.ledger_seq] at hr
  exact List.mem_filterMap.mpr ⟨t, (h.txns t).mp ht, hr⟩

/-- The transactions of the ledgers are those of the rows. -/
theorem TxDbSink.Holds.transaction_ids {tx_maps : List TxMap} {db : TxDbSink}
    (h : TxDbSink.Holds sha256 tx_maps .fresh db) (id : String) :
    id ∈ db.transactions.rows.map Transaction.trans_id ↔
      ∃ m ∈ tx_maps, ∃ t ∈ m.txns, hex_encode_upper t.tx_hash = id := by
  rw [h.transactions, Table.key_mem_foldl_replace, List.map_flatMap, List.mem_flatMap]
  have hids : ∀ m ∈ tx_maps, (id ∈ (ledger_transactions sha256 m).map Transaction.trans_id ↔
      ∃ t ∈ m.txns, hex_encode_upper t.tx_hash = id) := by
    intro m hm
    rw [ledger_transactions_ids (h.decodable m hm), List.mem_map]
  constructor
  · rintro (hnone | ⟨m, hm, hid⟩)
    · exact absurd hnone List.not_mem_nil
    · exact ⟨m, hm, (hids m hm).mp hid⟩
  · rintro ⟨m, hm, hid⟩
    exact .inr ⟨m, hm, (hids m hm).mpr hid⟩

/-- The rows of a list of ledgers without a shared history are those of the
    ledgers taken once. -/
theorem TxDbSink.Holds.same_rows {tx_maps : List TxMap} {db : TxDbSink}
    (h : TxDbSink.Holds sha256 tx_maps .fresh db) (hd : DisjointHistory tx_maps) :
    ∃ once : List TxMap, once ⊆ tx_maps ∧ once.Pairwise (fun a b => ¬ SameLedger a b) ∧
      (∀ m ∈ tx_maps, ∃ m' ∈ once, SameLedger m m') ∧
      ∃ db₁, once.foldlM (TxDbSink.write_ledger sha256) .fresh = .ok db₁ ∧
        db.transactions.rows.Perm db₁.transactions.rows ∧
        db.account_transactions.Perm db₁.account_transactions := by
  obtain ⟨once, hsub, hdistinct, hcovered, hsame⟩ := @Table.exists_representatives _ _
    Transaction.trans_id _ _ SameLedger (ledger_transactions sha256) SameLedger.refl
    (fun _ _ => same_ledger_keys) tx_maps
  obtain ⟨db₁, hdb₁⟩ := write_ledgers_exists (fun m hm => h.decodable m (hsub.subset hm)) .fresh
  have honce := write_ledgers_ok hdb₁
  refine ⟨once, hsub.subset, hdistinct, hcovered, db₁, hdb₁, ?_, ?_⟩
  · apply Table.perm_of_mem
    intro r
    rw [h.transactions, honce.transactions]
    exact hsame _ r
  · rw [h.accounts, honce.accounts]
    exact ledger_accounts_perm hd hsub hcovered

theorem TxDbSink.Holds.history_once_iff {tx_maps : List TxMap} {db : TxDbSink}
    (h : TxDbSink.Holds sha256 tx_maps .fresh db) :
    HistoryOnce sha256 tx_maps db.finish ↔ DisjointHistory tx_maps := by
  have haccounts : db.account_transactions = tx_maps.flatMap (ledger_accounts sha256) := h.accounts
  constructor
  · intro ho
    have hentries : (db.account_transactions.map AccountTransaction.entry).Nodup := ho.accounts
    rw [haccounts] at hentries
    exact entries_nodup_iff.mp hentries
  · intro hd
    refine ⟨db.transactions.primary, h.transaction_ids, ?_, ?_, h.same_rows hd⟩
    · show (db.account_transactions.map AccountTransaction.entry).Nodup
      rw [haccounts]
      exact entries_nodup_iff.mpr hd
    · intro e
      show e ∈ db.account_transactions.map AccountTransaction.entry ↔ _
      rw [haccounts, ledger_accounts_entries]
      simp only [List.mem_flatMap]
      constructor
      · rintro ⟨t, ⟨m, hm, ht⟩, he⟩
        exact ⟨m, hm, t, ht, he⟩
      · rintro ⟨m, hm, t, ht, he⟩
        exact ⟨t, ⟨m, hm, ht⟩, he⟩

/-- An import with a transaction database has written the ledgers of the
    chunks to it. -/
theorem import_main_txdb_ok {xxh64 : Bytes → UInt64 → UInt64} {sha512half : Bytes → Hash256}
    {fuel : Nat} {verify exists_ : Bool} {dest : String} {files : List Bytes}
    {rows : List LedgerDbRow} {store : Bytes × Bytes} {db : TransactionDb}
    (h : import_main_txdb sha256 xxh64 sha512half fuel verify exists_ dest files =
      .ok (rows, store, db)) :
    ∃ chunks, List.Forall₂ (FileHolds sha512half) files chunks ∧ ∃ sink : TxDbSink,
      TxDbSink.Holds sha256 (chunks.flatMap Chunk.tx_maps) .fresh sink ∧ db = sink.finish := by
  obtain ⟨txdb, hcreate, h⟩ := bind_eq_ok.mp h
  obtain ⟨⟨rows', out⟩, himport, h⟩ := bind_eq_ok.mp h
  obtain ⟨sink, hsink, h⟩ := bind_eq_ok.mp h
  obtain ⟨-, hfresh⟩ := bail_if_bind_ok.mp hcreate
  have htxdb := pure_eq_ok.mp hfresh
  have hdb := (Prod.mk.inj (Prod.mk.inj (pure_eq_ok.mp h)).2).2
  obtain ⟨chunks, hholds, t, ht, hfold⟩ := import_chunks_txdb rfl himport
  have hlast : t = sink := Option.some.inj (ht.symm.trans (ok_or_eq_ok.mp hsink))
  rw [← htxdb, hlast] at hfold
  exact ⟨chunks, hholds, sink, write_ledgers_ok hfold, hdb.symm⟩

/-- The database of an import holds each transaction once, as an import of
    each ledger once does, if and only if no two transactions of the chunks
    have an id and an account in common. -/
theorem overlapping_chunks_iff {xxh64 : Bytes → UInt64 → UInt64} {sha512half : Bytes → Hash256}
    {fuel : Nat} {verify exists_ : Bool} {dest : String} {files : List Bytes}
    {rows : List LedgerDbRow} {store : Bytes × Bytes} {db : TransactionDb}
    (h : import_main_txdb sha256 xxh64 sha512half fuel verify exists_ dest files =
      .ok (rows, store, db)) :
    ∃ chunks, List.Forall₂ (FileHolds sha512half) files chunks ∧
      (HistoryOnce sha256 (chunks.flatMap Chunk.tx_maps) db ↔
        DisjointHistory (chunks.flatMap Chunk.tx_maps)) := by
  obtain ⟨chunks, hholds, sink, hsink, rfl⟩ := import_main_txdb_ok h
  exact ⟨chunks, hholds, hsink.history_once_iff⟩

/-- Ledger 7, with one account and its payment. -/
def paid_chunk : Chunk :=
  { network_id := 1, start_ledger := 7, end_ledger := 7, checkpoint_hash := ZERO_HASH,
    chunk_hash := ZERO_HASH, checkpoint := [lone_account], deltas := []
    tx_maps := [payment_ledger lone_account.hash nine_meta] }

def paid_file : Bytes := (paid_chunk.write_stream.finish sha2_sha512half).2

def paid_import (files : List Bytes) :
    Except Error (List LedgerDbRow × (Bytes × Bytes) × TransactionDb) :=
  import_main_txdb sha2_sha256 Xxh64.digest sha2_sha512half 3 true false "transaction.db" files

theorem paid_file_accepted : (paid_import [paid_file]).toOption.isSome = true := by
  decide +kernel

theorem paid_file_twice_rows : (paid_import [paid_file, paid_file]).toOption.map (fun r =>
    decide (r.2.2.account_transactions.map AccountTransaction.entry).Nodup) = some false := by
  decide +kernel

/-- The file given twice. -/
theorem overlapping_chunks_paid : ∃ rows store db,
    paid_import [paid_file, paid_file] = .ok (rows, store, db) ∧
      ∃ chunks, List.Forall₂ (FileHolds sha2_sha512half) [paid_file, paid_file] chunks ∧
        (HistoryOnce sha2_sha256 (chunks.flatMap Chunk.tx_maps) db ↔
          DisjointHistory (chunks.flatMap Chunk.tx_maps)) := by
  obtain ⟨⟨rows, store, db⟩, hok, -⟩ := Option.map_eq_some_iff.mp paid_file_twice_rows
  have hok := toOption_eq_some.mp hok
  exact ⟨rows, store, db, hok, overlapping_chunks_iff hok⟩

/-- The payment is in the history of its account twice. -/
theorem paid_file_twice : ∃ rows store db,
    paid_import [paid_file, paid_file] = .ok (rows, store, db) ∧
      ∀ tx_maps, ¬ HistoryOnce sha2_sha256 tx_maps db := by
  obtain ⟨⟨rows, store, db⟩, hok, hrows⟩ := Option.map_eq_some_iff.mp paid_file_twice_rows
  refine ⟨rows, store, db, toOption_eq_some.mp hok, fun tx_maps h => ?_⟩
  exact of_decide_eq_false hrows h.accounts

end LedgerArchive
