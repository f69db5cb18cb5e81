import LedgerArchive.Common.Address
import LedgerArchive.Common.TxFields
import LedgerArchive.Common.TxTypes
import LedgerArchive.Import.Main
import LedgerArchive.Index.Exact

/-! # The transaction database (`xrla-import/src/txdb.rs`)

    `TxDbSink` writes xrpld's `transaction.db`: one row for each transaction,
    which replaces the row of an earlier one with the same id, and one row
    for each account a transaction affected, in a table without a key. -/

namespace LedgerArchive

open Lib

/-! ## The tables -/

/-- A row of `Transactions`, with `TransID` as its primary key. -/
structure Transaction where
  trans_id : String
  trans_type : String
  from_acct : String
  from_seq : UInt32
  ledger_seq : UInt32
  status : String
  raw_txn : Bytes
  txn_meta : Bytes
  deriving DecidableEq

/-- A row of `AccountTransactions`. `txn_seq` may be `NULL`. -/
structure AccountTransaction where
  trans_id : String
  account : String
  ledger_seq : UInt32
  txn_seq : Option UInt32
  deriving DecidableEq

structure TxDbSink where
  transactions : Table Transaction.trans_id
  account_transactions : List AccountTransaction
  rows_tx : Nat
  rows_acct : Nat

/-- What one transaction adds to the two tables. -/
abbrev TransactionRows := Transaction × List AccountTransaction

/-! ## Writing -/

/-- The tables as they are created. -/
def TxDbSink.fresh : TxDbSink :=
  { transactions := Table.empty, account_transactions := [], rows_tx := 0, rows_acct := 0 }

/-- Refuses an existing destination. -/
def TxDbSink.create (exists_ : Bool) (dest : String) : Except Error TxDbSink := do
  bail_if (exists_ = true) (.bail s!"{dest} already exists; refusing to overwrite or merge")
  pure .fresh

variable (sha256 : Bytes → Hash256)

/-- What the loop of `write_ledger` inserts for a transaction. Any
    transaction that cannot be decoded is an error. -/
def transaction_rows (seq : UInt32) (tx : TxRecord) :
    Except Error TransactionRows := do
  let id := hex_encode_upper tx.tx_hash
  let f ← with_context s!"ledger {seq} tx {id}: transaction fields" (parse_tx_fields tx.tx_blob)
  let name ← ok_or (tx_type_name f.tx_type)
    (.bail s!"ledger {seq} tx {id}: unknown transaction type {f.tx_type}")
  let s ← with_context s!"ledger {seq} tx {id}: metadata" (summarize_meta tx.meta_blob)
  pure ({ trans_id := id, trans_type := name,
          from_acct := account_id_to_classic_address sha256 f.account, from_seq := f.sequence,
          ledger_seq := seq, status := "V", raw_txn := tx.tx_blob, txn_meta := tx.meta_blob },
    s.affected_accounts.map fun a =>
      { trans_id := id, account := account_id_to_classic_address sha256 a, ledger_seq := seq,
        txn_seq := s.transaction_index })

/-- `INSERT OR REPLACE` for the transaction, `INSERT` for its accounts. -/
def TxDbSink.insert (db : TxDbSink) (rows : TransactionRows) : TxDbSink :=
  { transactions := db.transactions.replace rows.1,
    account_transactions := db.account_transactions ++ rows.2,
    rows_tx := db.rows_tx + 1, rows_acct := db.rows_acct + rows.2.length }

def TxDbSink.write_ledger (db : TxDbSink) (m : TxMap) : Except Error TxDbSink :=
  m.txns.foldlM (fun (db : TxDbSink) tx => do
    let rows ← transaction_rows sha256 m.ledger_seq tx
    pure (db.insert rows)) db

def TxDbSink.tx_db : TxDb TxDbSink := ⟨TxDbSink.write_ledger sha256⟩

/-- The published file: `COMMIT`, the indexes, and the rename. -/
structure TransactionDb where
  transactions : Table Transaction.trans_id
  account_transactions : List AccountTransaction

def TxDbSink.finish (db : TxDbSink) : TransactionDb :=
  { transactions := db.transactions, account_transactions := db.account_transactions }

/-- An import into a fresh store with `--txdb`: the rows for `ledger.db`, the
    `.dat` and `.key` files, and `transaction.db`. -/
def import_main_txdb (xxh64 : Bytes → UInt64 → UInt64) (sha512half : Bytes → Hash256) (fuel : Nat)
    (verify exists_ : Bool) (dest : String) (files : List Bytes) :
    Except Error (List LedgerDbRow × (Bytes × Bytes) × TransactionDb) := do
  let txdb ← TxDbSink.create exists_ dest
  let (rows, out) ← import_chunks (NuDbSink.node_sink xxh64) (TxDbSink.tx_db sha256) sha512half fuel
    verify files { sink := NuDbSink.create, txdb := some txdb, calls := [] }
  let txdb ← ok_or out.txdb .panic
  pure (rows, out.sink.finish xxh64, txdb.finish)

/-! ## What a ledger adds -/

/-- The rows of a transaction in `AccountTransactions`. -/
def account_rows (seq : UInt32) (tx : TxRecord) : List AccountTransaction :=
  (affected_accounts tx).map fun a =>
    { trans_id := hex_encode_upper tx.tx_hash, account := account_id_to_classic_address sha256 a,
      ledger_seq := seq, txn_seq := tx_index tx }

variable {sha256}

theorem transaction_rows_ok {seq : UInt32} {tx : TxRecord}
    {rows : TransactionRows}
    (h : transaction_rows sha256 seq tx = .ok rows) :
    rows.1.trans_id = hex_encode_upper tx.tx_hash ∧ rows.2 = account_rows sha256 seq tx ∧
      ∃ summary, summarize_meta tx.meta_blob = .ok summary := by
  unfold transaction_rows at h
  obtain ⟨f, -, h⟩ := bind_eq_ok.mp h
  obtain ⟨name, -, h⟩ := bind_eq_ok.mp h
  obtain ⟨summary, hsummary, h⟩ := bind_eq_ok.mp h
  rw [with_context_eq_ok] at hsummary
  rw [← pure_eq_ok.mp h]
  refine ⟨rfl, ?_, summary, hsummary⟩
  unfold account_rows affected_accounts tx_index
  rw [hsummary]

theorem foldl_insert (rows : List TransactionRows) (db : TxDbSink) :
    (rows.foldl TxDbSink.insert db).transactions =
        (rows.map Prod.fst).foldl Table.replace db.transactions ∧
      (rows.foldl TxDbSink.insert db).account_transactions =
        db.account_transactions ++ rows.flatMap Prod.snd := by
  induction rows generalizing db with
  | nil => exact ⟨rfl, (List.append_nil _).symm⟩
  | cons r rows ih =>
    obtain ⟨htransactions, haccounts⟩ := ih (db.insert r)
    refine ⟨htransactions, ?_⟩
    rw [List.foldl_cons, haccounts, List.flatMap_cons, ← List.append_assoc]
    rfl

/-- The row of a transaction in `Transactions`, if it can be decoded. -/
def transaction_of (sha256 : Bytes → Hash256) (seq : UInt32) (tx : TxRecord) : Option Transaction :=
  (transaction_rows sha256 seq tx).toOption.map Prod.fst

def ledger_transactions (sha256 : Bytes → Hash256) (m : TxMap) : List Transaction :=
  m.txns.filterMap (transaction_of sha256 m.ledger_seq)

def ledger_accounts (sha256 : Bytes → Hash256) (m : TxMap) : List AccountTransaction :=
  m.txns.flatMap (account_rows sha256 m.ledger_seq)

/-- Every transaction of the ledger can be decoded. -/
def Decodable (sha256 : Bytes → Hash256) (m : TxMap) : Prop :=
  ∀ t ∈ m.txns, ∃ rows, transaction_rows sha256 m.ledger_seq t = .ok rows

theorem decoded_rows {seq : UInt32} {txns : List TxRecord} {rows : List TransactionRows}
    (h : txns.map (transaction_rows sha256 seq) = rows.map .ok) :
    rows.map Prod.fst = txns.filterMap (transaction_of sha256 seq) ∧
      rows.flatMap Prod.snd = txns.flatMap (account_rows sha256 seq) := by
  induction txns generalizing rows with
  | nil =>
    rw [List.map_eq_nil_iff.mp h.symm]
    exact ⟨rfl, rfl⟩
  | cons t txns ih =>
    cases rows with
    | nil => cases h
    | cons r rows =>
      rw [List.map_cons, List.map_cons, List.cons.injEq] at h
      obtain ⟨htransactions, haccounts⟩ := ih h.2
      have hr : transaction_of sha256 seq t = some r.1 := by
        unfold transaction_of
        rw [h.1]
        rfl
      refine ⟨?_, ?_⟩
      · rw [List.map_cons, htransactions, List.filterMap_cons, hr]
      · rw [List.flatMap_cons, List.flatMap_cons, haccounts, (transaction_rows_ok h.1).2.1]

/-- `db'` is `db` with the rows of the ledgers. -/
structure TxDbSink.Holds (sha256 : Bytes → Hash256) (tx_maps : List TxMap) (db db' : TxDbSink) :
    Prop where
  decodable : ∀ m ∈ tx_maps, Decodable sha256 m
  transactions : db'.transactions =
    (tx_maps.flatMap (ledger_transactions sha256)).foldl Table.replace db.transactions
  accounts : db'.account_transactions =
    db.account_transactions ++ tx_maps.flatMap (ledger_accounts sha256)

theorem write_ledger_ok {m : TxMap} {db db' : TxDbSink} (h : db.write_ledger sha256 m = .ok db') :
    TxDbSink.Holds sha256 [m] db db' := by
  obtain ⟨rows, hrows, rfl⟩ := foldlM_take_in_ok.mp h
  obtain ⟨htransactions, haccounts⟩ := decoded_rows hrows
  obtain ⟨hinserted, happended⟩ := foldl_insert rows db
  refine ⟨?_, ?_, ?_⟩
  · intro m' hm' t ht
    rw [List.mem_singleton.mp hm'] at ht ⊢
    have hmem : transaction_rows sha256 m.ledger_seq t ∈ rows.map Except.ok :=
      hrows ▸ List.mem_map_of_mem ht
    obtain ⟨r, -, hr⟩ := List.mem_map.mp hmem
    exact ⟨r, hr.symm⟩
  · rw [hinserted, htransactions, List.flatMap_singleton]
    rfl
  · rw [happended, haccounts, List.flatMap_singleton]
    rfl

/-- The writer takes a ledger whose transactions can be decoded. -/
theorem write_ledger_exists {m : TxMap} (h : Decodable sha256 m) (db : TxDbSink) :
    ∃ db', db.write_ledger sha256 m = .ok db' := by
  apply foldlM_exists_ok
  intro t ht db
  obtain ⟨rows, hrows⟩ := h t ht
  exact ⟨_, bind_eq_ok.mpr ⟨rows, hrows, rfl⟩⟩

/-- Any number of ledgers, one after the other. -/
theorem write_ledgers_ok {tx_maps : List TxMap} {db db' : TxDbSink}
    (h : tx_maps.foldlM (TxDbSink.write_ledger sha256) db = .ok db') :
    TxDbSink.Holds sha256 tx_maps db db' := by
  induction tx_maps generalizing db with
  | nil =>
    rw [← foldlM_nil_ok.mp h]
    exact ⟨List.forall_mem_nil _, rfl, (List.append_nil _).symm⟩
  | cons m tx_maps ih =>
    obtain ⟨db₁, hm, hrest⟩ := foldlM_cons_ok.mp h
    have hfirst := write_ledger_ok hm
    have hothers := ih hrest
    refine ⟨List.forall_mem_cons.mpr ⟨?_, hothers.decodable⟩, ?_, ?_⟩
    · exact hfirst.decodable m (List.mem_singleton_self m)
    · rw [hothers.transactions, hfirst.transactions, List.flatMap_singleton, List.flatMap_cons,
        List.foldl_append]
    · rw [hothers.accounts, hfirst.accounts, List.flatMap_singleton, List.flatMap_cons,
        List.append_assoc]

theorem write_ledgers_exists {tx_maps : List TxMap} (h : ∀ m ∈ tx_maps, Decodable sha256 m)
    (db : TxDbSink) : ∃ db', tx_maps.foldlM (TxDbSink.write_ledger sha256) db = .ok db' :=
  foldlM_exists_ok fun m hm db => write_ledger_exists (h m hm) db

/-- A payment of account 9. -/
def nine_blob : Bytes :=
  [0x12, 0, 0, 0x24, 0, 0, 0, 1, 0x81, 20] ++ List.replicate 20 9

/-- Ledger 7 with that payment. -/
def payment_ledger (account_hash : Hash256) (meta_blob : Bytes) : TxMap :=
  { empty_tx_map 7 ZERO_HASH account_hash with
    txns := [⟨calculate_tx_id sha2_sha512half nine_blob, nine_blob, meta_blob⟩] }

end LedgerArchive
