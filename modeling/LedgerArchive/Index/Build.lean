import LedgerArchive.Common.MetaDecode
import LedgerArchive.Common.Serialize
import LedgerArchive.Common.TxTree
import LedgerArchive.Lib.Table
import Mathlib.Data.Prod.Lex

/-! # The account index of a chunk (`xrla-index`)

    `build_index` streams a v3 chunk once and writes two tables: the
    transactions of each affected account, and where each transaction is.
    The numbers of transactions within a ledger come from the metadata. -/

namespace LedgerArchive

open Lib

/-! ## The tables (`schema.rs`) -/

def SCHEMA_VERSION : UInt32 := 1
def RULE_ID : String := "xrpld-getAffectedAccounts/1"

/-- A row of `account_tx`. -/
structure AccountTx where
  account_id : AccountID
  ledger_seq : UInt32
  txn_seq : UInt32
  tx_hash : Hash256
  deriving DecidableEq

/-- `PRIMARY KEY (account_id, ledger_seq, txn_seq)`. -/
def AccountTx.key (r : AccountTx) : AccountID × UInt32 × UInt32 :=
  (r.account_id, r.ledger_seq, r.txn_seq)

/-- A row of `tx_locator`, with `tx_hash` as its primary key. -/
structure TxLocator where
  tx_hash : Hash256
  ledger_seq : UInt32
  txn_seq : UInt32
  deriving DecidableEq

/-- The file of an index. `info` is the table `meta`. -/
structure IndexFile where
  info : Table (Prod.fst : String × String → String)
  account_tx : Table AccountTx.key
  tx_locator : Table TxLocator.tx_hash

/-! ## Building (`build.rs`) -/

structure BuildReport where
  network_id : UInt32
  start_ledger : UInt32
  end_ledger : UInt32
  chunk_hash : Hash256
  ledgers : UInt32
  transactions : Nat
  rows : Nat
  deriving DecidableEq

structure Sink where
  acct : Table AccountTx.key
  loc : Table TxLocator.tx_hash
  start_ledger : UInt32
  ledgers : UInt32
  txs : Nat
  rows : Nat
  indices : List UInt32

def Sink.new (start_ledger : UInt32) : Sink :=
  { acct := Table.empty, loc := Table.empty, start_ledger, ledgers := 0, txs := 0, rows := 0,
    indices := [] }

/-- `hex::encode_upper`. -/
def hex_encode_upper (h : Hash256) : String :=
  String.join (h.bytes.map fun b =>
    let digit (n : Nat) : String := (Nat.digitChar n).toUpper.toString
    digit (b.toNat / 16) ++ digit (b.toNat % 16))

/-- The error of an `INSERT` whose key is there. -/
def unique_failed (columns : String) : Error := .bail s!"UNIQUE constraint failed: {columns}"

variable (sha512half : Bytes → Hash256)

/-- The rows of one transaction's affected accounts. -/
def index_accounts (seq n : UInt32) (t : TxRecord) (accounts : List AccountID) (s : Sink) :
    Except Error Sink :=
  accounts.foldlM (fun (s : Sink) account => do
    let acct ← ok_or (s.acct.insert { account_id := account, ledger_seq := seq, txn_seq := n,
                                      tx_hash := t.tx_hash })
      (.context (s!"ledger {seq}, transaction {hex_encode_upper t.tx_hash}: duplicate " ++
          "(account, ledger, TransactionIndex)")
        (unique_failed "account_tx.account_id, account_tx.ledger_seq, account_tx.txn_seq"))
    pure { s with acct, rows := s.rows + 1 }) s

/-- One transaction of `index_ledger`. -/
def index_transaction (seq : UInt32) (s : Sink) (t : TxRecord) : Except Error Sink := do
  let id := hex_encode_upper t.tx_hash
  bail_if (calculate_tx_id sha512half t.tx_blob ≠ t.tx_hash)
    (.bail s!"ledger {seq}: transaction {id} does not hash to its recorded id — corrupt chunk")
  let summary ← with_context s!"ledger {seq}, transaction {id}" (summarize_meta t.meta_blob)
  let n ← ok_or summary.transaction_index
    (.bail s!"ledger {seq}, transaction {id}: metadata has no TransactionIndex")
  let s := { s with indices := s.indices ++ [n] }
  let s ← index_accounts seq n t summary.affected_accounts s
  let loc ← ok_or (s.loc.insert { tx_hash := t.tx_hash, ledger_seq := seq, txn_seq := n })
    (unique_failed "tx_locator.tx_hash")
  pure { s with loc, txs := s.txs + 1 }

/-- The numbers, sorted, are `0..n`. -/
def check_indices (seq : UInt32) (indices : List UInt32) : Except Error Unit :=
  (indices.insertionSort fun a b => a.toNat ≤ b.toNat).zipIdx.forM fun (n, i) =>
    bail_if (n.toNat ≠ i)
      (.bail (s!"ledger {seq}: TransactionIndex values are not exactly 0..{indices.length} " ++
        s!"(found {n} at position {i})"))

def index_ledger (s : Sink) (tx_map : TxMap) : Except Error Sink := do
  let seq := tx_map.ledger_seq
  let expected := s.start_ledger + s.ledgers
  bail_if (seq ≠ expected) (.bail s!"ledgers out of order: expected {expected}, found {seq}")
  let s ← tx_map.txns.foldlM (index_transaction sha512half seq) { s with indices := [] }
  check_indices seq s.indices
  pure { s with ledgers := s.ledgers + 1 }

/-- The rows of `meta`. The last one is what a reader asks for first. -/
def index_info (r : BuildReport) : Table (Prod.fst : String × String → String) where
  rows := [("schema_version", toString SCHEMA_VERSION.toNat), ("rule_id", RULE_ID),
    ("network_id", toString r.network_id.toNat), ("start_ledger", toString r.start_ledger.toNat),
    ("end_ledger", toString r.end_ledger.toNat), ("chunk_hash", hex_encode_upper r.chunk_hash),
    ("ledgers", toString r.ledgers.toNat), ("transactions", toString r.transactions),
    ("rows", toString r.rows), ("complete", "1")]
  primary := by
    show ["schema_version", "rule_id", "network_id", "start_ledger", "end_ledger", "chunk_hash",
      "ledgers", "transactions", "rows", "complete"].Nodup
    decide

/-- `build_index`, from the bytes of the chunk file to the file that is
    renamed to its final name. `exists_` says that this name is taken. -/
def build_index (exists_ force : Bool) (chunk_path out_path : String) (file : Bytes) :
    Except Error (IndexFile × BuildReport) := do
  bail_if (exists_ = true ∧ force = false)
    (.bail s!"{out_path} already exists (use --force to replace it)")
  let reader ← with_context s!"opening chunk {chunk_path}" (ChunkReader.open file)
  let header := reader.header
  let total_ledgers := header.end_ledger - header.start_ledger + 1
  let (_, reader) ← reader.read_checkpoint (fun (u : Unit) _ => u) ()
  let (cp, reader) ← reader.read_checkpoint_tx_map
  let s ← index_ledger sha512half (Sink.new header.start_ledger) cp
  let (s, reader) ← reader.for_each_delta (fun s _ tx_map => index_ledger sha512half s tx_map)
    (reader.deltas_remaining + 1) s
  bail_if (s.ledgers ≠ total_ledgers)
    (.bail s!"chunk header says {total_ledgers} ledgers but {s.ledgers} were present")
  with_context "chunk hash verification failed — no index was written" (reader.finish sha512half)
  let report : BuildReport :=
    { network_id := header.network_id, start_ledger := header.start_ledger,
      end_ledger := header.end_ledger, chunk_hash := header.stored_chunk_hash,
      ledgers := s.ledgers, transactions := s.txs, rows := s.rows }
  pure ({ info := index_info report, account_tx := s.acct, tx_locator := s.loc }, report)

/-! ## Queries (`query.rs`) -/

structure IndexMeta where
  network_id : UInt32
  start_ledger : UInt32
  end_ledger : UInt32
  chunk_hash : String
  ledgers : Nat
  transactions : Nat
  rows : Nat
  rule_id : String
  deriving DecidableEq

/-- Where the previous page stopped. -/
structure Marker where
  ledger_seq : UInt32
  txn_seq : UInt32
  deriving DecidableEq

structure AccountTxRow where
  ledger_seq : UInt32
  txn_seq : UInt32
  tx_hash : Hash256
  deriving DecidableEq

structure Index where
  file : IndexFile
  info : IndexMeta

namespace Index

/-- The value of a key of the table `meta`. -/
def get (path : String) (file : IndexFile) (k : String) : Except Error String :=
  ok_or (file.info.rows.lookup k) (.bail s!"index {path} is missing `{k}`")

def num (path : String) (file : IndexFile) (k : String) : Except Error Nat := do
  let value ← get path file k
  ok_or value.toNat? (.context s!"index meta `{k}` is not a number" (.bail "invalid digit"))

/-- An index that is incomplete, of another schema or built by another rule
    is refused. -/
def «open» (path : String) (file : IndexFile) : Except Error Index := do
  let complete ← get path file "complete"
  bail_if (complete ≠ "1") (.bail s!"index {path} is not complete")
  let version ← get path file "schema_version"
  bail_if (version ≠ toString SCHEMA_VERSION.toNat)
    (.bail s!"index {path} has schema version {version}, expected {SCHEMA_VERSION}")
  let rule ← get path file "rule_id"
  bail_if (rule ≠ RULE_ID) (.bail (s!"index {path} was built with account rule {rule.quote}, " ++
    s!"this build uses {RULE_ID.quote}; rebuild it"))
  let network_id ← num path file "network_id"
  let start_ledger ← num path file "start_ledger"
  let end_ledger ← num path file "end_ledger"
  let chunk_hash ← get path file "chunk_hash"
  let ledgers ← num path file "ledgers"
  let transactions ← num path file "transactions"
  let rows ← num path file "rows"
  pure { file, info := { network_id := UInt32.ofNat network_id,
                         start_ledger := UInt32.ofNat start_ledger,
                         end_ledger := UInt32.ofNat end_ledger, chunk_hash, ledgers, transactions,
                         rows, rule_id := rule } }

/-- `ORDER BY ledger_seq, txn_seq`. -/
def seq_order (r : AccountTx) : ℕ ×ₗ ℕ := toLex (r.ledger_seq.toNat, r.txn_seq.toNat)

/-- The row comes after the marker, in the direction of the query. -/
def after_marker (forward : Bool) (r : AccountTx) : Option Marker → Bool
  | none => true
  | some m =>
    let stopped : ℕ ×ₗ ℕ := toLex (m.ledger_seq.toNat, m.txn_seq.toNat)
    if forward then stopped < seq_order r else seq_order r < stopped

/-- `LIMIT`, of a `usize` as a signed number: a negative one is no limit. -/
def sql_limit {α : Type} (limit : Nat) (rows : List α) : List α :=
  if limit < 2 ^ 63 then rows.take limit else rows

/-- The transactions that affected the account in ledgers `min..=max`. -/
def account_tx (ix : Index) (account : AccountID) (min max : UInt32) (limit : Nat)
    (forward : Bool) (marker : Option Marker) : List AccountTxRow :=
  if limit = 0 then []
  else
    let rows := ix.file.account_tx.select (fun r => r.account_id = account ∧ min ≤ r.ledger_seq ∧
      r.ledger_seq ≤ max ∧ after_marker forward r marker) seq_order forward
    (sql_limit limit rows).map fun r =>
      { ledger_seq := r.ledger_seq, txn_seq := r.txn_seq, tx_hash := r.tx_hash }

/-- Ledger and number of a transaction, if it is in the chunk. -/
def locate_tx (ix : Index) (hash : Hash256) : Option (UInt32 × UInt32) :=
  (ix.file.tx_locator.rows.find? fun r => r.tx_hash = hash).map fun r => (r.ledger_seq, r.txn_seq)

end Index

end LedgerArchive
