import LedgerArchive.Index.Cli

/-! # Inspecting a chunk (`xrla-inspect/src/main.rs`)

    The inspector parses the whole chunk and answers from it directly: the
    transactions of an account or of a list of accounts, and one transaction
    by its hash. What a command prints is the list of its lines. A
    transaction that cannot be decoded is passed over and counted, and fails
    the command at its end. -/

namespace LedgerArchive

open Lib

namespace Inspect

/-! ## The commands -/

/-- What a command prints, and how it ends. -/
structure Printed (Line : Type) where
  lines : List Line
  result : Except Error Unit

/-- The state of a scan over all transactions. -/
structure ScanState (Line : Type) where
  lines : List Line
  undecodable : Nat

/-- `affected_accounts` of `meta_decode.rs`. -/
def affected_accounts (meta_blob : Bytes) : Except Error (List AccountID) := do
  let summary ← summarize_meta meta_blob
  pure summary.affected_accounts

/-- One transaction of a scan, with the lines that `lines` finds in it. -/
def scan_tx {Line : Type} (lines : TxMap → TxRecord → Except Error (List Line)) (tx_map : TxMap)
    (s : ScanState Line) (tx : TxRecord) : ScanState Line :=
  match lines tx_map tx with
  | .error _ => { s with undecodable := s.undecodable + 1 }
  | .ok new => { s with lines := s.lines ++ new }

def scan_chunk {Line : Type} (lines : TxMap → TxRecord → Except Error (List Line))
    (chunk : Chunk) : ScanState Line :=
  chunk.tx_maps.foldl (fun s tx_map => tx_map.txns.foldl (scan_tx lines tx_map) s)
    { lines := [], undecodable := 0 }

section Sha256

variable (sha256 : Bytes → Hash256)

/-- `--account`: ledger and hash of each transaction that touched it. -/
def print_account_tx (chunk : Chunk) (account_r_address : String) : Printed (UInt32 × Hash256) :=
  let s := scan_chunk (fun tx_map tx => do
    let touched ← affected_accounts tx.meta_blob
    if touched.any fun a => account_id_to_classic_address sha256 a = account_r_address then
      pure [(tx_map.ledger_seq, tx.tx_hash)]
    else pure []) chunk
  { lines := s.lines,
    result := bail_if (s.undecodable > 0)
      (.bail (s!"{s.undecodable} transaction(s) could not be decoded — " ++
        "the list above is INCOMPLETE")) }

/-- A line of `--accounts-file`. -/
structure AccountLine where
  account : String
  ledger_seq : UInt32
  txn_index : Option UInt32
  tx_hash : Hash256
  deriving DecidableEq

/-- `--accounts-file`, from the lines of the file, trimmed and without the
    empty ones. -/
def print_accounts_tx (chunk : Chunk) (text : List String) : Printed AccountLine :=
  match text.mapM fun line =>
      with_context s!"not a classic address: {line}" (classic_address_to_account_id sha256 line) with
  | .error e => { lines := [], result := .error e }
  | .ok wanted =>
    let s := scan_chunk (fun tx_map tx => do
      let summary ← summarize_meta tx.meta_blob
      pure ((summary.affected_accounts.filter fun a => a ∈ wanted).map fun a =>
        { account := account_id_to_classic_address sha256 a, ledger_seq := tx_map.ledger_seq,
          txn_index := summary.transaction_index, tx_hash := tx.tx_hash })) chunk
    { lines := s.lines,
      result := bail_if (s.undecodable > 0)
        (.bail (s!"{s.undecodable} transaction(s) could not be decoded — " ++
          "the output above is INCOMPLETE")) }

end Sha256

def parse_hash (s : String) : Except Error Hash256 := do
  let bytes ← with_context s!"invalid hex string: {s}" (hex_decode (trim s.toList))
  bail_if (bytes.length ≠ 32) (.bail s!"expected 32-byte hash, got {bytes.length} bytes from '{s}'")
  pure (Hash256.ofBytes bytes)

/-- The loop of `print_tx_by_hash`: the first ledger with the transaction. -/
def find_tx (target : Hash256) : List TxMap → Option (UInt32 × TxRecord)
  | [] => none
  | tx_map :: tx_maps =>
    match tx_map.txns.find? fun t => t.tx_hash = target with
    | some tx => some (tx_map.ledger_seq, tx)
    | none => find_tx target tx_maps

/-- `--tx-hash`: the ledger and the transaction that are printed. -/
def print_tx_by_hash (chunk : Chunk) (hash_hex : String) :
    Except Error (UInt32 × TxRecord) := do
  let target ← parse_hash hash_hex
  ok_or (find_tx target chunk.tx_maps)
    (.bail (s!"transaction {hash_hex.toUpper} not found in this chunk " ++
      s!"(ledgers {chunk.start_ledger}..={chunk.end_ledger})"))

/-! ## Scans that decode everything -/

section Scan

variable {Line : Type} {lines : TxMap → TxRecord → Except Error (List Line)}
  {found : TxMap → TxRecord → List Line} {s : ScanState Line}

theorem scan_txs_eq {m : TxMap} {txns : List TxRecord}
    (h : ∀ t ∈ txns, lines m t = .ok (found m t)) :
    txns.foldl (scan_tx lines m) s = { s with lines := s.lines ++ txns.flatMap (found m) } := by
  induction txns generalizing s with
  | nil => simp
  | cons t txns ih =>
    obtain ⟨ht, hrest⟩ := List.forall_mem_cons.mp h
    have hone : scan_tx lines m s t = { s with lines := s.lines ++ found m t } := by
      unfold scan_tx
      rw [ht]
    rw [List.foldl_cons, hone, ih hrest, List.flatMap_cons, List.append_assoc]

theorem scan_ledgers_eq {tx_maps : List TxMap}
    (h : ∀ m ∈ tx_maps, ∀ t ∈ m.txns, lines m t = .ok (found m t)) :
    tx_maps.foldl (fun s m => m.txns.foldl (scan_tx lines m) s) s =
      { s with lines := s.lines ++ tx_maps.flatMap fun m => m.txns.flatMap (found m) } := by
  induction tx_maps generalizing s with
  | nil => simp
  | cons m tx_maps ih =>
    obtain ⟨hm, hrest⟩ := List.forall_mem_cons.mp h
    rw [List.foldl_cons, scan_txs_eq hm, ih hrest, List.flatMap_cons, List.append_assoc]

/-- The lines of a chunk in which every transaction decodes. -/
theorem scan_chunk_eq {chunk : Chunk}
    (h : ∀ m ∈ chunk.tx_maps, ∀ t ∈ m.txns, lines m t = .ok (found m t)) :
    scan_chunk lines chunk =
      { lines := chunk.tx_maps.flatMap fun m => m.txns.flatMap (found m), undecodable := 0 } := by
  unfold scan_chunk
  rw [scan_ledgers_eq h, List.nil_append]

end Scan

end Inspect

end LedgerArchive
