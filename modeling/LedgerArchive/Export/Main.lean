import LedgerArchive.Common.Serialize
import LedgerArchive.Common.StateMap
import LedgerArchive.Nudb.Reader

/-! # The exporter (`xrla-export/src/main.rs`)

    One walk collects the state tree of the first ledger; from there on the
    state is kept as a map and moved from ledger to ledger by diffs. Diffs
    are computed in batches whose size is the concurrency level, which the
    source finds by measuring. Chunks are written as the range goes by; the
    map is what a new chunk's checkpoint is made of.

    The measured level and the order in which a `HashMap` is iterated are
    parameters. `u32` arithmetic wraps, as in a release build. -/

namespace LedgerArchive

open Lib

/-! ## The ledger database -/

/-- `char::is_whitespace`. -/
def is_whitespace (c : Char) : Bool :=
  (9 ≤ c.toNat && c.toNat ≤ 13) || (0x2000 ≤ c.toNat && c.toNat ≤ 0x200A) ||
    [0x20, 0x85, 0xA0, 0x1680, 0x2028, 0x2029, 0x202F, 0x205F, 0x3000].contains c.toNat

/-- `str::trim`. -/
def trim (s : List Char) : List Char :=
  ((s.dropWhile is_whitespace).reverse.dropWhile is_whitespace).reverse

def hex_digit (c : Char) : Option Nat :=
  if '0' ≤ c ∧ c ≤ '9' then some (c.toNat - '0'.toNat)
  else if 'a' ≤ c ∧ c ≤ 'f' then some (c.toNat - 'a'.toNat + 10)
  else if 'A' ≤ c ∧ c ≤ 'F' then some (c.toNat - 'A'.toNat + 10)
  else none

/-- A byte as a `char`, printed with `{:?}`. -/
def debug_char (b : UInt8) : String :=
  let text :=
    if b = 0 then "\\0"
    else if b = 9 then "\\t"
    else if b = 10 then "\\n"
    else if b = 13 then "\\r"
    else if b = 39 then "\\'"
    else if b = 92 then "\\\\"
    else if b < 32 ∨ (127 ≤ b ∧ b ≤ 160) ∨ b = 173 then
      "\\u\x7b" ++ String.ofList (Nat.toDigits 16 b.toNat) ++ "\x7d"
    else (Char.ofUInt8 b).toString
  "'" ++ text ++ "'"

/-- `val` of the crate `hex`. -/
def hex_val (c : UInt8) (index : Nat) : Except Error Nat :=
  ok_or (hex_digit (Char.ofUInt8 c))
    (.bail s!"Invalid character {debug_char c} at position {index}")

def hex_pairs : Bytes → Nat → Except Error Bytes
  | hi :: lo :: rest, i => do
    let hi ← hex_val hi i
    let lo ← hex_val lo (i + 1)
    let bytes ← hex_pairs rest (i + 2)
    pure (UInt8.ofNat (hi * 16 + lo) :: bytes)
  | _, _ => pure []

/-- `hex::decode`, which goes through the bytes of a text. -/
def hex_decode (s : List Char) : Except Error Bytes := do
  let bytes := s.flatMap String.utf8EncodeChar
  bail_if (bytes.length % 2 ≠ 0) (.bail "Odd number of digits")
  hex_pairs bytes 0

def parse_hash (s : String) : Except Error Hash256 := do
  let bytes ← hex_decode (trim s.toList)
  bail_if (bytes.length ≠ 32) (.bail s!"expected 32-byte hash, got {bytes.length} bytes from '{s}'")
  pure (Hash256.ofBytes bytes)

/-- A row of the table `Ledgers`. -/
structure LedgerRow where
  ledger_hash : String
  account_set_hash : String
  trans_set_hash : String
  prev_hash : String
  total_coins : UInt64
  closing_time : UInt32
  prev_closing_time : UInt32
  close_time_res : UInt8
  close_flags : UInt8

structure LedgerInfo where
  ledger_hash : Hash256
  account_hash : Hash256
  tx_hash : Hash256
  parent_hash : Hash256
  total_coins : UInt64
  closing_time : UInt32
  prev_closing_time : UInt32
  close_time_resolution : UInt8
  close_flags : UInt8
  deriving DecidableEq

/-- The database: the row of each sequence number. -/
abbrev LedgerIndex := UInt32 → Option LedgerRow

def LedgerIndex.get (db : LedgerIndex) (seq : UInt32) : Except Error LedgerInfo := do
  let row ← ok_or (db seq) (.context s!"ledger {seq} not found in database"
    (.bail "Query returned no rows"))
  let ledger_hash ← with_context s!"invalid LedgerHash for seq {seq}" (parse_hash row.ledger_hash)
  let account_hash ← with_context s!"invalid AccountSetHash for seq {seq}"
    (parse_hash row.account_set_hash)
  let tx_hash ← with_context s!"invalid TransSetHash for seq {seq}" (parse_hash row.trans_set_hash)
  let parent_hash ← with_context s!"invalid PrevHash for seq {seq}" (parse_hash row.prev_hash)
  pure { ledger_hash, account_hash, tx_hash, parent_hash, total_coins := row.total_coins,
         closing_time := row.closing_time, prev_closing_time := row.prev_closing_time,
         close_time_resolution := row.close_time_res, close_flags := row.close_flags }

variable (sha512half : Bytes → Hash256)

namespace LedgerInfo

/-- What the LedgerHash of the row is computed from. -/
def hash_input (info : LedgerInfo) (seq : UInt32) : LedgerHashInput :=
  { seq, drops := info.total_coins, parent_hash := info.parent_hash, tx_hash := info.tx_hash,
    account_hash := info.account_hash, parent_close_time := info.prev_closing_time,
    close_time := info.closing_time, close_time_resolution := info.close_time_resolution,
    close_flags := info.close_flags }

def verify_ledger_hash (info : LedgerInfo) (seq : UInt32) : Except Error Hash256 := do
  let recomputed := calculate_ledger_hash sha512half (info.hash_input seq)
  bail_if (recomputed ≠ info.ledger_hash) (.bail (s!"LedgerHash mismatch at ledger {seq}: db says " ++
    s!"{hex_encode info.ledger_hash}, recomputed {hex_encode recomputed}"))
  pure recomputed

def tx_map (info : LedgerInfo) (seq : UInt32) (ledger_hash : Hash256) (txns : List TxRecord) :
    TxMap :=
  { ledger_seq := seq, ledger_hash, account_hash := info.account_hash, drops := info.total_coins,
    parent_close_time := info.prev_closing_time, close_time := info.closing_time,
    close_time_resolution := info.close_time_resolution, close_flags := info.close_flags, txns }

end LedgerInfo

/-! ## The export loop -/

structure Args where
  start : UInt32
  «end» : UInt32
  network_id : UInt32
  chunk_size : UInt32

/-- The order in which `values()` goes over a `HashMap`: any, and a new one
    each time. -/
structure MapOrder where
  values : Nat → StateMap → List SHAMapNode
  values_perm : ∀ k state, (values k state : Multiset SHAMapNode) = state.entries.map Sigma.snd

/-- A chunk file under its final name. -/
structure ChunkFile where
  name : String
  chunk_hash : Hash256
  bytes : Bytes
  deriving DecidableEq

/-- `{n:010}`. -/
def pad10 (n : UInt32) : String :=
  let digits := toString n.toNat
  String.ofList (List.replicate (10 - digits.length) '0') ++ digits

def chunk_filename (network_id start end_ : UInt32) : String :=
  s!"xrla_{network_id}_{pad10 start}_{pad10 end_}.xrla"

/-- The variables of the loop. `files` are the chunks that are finished. -/
structure Export where
  state : StateMap
  chunk_start : UInt32
  chunk_end : UInt32
  chunk_writer : ChunkWriter
  prev_account_hash : Hash256
  files : List ChunkFile

variable (args : Args) (order : MapOrder)

/-- `(chunk_start + chunk_size - 1).min(end)`. -/
def Args.chunk_end (chunk_start : UInt32) : UInt32 :=
  min (chunk_start + args.chunk_size - 1) args.end

/-- A new chunk: its header, the checkpoint and the first TX map. `k` chunks
    were written before. -/
def create_chunk (k : Nat) (state : StateMap) (chunk_start : UInt32) (ledger_hash : Hash256)
    (tx_map : TxMap) : ChunkWriter :=
  ((ChunkWriter.create args.network_id chunk_start (args.chunk_end chunk_start)
    ledger_hash).write_checkpoint (order.values k state)).write_tx_map tx_map

/-- `chunk_writer.finish()`, under the name the chunk was created with. -/
def Export.finish_chunk (e : Export) : List ChunkFile :=
  let (chunk_hash, bytes) := e.chunk_writer.finish sha512half
  e.files ++ [{ name := chunk_filename args.network_id e.chunk_start e.chunk_end, chunk_hash, bytes }]

section Loop

variable (get_node : Hash256 → Except Error SHAMapNode) (fuel : Nat) (ledger_db : LedgerIndex)

def ledger_txns (info : LedgerInfo) (seq : UInt32) : Except Error (List TxRecord) :=
  with_context s!"tx collect failed at ledger {seq}" (collect_transactions get_node fuel info.tx_hash)

/-- One ledger of a batch, with its diff. -/
def export_ledger (e : Export) (seq : UInt32) (info : LedgerInfo) (ledger_hash : Hash256)
    (diff : SHAMapDiff) : Except Error Export := do
  let state := apply_diff e.state diff
  let txns ← ledger_txns get_node fuel info seq
  let tx_map := info.tx_map seq ledger_hash txns
  if seq - e.chunk_start = args.chunk_size then
    -- The ledger is the first one of the next chunk.
    let files := e.finish_chunk sha512half args
    pure { state, chunk_start := seq, chunk_end := args.chunk_end seq,
           chunk_writer := create_chunk args order files.length state seq ledger_hash tx_map,
           prev_account_hash := info.account_hash, files }
  else
    pure { e with
      state
      chunk_writer := (e.chunk_writer.write_delta { ledger_seq := seq, diff }).write_tx_map tx_map
      prev_account_hash := info.account_hash }

/-- Each root of the batch with the one before it. -/
def batch_pairs : Hash256 → List LedgerInfo → List (Hash256 × Hash256)
  | _, [] => []
  | running_prev, info :: infos =>
    (running_prev, info.account_hash) :: batch_pairs info.account_hash infos

/-- `seq..=batch_end`. -/
def batch_seqs (seq batch_end : UInt32) : List UInt32 :=
  (List.range' seq.toNat (batch_end.toNat + 1 - seq.toNat)).map UInt32.ofNat

/-- One batch: all rows, all hashes and all diffs first, then ledger by
    ledger. -/
def export_batch (e : Export) (seqs : List UInt32) (text : String) : Except Error Export := do
  let infos ← seqs.mapM ledger_db.get
  let ledger_hashes ← (infos.zip seqs).mapM fun (info, seq) => info.verify_ledger_hash sha512half seq
  let diffs ← with_context text (diff_batch_concurrent get_node fuel
    (batch_pairs e.prev_account_hash infos))
  (diffs.zip (seqs.zip (infos.zip ledger_hashes))).foldlM (fun e (diff, seq, info, ledger_hash) =>
    export_ledger sha512half args order get_node fuel e seq info ledger_hash diff) e

/-- `while seq <= end`, with a bound on the number of batches. -/
def export_loop (batch_size : UInt32) : Nat → UInt32 → Export → Except Error Export
  | 0, _, _ => .error .fuel
  | n + 1, seq, e =>
    if seq ≤ args.end then do
      let batch_end := min (seq + batch_size - 1) args.end
      let e ← export_batch sha512half args order get_node fuel ledger_db e (batch_seqs seq batch_end)
        s!"batch diff failed for ledgers {seq}..={batch_end}"
      export_loop batch_size n (batch_end + 1) e
    else pure e

/-- `concurrency.max(1) as u32`. -/
def batch_size (concurrency : Nat) : UInt32 := UInt32.ofNat (max concurrency 1)

/-- Everything before the loop: the walk, and the first chunk up to its
    first TX map. -/
def export_start (concurrency : Nat) : Except Error Export := do
  let first_info ← ledger_db.get args.start
  let first_ledger_hash ← first_info.verify_ledger_hash sha512half args.start
  let initial_nodes ← collect_reachable_concurrent get_node fuel first_info.account_hash concurrency
  let state := checkpoint_state initial_nodes
  let first_txns ← ledger_txns get_node fuel first_info args.start
  let tx_map := first_info.tx_map args.start first_ledger_hash first_txns
  pure { state, chunk_start := args.start, chunk_end := args.chunk_end args.start,
         chunk_writer := create_chunk args order 0 state args.start first_ledger_hash tx_map,
         prev_account_hash := first_info.account_hash, files := [] }

/-- `main`, from the checks of the arguments to the last chunk. -/
def export_main (concurrency : Nat) : Except Error (List ChunkFile) := do
  bail_if (args.end ≤ args.start) (.bail "--end must be greater than --start")
  bail_if (args.chunk_size = 0) (.bail "--chunk-size must be at least 1")
  let e ← export_start sha512half args order get_node fuel ledger_db concurrency
  let e ← export_loop sha512half args order get_node fuel ledger_db (batch_size concurrency) fuel
    (args.start + 1) e
  pure (e.finish_chunk sha512half args)

end Loop

end LedgerArchive
