import LedgerArchive.Import.Accepted
import LedgerArchive.Import.Overlap
import LedgerArchive.Import.Servable

/-! # The ledger database (`xrla-import/src/main.rs`, `write_ledger_db`)

    An import adds the rows of its ledgers to xrpld's `ledger.db`, which may
    hold other ledgers, and leaves a row alone whose LedgerHash is there.
    The hash of a verified row is that of its other columns
    (`import_chunks_authentic`), so that a LedgerHash never stands for two
    rows: whatever is imported, in whatever order and however often, the
    table is the union of the rows (`ledger_db_merges`), and the exporter
    reads them back from it (`LedgersTable.get_row`). -/

namespace LedgerArchive

open Lib

/-! ## The table -/

/-- A row of `Ledgers` with its number. `LedgerHash` is the primary key. -/
structure LedgersRow extends LedgerRow where
  ledger_seq : UInt32

abbrev LedgersTable := Table fun r : LedgersRow => r.ledger_hash

/-- `SELECT ... FROM Ledgers WHERE LedgerSeq = ?`. The index on the numbers
    lists the rows of one number as they were inserted. -/
def LedgersTable.index (db : LedgersTable) : LedgerIndex :=
  fun seq => (db.rows.find? fun r => r.ledger_seq = seq).map LedgersRow.toLedgerRow

/-- The columns of a row. -/
def LedgerDbRow.columns (row : LedgerDbRow) : LedgersRow :=
  { ledger_hash := hex_encode_upper row.ledger_hash, ledger_seq := row.ledger_seq,
    prev_hash := hex_encode_upper row.prev_hash, total_coins := row.total_coins,
    closing_time := row.closing_time, prev_closing_time := row.prev_closing_time,
    close_time_res := row.close_time_resolution, close_flags := row.close_flags,
    account_set_hash := hex_encode_upper row.account_hash,
    trans_set_hash := hex_encode_upper row.trans_hash }

/-- SQLite has no integers beyond 63 bits. -/
def LedgerDbRow.Bindable (row : LedgerDbRow) : Prop := row.total_coins.toNat < 2 ^ 63

instance (row : LedgerDbRow) : Decidable row.Bindable :=
  inferInstanceAs (Decidable (row.total_coins.toNat < 2 ^ 63))

/-- Every `INSERT` commits on its own: the rows before one that cannot be
    bound are there when the error is returned. -/
def write_ledger_db : List LedgerDbRow → LedgersTable → LedgersTable × Except Error Unit
  | [], db => (db, .ok ())
  | row :: rows, db =>
    if row.Bindable then write_ledger_db rows (db.ignore row.columns)
    else (db, .error (.bail "out of range integral type conversion attempted"))

/-- The rows that are written: all of them, unless one cannot be bound. -/
def written_rows (rows : List LedgerDbRow) : List LedgerDbRow :=
  rows.takeWhile fun row => row.Bindable

theorem write_ledger_db_eq (rows : List LedgerDbRow) (db : LedgersTable) :
    (write_ledger_db rows db).1 =
      ((written_rows rows).map LedgerDbRow.columns).foldl Table.ignore db := by
  induction rows generalizing db with
  | nil => rfl
  | cons row rows ih =>
    unfold write_ledger_db written_rows
    by_cases h : row.Bindable
    · rw [if_pos h, ih, List.takeWhile_cons, if_pos (decide_eq_true h)]
      rfl
    · rw [if_neg h, List.takeWhile_cons, if_neg (by simpa using h)]
      rfl

/-- The write succeeds exactly when it leaves out no row. -/
theorem write_ledger_db_ok {rows : List LedgerDbRow} {db : LedgersTable} :
    (write_ledger_db rows db).2 = .ok () ↔ written_rows rows = rows := by
  unfold written_rows
  rw [List.takeWhile_eq_self_iff]
  induction rows generalizing db with
  | nil => simp [write_ledger_db]
  | cons row rows ih =>
    unfold write_ledger_db
    by_cases h : row.Bindable
    · simp [h, ih]
    · simp [h]

/-! ## Authentic rows -/

/-- The row as the exporter reads it. -/
def LedgerDbRow.info (row : LedgerDbRow) : LedgerInfo :=
  { ledger_hash := row.ledger_hash, account_hash := row.account_hash, tx_hash := row.trans_hash,
    parent_hash := row.prev_hash, total_coins := row.total_coins,
    closing_time := row.closing_time, prev_closing_time := row.prev_closing_time,
    close_time_resolution := row.close_time_resolution, close_flags := row.close_flags }

/-- The header a row's LedgerHash is made from. -/
def LedgerDbRow.header (row : LedgerDbRow) : LedgerHashInput := row.info.hash_input row.ledger_seq

/-- The LedgerHash is that of the other columns. -/
def LedgerDbRow.Authentic (sha512half : Bytes → Hash256) (row : LedgerDbRow) : Prop :=
  calculate_ledger_hash sha512half row.header = row.ledger_hash

variable {sha512half : Bytes → Hash256}

/-- Such a row passes the exporter's check. -/
theorem LedgerDbRow.Authentic.verified {row : LedgerDbRow} (h : row.Authentic sha512half) :
    row.info.verify_ledger_hash sha512half row.ledger_seq = .ok row.ledger_hash :=
  verify_ledger_hash_ok.mpr ⟨rfl, h⟩

section Replay

variable {σ τ : Type} {S : NodeSink σ} {T : TxDb τ}

/-- The row of a verified ledger. -/
theorem LedgerVerified.authentic_row {r r' : Replay σ τ} {delta : LedgerDelta} {tx_map : TxMap}
    {tx_hash : Hash256} {nodes : List SHAMapNode} {out₁ out₂ : Outputs σ τ}
    (hv : LedgerVerified S T sha512half r delta tx_map r' tx_hash nodes out₁ out₂) :
    (tx_map.row r.prev_ledger_hash tx_map.account_hash tx_hash).Authentic sha512half :=
  hv.ledger_hash

theorem LedgerRun.authentic_rows {r r' : Replay σ τ} {ls : List (LedgerDelta × TxMap)}
    (hrun : LedgerRun S T sha512half r ls r')
    (h : ∀ row ∈ r.ledger_rows, row.Authentic sha512half) :
    ∀ row ∈ r'.ledger_rows, row.Authentic sha512half := by
  induction hrun with
  | done r => exact h
  | step hv _ ih =>
    apply ih
    intro row hrow
    rw [hv.rows, List.mem_append, List.mem_singleton] at hrow
    rcases hrow with hrow | rfl
    · exact h row hrow
    · exact hv.authentic_row

theorem Replays.authentic_rows {out : Outputs σ τ} {chunk : Chunk}
    {res : ReplayResult × Outputs σ τ} (h : Replays S T sha512half true out chunk res) :
    ∀ row ∈ res.1.ledger_rows, row.Authentic sha512half := by
  obtain ⟨-, fuel, cp, out₁, r₀, r₁, hsteps⟩ := h.steps
  obtain ⟨-, -, -, -, -, -, -, -, -, hempty⟩ := open_ledger_ok.mp hsteps.opened
  obtain ⟨_, -, hres⟩ := bind_eq_ok.mp hsteps.finished
  rw [← pure_eq_ok.mp hres]
  apply hsteps.run.authentic_rows
  rw [hempty]
  exact List.forall_mem_nil _

/-- All rows of an import are authentic. -/
theorem import_chunks_authentic {fuel : Nat} {files : List Bytes} {out : Outputs σ τ}
    {res : List LedgerDbRow × Outputs σ τ}
    (h : import_chunks S T sha512half fuel true files out = .ok res) :
    ∀ row ∈ res.1, row.Authentic sha512half := by
  refine foldlM_invariant
    (P := fun acc : List LedgerDbRow × Outputs σ τ => ∀ row ∈ acc.1, row.Authentic sha512half)
    ?_ (List.forall_mem_nil _) h
  intro acc file acc' _ hacc hstep row hrow
  obtain ⟨⟨replay, out'⟩, hchunk, hacc'⟩ := bind_eq_ok.mp hstep
  obtain ⟨chunk, -, hreplays⟩ := import_chunk_ok hchunk
  rw [← pure_eq_ok.mp hacc', List.mem_append] at hrow
  rcases hrow with hrow | hrow
  · exact hacc row hrow
  · exact hreplays.authentic_rows row hrow

end Replay

/-! ## Rows as text -/

theorem hex_encode_upper_toList (h : Hash256) :
    (hex_encode_upper h).toList = (h.bytes.flatMap hex_digits).map Char.toUpper := by
  unfold hex_encode_upper
  simp [String.toList_join, List.flatMap_map, List.map_flatMap, hex_digits]

/-- The exporter reads a hash in capitals as it reads one in small
    letters. -/
theorem parse_hash_hex_encode_upper (h : Hash256) : parse_hash (hex_encode_upper h) = .ok h := by
  refine @parse_hash_digits (fun n => (Nat.digitChar n).toUpper) (by decide) (by decide) _ h ?_
  rw [hex_encode_upper_toList, List.map_flatMap]
  rfl

/-- A row reads back as it was written. -/
theorem LedgersTable.get_row {db : LedgersTable} {row : LedgerDbRow}
    (h : (db.rows.find? fun r => r.ledger_seq = row.ledger_seq) = some row.columns) :
    db.index.get row.ledger_seq = .ok row.info := by
  unfold LedgerIndex.get LedgersTable.index
  rw [h]
  apply bind_eq_ok.mpr ⟨row.columns.toLedgerRow, rfl, _⟩
  simp only [LedgerDbRow.columns, parse_hash_hex_encode_upper]
  rfl

/-! ## Any number of imports -/

/-- The rows of one import that verified its files. -/
def ImportedRows (sha512half : Bytes → Hash256) (rows : List LedgerDbRow) : Prop :=
  ∃ (σ τ : Type) (S : NodeSink σ) (T : TxDb τ) (fuel : Nat) (files : List Bytes)
    (out out' : Outputs σ τ), import_chunks S T sha512half fuel true files out = .ok (rows, out')

theorem import_main_rows {xxh64 : Bytes → UInt64 → UInt64} {fuel : Nat} {files : List Bytes}
    {rows : List LedgerDbRow} {store : Bytes × Bytes}
    (h : import_main xxh64 sha512half fuel true files = .ok (rows, store)) :
    ImportedRows sha512half rows := by
  obtain ⟨⟨rows', out⟩, hchunks, h⟩ := bind_eq_ok.mp h
  obtain ⟨rfl, -⟩ := Prod.mk.inj (pure_eq_ok.mp h)
  exact ⟨_, _, _, _, fuel, files, _, out, hchunks⟩

/-- One import after the other, with the rows of each. -/
def write_runs (runs : List (List LedgerDbRow)) (db : LedgersTable) : LedgersTable :=
  runs.foldl (fun db rows => (write_ledger_db rows db).1) db

theorem write_runs_eq (runs : List (List LedgerDbRow)) (db : LedgersTable) :
    write_runs runs db =
      ((runs.flatMap written_rows).map LedgerDbRow.columns).foldl Table.ignore db := by
  unfold write_runs
  induction runs generalizing db with
  | nil => rfl
  | cons rows runs ih =>
    rw [List.foldl_cons, ih, write_ledger_db_eq, List.flatMap_cons, List.map_append,
      List.foldl_append]

/-- The headers behind the rows of a database and of some imports. -/
def header_inputs (db : LedgersTable) (runs : List (List LedgerDbRow)) : Set Bytes :=
  {x | ∃ row : LedgerDbRow, (row.columns ∈ db.rows ∨ ∃ rows ∈ runs, row ∈ rows) ∧
    x = ledger_header_object row.header}

/-- Every row of the database is the text of an authentic one. -/
def LedgersTable.Authentic (sha512half : Bytes → Hash256) (db : LedgersTable) : Prop :=
  ∀ r ∈ db.rows, ∃ row : LedgerDbRow, row.Authentic sha512half ∧ r = row.columns

/-- The database behind the imports: the rows of before where they were,
    those of the imports added once each, and each number read as an
    authentic row of it. -/
structure Merged (sha512half : Bytes → Hash256) (start : LedgersTable)
    (runs : List (List LedgerDbRow)) (db : LedgersTable) : Prop where
  kept : start.rows <+: db.rows
  union : ∀ r, r ∈ db.rows ↔
    r ∈ start.rows ∨ ∃ rows ∈ runs, ∃ row ∈ written_rows rows, row.columns = r
  again : ∀ rows ∈ runs, (write_ledger_db rows db).1 = db
  read : ∀ r ∈ db.rows, ∃ row : LedgerDbRow, row.columns ∈ db.rows ∧
    row.ledger_seq = r.ledger_seq ∧ db.index.get r.ledger_seq = .ok row.info ∧
    row.info.verify_ledger_hash sha512half r.ledger_seq = .ok row.ledger_hash

/-- Authentic rows with one LedgerHash are one row. -/
theorem LedgerDbRow.Authentic.eq {S : Set Bytes} (hinj : Set.InjOn sha512half S)
    {a b : LedgerDbRow} (ha : a.Authentic sha512half) (hb : b.Authentic sha512half)
    (hin : ledger_header_object a.header ∈ S) (hin' : ledger_header_object b.header ∈ S)
    (hhash : a.columns.ledger_hash = b.columns.ledger_hash) : a = b := by
  have hhash : a.ledger_hash = b.ledger_hash := hex_encode_upper_inj hhash
  have hobject : ledger_header_object a.header = ledger_header_object b.header :=
    hinj hin hin' (ha.trans (hhash.trans hb.symm))
  have hheader := ledger_header_object_inj hobject
  unfold LedgerDbRow.header LedgerInfo.hash_input LedgerDbRow.info at hheader
  simp only [LedgerHashInput.mk.injEq] at hheader
  obtain ⟨hseq, hdrops, hprev, htree, haccount, hpct, hct, hres, hflags⟩ := hheader
  obtain ⟨⟩ := a
  obtain ⟨⟩ := b
  simp only at hhash hseq hdrops hprev htree haccount hpct hct hres hflags
  simp only [hhash, hseq, hdrops, hprev, htree, haccount, hpct, hct, hres, hflags]

theorem written_rows_subset (rows : List LedgerDbRow) : written_rows rows ⊆ rows :=
  (List.takeWhile_sublist _).subset

/-- Imports of verified files into a database of authentic rows, in any
    order and any number of times: it ends up with the union of the rows, no
    row is overwritten, importing again changes nothing, and what the
    exporter reads passes its check. -/
theorem ledger_db_merges {start : LedgersTable} {runs : List (List LedgerDbRow)}
    (hstart : start.Authentic sha512half) (hruns : ∀ rows ∈ runs, ImportedRows sha512half rows)
    (hinj : Set.InjOn sha512half (header_inputs start runs)) :
    Merged sha512half start runs (write_runs runs start) ∧
      ∀ runs', runs'.Perm runs →
        (write_runs runs' start).rows.Perm (write_runs runs start).rows := by
  -- Whatever there is or comes is the text of an authentic row.
  have hsource : ∀ r, (r ∈ start.rows ∨ r ∈ (runs.flatMap written_rows).map LedgerDbRow.columns) →
      ∃ row : LedgerDbRow, row.Authentic sha512half ∧ r = row.columns ∧
        ledger_header_object row.header ∈ header_inputs start runs := by
    rintro r (hr | hr)
    · obtain ⟨row, hrow, rfl⟩ := hstart r hr
      exact ⟨row, hrow, rfl, row, .inl hr, rfl⟩
    · obtain ⟨row, hrow, rfl⟩ := List.mem_map.mp hr
      obtain ⟨rows, hrows, hrow⟩ := List.mem_flatMap.mp hrow
      have hmem := written_rows_subset rows hrow
      obtain ⟨σ, τ, S, T, fuel, files, out, out', himport⟩ := hruns rows hrows
      exact ⟨row, import_chunks_authentic himport row hmem, rfl, row, .inr ⟨rows, hrows, hmem⟩, rfl⟩
  have hkeys : Set.InjOn (fun r : LedgersRow => r.ledger_hash)
      {r | r ∈ start.rows ∨ r ∈ (runs.flatMap written_rows).map LedgerDbRow.columns} := by
    intro r hr r' hr' hhash
    obtain ⟨a, ha, rfl, hin⟩ := hsource r hr
    obtain ⟨b, hb, rfl, hin'⟩ := hsource r' hr'
    rw [ha.eq hinj hb hin hin' hhash]
  have hunion : ∀ r, r ∈ (write_runs runs start).rows ↔
      r ∈ start.rows ∨ r ∈ (runs.flatMap written_rows).map LedgerDbRow.columns := by
    intro r
    rw [write_runs_eq]
    exact Table.mem_foldl_ignore hkeys
  refine ⟨⟨?_, ?_, ?_, ?_⟩, ?_⟩
  · rw [write_runs_eq]
    exact Table.prefix_foldl_ignore _ _
  · intro r
    rw [hunion]
    simp only [List.mem_map, List.mem_flatMap]
    constructor
    · rintro (hr | ⟨row, ⟨rows, hrows, hrow⟩, rfl⟩)
      · exact .inl hr
      · exact .inr ⟨rows, hrows, row, hrow, rfl⟩
    · rintro (hr | ⟨rows, hrows, row, hrow, rfl⟩)
      · exact .inl hr
      · exact .inr ⟨row, ⟨rows, hrows, hrow⟩, rfl⟩
  · intro rows hrows
    rw [write_ledger_db_eq]
    apply Table.foldl_ignore_eq
    intro r hr
    obtain ⟨row, hrow, rfl⟩ := List.mem_map.mp hr
    refine List.mem_map_of_mem ((hunion _).mpr (.inr (List.mem_map_of_mem ?_)))
    exact List.mem_flatMap.mpr ⟨rows, hrows, hrow⟩
  · intro r hr
    obtain ⟨r', hfind⟩ : ∃ r', (write_runs runs start).rows.find?
        (fun r' => r'.ledger_seq = r.ledger_seq) = some r' := by
      apply Option.isSome_iff_exists.mp
      rw [List.find?_isSome]
      exact ⟨r, hr, decide_eq_true rfl⟩
    have hmem := List.mem_of_find?_eq_some hfind
    have hseq : r'.ledger_seq = r.ledger_seq := by simpa using List.find?_some hfind
    obtain ⟨row, hrow, rfl, -⟩ := hsource r' ((hunion r').mp hmem)
    have hseq : row.ledger_seq = r.ledger_seq := hseq
    rw [← hseq] at hfind ⊢
    exact ⟨row, hmem, rfl, LedgersTable.get_row hfind, hrow.verified⟩
  · intro runs' hp
    apply Table.perm_of_mem
    intro r
    have hsame : ∀ r, r ∈ (runs'.flatMap written_rows).map LedgerDbRow.columns ↔
        r ∈ (runs.flatMap written_rows).map LedgerDbRow.columns :=
      fun r => ((hp.flatMap_right _).map _).mem_iff
    have hkeys' : Set.InjOn (fun r : LedgersRow => r.ledger_hash)
        {r | r ∈ start.rows ∨ r ∈ (runs'.flatMap written_rows).map LedgerDbRow.columns} :=
      hkeys.mono fun r hr => hr.imp_right (hsame r).mp
    rw [hunion, write_runs_eq, ← hsame]
    exact Table.mem_foldl_ignore hkeys'

/-- The import of ledger 8, twice. -/
theorem ledger_db_merges_twice :
    Merged sha2_sha512half Table.empty [[row_8], [row_8]]
        (write_runs [[row_8], [row_8]] Table.empty) ∧
      ∀ runs', runs'.Perm [[row_8], [row_8]] → (write_runs runs' Table.empty).rows.Perm
        (write_runs [[row_8], [row_8]] Table.empty).rows := by
  have himport : ImportedRows sha2_sha512half [row_8] := by
    obtain ⟨-, hreplay, -⟩ := relabelled_facts
    exact import_main_rows (idle_ledger_import relabelled_layout hreplay)
  refine ledger_db_merges (fun r hr => absurd hr List.not_mem_nil) ?_ ?_
  · intro rows hrows
    rcases List.mem_pair.mp hrows with rfl | rfl
    · exact himport
    · exact himport
  · -- There is one header.
    have hone : ∀ x ∈ header_inputs Table.empty [[row_8], [row_8]],
        x = ledger_header_object row_8.header := by
      rintro x ⟨row, hrow | ⟨rows, hrows, hrow⟩, rfl⟩
      · exact absurd hrow List.not_mem_nil
      · rcases List.mem_pair.mp hrows with rfl | rfl
        · rw [List.mem_singleton.mp hrow]
        · rw [List.mem_singleton.mp hrow]
    intro x hx y hy _
    rw [hone x hx, hone y hy]

end LedgerArchive
