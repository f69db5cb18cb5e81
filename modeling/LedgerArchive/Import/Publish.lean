import LedgerArchive.Nudb.Finish

/-! # What an import publishes, and when (`xrla-import/src/main.rs`, `main`)

    An import writes up to three things: the store, `transaction.db` and the
    rows of `ledger.db`. Every operation on the file system can fail, and
    the process can stop after any of them. The files of the store are moved
    into place by `finish_files`; what is said here is the order of the
    three (`import_publishes_in_order`).

    A replay, whatever it reads and writes to the temporary files, is one
    operation that succeeds or fails. -/

namespace LedgerArchive

open Lib

/-! ## The files of an import -/

/-- What `transaction.db` holds, or the file that becomes one. It is `stale`
    if it was opened over a file left from earlier: the tables of that file
    are still in it. -/
inductive TxdbFile where
  | old
  | unfinished (stale : Bool)
  /-- The rows are there, and not all of the indexes. -/
  | committed (stale : Bool)
  | new (stale : Bool)
  deriving DecidableEq

/-- `ledger_rows` counts the rows that this import has inserted. -/
structure ImportFiles where
  store : Files
  txdb : Option TxdbFile
  txdb_tmp : Option TxdbFile
  ledger_rows : Nat

inductive ImportOp where
  /-- An operation on the files of the store. -/
  | store (op : FileOp)
  /-- The loop over the chunk files. -/
  | replay
  /-- `remove_file(&tmp)`, of `TxDbSink::create` and of `Drop`. -/
  | remove_txdb_tmp
  /-- `Connection::open(&tmp)`. -/
  | open_txdb
  /-- The pragmas and `BEGIN`. -/
  | begin_txdb
  /-- `CREATE TABLE IF NOT EXISTS`. -/
  | create_tables
  | commit_txdb
  | index_txdb
  | close_txdb
  /-- The rename of `transaction.db.tmp`. -/
  | publish_txdb
  | open_ledger_db
  | insert_row (k : Nat)
  deriving DecidableEq

/-- A new file becomes `v`, and one that still has older tables keeps them. -/
def TxdbFile.becomes (v : Bool → TxdbFile) : TxdbFile → TxdbFile
  | unfinished stale => v stale
  | committed stale => v stale
  | f => f

def ImportOp.exec : ImportOp → ImportFiles → Option ImportFiles
  | store op, s => (op.exec s.store).map fun files => { s with store := files }
  | replay, s => some s
  | remove_txdb_tmp, s => s.txdb_tmp.map fun _ => { s with txdb_tmp := none }
  -- A file that is there is opened as it is.
  | open_txdb, s => some { s with txdb_tmp := some (.unfinished s.txdb_tmp.isSome) }
  | begin_txdb, s => some s
  | create_tables, s => some s
  | commit_txdb, s => some { s with txdb_tmp := s.txdb_tmp.map (TxdbFile.becomes .committed) }
  | index_txdb, s => some { s with txdb_tmp := s.txdb_tmp.map (TxdbFile.becomes .new) }
  | close_txdb, s => some s
  | publish_txdb, s => s.txdb_tmp.map fun v => { s with txdb := some v, txdb_tmp := none }
  | open_ledger_db, s => some s
  | insert_row _, s => some { s with ledger_rows := s.ledger_rows + 1 }

/-- `--txdb`, and `--ledger-db` with the number of rows there are. -/
structure ImportOptions where
  txdb : Bool
  ledger_db : Option Nat

inductive ImportError where
  | failed (op : ImportOp)
  /-- The destination of `--txdb` is there. -/
  | exists_
  deriving DecidableEq

/-! ## The program -/

abbrev ImportProg := Prog ImportFiles ImportOp (Except ImportError Unit)

/-- `Drop` of the sink: its temporary file is removed. -/
def drop_store (e : ImportError) : ImportProg :=
  .step (.store (.remove .dat_tmp)) fun _ => .ret (.error e)

/-- `Drop` of both, the database first. -/
def drop_both (txdb : Bool) (e : ImportError) : ImportProg :=
  if txdb then .step .remove_txdb_tmp fun _ => drop_store e else drop_store e

/-- `op?` with no connection left to be dropped: only the sink is. -/
def on_store (op : ImportOp) (k : ImportProg) : ImportProg :=
  .step op fun ok => if ok then k else drop_store (.failed op)

/-- The `INSERT`s, from row `k` on: `left` of them. -/
def insert_rows : Nat → Nat → ImportProg
  | _, 0 => .ret (.ok ())
  | k, left + 1 => .step (.insert_row k) fun ok =>
    if ok then insert_rows (k + 1) left else .ret (.error (.failed (.insert_row k)))

/-- `write_ledger_db`. -/
def write_ledger_rows : Option Nat → ImportProg
  | none => .ret (.ok ())
  | some rows => .step .open_ledger_db fun ok =>
    if ok then insert_rows 0 rows else .ret (.error (.failed .open_ledger_db))

/-- `sink.finish`, and what follows it. -/
def finish_store (ledger_db : Option Nat) : ImportProg :=
  (NuDbSink.finish_files.within .store ImportFiles.store).bind fun
    | .ok () => write_ledger_rows ledger_db
    | .error op => .ret (.error (.failed (.store op)))

/-- `t.finish()`. It takes the connection out of `t`, so that from there on
    the temporary file is no longer removed. -/
def publish (opts : ImportOptions) : ImportProg :=
  if opts.txdb then
    on_store .commit_txdb (on_store .index_txdb (on_store .close_txdb
      (on_store .publish_txdb (finish_store opts.ledger_db))))
  else finish_store opts.ledger_db

def replay_and_publish (opts : ImportOptions) : ImportProg :=
  .step .replay fun ok =>
    if ok then publish opts else drop_both opts.txdb (.failed .replay)

/-- `TxDbSink::create` behind the removal of the temporary file. Until it
    returns there is no `t` to be dropped. -/
def open_tmp (opts : ImportOptions) : ImportProg :=
  on_store .open_txdb (on_store .begin_txdb (on_store .create_tables (replay_and_publish opts)))

/-- `TxDbSink::create`, if it is asked for. -/
def create_txdb (opts : ImportOptions) : ImportProg :=
  if opts.txdb then
    .look (fun s => s.txdb.isSome) fun exists_ =>
      if exists_ then drop_store .exists_
      else .step .remove_txdb_tmp fun _ => open_tmp opts
  else replay_and_publish opts

def import_files (opts : ImportOptions) : ImportProg :=
  .step (.store (.create .dat_tmp)) fun ok =>
    if ok then create_txdb opts else .ret (.error (.failed (.store (.create .dat_tmp))))

/-! ## The store -/

open Prog NuDbSink

/-- Both files of the new store are in place. -/
def StoreInPlace (s : Files) : Prop := s .dat = some .new ∧ s .key = some .new

/-- What `finish_files` has done when it returns without an error. -/
def FinishedInPlace (s : Files) (result : Option (Except FileOp Unit)) : Prop :=
  result = some (.ok ()) → StoreInPlace s

section Store

variable {may : FileOp → Prop} {s : Files}

theorem FinishedInPlace.none (s : Files) : FinishedInPlace s none := fun h => nomatch h

theorem FinishedInPlace.error (s : Files) (e : FileOp) :
    FinishedInPlace s (some (.error e)) := fun h => nomatch h

theorem exec_rename_some {source target : FileName} {s' : Files} {v : Version}
    (hs : s source = some v) (h : FileOp.exec (.rename source target) s = some s') :
    s' = Function.update (Function.update s source none) target (some v) := by
  unfold FileOp.exec at h
  dsimp only at h
  rw [hs] at h
  exact (Option.some.inj h).symm

theorem exec_remove_some {name : FileName} {s' : Files}
    (h : FileOp.exec (.remove name) s = some s') : s' = Function.update s name none := by
  unfold FileOp.exec at h
  dsimp only at h
  split at h
  · cases h
  · exact (Option.some.inj h).symm

theorem put_back_in_place (had_old_key : Bool) (e : FileOp) :
    Throughout FileOp.exec may FinishedInPlace (put_back had_old_key e) s := by
  unfold put_back
  show Throughout FileOp.exec may FinishedInPlace (if _ then _ else _) s
  -- Both ways end with the error, which says nothing about the store.
  split
  · exact ⟨.none _, fun _ _ => .error _ e, fun _ => .error _ e⟩
  · exact .error _ e

theorem swap_in_place (had_old_key : Bool) (hdat : s .dat_tmp = some .new)
    (hkey : s .key_tmp = some .new) :
    Throughout FileOp.exec may FinishedInPlace (swap had_old_key) s := by
  refine ⟨.none _, fun s₁ h₁ => ?_, fun _ => put_back_in_place _ _⟩
  obtain rfl := exec_rename_some hdat h₁
  refine ⟨.none _, fun s₂ h₂ => ?_, fun _ => put_back_in_place _ _⟩
  obtain rfl := exec_rename_some (v := .new) (by simpa using hkey) h₂
  -- Both files are moved; whether the old key is removed does not matter.
  cases had_old_key with
  | true =>
    refine ⟨.none _, fun s₃ h₃ => ?_, fun _ _ => ⟨by simp, by simp⟩⟩
    obtain rfl := exec_remove_some h₃
    exact fun _ => ⟨by simp, by simp⟩
  | false => exact fun _ => ⟨by simp, by simp⟩

theorem move_into_place_in_place (hdat : s .dat_tmp = some .new) (hkey : s .key_tmp = some .new) :
    Throughout FileOp.exec may FinishedInPlace move_into_place s := by
  show Throughout FileOp.exec may FinishedInPlace (if Files.present .key s = true then _ else _) s
  cases hold : s .key with
  | none =>
    rw [if_neg (by simp [Files.present, hold])]
    exact swap_in_place false hdat hkey
  | some v =>
    rw [if_pos (by simp [Files.present, hold])]
    refine ⟨.none _, fun s₁ h₁ => ?_, fun _ => .error _ _⟩
    obtain rfl := exec_rename_some hold h₁
    exact swap_in_place true (by simpa using hdat) (by simpa using hkey)

theorem write_key_and_swap_in_place (hdat : s .dat_tmp = some .new) :
    Throughout FileOp.exec may FinishedInPlace write_key_and_swap s := by
  refine ⟨.none _, fun s₁ h₁ => ?_, fun _ => .error _ _⟩
  obtain rfl := Option.some.inj h₁
  refine ⟨.none _, fun s₂ h₂ => ?_, fun _ => .error _ _⟩
  obtain rfl := Option.some.inj h₂
  exact move_into_place_in_place (by simpa using hdat) (by simp)

theorem drop_sink_in_place (e : FileOp) :
    Throughout FileOp.exec may FinishedInPlace (drop_sink (.error e)) s :=
  ⟨.none _, fun _ _ => .error _ e, fun _ => .error _ e⟩

/-- From whatever files, `finish` returns without an error only with the new
    store in place. -/
theorem finish_files_in_place : Throughout FileOp.exec may FinishedInPlace finish_files s := by
  refine ⟨.none _, fun s₁ h₁ => ?_, fun _ => drop_sink_in_place _⟩
  obtain rfl := Option.some.inj h₁
  refine throughout_bind.mpr ((write_key_and_swap_in_place (by simp)).mono fun t r ht => ?_)
  -- What follows the closure keeps an error and a success apart.
  match r with
  | none => exact .none t
  | some (.ok ()) => exact ht
  | some (.error e) =>
    exact ⟨.none _, fun _ _ => drop_sink_in_place e, fun _ => drop_sink_in_place e⟩

end Store

/-! ## The order -/

/-- What an import publishes is as it was before. -/
structure Untouched (s₀ s : ImportFiles) : Prop where
  dat : s.store .dat = s₀.store .dat
  key : s.store .key = s₀.store .key
  txdb : s.txdb = s₀.txdb
  ledger_rows : s.ledger_rows = s₀.ledger_rows

/-- The errors from before anything is published: a chunk that does not
    replay, or a database that cannot be written. -/
def ImportError.early : ImportError → Bool
  | .exists_ => true
  | .failed .replay => true
  | .failed .open_txdb => true
  | .failed .begin_txdb => true
  | .failed .create_tables => true
  | .failed .commit_txdb => true
  | .failed .index_txdb => true
  | .failed .close_txdb => true
  | .failed .publish_txdb => true
  | .failed _ => false

/-- The state that an import with these options can be stopped in, and its
    result. `stale` says whether the temporary file was opened over one left
    from earlier. -/
structure InOrder (opts : ImportOptions) (stale : Bool) (s₀ s : ImportFiles)
    (result : Option (Except ImportError Unit)) : Prop where
  /-- `transaction.db` is the old one or all of the new one, which is only
      the new one unless it is stale. -/
  txdb_whole : s.txdb = s₀.txdb ∨
    (opts.txdb = true ∧ s₀.txdb = none ∧ s.txdb = some (.new stale))
  /-- The store is not touched before the new `transaction.db` is there. -/
  store_second : opts.txdb = true →
    s.store .dat ≠ s₀.store .dat ∨ s.store .key ≠ s₀.store .key → s.txdb = some (.new stale)
  /-- A row of `ledger.db` has its ledger in the store. -/
  rows_last : s.ledger_rows ≠ s₀.ledger_rows →
    StoreInPlace s.store ∧ (opts.txdb = true → s.txdb = some (.new stale))
  /-- A `transaction.db` that is there stops the import. -/
  refused : opts.txdb = true → s₀.txdb ≠ none → Untouched s₀ s ∧ result ≠ some (.ok ())
  kept : ∀ e, result = some (.error e) → e.early = true → Untouched s₀ s
  done : result = some (.ok ()) →
    StoreInPlace s.store ∧ (opts.txdb = true → s.txdb = some (.new stale)) ∧
      ∀ n, opts.ledger_db = some n → s.ledger_rows = s₀.ledger_rows + n

variable {may : ImportOp → Prop} {opts : ImportOptions} {stale : Bool} {s₀ s t : ImportFiles}

theorem Untouched.in_order (h : Untouched s₀ s) {result : Option (Except ImportError Unit)}
    (hr : result ≠ some (.ok ())) : InOrder opts stale s₀ s result where
  txdb_whole := .inl h.txdb
  store_second := fun _ hne => by
    rcases hne with hne | hne
    · exact absurd h.dat hne
    · exact absurd h.key hne
  rows_last := fun hne => absurd h.ledger_rows hne
  refused := fun _ _ => ⟨h, hr⟩
  kept := fun _ _ _ => h
  done := fun hok => absurd hok hr

theorem Untouched.store_tmp (h : Untouched s₀ s) {files : Files}
    (hd : files .dat = s.store .dat) (hk : files .key = s.store .key) :
    Untouched s₀ { s with store := files } :=
  ⟨hd.trans h.dat, hk.trans h.key, h.txdb, h.ledger_rows⟩

theorem Untouched.txdb_tmp (h : Untouched s₀ s) (tmp : Option TxdbFile) :
    Untouched s₀ { s with txdb_tmp := tmp } :=
  ⟨h.dat, h.key, h.txdb, h.ledger_rows⟩

/-- Removing a temporary file, and the error: nothing is touched. -/
theorem Untouched.drop_store (h : Untouched s₀ s) (e : ImportError) :
    Throughout ImportOp.exec may (InOrder opts stale s₀) (drop_store e) s := by
  refine ⟨h.in_order (by simp), fun t ht => ?_, fun _ => h.in_order (by simp)⟩
  obtain ⟨files, hfiles, rfl⟩ := Option.map_eq_some_iff.mp ht
  obtain rfl := exec_remove_some hfiles
  exact (h.store_tmp (by simp) (by simp)).in_order (by simp)

theorem Untouched.drop_both (h : Untouched s₀ s) (txdb : Bool) (e : ImportError) :
    Throughout ImportOp.exec may (InOrder opts stale s₀) (drop_both txdb e) s := by
  unfold LedgerArchive.drop_both
  split
  · refine ⟨h.in_order (by simp), fun t ht => ?_, fun _ => h.drop_store e⟩
    obtain ⟨_, -, rfl⟩ := Option.map_eq_some_iff.mp ht
    exact (h.txdb_tmp _).drop_store e
  · exact h.drop_store e

/-- A step of the database before it is published. -/
theorem Untouched.on_store (h : Untouched s₀ s) {op : ImportOp} {k : ImportProg}
    (hok : ∀ t, op.exec s = some t → Throughout ImportOp.exec may (InOrder opts stale s₀) k t) :
    Throughout ImportOp.exec may (InOrder opts stale s₀) (on_store op k) s :=
  ⟨h.in_order (by simp), hok, fun _ => h.drop_store _⟩

/-- `transaction.db` is published, if it was asked for; the store is next. -/
structure TxdbPublished (opts : ImportOptions) (stale : Bool) (s₀ s : ImportFiles) : Prop where
  dat : s.store .dat = s₀.store .dat
  key : s.store .key = s₀.store .key
  ledger_rows : s.ledger_rows = s₀.ledger_rows
  txdb : (opts.txdb = false ∧ s.txdb = s₀.txdb) ∨
    (opts.txdb = true ∧ s₀.txdb = none ∧ s.txdb = some (.new stale))

namespace TxdbPublished

variable (h : TxdbPublished opts stale s₀ s)

include h

theorem whole : s.txdb = s₀.txdb ∨
    (opts.txdb = true ∧ s₀.txdb = none ∧ s.txdb = some (.new stale)) :=
  h.txdb.imp_left And.right

theorem new (htx : opts.txdb = true) : s₀.txdb = none ∧ s.txdb = some (.new stale) := by
  rcases h.txdb with ⟨hno, -⟩ | ⟨-, hnone, hnew⟩
  · rw [htx] at hno
    cases hno
  · exact ⟨hnone, hnew⟩

/-- From there on any files of the store are in order, and with the new
    store in place any rows. -/
theorem in_order {files : Files} {rows : Nat} {result : Option (Except ImportError Unit)}
    (hrows : rows ≠ s₀.ledger_rows → StoreInPlace files)
    (hlate : ∀ e, result = some (.error e) → e.early = false)
    (hdone : result = some (.ok ()) → StoreInPlace files ∧
      ∀ n, opts.ledger_db = some n → rows = s₀.ledger_rows + n) :
    InOrder opts stale s₀ { s with store := files, ledger_rows := rows } result where
  txdb_whole := h.whole
  store_second := fun htx _ => (h.new htx).2
  rows_last := fun hne => ⟨hrows hne, fun htx => (h.new htx).2⟩
  refused := fun htx hne => absurd (h.new htx).1 hne
  kept := fun e he hearly => by
    rw [hlate e he] at hearly
    cases hearly
  done := fun hok => ⟨(hdone hok).1, fun htx => (h.new htx).2, (hdone hok).2⟩

/-- The rows, one after the other. -/
theorem insert_rows {files : Files} (hfiles : StoreInPlace files) {k left : Nat}
    (hk : ∀ n, opts.ledger_db = some n → k + left = n) :
    Throughout ImportOp.exec may (InOrder opts stale s₀) (insert_rows k left)
      { s with store := files, ledger_rows := s₀.ledger_rows + k } := by
  induction left generalizing k with
  | zero =>
    refine h.in_order (fun _ => hfiles) (fun e he => nomatch he) fun _ => ⟨hfiles, fun n hn => ?_⟩
    rw [← hk n hn]
    rfl
  | succ left ih =>
    refine ⟨h.in_order (fun _ => hfiles) (fun e he => nomatch he) (fun hok => nomatch hok),
      fun t ht => ?_, fun _ => ?_⟩
    · obtain rfl := Option.some.inj ht
      refine ih fun n hn => ?_
      rw [← hk n hn]
      omega
    · refine h.in_order (fun _ => hfiles) (fun e he => ?_) fun hok => nomatch hok
      rw [← Except.error.inj (Option.some.inj he)]
      rfl

theorem write_ledger_rows {files : Files} (hfiles : StoreInPlace files) :
    Throughout ImportOp.exec may (InOrder opts stale s₀) (write_ledger_rows opts.ledger_db)
      { s with store := files } := by
  have hsame : ({ s with store := files } : ImportFiles) =
      { s with store := files, ledger_rows := s₀.ledger_rows + 0 } := by
    rw [Nat.add_zero, ← h.ledger_rows]
  rw [hsame]
  cases hdb : opts.ledger_db with
  | none =>
    refine h.in_order (fun _ => hfiles) (fun e he => nomatch he) fun _ => ⟨hfiles, fun n hn => ?_⟩
    rw [hdb] at hn
    cases hn
  | some rows =>
    refine ⟨h.in_order (fun _ => hfiles) (fun e he => nomatch he) (fun hok => nomatch hok),
      fun t ht => ?_, fun _ => ?_⟩
    · obtain rfl := Option.some.inj ht
      refine h.insert_rows hfiles fun n hn => ?_
      rw [hdb] at hn
      rw [Nat.zero_add]
      exact Option.some.inj hn
    · refine h.in_order (fun _ => hfiles) (fun e he => ?_) fun hok => nomatch hok
      rw [← Except.error.inj (Option.some.inj he)]
      rfl

theorem finish_store :
    Throughout ImportOp.exec may (InOrder opts stale s₀) (finish_store opts.ledger_db) s := by
  have hstop : ∀ (files : Files) {result : Option (Except ImportError Unit)},
      (∀ e, result = some (.error e) → e.early = false) → result ≠ some (.ok ()) →
      InOrder opts stale s₀ { s with store := files } result := by
    intro files result hlate hok
    exact @in_order opts stale s₀ s h files s.ledger_rows result
      (fun hne => absurd h.ledger_rows hne) hlate fun hc => absurd hc hok
  -- The program of the store sees its own files and leaves the rest.
  refine throughout_bind.mpr (@throughout_within _ FileOp _ FileOp.exec _ _ .store
    ImportFiles.store (fun files s => { s with store := files }) ImportOp.exec may (fun _ _ => rfl)
    (fun _ => rfl) (fun _ _ _ => rfl) (fun _ _ => rfl) _ _ s ?_)
  refine finish_files_in_place.mono fun files result hres => ?_
  match result with
  | none => exact hstop files (fun e he => nomatch he) fun hok => nomatch hok
  | some (.ok ()) => exact h.write_ledger_rows (hres rfl)
  | some (.error op) =>
    refine hstop files (fun e he => ?_) fun hok => nomatch hok
    rw [← Except.error.inj (Option.some.inj he)]
    rfl

end TxdbPublished

theorem Untouched.publish (h : Untouched s₀ s) (hfree : opts.txdb = true → s₀.txdb = none)
    (htmp : opts.txdb = true → s.txdb_tmp = some (.unfinished stale)) :
    Throughout ImportOp.exec may (InOrder opts stale s₀) (publish opts) s := by
  unfold LedgerArchive.publish
  split
  · next htx =>
    -- `COMMIT`, the indexes and closing change the temporary file only.
    refine h.on_store fun s₁ h₁ => ?_
    obtain rfl := Option.some.inj h₁
    refine (h.txdb_tmp _).on_store fun s₂ h₂ => ?_
    obtain rfl := Option.some.inj h₂
    refine ((h.txdb_tmp _).txdb_tmp _).on_store fun s₃ h₃ => ?_
    obtain rfl := Option.some.inj h₃
    refine ((h.txdb_tmp _).txdb_tmp _).on_store fun s₄ h₄ => ?_
    -- The file that was committed and indexed is renamed.
    obtain ⟨v, hv, rfl⟩ := Option.map_eq_some_iff.mp h₄
    dsimp only at hv
    rw [htmp htx] at hv
    obtain rfl := Option.some.inj hv
    exact TxdbPublished.finish_store
      ⟨h.dat, h.key, h.ledger_rows, .inr ⟨htx, hfree htx, rfl⟩⟩
  · next htx =>
    exact TxdbPublished.finish_store
      ⟨h.dat, h.key, h.ledger_rows, .inl ⟨by simpa using htx, h.txdb⟩⟩

theorem Untouched.replay_and_publish (h : Untouched s₀ s)
    (hfree : opts.txdb = true → s₀.txdb = none)
    (htmp : opts.txdb = true → s.txdb_tmp = some (.unfinished stale)) :
    Throughout ImportOp.exec may (InOrder opts stale s₀) (replay_and_publish opts) s := by
  refine ⟨h.in_order (by simp), fun t ht => ?_, fun _ => h.drop_both _ _⟩
  obtain rfl := Option.some.inj ht
  exact h.publish hfree htmp

/-- From where the temporary file is opened, over what is there. -/
theorem Untouched.open_tmp (h : Untouched s₀ s) (hfree : s₀.txdb = none)
    (hstale : s.txdb_tmp.isSome = stale) :
    Throughout ImportOp.exec may (InOrder opts stale s₀) (open_tmp opts) s := by
  refine h.on_store fun s₁ h₁ => ?_
  obtain rfl := Option.some.inj h₁
  refine (h.txdb_tmp _).on_store fun s₂ h₂ => ?_
  obtain rfl := Option.some.inj h₂
  refine (h.txdb_tmp _).on_store fun s₃ h₃ => ?_
  obtain rfl := Option.some.inj h₃
  refine (h.txdb_tmp _).replay_and_publish (fun _ => hfree) fun _ => ?_
  rw [← hstale]

/-- A run goes on from where the temporary file is opened. It is stale if one
    was there and could not be removed. -/
theorem Untouched.create_txdb {fails : Nat → ImportOp → Bool} (h : Untouched s₀ s) :
    Always ImportOp.exec fails
      (InOrder opts (s.txdb_tmp.isSome && fails 0 .remove_txdb_tmp) s₀) (create_txdb opts) s := by
  have hall : ∀ (fails : Nat → ImportOp → Bool) i o, fails i o = true → True :=
    fun _ _ _ _ => trivial
  unfold LedgerArchive.create_txdb
  split
  · rw [always_look]
    split
    · exact (h.drop_store _).always (hall _)
    · next hexists =>
      have hfree : s₀.txdb = none := by
        rw [← h.txdb]
        simpa using hexists
      rw [always_step]
      refine ⟨h.in_order (by simp), ?_⟩
      cases hfail : fails 0 .remove_txdb_tmp with
      | true =>
        -- What is there stays, and is opened as it is.
        rw [outcome_fail hfail, Bool.and_true]
        exact (h.open_tmp hfree rfl).always (hall _)
      | false =>
        have hremove : ImportOp.exec .remove_txdb_tmp s =
            s.txdb_tmp.map fun _ => { s with txdb_tmp := none } := rfl
        rw [outcome_ok hfail, Bool.and_false, hremove]
        -- A file left from earlier is removed, or there is none.
        cases htmp : s.txdb_tmp with
        | none => exact (h.open_tmp hfree (by rw [htmp]; rfl)).always (hall _)
        | some v => exact ((h.txdb_tmp none).open_tmp hfree rfl).always (hall _)
  · next htx =>
    refine (h.replay_and_publish (fun hc => absurd hc htx) fun hc => ?_).always (hall _)
    exact absurd hc htx

/-- Whatever fails and wherever it is stopped, an import publishes in order:
    `transaction.db` as a whole, then the store, then the rows. A chunk that
    does not replay leaves everything as it was. The new `transaction.db`
    holds nothing but what was imported, unless a temporary file was left
    from earlier and its removal, the step number 1, has failed. -/
theorem import_publishes_in_order (fails : Nat → ImportOp → Bool) (opts : ImportOptions)
    (s₀ : ImportFiles) (n : Nat) :
    InOrder opts (s₀.txdb_tmp.isSome && fails 1 .remove_txdb_tmp) s₀
      (run ImportOp.exec fails (import_files opts) n s₀).1
      (run ImportOp.exec fails (import_files opts) n s₀).2 := by
  have hstart : Untouched s₀ s₀ := ⟨rfl, rfl, rfl, rfl⟩
  have hall : Always ImportOp.exec fails
      (InOrder opts (s₀.txdb_tmp.isSome && fails 1 .remove_txdb_tmp) s₀) (import_files opts)
      s₀ := by
    unfold import_files
    rw [always_step]
    refine ⟨hstart.in_order (by simp), ?_⟩
    split
    -- The store has its temporary file; the removal is the next step.
    · next t ht =>
      obtain rfl := Option.some.inj (outcome_some ht)
      have hcreated : Untouched s₀ { s₀ with
          store := Function.update s₀.store .dat_tmp (some .unfinished) } :=
        hstart.store_tmp (by simp) (by simp)
      exact hcreated.create_txdb
    · exact always_ret.mpr (hstart.in_order (by simp))
  exact hall n

end LedgerArchive
