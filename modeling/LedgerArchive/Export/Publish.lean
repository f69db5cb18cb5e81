import LedgerArchive.Export.Resume
import LedgerArchive.Index.Cli
import LedgerArchive.Lib.Directory

/-! # What an export leaves in its directory (`ChunkWriter`, `xrla-export`)

    A chunk is written under a temporary name and renamed when it is
    finished. Every operation on the directory can fail, the node store and
    the ledger database can fail to answer, and the process can stop after
    any operation. Whatever happens, the files under final names are the
    first chunks of the range, each of them complete
    (`export_publishes`). -/

namespace LedgerArchive

open Lib

/-! ## The directory -/

/-- The writes to a chunk file. The header is written on its own, since the
    position behind it is asked for. -/
inductive Piece where
  | header
  | checkpoint
  | delta (seq : UInt32)
  | tx_map (seq : UInt32)
  | footer
  deriving DecidableEq

abbrev ExportDir := Directory String Bytes
abbrev ExportOp := DirOp String Piece Bytes

inductive ExportStop where
  | error (e : Error)
  | failed (op : ExportOp)
  deriving DecidableEq

abbrev ExportProg := Prog ExportDir ExportOp (Except ExportStop Unit)

def tmp_path (name : String) : String := name ++ ".tmp"

namespace Export

variable (e : Export) (args : Args)

def final_path : String := chunk_filename args.network_id e.chunk_start e.chunk_end

/-- `self.tmp_path` of the writer. -/
def tmp : String := tmp_path (e.final_path args)

end Export

/-! ## The program -/

section Program

variable (sha512half : Bytes → Hash256) (args : Args) (order : MapOrder)
  (get_node : Hash256 → Except Error SHAMapNode) (fuel : Nat) (ledger_db : LedgerIndex)

/-- An operation on the file of a `ChunkWriter`, which is removed by `Drop`
    when the operation fails. -/
def on_writer (e : Export) (op : ExportOp) (k : ExportProg) : ExportProg :=
  Prog.attempt (e.tmp args) op (.failed op) k

/-- `ChunkWriter::create`, the checkpoint and the first TX map. There is no
    writer to be dropped before the header is written. -/
def create_files (e : Export) (k : ExportProg) : ExportProg :=
  .step (.create (e.tmp args)) fun ok =>
    if ok then
      .step (.write (e.tmp args) .header) fun ok =>
        if ok then
          on_writer args e (.write (e.tmp args) .checkpoint)
            (on_writer args e (.write (e.tmp args) (.tx_map e.chunk_start)) k)
        else .ret (.error (.failed (.write (e.tmp args) .header)))
    else .ret (.error (.failed (.create (e.tmp args))))

/-- `ChunkWriter::finish`: the footer, the hash in the header, the rename. -/
def finish_file (e : Export) (k : ExportProg) : ExportProg :=
  on_writer args e (.write (e.tmp args) .footer)
    (on_writer args e (.complete (e.tmp args) (e.chunk_writer.finish sha512half).2)
      (on_writer args e (.rename (e.tmp args) (e.final_path args)) k))

/-- One ledger. -/
def export_ledger_files (e : Export) (seq : UInt32) (info : LedgerInfo) (ledger_hash : Hash256)
    (diff : SHAMapDiff) (k : Export → ExportProg) : ExportProg :=
  match ledger_txns get_node fuel info seq with
  | .error err => Prog.give_up (e.tmp args) (.error err)
  | .ok txns =>
    if seq - e.chunk_start = args.chunk_size then
      let e' := e.new_chunk sha512half args order seq info ledger_hash diff txns
      finish_file sha512half args e (create_files args e' (k e'))
    else
      on_writer args e (.write (e.tmp args) (.delta seq))
        (on_writer args e (.write (e.tmp args) (.tx_map seq))
          (k (e.same_chunk seq info ledger_hash diff txns)))

def export_each (k : Export → ExportProg) :
    List (SHAMapDiff × UInt32 × LedgerInfo × Hash256) → Export → ExportProg
  | [], e => k e
  | (diff, seq, info, ledger_hash) :: ledgers, e =>
    export_ledger_files sha512half args order get_node fuel e seq info ledger_hash diff
      (export_each k ledgers)

/-- What a batch reads before it goes ledger by ledger. -/
def read_batch (prev_account_hash : Hash256) (seqs : List UInt32) (text : String) :
    Except Error (List (SHAMapDiff × UInt32 × LedgerInfo × Hash256)) := do
  let infos ← seqs.mapM ledger_db.get
  let ledger_hashes ← (infos.zip seqs).mapM fun (info, seq) => info.verify_ledger_hash sha512half seq
  let diffs ← with_context text (diff_batch_concurrent get_node fuel
    (batch_pairs prev_account_hash infos))
  pure (diffs.zip (seqs.zip (infos.zip ledger_hashes)))

def export_loop_files (batch_size : UInt32) : Nat → UInt32 → Export → ExportProg
  | 0, _, e => Prog.give_up (e.tmp args) (.error .fuel)
  | n + 1, seq, e =>
    if seq ≤ args.end then
      let batch_end := min (seq + batch_size - 1) args.end
      match read_batch sha512half get_node fuel ledger_db e.prev_account_hash (batch_seqs seq batch_end)
          s!"batch diff failed for ledgers {seq}..={batch_end}" with
      | .error err => Prog.give_up (e.tmp args) (.error err)
      | .ok ledgers => export_each sha512half args order get_node fuel
          (export_loop_files batch_size n (batch_end + 1)) ledgers e
    else finish_file sha512half args e (.ret (.ok ()))

/-- The exporter, from the checks of the arguments to the last rename. -/
def export_files (concurrency : Nat) : ExportProg :=
  let start : Except Error Export := do
    bail_if (args.end ≤ args.start) (.bail "--end must be greater than --start")
    bail_if (args.chunk_size = 0) (.bail "--chunk-size must be at least 1")
    export_start sha512half args order get_node fuel ledger_db concurrency
  match start with
  | .error err => .ret (.error (.error err))
  | .ok e => create_files args e (export_loop_files sha512half args order get_node fuel ledger_db
      (batch_size concurrency) fuel (args.start + 1) e)

end Program

/-! ## Names -/

theorem u32_digits_zeros (k : Nat) (s : List Char) :
    Index.u32_digits (List.replicate k '0' ++ s) 0 = Index.u32_digits s 0 := by
  induction k with
  | zero => rfl
  | succ k ih =>
    rw [List.replicate_succ, List.cons_append, Index.u32_digits, bail_if_neg (by decide)]
    show (bail_if _ _ >>= fun _ => _) = _
    rw [bail_if_neg (by decide)]
    exact ih

theorem pad10_toList (n : UInt32) : (pad10 n).toList =
    List.replicate (10 - (Nat.toDigits 10 n.toNat).length) '0' ++ Nat.toDigits 10 n.toNat := by
  have hdigits : (toString n.toNat).toList = Nat.toDigits 10 n.toNat := Nat.toList_repr
  have hlength : (toString n.toNat).length = (Nat.toDigits 10 n.toNat).length := by
    rw [← String.length_toList, hdigits]
  unfold pad10
  dsimp only
  rw [String.toList_append, String.toList_ofList, hdigits, hlength]

/-- The padded number reads back. -/
theorem pad10_read (n : UInt32) : Index.u32_digits (pad10 n).toList 0 = .ok n.toNat := by
  rw [pad10_toList, u32_digits_zeros, Index.u32_digits_toDigits n.toNat_lt]

theorem pad10_length (n : UInt32) : (pad10 n).toList.length = 10 := by
  have hmax := n.toNat_lt
  have hle : (Nat.toDigits 10 n.toNat).length ≤ 10 :=
    (Nat.length_toDigits_le_iff (by decide) (by decide)).mpr (by omega)
  rw [pad10_toList, List.length_append, List.length_replicate]
  omega

theorem chunk_filename_toList (network_id first last : UInt32) :
    (chunk_filename network_id first last).toList =
      ("xrla_" ++ toString network_id ++ "_").toList ++ ((pad10 first).toList ++
        ("_".toList ++ (pad10 last).toList ++ ".xrla".toList)) := by
  unfold chunk_filename
  simp only [String.toList_append, List.append_assoc]
  rfl

theorem pad10_inj {a b : UInt32} (h : (pad10 a).toList = (pad10 b).toList) : a = b := by
  have hread := pad10_read a
  rw [h, pad10_read b] at hread
  exact UInt32.toNat_inj.mp (Except.ok.inj hread).symm

/-- The name of a chunk tells its first and its last ledger. -/
theorem chunk_filename_inj {network_id first last first' last' : UInt32}
    (h : chunk_filename network_id first last = chunk_filename network_id first' last') :
    first = first' ∧ last = last' := by
  have h := congrArg String.toList h
  rw [chunk_filename_toList, chunk_filename_toList] at h
  obtain ⟨-, h⟩ := List.append_inj h rfl
  obtain ⟨hfirst, h⟩ := List.append_inj h (by rw [pad10_length, pad10_length])
  obtain ⟨h, -⟩ := List.append_inj' h rfl
  obtain ⟨-, hlast⟩ := List.append_inj h rfl
  exact ⟨pad10_inj hfirst, pad10_inj hlast⟩

/-- No chunk has the temporary name of another one: the names of all chunks
    are of the same length. -/
theorem chunk_filename_ne_tmp (network_id first last first' last' : UInt32) :
    chunk_filename network_id first last ≠ tmp_path (chunk_filename network_id first' last') := by
  intro h
  have h := congrArg List.length (congrArg String.toList h)
  unfold tmp_path at h
  rw [String.toList_append, List.length_append, chunk_filename_toList, chunk_filename_toList] at h
  simp only [List.length_append, pad10_length] at h
  have hsuffix : ".tmp".toList.length = 4 := rfl
  omega

/-! ## How far an export has come -/

section Reached

variable (sha512half : Bytes → Hash256) (args : Args) (order : MapOrder)
  (get_node : Hash256 → Except Error SHAMapNode) (fuel : Nat) (ledger_db : LedgerIndex)
  (concurrency : Nat)

/-- The exporter behind the ledger `last`, if the ledgers are taken one after
    the other. -/
inductive Reached : Export → UInt32 → Prop
  | start {e : Export} (hrange : args.start < args.end) (hsize : args.chunk_size ≠ 0)
      (h : export_start sha512half args order get_node fuel ledger_db concurrency = .ok e) :
      Reached e args.start
  | next {e e' : Export} {last : UInt32} (h : Reached e last) (hlt : last < args.end)
      (hnext : export_next sha512half args order get_node fuel ledger_db e (last + 1) = .ok e') :
      Reached e' (last + 1)

/-- The files that an export may have published, and the file it writes. -/
inductive Progress : List ChunkFile → String → Prop
  | nothing : Progress [] (tmp_path (chunk_filename args.network_id args.start args.end))
  | writing {e : Export} {last : UInt32}
      (h : Reached sha512half args order get_node fuel ledger_db concurrency e last) :
      Progress e.files (e.tmp args)
  | finished {e : Export}
      (h : Reached sha512half args order get_node fuel ledger_db concurrency e args.end) :
      Progress (e.finish_chunk sha512half args) (e.tmp args)

/-- The directory with these chunks in it. -/
def place (d : ExportDir) (files : List ChunkFile) : ExportDir :=
  publish_all ChunkFile.name (fun f => tmp_path f.name) ChunkFile.bytes d files

/-- The directory that an export can be stopped in, and its result. -/
structure Stops (may : ExportOp → Prop) (d₀ d : ExportDir)
    (result : Option (Except ExportStop Unit)) (files : List ChunkFile) (tmp : String) : Prop where
  progress : Progress sha512half args order get_node fuel ledger_db concurrency files tmp
  same_but : SameBut tmp d (place d₀ files)
  done : result = some (.ok ()) → d = place d₀ files ∧
    ∃ e, Reached sha512half args order get_node fuel ledger_db concurrency e args.end ∧
      files = e.finish_chunk sha512half args
  cleaned : ∀ stop, result = some (.error stop) →
    d = place d₀ files ∨ Prog.Cleaned may tmp d ∨ may (.write tmp .header)

end Reached

variable {sha512half : Bytes → Hash256} {args : Args} {order : MapOrder}
  {get_node : Hash256 → Except Error SHAMapNode} {fuel : Nat} {ledger_db : LedgerIndex}
  {concurrency : Nat} {e e' : Export} {last : UInt32} {may : ExportOp → Prop} {d₀ d : ExportDir}
  {k : ExportProg}

open Prog

/-- Some files are published, and the rest is as `Stops` says. -/
def StopsIn (sha512half : Bytes → Hash256) (args : Args) (order : MapOrder)
    (get_node : Hash256 → Except Error SHAMapNode) (fuel : Nat) (ledger_db : LedgerIndex)
    (concurrency : Nat) (may : ExportOp → Prop) (d₀ d : ExportDir)
    (result : Option (Except ExportStop Unit)) : Prop :=
  ∃ files tmp, Stops sha512half args order get_node fuel ledger_db concurrency may d₀ d result
    files tmp

section Reach

variable (h : Reached sha512half args order get_node fuel ledger_db concurrency e last)

include h

theorem Reached.stops_cut (hd : SameBut (e.tmp args) d (place d₀ e.files)) :
    StopsIn sha512half args order get_node fuel ledger_db concurrency may d₀ d none :=
  ⟨_, _, .writing h, hd, fun hok => (nomatch hok), fun _ herr => (nomatch herr)⟩

theorem Reached.stops_error (hd : SameBut (e.tmp args) d (place d₀ e.files)) (stop : ExportStop)
    (hclean : d = place d₀ e.files ∨ Cleaned may (e.tmp args) d ∨
      may (.write (e.tmp args) .header)) :
    StopsIn sha512half args order get_node fuel ledger_db concurrency may d₀ d
      (some (.error stop)) :=
  ⟨_, _, .writing h, hd, fun hok => (nomatch hok), fun _ _ => hclean⟩

/-- An operation on the chunk that is being written. -/
theorem Reached.on_writer (hd : SameBut (e.tmp args) d (place d₀ e.files)) {op : ExportOp}
    (hop : op.Within (e.tmp args))
    (hok : ∀ d', op.exec d = some d' → SameBut (e.tmp args) d' (place d₀ e.files) →
      Throughout DirOp.exec may
        (StopsIn sha512half args order get_node fuel ledger_db concurrency may d₀) k d') :
    Throughout DirOp.exec may
      (StopsIn sha512half args order get_node fuel ledger_db concurrency may d₀)
      (on_writer args e op k) d :=
  throughout_attempt hd hop (fun _ hsame => h.stops_cut hsame)
    (fun _ hsame hclean => h.stops_error hsame _ (.inr (.inl hclean))) hok

theorem Reached.give_up (hd : SameBut (e.tmp args) d (place d₀ e.files)) (stop : ExportStop) :
    Throughout DirOp.exec may
      (StopsIn sha512half args order get_node fuel ledger_db concurrency may d₀)
      (Prog.give_up (e.tmp args) stop) d :=
  throughout_give_up hd stop (fun _ hsame => h.stops_cut hsame)
    fun _ hsame hclean => h.stops_error hsame _ (.inr (.inl hclean))

/-- A new chunk, up to its first TX map. -/
theorem Reached.create_files (hd : d = place d₀ e.files)
    (hk : ∀ d', SameBut (e.tmp args) d' (place d₀ e.files) → Throughout DirOp.exec may
      (StopsIn sha512half args order get_node fuel ledger_db concurrency may d₀) k d') :
    Throughout DirOp.exec may
      (StopsIn sha512half args order get_node fuel ledger_db concurrency may d₀)
      (create_files args e k) d := by
  have hsame : SameBut (e.tmp args) d (place d₀ e.files) := hd ▸ SameBut.refl d
  refine ⟨h.stops_cut hsame, fun d₁ hd₁ => ?_, fun _ => h.stops_error hsame _ (.inl hd)⟩
  have hsame₁ := hsame.exec hd₁ rfl
  refine ⟨h.stops_cut hsame₁, fun d₂ hd₂ => ?_, fun hfail => ?_⟩
  · have hsame₂ := hsame₁.exec hd₂ rfl
    refine h.on_writer hsame₂ rfl fun d₃ _ hsame₃ => ?_
    exact h.on_writer hsame₃ rfl fun d₄ _ hsame₄ => hk d₄ hsame₄
  · refine h.stops_error hsame₁ _ (.inr (.inr ?_))
    -- The file is there, so the write of its header failed on its own.
    rcases hfail with hfail | hnone
    · exact hfail
    · rw [← Option.some.inj hd₁] at hnone
      simp [DirOp.exec] at hnone

/-- The chunk is finished and published. -/
theorem Reached.finish_file (hd : SameBut (e.tmp args) d (place d₀ e.files))
    (hk : Throughout DirOp.exec may
      (StopsIn sha512half args order get_node fuel ledger_db concurrency may d₀) k
        (place d₀ (e.finish_chunk sha512half args))) :
    Throughout DirOp.exec may
      (StopsIn sha512half args order get_node fuel ledger_db concurrency may d₀)
      (finish_file sha512half args e k) d := by
  unfold LedgerArchive.finish_file
  refine h.on_writer hd rfl fun d₁ hd₁ hsame₁ => ?_
  refine h.on_writer hsame₁ rfl fun d₂ hd₂ hsame₂ => ?_
  obtain ⟨_, -, rfl⟩ := Option.map_eq_some_iff.mp hd₂
  -- The file is whole now, and the rename publishes it.
  refine throughout_attempt_rename hsame₂ (Function.update_self ..) (fun _ hsame => h.stops_cut hsame)
    (fun _ hsame hclean => h.stops_error hsame _ (.inr (.inl hclean))) ?_
  unfold place at hk
  unfold Export.finish_chunk at hk
  rw [publish_all_append] at hk
  exact hk

end Reach

/-! ## The loop -/

/-- What a batch reads of its first ledger. -/
theorem read_batch_cons {prev : Hash256} {seq : UInt32} {seqs : List UInt32} {text : String}
    {ledgers : List (SHAMapDiff × UInt32 × LedgerInfo × Hash256)}
    (h : read_batch sha512half get_node fuel ledger_db prev (seq :: seqs) text = .ok ledgers) :
    ∃ info ledger_hash diff rest, ledger_db.get seq = .ok info ∧
      info.verify_ledger_hash sha512half seq = .ok ledger_hash ∧
      LedgerArchive.diff get_node fuel prev info.account_hash = .ok diff ∧
      ledgers = (diff, seq, info, ledger_hash) :: rest ∧
      read_batch sha512half get_node fuel ledger_db info.account_hash seqs text = .ok rest := by
  unfold read_batch diff_batch_concurrent at h ⊢
  simp only [bind_eq_ok, with_context_eq_ok, pure_eq_ok] at h ⊢
  obtain ⟨infos, hinfos, hashes, hhashes, diffs, hdiffs, rfl⟩ := h
  obtain ⟨info, infos', hinfo, hinfos', rfl⟩ := mapM_cons_ok.mp hinfos
  obtain ⟨ledger_hash, hashes', hhash, hhashes', rfl⟩ := mapM_cons_ok.mp hhashes
  obtain ⟨diff, diffs', hdiff, hdiffs', rfl⟩ := mapM_cons_ok.mp hdiffs
  exact ⟨info, ledger_hash, diff, _, hinfo, hhash, hdiff, rfl, infos', hinfos', hashes', hhashes',
    diffs', hdiffs', rfl⟩

section Run

variable {step : Export → ExportProg}

/-- One ledger, which leaves the exporter at the next one. -/
theorem Reached.ledger {info : LedgerInfo} {ledger_hash : Hash256} {diff : SHAMapDiff}
    (h : Reached sha512half args order get_node fuel ledger_db concurrency e last)
    (hlt : last < args.end) (hrow : ledger_db.get (last + 1) = .ok info)
    (hhash : info.verify_ledger_hash sha512half (last + 1) = .ok ledger_hash)
    (hdiff : LedgerArchive.diff get_node fuel e.prev_account_hash info.account_hash = .ok diff)
    (hd : SameBut (e.tmp args) d (place d₀ e.files))
    (hk : ∀ e' d', Reached sha512half args order get_node fuel ledger_db concurrency e' (last + 1) →
      e'.prev_account_hash = info.account_hash → SameBut (e'.tmp args) d' (place d₀ e'.files) →
      Throughout DirOp.exec may
        (StopsIn sha512half args order get_node fuel ledger_db concurrency may d₀) (step e') d') :
    Throughout DirOp.exec may
      (StopsIn sha512half args order get_node fuel ledger_db concurrency may d₀)
      (export_ledger_files sha512half args order get_node fuel e (last + 1) info ledger_hash diff
        step) d := by
  have hnext : ∀ {e'}, export_ledger sha512half args order get_node fuel e (last + 1) info ledger_hash
      diff = .ok e' →
      Reached sha512half args order get_node fuel ledger_db concurrency e' (last + 1) := by
    intro e' hledger
    exact .next h hlt (bind_eq_ok.mpr ⟨info, hrow, bind_eq_ok.mpr ⟨ledger_hash, hhash,
      bind_eq_ok.mpr ⟨diff, hdiff, hledger⟩⟩⟩)
  unfold export_ledger_files
  cases htxns : ledger_txns get_node fuel info (last + 1) with
  | error err => exact h.give_up hd _
  | ok txns =>
    dsimp only
    by_cases hcase : last + 1 - e.chunk_start = args.chunk_size
    · rw [if_pos hcase]
      -- The chunk is full: it is published, and the ledger begins the next one.
      have hreached := hnext ((export_ledger_new hcase).trans (bind_of_ok htxns _))
      refine h.finish_file hd ?_
      exact hreached.create_files rfl fun d' hsame => hk _ d' hreached rfl hsame
    · rw [if_neg hcase]
      have hreached := hnext ((export_ledger_same hcase).trans (bind_of_ok htxns _))
      refine h.on_writer hd rfl fun d₁ _ hsame₁ => ?_
      exact h.on_writer hsame₁ rfl fun d₂ _ hsame₂ => hk _ d₂ hreached rfl hsame₂

/-- The ledgers of a batch, by induction on how many there are. -/
theorem Reached.each (n : Nat) {text : String}
    {ledgers : List (SHAMapDiff × UInt32 × LedgerInfo × Hash256)}
    (h : Reached sha512half args order get_node fuel ledger_db concurrency e last)
    (hle : last.toNat + n ≤ args.end.toNat)
    (hread : read_batch sha512half get_node fuel ledger_db e.prev_account_hash
      ((List.range' (last.toNat + 1) n).map UInt32.ofNat) text = .ok ledgers)
    (hd : SameBut (e.tmp args) d (place d₀ e.files))
    (hk : ∀ e' d' last', last'.toNat = last.toNat + n →
      Reached sha512half args order get_node fuel ledger_db concurrency e' last' →
      SameBut (e'.tmp args) d' (place d₀ e'.files) → Throughout DirOp.exec may
        (StopsIn sha512half args order get_node fuel ledger_db concurrency may d₀) (step e') d') :
    Throughout DirOp.exec may
      (StopsIn sha512half args order get_node fuel ledger_db concurrency may d₀)
      (export_each sha512half args order get_node fuel step ledgers e) d := by
  induction n generalizing e last d ledgers with
  | zero =>
    obtain rfl : ledgers = [] := (Except.ok.inj hread).symm
    exact hk e d last rfl h hd
  | succ n ih =>
    have hlt : last < args.end := UInt32.lt_iff_toNat_lt.mpr (by omega)
    have hsucc := toNat_succ_of_lt hlt
    rw [List.range'_succ, List.map_cons, ← hsucc, UInt32.ofNat_toNat] at hread
    obtain ⟨info, ledger_hash, diff, rest, hrow, hhash, hdiff, rfl, hrest⟩ := read_batch_cons hread
    -- The rest of the batch starts from the account hash of this ledger.
    refine h.ledger hlt hrow hhash hdiff hd fun e' d' hreached hprev hsame => ?_
    refine ih hreached (by omega) (hprev ▸ hrest) hsame fun e'' d'' last' hlast => ?_
    exact hk e'' d'' last' (by omega)

end Run

/-- The loop, from any ledger on. -/
theorem Reached.loop {batch seq : UInt32} (n : Nat)
    (h : Reached sha512half args order get_node fuel ledger_db concurrency e last)
    (hle : last ≤ args.end) (hseq : seq.toNat = last.toNat + 1)
    (hw : NoWrap args batch seq.toNat) (hmax : args.end.toNat + 1 < 2 ^ 32)
    (hd : SameBut (e.tmp args) d (place d₀ e.files)) :
    Throughout DirOp.exec may
      (StopsIn sha512half args order get_node fuel ledger_db concurrency may d₀)
      (export_loop_files sha512half args order get_node fuel ledger_db batch n seq e) d := by
  induction n generalizing e last d seq with
  | zero => exact h.give_up hd _
  | succ n ih =>
    rw [UInt32.le_iff_toNat_le] at hle
    unfold export_loop_files
    by_cases hin : seq ≤ args.end
    · rw [if_pos hin]
      -- A batch ends at the end of the range or is full.
      obtain ⟨hfirst, hcase⟩ := batch_end_spec hw hin (by omega)
      generalize hbatch : min (seq + batch - 1) args.end = batch_end at hfirst hcase ⊢
      have hend : batch_end.toNat ≤ args.end.toNat := by
        rcases hcase with ⟨rfl, -⟩ | ⟨hlt, -⟩
        · exact le_rfl
        · exact Nat.le_of_lt (UInt32.lt_iff_toNat_lt.mp hlt)
      have hnext : (batch_end + 1).toNat = batch_end.toNat + 1 := toNat_succ (by omega)
      rw [UInt32.le_iff_toNat_le] at hfirst
      dsimp only
      split
      · exact h.give_up hd _
      · next ledgers hread =>
        have hcount : batch_end.toNat + 1 - seq.toNat = batch_end.toNat - last.toNat := by omega
        rw [batch_seqs, hseq, ← hseq, hcount, hseq] at hread
        refine h.each (batch_end.toNat - last.toNat) (by omega) hread hd
          fun e' d' last' hlast' hreached hsame => ?_
        have hlast : last' = batch_end := UInt32.toNat_inj.mp (by omega)
        rw [hlast] at hreached
        refine ih hreached (UInt32.le_iff_toNat_le.mpr hend) hnext ?_ hsame
        rcases hcase with ⟨rfl, -⟩ | ⟨-, hfull⟩
        · -- There is no batch behind the end.
          refine ⟨hw.1, fun k hk => ?_⟩
          omega
        · rw [hfull]
          exact hw.next
    · rw [if_neg hin]
      -- All ledgers are taken; what is left is the last chunk.
      have hlast : last = args.end := by
        apply UInt32.toNat_inj.mp
        rw [UInt32.le_iff_toNat_le] at hin
        omega
      rw [hlast] at h
      refine h.finish_file hd (?_)
      exact ⟨_, _, .finished h, SameBut.refl _, fun _ => ⟨rfl, _, h, rfl⟩, fun _ herr => by cases herr⟩

theorem export_files_stops (hf : NumbersFit args (batch_size concurrency)) :
    Throughout DirOp.exec may
      (StopsIn sha512half args order get_node fuel ledger_db concurrency may d₀)
      (export_files sha512half args order get_node fuel ledger_db concurrency) d₀ := by
  unfold export_files
  dsimp only
  split
  · exact ⟨[], _, .nothing, SameBut.refl _, fun hok => (nomatch hok),
      fun _ _ => .inl rfl⟩
  · next e hstart =>
    obtain ⟨hrange, hstart⟩ := bail_if_bind_ok.mp hstart
    obtain ⟨hsize, hstart⟩ := bail_if_bind_ok.mp hstart
    have hrange := UInt32.not_le.mp hrange
    have hsucc := toNat_succ_of_lt hrange
    have hreached : Reached sha512half args order get_node fuel ledger_db concurrency e args.start :=
      .start hrange hsize hstart
    -- Nothing is published before the first chunk is full.
    have hfiles : e.files = [] := by
      unfold export_start at hstart
      simp only [bind_eq_ok, pure_eq_ok] at hstart
      obtain ⟨info, -, ledger_hash, -, nodes, -, txns, -, rfl⟩ := hstart
      rfl
    refine hreached.create_files ?_ fun d' hsame => ?_
    · rw [hfiles]
      rfl
    · refine hreached.loop fuel (UInt32.le_of_lt hrange) hsucc ?_ hf.end_lt hsame
      rw [hsucc]
      exact hf.no_wrap

/-! ## What is published -/

/-- The ledgers that were taken, as a fold. -/
theorem Reached.fold (h : Reached sha512half args order get_node fuel ledger_db concurrency e last) :
    ∃ e₀, args.start < args.end ∧ args.chunk_size ≠ 0 ∧
      export_start sha512half args order get_node fuel ledger_db concurrency = .ok e₀ ∧
      args.start ≤ last ∧ last ≤ args.end ∧
      (batch_seqs (args.start + 1) last).foldlM
        (export_next sha512half args order get_node fuel ledger_db) e₀ = .ok e := by
  induction h with
  | @start e hrange hsize hstart =>
    refine ⟨e, hrange, hsize, hstart, UInt32.le_refl _, UInt32.le_of_lt hrange, ?_⟩
    rw [batch_seqs_empty]
    · rfl
    · rw [UInt32.lt_iff_toNat_lt, toNat_succ_of_lt hrange]
      exact Nat.lt_succ_self _
  | @next e e' last _ hlt hnext ih =>
    obtain ⟨e₀, hrange, hsize, hstart, hfirst, -, hfold⟩ := ih
    have hsucc := toNat_succ_of_lt hlt
    have hlt' := UInt32.lt_iff_toNat_lt.mp hlt
    rw [UInt32.le_iff_toNat_le] at hfirst
    refine ⟨e₀, hrange, hsize, hstart, UInt32.le_iff_toNat_le.mpr (by omega),
      UInt32.le_iff_toNat_le.mpr (by omega), ?_⟩
    rw [batch_seqs_next (by rw [toNat_succ_of_lt hrange]; omega) hsucc]
    exact foldlM_append_ok.mpr ⟨e, hfold, foldlM_cons_ok.mpr ⟨e', hnext, foldlM_nil_ok.mpr rfl⟩⟩

theorem Reached.running (hmax : args.end.toNat + 1 < 2 ^ 32)
    (h : Reached sha512half args order get_node fuel ledger_db concurrency e last) :
    ∃ done current,
      Running sha512half args get_node fuel ledger_db concurrency e last done current := by
  induction h with
  | start hrange hsize hstart =>
    rw [UInt32.lt_iff_toNat_lt] at hrange
    obtain ⟨current, hrunning⟩ := Running.start hsize (by omega) hstart
    exact ⟨[], current, hrunning⟩
  | next h hlt hnext ih =>
    obtain ⟨-, -, hsize, -⟩ := h.fold
    obtain ⟨done, current, hrunning⟩ := ih
    exact hrunning.next hsize hmax (UInt32.lt_iff_toNat_lt.mp hlt) hnext

theorem Reached.keyed (h : Reached sha512half args order get_node fuel ledger_db concurrency e last) :
    Keyed e.state := by
  induction h with
  | start _ _ hstart => exact export_start_keyed hstart
  | next _ _ hnext ih => exact export_next_keyed ih hnext

/-- With more answers from the store the exporter comes as far. -/
theorem Reached.more {get_node' : Hash256 → Except Error SHAMapNode} {fuel' : Nat}
    (h : Reached sha512half args order get_node fuel ledger_db concurrency e last)
    (ha : Answers get_node get_node') (hle : fuel ≤ fuel') :
    Reached sha512half args order get_node' fuel' ledger_db concurrency e last := by
  induction h with
  | @start e hrange hsize hstart =>
    exact .start hrange hsize (export_start_within ha hle concurrency e hstart)
  | @next e e' last h hlt hnext ih =>
    exact .next ih hlt (export_next_within order ha hle h.keyed (last + 1) e' hnext)

/-- No file is taken back. -/
theorem export_all_files {seqs : List UInt32}
    (h : seqs.foldlM (export_next sha512half args order get_node fuel ledger_db) e = .ok e') :
    e.files <+: e'.files := by
  induction seqs generalizing e with
  | nil => rw [foldlM_nil_ok.mp h]
  | cons seq seqs ih =>
    obtain ⟨e₁, hnext, h⟩ := foldlM_cons_ok.mp h
    refine List.IsPrefix.trans ?_ (ih h)
    obtain ⟨info, -, hnext⟩ := bind_eq_ok.mp hnext
    obtain ⟨ledger_hash, -, hnext⟩ := bind_eq_ok.mp hnext
    obtain ⟨d, -, hnext⟩ := bind_eq_ok.mp hnext
    -- Only a full chunk is added to the files.
    by_cases hcase : seq - e.chunk_start = args.chunk_size
    · rw [export_ledger_new hcase] at hnext
      obtain ⟨txns, -, hnext⟩ := bind_eq_ok.mp hnext
      rw [← pure_eq_ok.mp hnext]
      exact List.prefix_append _ _
    · rw [export_ledger_same hcase] at hnext
      obtain ⟨txns, -, hnext⟩ := bind_eq_ok.mp hnext
      rw [← pure_eq_ok.mp hnext]
      exact List.prefix_rfl

/-- An export that comes to its end goes on from wherever it has been. -/
theorem Reached.rest (hf : NumbersFit args (batch_size concurrency))
    (h : Reached sha512half args order get_node fuel ledger_db concurrency e last)
    {files : List ChunkFile}
    (hmain : export_main sha512half args order get_node fuel ledger_db concurrency = .ok files) :
    ∃ e', (batch_seqs (last + 1) args.end).foldlM
        (export_next sha512half args order get_node fuel ledger_db) e = .ok e' ∧
      e'.finish_chunk sha512half args = files := by
  obtain ⟨e₀, hrange, -, hstart, hfirst, hlast, hfold⟩ := h.fold
  obtain ⟨-, -, e₀', e', hstart', hloop, hfiles⟩ := export_main_ok.mp hmain
  obtain rfl := Except.ok.inj (hstart.symm.trans hstart')
  have hmax := hf.end_lt
  have hsucc := toNat_succ_of_lt hrange
  have hw : NoWrap args (batch_size concurrency) (args.start + 1).toNat := hsucc ▸ hf.no_wrap
  have hall := (export_loop_iff hw (by omega)).mp ⟨fuel, hloop⟩
  refine ⟨e', ?_, hfiles⟩
  rw [UInt32.le_iff_toNat_le] at hfirst hlast
  have hnext : (last + 1).toNat = last.toNat + 1 := toNat_succ (by omega)
  -- The whole loop begins with the one that got to `e`.
  rw [← batch_seqs_append (by omega) (UInt32.le_iff_toNat_le.mpr hlast) hnext] at hall
  obtain ⟨e₁, hhead, htail⟩ := foldlM_append_ok.mp hall
  obtain rfl := Except.ok.inj (hfold.symm.trans hhead)
  exact htail

/-- At the last ledger there is nothing left to take. -/
theorem Reached.main (hf : NumbersFit args (batch_size concurrency))
    (h : Reached sha512half args order get_node fuel ledger_db concurrency e args.end) :
    ∃ fuel', export_main sha512half args order get_node fuel' ledger_db concurrency =
      .ok (e.finish_chunk sha512half args) := by
  obtain ⟨e₀, hrange, hsize, hstart, -, -, hfold⟩ := h.fold
  exact export_main_ends hf hrange hsize hstart hfold

section Leaves

variable (sha512half : Bytes → Hash256) (args : Args) (order : MapOrder)
  (get_node : Hash256 → Except Error SHAMapNode) (fuel : Nat) (ledger_db : LedgerIndex)
  (concurrency : Nat)

/-- The first chunks of the range, without a gap and each of them complete.
    What is in front of the end of the range is full chunks. -/
structure FirstChunks (chunks : List WrittenChunk) : Prop where
  tiles : ∃ next,
    Tiles WrittenChunk.first_ledger WrittenChunk.next_ledger args.start.toNat chunks next ∧
      (next ≤ args.end.toNat → ∃ k, next = args.start.toNat + k * args.chunk_size.toNat)
  within : ∀ c ∈ chunks, c.header.end_ledger ≤ args.end
  complete : ∀ c ∈ chunks, CompleteUpTo sha512half args get_node fuel ledger_db concurrency c
    c.header.end_ledger

/-- What an export leaves in the directory: these chunks, and perhaps the
    temporary file of the next one. -/
structure ExportLeaves (may : ExportOp → Prop) (d₀ d : ExportDir)
    (result : Option (Except ExportStop Unit)) (chunks : List WrittenChunk) (tmp : String) :
    Prop where
  first : FirstChunks sha512half args get_node fuel ledger_db concurrency chunks
  /-- Each chunk is there as a whole. -/
  whole : ∀ c ∈ chunks, d (c.file sha512half).name = some (.whole (c.file sha512half).bytes)
  /-- No other file has changed, but for temporary ones. -/
  others : ∀ name, name ≠ tmp → (∀ c ∈ chunks, name ≠ (c.file sha512half).name ∧
    name ≠ tmp_path (c.file sha512half).name) → d name = d₀ name
  tmp_name : ∃ a b, tmp = tmp_path (chunk_filename args.network_id a b)
  /-- They are the first files of every export of the range that comes to
      its end, also of one that has more answers from the store. -/
  part : ∀ get_node' fuel' files, Answers get_node get_node' → fuel ≤ fuel' →
    export_main sha512half args order get_node' fuel' ledger_db concurrency = .ok files →
      chunks.map (WrittenChunk.file sha512half) <+: files
  /-- So they are at any other level of concurrency at which no batch wraps
      around, and with any other order of iteration. -/
  part_level : ∀ get_node' fuel' order' concurrency' files, Answers get_node get_node' →
    Named get_node' → Unwrapped args concurrency' →
    export_main sha512half args order' get_node' fuel' ledger_db concurrency' = .ok files →
      chunks.map (WrittenChunk.file sha512half) <+: files
  /-- Without an error they are all the files, and nothing else has
      changed. -/
  done : result = some (.ok ()) →
    (∃ fuel', export_main sha512half args order get_node fuel' ledger_db concurrency =
        .ok (chunks.map (WrittenChunk.file sha512half))) ∧
      (∀ c ∈ chunks, d (tmp_path (c.file sha512half).name) = none) ∧
      ∀ name, (∀ c ∈ chunks, name ≠ (c.file sha512half).name ∧
        name ≠ tmp_path (c.file sha512half).name) → d name = d₀ name
  /-- Behind an error the temporary file is gone, unless it could not be
      removed or not even its header could be written. -/
  cleaned : ∀ stop, result = some (.error stop) → d tmp = none ∨ d tmp = d₀ tmp ∨
    may (.remove tmp) ∨ may (.write tmp .header)

end Leaves

theorem Progress.chunks {files : List ChunkFile} {tmp : String}
    (hf : NumbersFit args (batch_size concurrency))
    (h : Progress sha512half args order get_node fuel ledger_db concurrency files tmp) :
    ∃ chunks, files = chunks.map (WrittenChunk.file sha512half) ∧
      FirstChunks sha512half args get_node fuel ledger_db concurrency chunks ∧
      (∃ a b, tmp = tmp_path (chunk_filename args.network_id a b)) ∧
      ∀ get_node' fuel' files', Answers get_node get_node' → fuel ≤ fuel' →
        export_main sha512half args order get_node' fuel' ledger_db concurrency = .ok files' →
          files <+: files' := by
  have hmax := hf.end_lt
  cases h with
  | nothing =>
    have hgrid : args.start.toNat = args.start.toNat + 0 * args.chunk_size.toNat := by
      rw [Nat.zero_mul, Nat.add_zero]
    exact ⟨[], rfl, ⟨⟨args.start.toNat, rfl, fun _ => ⟨0, hgrid⟩⟩, by simp, by simp⟩, ⟨_, _, rfl⟩,
      fun _ _ _ _ _ _ => List.nil_prefix⟩
  | @writing e last h =>
    -- The chunk that is being written is not among the files.
    obtain ⟨done, current, hrunning⟩ := h.running hmax
    obtain ⟨-, -, -, -, -, hlast, -⟩ := h.fold
    rw [UInt32.le_iff_toNat_le] at hlast
    have hstart := hrunning.grid.start_le
    refine ⟨done, hrunning.files, ⟨⟨_, hrunning.tiles, fun _ => hrunning.grid.start⟩, ?_,
      hrunning.complete⟩, ⟨_, _, rfl⟩,
      fun get_node' fuel' files' ha hle hmain => ?_⟩
    · intro c hc
      have hnext : c.header.end_ledger.toNat + 1 ≤ e.chunk_start.toNat :=
        (hrunning.tiles.of_mem hc).2
      exact UInt32.le_iff_toNat_le.mpr (by omega)
    obtain ⟨e', hrest, rfl⟩ := (h.more ha hle).rest hf hmain
    exact (export_all_files hrest).trans (List.prefix_append _ _)
  | @finished e h =>
    obtain ⟨done, current, hrunning⟩ := h.running hmax
    obtain ⟨htiles, hcomplete⟩ := hrunning.close (hrunning.chunk_end_eq_end hf.chunks)
    refine ⟨done ++ [current], hrunning.finish,
      ⟨⟨_, htiles, fun hle => absurd hle (Nat.not_succ_le_self _)⟩, ?_, hcomplete⟩, ⟨_, _, rfl⟩,
      fun get_node' fuel' files' ha hle hmain => ?_⟩
    · intro c hc
      have hnext : c.header.end_ledger.toNat + 1 ≤ args.end.toNat + 1 := (htiles.of_mem hc).2
      exact UInt32.le_iff_toNat_le.mpr (by omega)
    obtain ⟨e', hrest, rfl⟩ := (h.more ha hle).rest hf hmain
    -- Nothing of the range is left, so these are all files.
    have hempty : args.end < args.end + 1 := by
      rw [UInt32.lt_iff_toNat_lt, toNat_succ hmax]
      exact Nat.lt_succ_self _
    rw [batch_seqs_empty hempty, foldlM_nil_ok] at hrest
    rw [hrest]

namespace FirstChunks

variable {chunks : List WrittenChunk}
  (h : FirstChunks sha512half args get_node fuel ledger_db concurrency chunks)

include h

theorem name_eq {c : WrittenChunk} (hc : c ∈ chunks) : (c.file sha512half).name =
    chunk_filename args.network_id c.header.start_ledger c.header.end_ledger := by
  rw [← (h.complete c hc).network_id]
  rfl

/-- All chunks have names of their own. -/
theorem names_nodup :
    ((chunks.map (WrittenChunk.file sha512half)).map ChunkFile.name).Nodup := by
  obtain ⟨next, htiles, -⟩ := h.tiles
  have hfirst := List.pairwise_map.mp htiles.first_nodup
  rw [List.map_map]
  refine List.pairwise_map.mpr (hfirst.imp_of_mem fun {c c'} hc hc' hne heq => hne ?_)
  have hname : (c.file sha512half).name = (c'.file sha512half).name := heq
  rw [h.name_eq hc, h.name_eq hc'] at hname
  exact congrArg UInt32.toNat (chunk_filename_inj hname).1

theorem names_ne_tmp : ∀ f ∈ chunks.map (WrittenChunk.file sha512half),
    ∀ g ∈ chunks.map (WrittenChunk.file sha512half), f.name ≠ tmp_path g.name := by
  intro f hf g hg
  obtain ⟨c, hc, rfl⟩ := List.mem_map.mp hf
  obtain ⟨c', hc', rfl⟩ := List.mem_map.mp hg
  rw [h.name_eq hc, h.name_eq hc']
  exact chunk_filename_ne_tmp _ _ _ _ _

end FirstChunks

theorem StopsIn.leaves {result : Option (Except ExportStop Unit)}
    (hf : NumbersFit args (batch_size concurrency))
    (h : StopsIn sha512half args order get_node fuel ledger_db concurrency may d₀ d result) :
    ∃ chunks tmp, ExportLeaves sha512half args order get_node fuel ledger_db concurrency may d₀ d
      result chunks tmp := by
  obtain ⟨files, tmp, hprogress, hsame, hdone, hclean⟩ := h
  obtain ⟨chunks, rfl, hfirst, ⟨a, b, rfl⟩, hpart⟩ := hprogress.chunks hf
  have hnames := hfirst.names_nodup
  have htmps := hfirst.names_ne_tmp
  -- The temporary file is not one of the chunks.
  have hother : ∀ c ∈ chunks, (c.file sha512half).name ≠
      tmp_path (chunk_filename args.network_id a b) := by
    intro c hc
    rw [hfirst.name_eq hc]
    exact chunk_filename_ne_tmp _ _ _ _ _
  have hplace : ∀ name, (∀ c ∈ chunks, name ≠ (c.file sha512half).name ∧
      name ≠ tmp_path (c.file sha512half).name) →
      place d₀ (chunks.map (WrittenChunk.file sha512half)) name = d₀ name := by
    intro name hname
    refine publish_all_other ?_ ?_
    · intro f hf
      obtain ⟨c, hc, rfl⟩ := List.mem_map.mp hf
      exact (hname c hc).1
    · intro f hf
      obtain ⟨c, hc, rfl⟩ := List.mem_map.mp hf
      exact (hname c hc).2
  refine ⟨chunks, _, hfirst, ?_, ?_, ⟨a, b, rfl⟩, hpart, ?_, ?_, ?_⟩
  · intro c hc
    rw [hsame _ (hother c hc)]
    exact publish_all_mem hnames htmps (List.mem_map_of_mem hc)
  · intro name hne hname
    rw [hsame name hne]
    exact hplace name hname
  · -- An export at another level publishes what one at this level would.
    intro get_node' fuel' order' concurrency' files ha hn hw hmain
    obtain ⟨rounds, hmain⟩ :=
      export_main_level order (Answers.refl get_node') hn hw hf.no_wrap hmain
    exact hpart get_node' (max rounds fuel) files ha (le_max_right _ _)
      (export_main_within (Answers.refl get_node') (le_max_left _ _) concurrency files hmain)
  · intro hok
    obtain ⟨hd, e, hreached, hfiles⟩ := hdone hok
    rw [hd]
    refine ⟨?_, ?_, hplace⟩
    · rw [hfiles]
      exact hreached.main hf
    · intro c hc
      exact publish_all_tmp htmps (List.mem_map_of_mem hc)
  · intro stop herr
    rcases hclean stop herr with hd | hgone | hheader
    · rw [hd]
      -- A chunk that was published under this temporary name has taken it away.
      by_cases hmem : ∃ c ∈ chunks, tmp_path (chunk_filename args.network_id a b) =
          tmp_path (c.file sha512half).name
      · obtain ⟨c, hc, heq⟩ := hmem
        rw [heq]
        exact .inl (publish_all_tmp htmps (List.mem_map_of_mem hc))
      · refine .inr (.inl (hplace _ fun c hc => ⟨(hother c hc).symm, fun heq => hmem ⟨c, hc, heq⟩⟩))
    · exact hgone.imp_right fun hfail => .inr (.inl hfail)
    · exact .inr (.inr (.inr hheader))

/-- What a run of the exporter leaves. -/
theorem export_files_leaves {fails : Nat → ExportOp → Bool} {n : Nat}
    {stopped : ExportDir × Option (Except ExportStop Unit)}
    (hf : NumbersFit args (batch_size concurrency))
    (h : stopped = run DirOp.exec fails
      (export_files sha512half args order get_node fuel ledger_db concurrency) n d₀) :
    ∃ chunks tmp, ExportLeaves sha512half args order get_node fuel ledger_db concurrency
      (fun op => ∃ i, fails i op = true) d₀ stopped.1 stopped.2 chunks tmp := by
  rw [h]
  exact StopsIn.leaves hf ((export_files_stops hf).always (fun i _ hfail => ⟨i, hfail⟩) n)

/-- Wherever an export is stopped and whatever fails, the files under final
    names are the first chunks of the range, whole and complete, and every
    other file but a temporary one is as it was. An export that returns
    without an error has left all of them. -/
theorem export_publishes (hf : NumbersFit args (batch_size concurrency))
    (fails : Nat → ExportOp → Bool) (d₀ : ExportDir) (n : Nat) :
    let stopped := run DirOp.exec fails
      (export_files sha512half args order get_node fuel ledger_db concurrency) n d₀
    ∃ chunks tmp, ExportLeaves sha512half args order get_node fuel ledger_db concurrency
      (fun op => ∃ i, fails i op = true) d₀ stopped.1 stopped.2 chunks tmp :=
  export_files_leaves hf rfl

/-! ### Four ledgers in two chunks -/

/-- The disk is gone when three steps of the second chunk are done. -/
def disk_gone (i : Nat) (_ : ExportOp) : Bool := decide (12 ≤ i)

/-- The export of four ledgers, one by one. -/
def four_stopped : ExportDir × Option (Except ExportStop Unit) :=
  run DirOp.exec disk_gone (export_files sha2_sha512half four_args by_hash
    ((written_reader Xxh64.digest bare_nodes).get_node Xxh64.digest (fun _ _ => none) 5) 5
    four_rows 1) 40 fun _ => none

/-- One chunk is published. Of the other one there is what could not be
    removed. -/
theorem four_stopped_files :
    (four_stopped.1 (chunk_filename four_args.network_id 7 8)).isSome = true ∧
      four_stopped.1 (chunk_filename four_args.network_id 9 10) = none ∧
      four_stopped.1 (tmp_path (chunk_filename four_args.network_id 9 10)) = some .unfinished := by
  decide +kernel

theorem export_publishes_four :
    (four_stopped.1 (chunk_filename four_args.network_id 7 8)).isSome = true ∧
      ∃ chunks tmp, ExportLeaves sha2_sha512half four_args by_hash
        ((written_reader Xxh64.digest bare_nodes).get_node Xxh64.digest (fun _ _ => none) 5) 5
        four_rows 1 (fun op => ∃ i, disk_gone i op = true) (fun _ => none) four_stopped.1
        four_stopped.2 chunks
        tmp :=
  ⟨four_stopped_files.1,
    export_publishes (four_fit (by decide) (by decide) (by decide) (by decide)) disk_gone _ 40⟩

end LedgerArchive
