import LedgerArchive.Import.Accepted

/-! # An export can be taken up again

    Only the first chunk of an export is made from a walk; the checkpoints
    of the later ones are what the map has become. An export that starts
    where one of these chunks starts makes its checkpoint from a walk of its
    own. Both write the same file, so a range may be exported in parts that
    meet where two chunks do: the files are those of the whole range
    (`export_resumes`). -/

namespace LedgerArchive

open Lib

variable {sha512half : Bytes → Hash256} {args : Args} {order : MapOrder} {store : Store}
  {get_node : Hash256 → Except Error SHAMapNode} {fuel : Nat} {ledger_db : LedgerIndex}
  {concurrency : Nat} {e e' : Export} {last m : UInt32}

/-! ## Parts of a range -/

def Args.up_to (args : Args) (last : UInt32) : Args := { args with «end» := last }

def Args.starting (args : Args) (first : UInt32) : Args := { args with start := first }

/-- A chunk of the range ends with the ledger `m`. -/
def Args.ChunkEnds (args : Args) (m : UInt32) : Prop :=
  ∃ k, m.toNat + 1 = args.start.toNat + k * args.chunk_size.toNat

theorem Args.ChunkEnds.size (h : args.ChunkEnds m) (hfirst : args.start ≤ m) :
    args.chunk_size ≠ 0 := by
  obtain ⟨k, hk⟩ := h
  rw [UInt32.le_iff_toNat_le] at hfirst
  intro hzero
  rw [hzero, UInt32.toNat_zero, Nat.mul_zero] at hk
  omega

/-- A chunk that starts up to `m` ends up to `m`. -/
theorem Args.ChunkEnds.full (h : args.ChunkEnds m) (hsize : args.chunk_size ≠ 0) {a k : Nat}
    (ha : a = args.start.toNat + k * args.chunk_size.toNat) (hle : a ≤ m.toNat) :
    a + args.chunk_size.toNat ≤ m.toNat + 1 := by
  obtain ⟨j, hj⟩ := h
  have hpos : args.chunk_size.toNat ≠ 0 := fun hzero => hsize (UInt32.toNat_inj.mp hzero)
  have hlt : k * args.chunk_size.toNat < j * args.chunk_size.toNat := by omega
  have hkj : k + 1 ≤ j := Nat.lt_of_mul_lt_mul_right hlt
  have hmul := Nat.mul_le_mul_right args.chunk_size.toNat hkj
  rw [Nat.add_mul, Nat.one_mul] at hmul
  omega

/-- The end in its header is the same, whether or not the range goes on. -/
theorem Args.up_to_chunk_end {a : UInt32} (hsize : args.chunk_size ≠ 0) (hm : m ≤ args.end)
    (hfull : a.toNat + args.chunk_size.toNat ≤ m.toNat + 1) :
    (args.up_to m).chunk_end a = args.chunk_end a := by
  have hpos : args.chunk_size.toNat ≠ 0 := fun hzero => hsize (UInt32.toNat_inj.mp hzero)
  have hmax := m.toNat_lt
  rw [UInt32.le_iff_toNat_le] at hm
  have hhead := @toNat_min_last a args.chunk_size m (by omega) (by omega)
  have hall := @toNat_min_last a args.chunk_size args.end (by omega) (by omega)
  apply UInt32.toNat_inj.mp
  show (min (a + args.chunk_size - 1) m).toNat = (min (a + args.chunk_size - 1) args.end).toNat
  omega

/-! ## A ledger -/

section Ledger

variable {seq : UInt32} {info : LedgerInfo} {ledger_hash : Hash256} {d : SHAMapDiff}

/-- The exporter after a ledger that starts a chunk. -/
def Export.new_chunk (e : Export) (sha512half : Bytes → Hash256) (args : Args) (order : MapOrder)
    (seq : UInt32) (info : LedgerInfo) (ledger_hash : Hash256) (d : SHAMapDiff)
    (txns : List TxRecord) : Export :=
  let state := apply_diff e.state d
  let files := e.finish_chunk sha512half args
  { state, chunk_start := seq, chunk_end := args.chunk_end seq,
    chunk_writer := create_chunk args order files.length state seq ledger_hash
      (info.tx_map seq ledger_hash txns),
    prev_account_hash := info.account_hash, files }

theorem export_ledger_new (h : seq - e.chunk_start = args.chunk_size) :
    export_ledger sha512half args order get_node fuel e seq info ledger_hash d =
      (ledger_txns get_node fuel info seq >>= fun txns =>
        pure (e.new_chunk sha512half args order seq info ledger_hash d txns)) := by
  unfold export_ledger
  simp only [if_pos h]
  rfl

/-- The exporter after a ledger of the same chunk. -/
def Export.same_chunk (e : Export) (seq : UInt32) (info : LedgerInfo) (ledger_hash : Hash256)
    (d : SHAMapDiff) (txns : List TxRecord) : Export :=
  { e with
    state := apply_diff e.state d
    chunk_writer := (e.chunk_writer.write_delta { ledger_seq := seq, diff := d }).write_tx_map
      (info.tx_map seq ledger_hash txns)
    prev_account_hash := info.account_hash }

theorem export_ledger_same (h : seq - e.chunk_start ≠ args.chunk_size) :
    export_ledger sha512half args order get_node fuel e seq info ledger_hash d =
      (ledger_txns get_node fuel info seq >>= fun txns =>
        pure (e.same_chunk seq info ledger_hash d txns)) := by
  unfold export_ledger
  simp only [if_neg h]
  rfl

end Ledger

/-! ## Where an export stands -/

/-- The exporter behind the ledger `last`: the chunk it is in, and the map,
    which is the ledger's state tree. -/
structure Walked (sha512half : Bytes → Hash256) (args : Args) (store : Store)
    (get_node : Hash256 → Except Error SHAMapNode) (fuel : Nat) (ledger_db : LedgerIndex)
    (e : Export) (last : UInt32) : Prop where
  grid : OnGrid args e last.toNat
  tree : ∃ info visit txns, LedgerRead sha512half store get_node fuel ledger_db last info visit txns ∧
    Exactly store e.state visit ∧ e.prev_account_hash = info.account_hash

theorem export_start_walked (hsize : args.chunk_size ≠ 0)
    (hread : RangeRead sha512half args store get_node fuel ledger_db)
    (hrange : args.start ≤ args.end)
    (hroot : ∀ info, ledger_db.get args.start = .ok info → info.account_hash ≠ ZERO_HASH)
    (h : export_start sha512half args order get_node fuel ledger_db 1 = .ok e) :
    Walked sha512half args store get_node fuel ledger_db e args.start := by
  have hpos : args.chunk_size.toNat ≠ 0 := fun hzero => hsize (UInt32.toNat_inj.mp hzero)
  obtain ⟨info, visit, txns, hfirst⟩ := hread args.start (UInt32.le_refl _) hrange
  obtain ⟨nodes, hnodes, hcollected⟩ := hfirst.collect (hroot info hfirst.row)
  unfold export_start at h
  simp only [bind_eq_ok, pure_eq_ok] at h
  obtain ⟨info', hrow, ledger_hash, -, nodes', hnodes', txns', -, rfl⟩ := h
  obtain rfl := Except.ok.inj (hfirst.row.symm.trans hrow)
  obtain rfl := Except.ok.inj (hnodes.symm.trans hnodes')
  refine ⟨⟨⟨0, ?_⟩, le_rfl, ?_⟩, info, visit, txns, hfirst, hcollected.exactly, rfl⟩
  · rw [Nat.zero_mul, Nat.add_zero]
  · show args.start.toNat < args.start.toNat + args.chunk_size.toNat
    omega

namespace Walked

variable (h : Walked sha512half args store get_node fuel ledger_db e last)

include h

theorem next (hsize : args.chunk_size ≠ 0)
    (hread : RangeRead sha512half args store get_node fuel ledger_db)
    (hfirst : args.start ≤ last) (hlt : last < args.end)
    (hrun : export_next sha512half args order get_node fuel ledger_db e (last + 1) = .ok e') :
    Walked sha512half args store get_node fuel ledger_db e' (last + 1) := by
  have hsucc := toNat_succ_of_lt hlt
  have hlt' := UInt32.lt_iff_toNat_lt.mp hlt
  have hfirst' := UInt32.le_iff_toNat_le.mp hfirst
  obtain ⟨old, visit, txns, hold, hexactly, hprev⟩ := h.tree
  obtain ⟨info, visit', txns', hnew⟩ := hread (last + 1)
    (UInt32.le_iff_toNat_le.mpr (by omega)) (UInt32.le_iff_toNat_le.mpr (by omega))
  obtain ⟨info', hrow, hrun⟩ := bind_eq_ok.mp hrun
  obtain rfl := Except.ok.inj (hnew.row.symm.trans hrow)
  obtain ⟨ledger_hash, -, hrun⟩ := bind_eq_ok.mp hrun
  obtain ⟨d, hd, hrun⟩ := bind_eq_ok.mp hrun
  -- The diff takes the tree of the one ledger to the tree of the next.
  rw [hprev] at hd
  obtain ⟨d', hd', hdiff⟩ := hold.diffOf hnew
  obtain rfl := Except.ok.inj (hd'.symm.trans hd)
  obtain ⟨hstate, hprev'⟩ := export_ledger_ok hrun
  have hexactly' := hdiff.apply hold.once hnew.once hexactly
  rw [← hstate] at hexactly'
  refine ⟨?_, info, visit', txns', hnew, hexactly', hprev'⟩
  obtain ⟨-, hwritten⟩ := @written_eq args e last.toNat (last + 1) hsucc h.grid.start_le
  rw [hsucc]
  by_cases hcase : last + 1 - e.chunk_start = args.chunk_size
  · rw [export_ledger_new hcase] at hrun
    obtain ⟨txns'', -, hrun⟩ := bind_eq_ok.mp hrun
    rw [← pure_eq_ok.mp hrun]
    exact h.grid.switch hsize hsucc (hwritten.mp hcase)
  · rw [export_ledger_same hcase] at hrun
    obtain ⟨txns'', -, hrun⟩ := bind_eq_ok.mp hrun
    rw [← pure_eq_ok.mp hrun]
    exact h.grid.stay rfl (mt hwritten.mpr hcase)

/-- Two exporters at the same ledger keep the same map. -/
theorem state_eq {args' : Args} (h' : Walked sha512half args' store get_node fuel ledger_db e' last) :
    e.state = e'.state := by
  obtain ⟨info, visit, txns, hread, hexactly, -⟩ := h.tree
  obtain ⟨info', visit', txns', hread', hexactly', -⟩ := h'.tree
  obtain rfl := Except.ok.inj (hread.row.symm.trans hread'.row)
  apply Finmap.ext_lookup
  intro hash
  apply Option.ext
  intro n
  have hmem : hash ∈ visit ↔ hash ∈ visit' :=
    hread.tree.mem_iff.trans hread'.tree.mem_iff.symm
  rw [hexactly hash n, hexactly' hash n, hmem]

end Walked

/-! ## The first part -/

theorem create_chunk_up_to {a : UInt32} (hchunk : (args.up_to m).chunk_end a = args.chunk_end a)
    {k : Nat} {state : StateMap} {ledger_hash : Hash256} {tx_map : TxMap} :
    create_chunk (args.up_to m) order k state a ledger_hash tx_map =
      create_chunk args order k state a ledger_hash tx_map := by
  unfold create_chunk
  rw [hchunk]
  rfl

/-- Up to the ledger `m` it does not matter whether the range goes on. -/
theorem Walked.next_up_to (h : Walked sha512half args store get_node fuel ledger_db e last)
    (hm : args.ChunkEnds m) (hsize : args.chunk_size ≠ 0) (hlt : last < m) (hend : m ≤ args.end) :
    export_next sha512half (args.up_to m) order get_node fuel ledger_db e (last + 1) =
      export_next sha512half args order get_node fuel ledger_db e (last + 1) := by
  have hsucc := toNat_succ_of_lt hlt
  rw [UInt32.lt_iff_toNat_lt] at hlt
  obtain ⟨-, hwritten⟩ := @written_eq args e last.toNat (last + 1) hsucc h.grid.start_le
  -- The end of the range is asked for by a new chunk only.
  have hledger : ∀ info ledger_hash d,
      export_ledger sha512half (args.up_to m) order get_node fuel e (last + 1) info ledger_hash d =
        export_ledger sha512half args order get_node fuel e (last + 1) info ledger_hash d := by
    intro info ledger_hash d
    by_cases hcase : last + 1 - e.chunk_start = args.chunk_size
    · -- The new chunk is one that ends up to `m`.
      obtain ⟨k, hk⟩ := (@OnGrid.switch args e last.toNat { e with chunk_start := last + 1 }
        h.grid hsize hsucc (hwritten.mp hcase)).start
      have hchunk := @Args.up_to_chunk_end args m (last + 1) hsize hend
        (hm.full hsize hk (by omega))
      rw [export_ledger_new hcase, @export_ledger_new _ (args.up_to m) _ _ _ _ _ _ _ _ hcase]
      congr 1
      funext txns
      unfold Export.new_chunk
      dsimp only
      rw [create_chunk_up_to hchunk, hchunk]
      rfl
    · rw [export_ledger_same hcase, @export_ledger_same _ (args.up_to m) _ _ _ _ _ _ _ _ hcase]
  unfold export_next
  simp only [hledger]

/-- What is exported up to `m` is exported by the first part as it is. -/
theorem Walked.run_up_to (hm : args.ChunkEnds m) (hsize : args.chunk_size ≠ 0)
    (hend : m ≤ args.end) (hread : RangeRead sha512half args store get_node fuel ledger_db) (n : Nat)
    (h : Walked sha512half args store get_node fuel ledger_db e last) (hfirst : args.start ≤ last)
    (hle : last.toNat + n = m.toNat)
    (hrun : ((List.range' (last.toNat + 1) n).map UInt32.ofNat).foldlM
      (export_next sha512half args order get_node fuel ledger_db) e = .ok e') :
    Walked sha512half args store get_node fuel ledger_db e' m ∧
      ((List.range' (last.toNat + 1) n).map UInt32.ofNat).foldlM
        (export_next sha512half (args.up_to m) order get_node fuel ledger_db) e = .ok e' := by
  induction n generalizing e last with
  | zero =>
    obtain rfl : last = m := UInt32.toNat_inj.mp hle
    obtain rfl := foldlM_nil_ok.mp hrun
    exact ⟨h, rfl⟩
  | succ n ih =>
    have hlt : last < m := UInt32.lt_iff_toNat_lt.mpr (by omega)
    have hsucc := toNat_succ_of_lt hlt
    rw [List.range'_succ, List.map_cons, ← hsucc, UInt32.ofNat_toNat] at hrun ⊢
    obtain ⟨e₁, hnext, hrun⟩ := foldlM_cons_ok.mp hrun
    have h₁ := h.next hsize hread hfirst (UInt32.lt_of_lt_of_le hlt hend) hnext
    rw [UInt32.le_iff_toNat_le] at hfirst
    obtain ⟨hwalked, hrest⟩ := ih h₁ (UInt32.le_iff_toNat_le.mpr (by omega)) (by omega) hrun
    refine ⟨hwalked, foldlM_cons_ok.mpr ⟨e₁, ?_, hrest⟩⟩
    rw [h.next_up_to hm hsize hlt hend]
    exact hnext

theorem export_start_up_to (hm : args.ChunkEnds m) (hsize : args.chunk_size ≠ 0)
    (hfirst : args.start < m) (hend : m ≤ args.end) :
    export_start sha512half (args.up_to m) order get_node fuel ledger_db concurrency =
      export_start sha512half args order get_node fuel ledger_db concurrency := by
  rw [UInt32.lt_iff_toNat_lt] at hfirst
  have hchunk := @Args.up_to_chunk_end args m args.start hsize hend
    (hm.full hsize (k := 0) (by rw [Nat.zero_mul, Nat.add_zero]) (by omega))
  have hstart : (args.up_to m).start = args.start := rfl
  unfold export_start
  simp only [hstart, hchunk, create_chunk_up_to hchunk]

/-! ## The second part -/

/-- The exporter, with these files in front of its own. -/
def Export.behind (files : List ChunkFile) (e : Export) : Export :=
  { e with files := files ++ e.files }

theorem Export.behind_finish_chunk (files : List ChunkFile) (e : Export) (first : UInt32) :
    (e.behind files).finish_chunk sha512half args =
      files ++ e.finish_chunk sha512half (args.starting first) :=
  List.append_assoc _ _ _

/-- A ledger is exported in the same way wherever the range began and
    whatever files there are. -/
theorem export_next_behind {files : List ChunkFile} {first seq : UInt32}
    (h : export_next sha512half (args.starting first) by_hash get_node fuel ledger_db e seq = .ok e') :
    export_next sha512half args by_hash get_node fuel ledger_db (e.behind files) seq =
      .ok (e'.behind files) := by
  obtain ⟨info, hrow, h⟩ := bind_eq_ok.mp h
  obtain ⟨ledger_hash, hhash, h⟩ := bind_eq_ok.mp h
  obtain ⟨d, hd, h⟩ := bind_eq_ok.mp h
  refine bind_eq_ok.mpr ⟨info, hrow, bind_eq_ok.mpr ⟨ledger_hash, hhash, bind_eq_ok.mpr ⟨d, hd, ?_⟩⟩⟩
  by_cases hcase : seq - e.chunk_start = args.chunk_size
  · -- The finished chunk goes behind the files in front.
    rw [@export_ledger_new _ (args.starting first) _ _ _ _ _ _ _ _ hcase] at h
    rw [@export_ledger_new _ args _ _ _ (e.behind files) _ _ _ _ hcase]
    obtain ⟨txns, htxns, h⟩ := bind_eq_ok.mp h
    refine bind_eq_ok.mpr ⟨txns, htxns, ?_⟩
    rw [← pure_eq_ok.mp h, pure_eq_ok]
    unfold Export.new_chunk
    dsimp only
    rw [Export.behind_finish_chunk files e first]
    rfl
  · rw [@export_ledger_same _ (args.starting first) _ _ _ _ _ _ _ _ hcase] at h
    rw [@export_ledger_same _ args _ _ _ (e.behind files) _ _ _ _ hcase]
    obtain ⟨txns, htxns, h⟩ := bind_eq_ok.mp h
    rw [← pure_eq_ok.mp h]
    exact bind_eq_ok.mpr ⟨txns, htxns, rfl⟩

theorem export_all_behind {files : List ChunkFile} {first : UInt32} {seqs : List UInt32}
    (h : seqs.foldlM (export_next sha512half (args.starting first) by_hash get_node fuel ledger_db)
      e = .ok e') :
    seqs.foldlM (export_next sha512half args by_hash get_node fuel ledger_db) (e.behind files) =
      .ok (e'.behind files) := by
  induction seqs generalizing e with
  | nil =>
    obtain rfl := foldlM_nil_ok.mp h
    rfl
  | cons seq seqs ih =>
    obtain ⟨e₁, hnext, h⟩ := foldlM_cons_ok.mp h
    exact foldlM_cons_ok.mpr ⟨e₁.behind files, export_next_behind hnext, ih h⟩

/-- At the ledger behind `m` the exporter closes a chunk, and stands where an
    exporter stands that starts there. -/
theorem Walked.next_starting {e₂ : Export}
    (h : Walked sha512half args store get_node fuel ledger_db e m) (hm : args.ChunkEnds m)
    (hsize : args.chunk_size ≠ 0) (hread : RangeRead sha512half args store get_node fuel ledger_db)
    (hfirst : args.start ≤ m) (hlt : m < args.end)
    (hroot : ∀ info, ledger_db.get (m + 1) = .ok info → info.account_hash ≠ ZERO_HASH)
    (hrun : export_next sha512half args by_hash get_node fuel ledger_db e (m + 1) = .ok e')
    (hstart : export_start sha512half (args.starting (m + 1)) by_hash get_node fuel ledger_db 1 =
      .ok e₂) :
    e' = e₂.behind (e.finish_chunk sha512half args) := by
  have hsucc := toNat_succ_of_lt hlt
  have hle : m + 1 ≤ args.end := by
    rw [UInt32.lt_iff_toNat_lt] at hlt
    rw [UInt32.le_iff_toNat_le]
    omega
  -- Both keep the state tree of the ledger as their map.
  have hread' : RangeRead sha512half (args.starting (m + 1)) store get_node fuel ledger_db := by
    intro seq hseq hseq'
    refine hread seq (UInt32.le_trans ?_ hseq) hseq'
    rw [UInt32.le_iff_toNat_le] at hfirst ⊢
    show args.start.toNat ≤ (m + 1).toNat
    omega
  have hstate := (h.next hsize hread hfirst hlt hrun).state_eq
    (@export_start_walked sha512half (args.starting (m + 1)) by_hash store get_node fuel ledger_db e₂
      hsize hread' hle hroot hstart)
  obtain ⟨info, hrow, hrun⟩ := bind_eq_ok.mp hrun
  obtain ⟨ledger_hash, hhash, hrun⟩ := bind_eq_ok.mp hrun
  obtain ⟨d, hd, hrun⟩ := bind_eq_ok.mp hrun
  obtain ⟨-, hwritten⟩ := @written_eq args e m.toNat (m + 1) hsucc h.grid.start_le
  obtain ⟨k, hk⟩ := h.grid.start
  -- Behind a full chunk the ledger begins a new one.
  have hfull := hm.full hsize hk h.grid.start_le
  have hlast := h.grid.last_lt
  rw [export_ledger_new (hwritten.mpr (by omega))] at hrun
  obtain ⟨txns, htxns, hrun⟩ := bind_eq_ok.mp hrun
  unfold export_start at hstart
  simp only [bind_eq_ok, pure_eq_ok] at hstart
  obtain ⟨info', hrow', ledger_hash', hhash', nodes, -, txns', htxns', rfl⟩ := hstart
  obtain rfl := Except.ok.inj (hrow.symm.trans hrow')
  obtain rfl := Except.ok.inj (hhash.symm.trans hhash')
  obtain rfl := Except.ok.inj (htxns.symm.trans htxns')
  rw [← pure_eq_ok.mp hrun] at hstate ⊢
  have hstate : apply_diff e.state d = checkpoint_state nodes := hstate
  unfold Export.new_chunk Export.behind
  dsimp only
  rw [← hstate, List.append_nil]
  rfl

/-! ## The whole -/

section Readers

variable {xxh64 : Bytes → UInt64 → UInt64} {lz4 : Bytes → Nat → Option Bytes} {r r₁ r₂ : NuDBReader}
  {files head tail : List ChunkFile}

/-- One ledger at a time no batch wraps around. -/
theorem unwrapped_one (args : Args) : Unwrapped args 1 := by
  have hone : (batch_size 1).toNat = 1 := by decide
  have hmax := args.end.toNat_lt
  refine ⟨by decide, fun k hk => ?_⟩
  rw [hone] at hk ⊢
  omega

/-- An export that comes to its end, ledger by ledger and with rounds
    enough. -/
theorem Exports.by_ledger
    (h : Exports xxh64 lz4 sha512half args ledger_db r concurrency order files)
    (hw : Unwrapped args concurrency) :
    ∃ fuel₀, ∀ fuel ≥ fuel₀, ∃ e e',
      export_start sha512half args by_hash (r.get_node xxh64 lz4 fuel) fuel ledger_db 1 = .ok e ∧
      (batch_seqs (args.start + 1) args.end).foldlM
        (export_next sha512half args by_hash (r.get_node xxh64 lz4 fuel) fuel ledger_db) e =
          .ok e' ∧
      e'.finish_chunk sha512half args = files := by
  obtain ⟨fuel₀, hmain⟩ := h.other (fun _ _ => Iff.rfl) by_hash hw (unwrapped_one args)
  refine ⟨fuel₀, fun fuel hle => ?_⟩
  obtain ⟨hrange, -, e, e', hstart, hloop, hfiles⟩ := export_main_ok.mp
    (export_main_within (get_node_answers r hle) hle 1 files hmain)
  have hlast : args.end.toNat ≠ 2 ^ 32 - 1 := fun hlast => export_loop_of_last hlast hloop
  have hw : NoWrap args (batch_size 1) (args.start + 1).toNat :=
    toNat_succ_of_lt (UInt32.not_le.mp hrange) ▸ unwrapped_one args
  exact ⟨e, e', hstart, (export_loop_iff hw hlast).mp ⟨fuel, hloop⟩, hfiles⟩

theorem Source.part {args' : Args} (h : Source sha512half args store ledger_db)
    (hfirst : args.start ≤ args'.start) (hlast : args'.end ≤ args.end) :
    Source sha512half args' store ledger_db := by
  refine ⟨h.addressed, h.short, ?_, ?_⟩
  · intro seq hseq hseq'
    exact h.ledgers seq (UInt32.le_trans hfirst hseq) (UInt32.le_trans hseq' hlast)
  · intro seq old info hseq hseq'
    exact h.chained seq old info (UInt32.le_trans hfirst hseq)
      (UInt32.lt_of_lt_of_le hseq' hlast)

/-- At a border `m` of its chunks an export has the files up to there, and
    what it still writes is the export of the ledgers behind `m`. -/
theorem Exports.at_border {c c₂ : Nat} {order₂ : MapOrder} (hr : r.Holds xxh64 lz4 store)
    (hs : Source sha512half args store ledger_db) (hm : args.ChunkEnds m)
    (hfirst : args.start ≤ m) (hlt : m < args.end) (hlast : m + 1 < args.end)
    (hroot : ∀ seq info, seq = args.start ∨ seq = m + 1 → ledger_db.get seq = .ok info →
      info.account_hash ≠ ZERO_HASH)
    (hw : Unwrapped args c) (hw₂ : Unwrapped (args.starting (m + 1)) c₂)
    (hall : Exports xxh64 lz4 sha512half args ledger_db r c order files)
    (htail : Exports xxh64 lz4 sha512half (args.starting (m + 1)) ledger_db r c₂ order₂ tail) :
    ∃ k, ∀ fuel ≥ k, ∃ e eₘ,
      export_start sha512half args by_hash (r.get_node xxh64 lz4 fuel) fuel ledger_db 1 = .ok e ∧
      (batch_seqs (args.start + 1) m).foldlM
        (export_next sha512half args by_hash (r.get_node xxh64 lz4 fuel) fuel ledger_db) e = .ok eₘ ∧
      (batch_seqs (args.start + 1) m).foldlM (export_next sha512half (args.up_to m) by_hash
        (r.get_node xxh64 lz4 fuel) fuel ledger_db) e = .ok eₘ ∧
      files = eₘ.finish_chunk sha512half args ++ tail := by
  have hsize := hm.size hfirst
  have hsucc : (m + 1).toNat = m.toNat + 1 := toNat_succ_of_lt hlt
  have hfirst' := UInt32.le_iff_toNat_le.mp hfirst
  have hlast' := UInt32.lt_iff_toNat_lt.mp hlast
  have hrange : args.start < args.end := UInt32.lt_iff_toNat_lt.mpr (by omega)
  have hstart_succ := toNat_succ_of_lt hrange
  -- One number of rounds does for the ledgers and for both runs.
  obtain ⟨k, hread⟩ := hs.read hr
  obtain ⟨k₀, hall⟩ := hall.by_ledger hw
  obtain ⟨k₂, htail⟩ := htail.by_ledger hw₂
  refine ⟨max k (max k₀ k₂), fun fuel hk => ?_⟩
  have hread := hread fuel (by omega)
  obtain ⟨e, e', hstart, hrun, rfl⟩ := hall fuel (by omega)
  obtain ⟨e₂, e₂', hstart₂, hrun₂, rfl⟩ := htail fuel (by omega)
  -- The run of the whole range, up to `m`, at `m + 1`, and behind it.
  rw [← batch_seqs_append (hstart_succ ▸ Nat.succ_le_succ hfirst') (UInt32.le_of_lt hlt) hsucc] at hrun
  obtain ⟨eₘ, hrunₘ, hrest⟩ := foldlM_append_ok.mp hrun
  have hcount : args.end.toNat + 1 - (m.toNat + 1) = args.end.toNat + 1 - (m.toNat + 1 + 1) + 1 := by
    omega
  rw [batch_seqs, hsucc, hcount, List.range'_succ, List.map_cons, ← hsucc, UInt32.ofNat_toNat]
    at hrest
  obtain ⟨eₛ, hnext, hrest⟩ := foldlM_cons_ok.mp hrest
  -- The first part has walked up to `m`.
  have hwalked := export_start_walked hsize hread (UInt32.le_of_lt hrange)
    (fun info => hroot args.start info (.inl rfl)) hstart
  have hcountₘ : m.toNat + 1 - (args.start.toNat + 1) = m.toNat - args.start.toNat := by omega
  have hseqsₘ : batch_seqs (args.start + 1) m =
      (List.range' (args.start.toNat + 1) (m.toNat - args.start.toNat)).map UInt32.ofNat := by
    rw [batch_seqs, hstart_succ, hcountₘ]
  obtain ⟨hwalkedₘ, hup_to⟩ := @Walked.run_up_to sha512half args by_hash store _ fuel ledger_db e eₘ
    args.start m hm hsize (UInt32.le_of_lt hlt) hread (m.toNat - args.start.toNat) hwalked
    (UInt32.le_refl _) (by omega) (hseqsₘ ▸ hrunₘ)
  refine ⟨e, eₘ, hstart, hrunₘ, hseqsₘ ▸ hup_to, ?_⟩
  -- The second part goes on from there.
  have hjoin := hwalkedₘ.next_starting hm hsize hread hfirst hlt
    (fun info => hroot (m + 1) info (.inr rfl)) hnext hstart₂
  have hrest₂ := @export_all_behind sha512half args _ fuel ledger_db e₂ e₂'
    (eₘ.finish_chunk sha512half args) (m + 1) _ hrun₂
  have hseqs : ((args.starting (m + 1)).start + 1).toNat = (m + 1).toNat + 1 :=
    toNat_succ_of_lt hlast
  rw [batch_seqs, hseqs] at hrest₂
  rw [hjoin] at hrest
  obtain rfl := Except.ok.inj (hrest₂.symm.trans hrest)
  exact Export.behind_finish_chunk _ e₂' (m + 1)

/-- The files of both parts, put together. -/
theorem Exports.append {c c₁ c₂ : Nat} {order₁ order₂ : MapOrder} (hr : r.Holds xxh64 lz4 store)
    (hs : Source sha512half args store ledger_db) (hm : args.ChunkEnds m)
    (hfirst : args.start < m) (hlt : m < args.end) (hlast : m + 1 < args.end)
    (hroot : ∀ seq info, seq = args.start ∨ seq = m + 1 → ledger_db.get seq = .ok info →
      info.account_hash ≠ ZERO_HASH)
    (hw : Unwrapped args c) (hw₁ : Unwrapped (args.up_to m) c₁)
    (hw₂ : Unwrapped (args.starting (m + 1)) c₂)
    (hall : Exports xxh64 lz4 sha512half args ledger_db r c order files)
    (hhead : Exports xxh64 lz4 sha512half (args.up_to m) ledger_db r c₁ order₁ head)
    (htail : Exports xxh64 lz4 sha512half (args.starting (m + 1)) ledger_db r c₂ order₂ tail) :
    files = head ++ tail := by
  have hsize := hm.size (UInt32.le_of_lt hfirst)
  obtain ⟨k, hborder⟩ := hall.at_border hr hs hm (UInt32.le_of_lt hfirst) hlt hlast hroot hw hw₂ htail
  obtain ⟨k₁, hhead⟩ := hhead.by_ledger hw₁
  obtain ⟨e, eₘ, hstart, -, hup_to, rfl⟩ := hborder (max k k₁) (le_max_left _ _)
  obtain ⟨e₁, e₁', hstart₁, hrun₁, rfl⟩ := hhead (max k k₁) (le_max_right _ _)
  -- The first part is what the whole has up to `m`.
  rw [export_start_up_to hm hsize hfirst (UInt32.le_of_lt hlt)] at hstart₁
  obtain rfl := Except.ok.inj (hstart.symm.trans hstart₁)
  obtain rfl := Except.ok.inj (hup_to.symm.trans hrun₁)
  rfl

/-- The whole range and both parts are exported, if the numbers fit. -/
theorem Source.parts (hr : r.Holds xxh64 lz4 store) (hs : Source sha512half args store ledger_db)
    (hm : args.ChunkEnds m) (hfirst : args.start < m) (hlast : m + 1 < args.end)
    (hroot : ∀ seq info, seq = args.start ∨ seq = m + 1 → ledger_db.get seq = .ok info →
      info.account_hash ≠ ZERO_HASH)
    {c c₁ c₂ : Nat} (hf : NumbersFit args (batch_size c))
    (hf₁ : NumbersFit (args.up_to m) (batch_size c₁))
    (hf₂ : NumbersFit (args.starting (m + 1)) (batch_size c₂)) (order order₁ order₂ : MapOrder) :
    ∃ head tail, Exports xxh64 lz4 sha512half args ledger_db r c order (head ++ tail) ∧
      Exports xxh64 lz4 sha512half (args.up_to m) ledger_db r c₁ order₁ head ∧
      Exports xxh64 lz4 sha512half (args.starting (m + 1)) ledger_db r c₂ order₂ tail := by
  have hsucc : (m + 1).toNat = m.toNat + 1 := toNat_succ hf₁.end_lt
  have hsize := hm.size (UInt32.le_of_lt hfirst)
  have hfirst' := UInt32.lt_iff_toNat_lt.mp hfirst
  have hlast' := UInt32.lt_iff_toNat_lt.mp hlast
  have hlt : args.start < args.end := UInt32.lt_iff_toNat_lt.mpr (by omega)
  have hltₘ : m < args.end := UInt32.lt_iff_toNat_lt.mpr (by omega)
  have hge : args.start ≤ m + 1 := UInt32.le_iff_toNat_le.mpr (by omega)
  obtain ⟨fuel, -, files, hall⟩ := @Source.exports sha512half args order store ledger_db c xxh64 lz4
    r hr hs hlt hsize hf (fun info => hroot args.start info (.inl rfl)) 0
  obtain ⟨fuel₁, -, head, hhead⟩ := @Source.exports sha512half (args.up_to m) order₁ store ledger_db
    c₁ xxh64 lz4 r hr (hs.part (UInt32.le_refl _) (UInt32.le_of_lt hltₘ)) hfirst hsize hf₁
    (fun info => hroot args.start info (.inl rfl)) 0
  obtain ⟨fuel₂, -, tail, htail⟩ := @Source.exports sha512half (args.starting (m + 1)) order₂ store
    ledger_db c₂ xxh64 lz4 r hr (hs.part hge (UInt32.le_refl _)) hlast hsize hf₂
    (fun info => hroot (m + 1) info (.inr rfl)) 0
  obtain rfl := Exports.append hr hs hm hfirst hltₘ hlast hroot hf.no_wrap hf₁.no_wrap hf₂.no_wrap
    ⟨fuel, hall⟩ ⟨fuel₁, hhead⟩ ⟨fuel₂, htail⟩
  exact ⟨head, tail, ⟨fuel, hall⟩, ⟨fuel₁, hhead⟩, ⟨fuel₂, htail⟩⟩

/-- A range may be exported in two parts that meet where two of its chunks
    do, with any levels of concurrency and on any stores that hold the same
    nodes: the files of the parts, put together, are the files of the whole
    range. -/
theorem export_resumes (hr : r.Holds xxh64 lz4 store) (hs₁ : SameNodes xxh64 lz4 r r₁)
    (hs₂ : SameNodes xxh64 lz4 r r₂) (hs : Source sha512half args store ledger_db)
    (hm : args.ChunkEnds m) (hfirst : args.start < m) (hlast : m + 1 < args.end)
    (hroot : ∀ seq info, seq = args.start ∨ seq = m + 1 → ledger_db.get seq = .ok info →
      info.account_hash ≠ ZERO_HASH)
    (c c₁ c₂ : Nat) (hf : NumbersFit args (batch_size c))
    (hf₁ : NumbersFit (args.up_to m) (batch_size c₁))
    (hf₂ : NumbersFit (args.starting (m + 1)) (batch_size c₂))
    (order order₁ order₂ : MapOrder) :
    (∃ files, Exports xxh64 lz4 sha512half args ledger_db r c order files) ∧
      ∀ files, Exports xxh64 lz4 sha512half args ledger_db r c order files ↔
        ∃ head tail, files = head ++ tail ∧
          Exports xxh64 lz4 sha512half (args.up_to m) ledger_db r₁ c₁ order₁ head ∧
          Exports xxh64 lz4 sha512half (args.starting (m + 1)) ledger_db r₂ c₂ order₂ tail := by
  obtain ⟨head, tail, hall, hhead, htail⟩ := Source.parts hr hs hm hfirst hlast hroot hf hf₁ hf₂ order
    order₁ order₂
  refine ⟨⟨head ++ tail, hall⟩, fun files => ⟨?_, ?_⟩⟩
  · intro h
    -- Other stores and other levels export the same parts.
    exact ⟨head, tail, h.unique hall, hhead.other hs₁ order₁ hf₁.no_wrap hf₁.no_wrap,
      htail.other hs₂ order₂ hf₂.no_wrap hf₂.no_wrap⟩
  · rintro ⟨head', tail', rfl, hhead', htail'⟩
    have hhead' := hhead'.other hs₁.symm order₁ hf₁.no_wrap hf₁.no_wrap
    have htail' := htail'.other hs₂.symm order₂ hf₂.no_wrap hf₂.no_wrap
    rw [hhead'.unique hhead, htail'.unique htail]
    exact hall

end Readers

/-! ## Four ledgers in two chunks -/

def four_args : Args := { start := 7, «end» := 10, network_id := 1, chunk_size := 2 }

def four_third : LedgerInfo := hashed_info 9 bare_second.ledger_hash lone_account.hash ZERO_HASH
def four_fourth : LedgerInfo := hashed_info 10 four_third.ledger_hash stray_account.hash ZERO_HASH

/-- The two ledgers of `bare_rows`, and two more with the same states. -/
def four_rows : LedgerIndex := fun seq =>
  if seq = 9 then some four_third.row
  else if seq = 10 then some four_fourth.row
  else bare_rows seq

theorem four_args_cases {seq : UInt32} (hfirst : four_args.start ≤ seq)
    (hlast : seq ≤ four_args.end) : seq = 7 ∨ seq = 8 ∨ seq = 9 ∨ seq = 10 := by
  rw [UInt32.le_iff_toNat_le] at hfirst hlast
  have hfirst : 7 ≤ seq.toNat := hfirst
  have hlast : seq.toNat ≤ 10 := hlast
  simp only [← UInt32.toNat_inj, UInt32.reduceToNat]
  omega

theorem bare_stored : ∃ visit visit',
    TreeAt (nodes_store bare_nodes) lone_account.hash visit ∧ visit.Nodup ∧
      TreeAt (nodes_store bare_nodes) stray_account.hash visit' ∧ visit'.Nodup := by
  obtain ⟨-, -, hlone, hstray, hz, hz', -⟩ := bare_facts
  exact ⟨_, _, .inr ⟨hz, .step hlone .done⟩, List.nodup_singleton _, .inr ⟨hz', .step hstray .done⟩,
    List.nodup_singleton _⟩

theorem four_source : Source sha2_sha512half four_args (nodes_store bare_nodes) four_rows := by
  obtain ⟨hverify, hformats, -⟩ := bare_facts
  obtain ⟨visit, visit', hlone, hnd, hstray, hnd'⟩ := bare_stored
  have htwo : Source sha2_sha512half two_args (nodes_store bare_nodes) bare_rows :=
    two_rows_source hverify (fun n hn => (hformats n hn).1) (quiet_stored rfl hlone hnd)
      (quiet_stored rfl hstray hnd') rfl
  have h7 : LedgerStored sha2_sha512half (nodes_store bare_nodes) four_rows 7 bare_first visit [] :=
    quiet_stored rfl hlone hnd
  have h8 : LedgerStored sha2_sha512half (nodes_store bare_nodes) four_rows 8 bare_second visit' [] :=
    quiet_stored rfl hstray hnd'
  have h9 : LedgerStored sha2_sha512half (nodes_store bare_nodes) four_rows 9 four_third visit [] :=
    quiet_stored rfl hlone hnd
  have h10 : LedgerStored sha2_sha512half (nodes_store bare_nodes) four_rows 10 four_fourth visit' [] :=
    quiet_stored rfl hstray hnd'
  refine ⟨htwo.addressed, htwo.short, ?_, ?_⟩
  · intro seq hfirst hlast
    rcases four_args_cases hfirst hlast with rfl | rfl | rfl | rfl
    · exact ⟨_, _, _, h7⟩
    · exact ⟨_, _, _, h8⟩
    · exact ⟨_, _, _, h9⟩
    · exact ⟨_, _, _, h10⟩
  · intro seq old info hfirst hlast hold hinfo
    -- Each row is made with the hash of the one before it.
    have hchain : ∀ {a b : LedgerInfo}, four_rows.get seq = .ok a → four_rows.get (seq + 1) = .ok b →
        b.parent_hash = a.ledger_hash → info.parent_hash = old.ledger_hash := by
      intro a b ha hb hlink
      obtain rfl := Except.ok.inj (hold.symm.trans ha)
      obtain rfl := Except.ok.inj (hinfo.symm.trans hb)
      exact hlink
    rcases four_args_cases hfirst (UInt32.le_of_lt hlast) with rfl | rfl | rfl | rfl
    · exact hchain h7.row h8.row rfl
    · exact hchain h8.row h9.row rfl
    · exact hchain h9.row h10.row rfl
    · exact absurd hlast (by decide)

/-- Numbers this small fit at every level up to 4. -/
theorem four_fit {args : Args} {concurrency : Nat} (hend : args.end.toNat ≤ 10)
    (hsize : args.chunk_size.toNat = 2) (hpos : 0 < (batch_size concurrency).toNat)
    (hsmall : (batch_size concurrency).toNat ≤ 4) : NumbersFit args (batch_size concurrency) := by
  refine ⟨by omega, ?_, hpos, ?_⟩
  · intro k hk
    rw [hsize] at hk ⊢
    omega
  · intro k hk
    omega

theorem export_resumes_four :
    let run args level order files := Exports Xxh64.digest (fun _ _ => none) sha2_sha512half args
      four_rows (written_reader Xxh64.digest bare_nodes) level order files
    (∃ files, run four_args 4 by_hash files) ∧
      ∀ files, run four_args 4 by_hash files ↔ ∃ head tail, files = head ++ tail ∧
        run (four_args.up_to 8) 1 by_hash_reversed head ∧
        run (four_args.starting (8 + 1)) 2 by_hash tail := by
  obtain ⟨-, hformats, -, -, hz, hz', hsize, -⟩ := bare_facts
  have hholds := written_reader_holds Xxh64.digest (fun _ _ => none) bare_nodes
    (fun n hn => (hformats n hn).2) hsize
  refine export_resumes hholds (fun _ _ => Iff.rfl) (fun _ _ => Iff.rfl) four_source ⟨1, by decide⟩
    (by decide) (by decide) ?_ 4 1 2 (four_fit (by decide) (by decide) (by decide) (by decide))
    (four_fit (by decide) (by decide) (by decide) (by decide))
    (four_fit (by decide) (by decide) (by decide) (by decide)) by_hash by_hash_reversed by_hash
  rintro seq info (rfl | rfl) hrow
  · have hrow' : four_rows.get four_args.start = .ok bare_first := LedgerIndex.get_row rfl
    obtain rfl := Except.ok.inj (hrow.symm.trans hrow')
    exact hz
  · have hrow' : four_rows.get (8 + 1) = .ok four_third := LedgerIndex.get_row rfl
    obtain rfl := Except.ok.inj (hrow.symm.trans hrow')
    exact hz

end LedgerArchive
