import LedgerArchive.Export.Batches
import LedgerArchive.Lib.Checked

/-! # The exporter with checked arithmetic

    The functions of `main` with every `u32` operation checked, as in a
    build with overflow checks. Otherwise they are the same (`Agrees`).

    A run that comes to its end has checked the number behind every chunk
    and behind every batch (`export_main_checked_fits`), and one for which
    all these numbers fit does not overflow (`export_main_checked_safe`). -/

namespace LedgerArchive

open Lib

/-! ## The functions with checked arithmetic -/

section Checked

variable (sha512half : Bytes → Hash256) (args : Args) (order : MapOrder)

/-- `(chunk_start + chunk_size - 1).min(end)`. -/
def Args.chunk_end_checked (chunk_start : UInt32) : Checked Error UInt32 := do
  let n ← checked_add chunk_start args.chunk_size
  let n ← checked_sub n 1
  pure (min n args.end)

variable (get_node : Hash256 → Except Error SHAMapNode) (fuel : Nat) (ledger_db : LedgerIndex)

def export_ledger_checked (e : Export) (seq : UInt32) (info : LedgerInfo) (ledger_hash : Hash256)
    (diff : SHAMapDiff) : Checked Error Export := do
  let state := apply_diff e.state diff
  let txns ← ledger_txns get_node fuel info seq
  let tx_map := info.tx_map seq ledger_hash txns
  let written ← checked_sub seq e.chunk_start
  if written = args.chunk_size then do
    let files := e.finish_chunk sha512half args
    -- The message names the last ledger of the chunk.
    let _last ← checked_sub seq 1
    let chunk_end ← args.chunk_end_checked seq
    pure { state, chunk_start := seq, chunk_end,
           chunk_writer := create_chunk args order files.length state seq ledger_hash tx_map,
           prev_account_hash := info.account_hash, files }
  else
    pure { e with
      state
      chunk_writer := (e.chunk_writer.write_delta { ledger_seq := seq, diff }).write_tx_map tx_map
      prev_account_hash := info.account_hash }

/-- What a batch goes over: a diff, a number, a row and its hash. -/
abbrev BatchItem := SHAMapDiff × UInt32 × LedgerInfo × Hash256

def export_item_checked (e : Export) : BatchItem → Checked Error Export
  | (diff, seq, info, ledger_hash) =>
    export_ledger_checked sha512half args order get_node fuel e seq info ledger_hash diff

def export_batch_checked (e : Export) (seqs : List UInt32) (text : String) :
    Checked Error Export := do
  let infos ← (seqs.mapM ledger_db.get : Except Error _)
  let ledger_hashes ← ((infos.zip seqs).mapM fun (info, seq) =>
    info.verify_ledger_hash sha512half seq : Except Error _)
  let diffs ← with_context text (diff_batch_concurrent get_node fuel
    (batch_pairs e.prev_account_hash infos))
  (diffs.zip (seqs.zip (infos.zip ledger_hashes))).foldlM
    (export_item_checked sha512half args order get_node fuel) e

def export_loop_checked (batch_size : UInt32) : Nat → UInt32 → Export → Checked Error Export
  | 0, _, _ => throw .fuel
  | n + 1, seq, e =>
    if seq ≤ args.end then do
      let last ← checked_add seq batch_size
      let last ← checked_sub last 1
      let batch_end := min last args.end
      let e ← export_batch_checked sha512half args order get_node fuel ledger_db e
        (batch_seqs seq batch_end) s!"batch diff failed for ledgers {seq}..={batch_end}"
      let next ← checked_add batch_end 1
      export_loop_checked batch_size n next e
    else pure e

def export_start_checked (concurrency : Nat) : Checked Error Export := do
  let first_info ← ledger_db.get args.start
  let first_ledger_hash ← first_info.verify_ledger_hash sha512half args.start
  let initial_nodes ← collect_reachable_concurrent get_node fuel first_info.account_hash concurrency
  let state := checkpoint_state initial_nodes
  let first_txns ← ledger_txns get_node fuel first_info args.start
  let chunk_end ← args.chunk_end_checked args.start
  let tx_map := first_info.tx_map args.start first_ledger_hash first_txns
  pure { state, chunk_start := args.start, chunk_end,
         chunk_writer := create_chunk args order 0 state args.start first_ledger_hash tx_map,
         prev_account_hash := first_info.account_hash, files := [] }

def export_main_checked (concurrency : Nat) : Checked Error (List ChunkFile) := do
  bail_if (args.end ≤ args.start) (Error.bail "--end must be greater than --start")
  bail_if (args.chunk_size = 0) (Error.bail "--chunk-size must be at least 1")
  let e ← export_start_checked sha512half args order get_node fuel ledger_db concurrency
  let seq ← checked_add args.start 1
  let e ← export_loop_checked sha512half args order get_node fuel ledger_db
    (batch_size concurrency) fuel seq e
  let files := e.finish_chunk sha512half args
  let _ledger_count ← checked_sub args.end args.start
  pure files

end Checked

/-! ## Where they do not overflow they are the same -/

section Agreement

open Checked

variable {sha512half : Bytes → Hash256} {args : Args} {order : MapOrder}
  {get_node : Hash256 → Except Error SHAMapNode} {fuel : Nat} {ledger_db : LedgerIndex}

theorem chunk_end_agrees (chunk_start : UInt32) :
    Agrees (args.chunk_end_checked chunk_start) (.ok (args.chunk_end chunk_start)) := by
  unfold Args.chunk_end_checked
  exact .add_bind (.sub_bind fun _ => agrees_pure _)

theorem export_ledger_agrees (e : Export) (seq : UInt32) (info : LedgerInfo)
    (ledger_hash : Hash256) (d : SHAMapDiff) :
    Agrees (export_ledger_checked sha512half args order get_node fuel e seq info ledger_hash d)
      (export_ledger sha512half args order get_node fuel e seq info ledger_hash d) := by
  unfold export_ledger_checked export_ledger
  refine .lift_bind fun txns _ => .sub_bind fun _ => ?_
  dsimp only
  split
  · refine .sub_bind fun _ => ?_
    exact (chunk_end_agrees seq).bind (g := fun chunk_end => pure _) fun chunk_end hend => by
      cases hend
      exact agrees_pure _
  · exact agrees_pure _

theorem export_batch_agrees (e : Export) (seqs : List UInt32) (text : String) :
    Agrees (export_batch_checked sha512half args order get_node fuel ledger_db e seqs text)
      (export_batch sha512half args order get_node fuel ledger_db e seqs text) := by
  unfold export_batch_checked export_batch
  apply Agrees.lift_bind
  intro infos _
  apply Agrees.lift_bind
  intro hashes _
  apply Agrees.lift_bind
  intro diffs _
  apply Agrees.foldlM
  rintro e ⟨d, seq, info, ledger_hash⟩
  exact export_ledger_agrees e seq info ledger_hash d

theorem export_loop_agrees {batch : UInt32} (n : Nat) (seq : UInt32) (e : Export) :
    Agrees (export_loop_checked sha512half args order get_node fuel ledger_db batch n seq e)
      (export_loop sha512half args order get_node fuel ledger_db batch n seq e) := by
  induction n generalizing seq e with
  | zero => exact .inr rfl
  | succ n ih =>
    unfold export_loop_checked export_loop
    split
    · apply Agrees.add_bind
      apply Agrees.sub_bind
      intro _
      apply (export_batch_agrees e _ _).bind
      intro e' _
      apply Agrees.add_bind
      exact ih _ e'
    · exact agrees_pure e

theorem export_start_agrees (concurrency : Nat) :
    Agrees (export_start_checked sha512half args order get_node fuel ledger_db concurrency)
      (export_start sha512half args order get_node fuel ledger_db concurrency) := by
  unfold export_start_checked export_start
  refine .lift_bind fun info _ => .lift_bind fun hash _ => .lift_bind fun nodes _ =>
    .lift_bind fun txns _ => ?_
  exact (chunk_end_agrees args.start).bind (g := fun chunk_end => pure _) fun chunk_end hend => by
    cases hend
    exact agrees_pure _

theorem export_main_agrees (concurrency : Nat) :
    Agrees (export_main_checked sha512half args order get_node fuel ledger_db concurrency)
      (export_main sha512half args order get_node fuel ledger_db concurrency) := by
  unfold export_main_checked export_main
  refine .lift_bind fun _ hrange => .lift_bind fun _ _ => ?_
  refine (export_start_agrees concurrency).bind fun e _ => .add_bind ?_
  refine (export_loop_agrees fuel _ e).bind fun e' _ => ?_
  exact .sub_bind fun _ => agrees_pure _

end Agreement

/-! ## Numbers that fit -/

/-- The last exported ledger is in the chunk of `e`, which starts a whole
    number of chunks behind the start of the range. -/
structure OnGrid (args : Args) (e : Export) (last : Nat) : Prop where
  start : ∃ k, e.chunk_start.toNat = args.start.toNat + k * args.chunk_size.toNat
  start_le : e.chunk_start.toNat ≤ last
  last_lt : last < e.chunk_start.toNat + args.chunk_size.toNat

/-- For every chunk that starts up to `n`, the number behind its last ledger
    is a `u32`. -/
def ChunksFit (args : Args) (n : Nat) : Prop :=
  ∀ k, args.start.toNat + k * args.chunk_size.toNat ≤ n →
    args.start.toNat + k * args.chunk_size.toNat + args.chunk_size.toNat < 2 ^ 32

/-- For every batch from `seq` on, the number behind its last ledger is a
    `u32`. -/
def BatchesFit (args : Args) (batch : UInt32) (seq : Nat) : Prop :=
  ∀ k, seq + k * batch.toNat ≤ args.end.toNat → seq + k * batch.toNat + batch.toNat < 2 ^ 32

/-- All numbers of an export fit: the one behind the range, those behind the
    chunks and those behind the batches. -/
structure NumbersFit (args : Args) (batch : UInt32) : Prop where
  end_lt : args.end.toNat + 1 < 2 ^ 32
  chunks : ChunksFit args args.end.toNat
  batch_pos : 0 < batch.toNat
  batches : BatchesFit args batch (args.start.toNat + 1)

theorem NumbersFit.no_wrap {args : Args} {batch : UInt32} (h : NumbersFit args batch) :
    NoWrap args batch (args.start.toNat + 1) :=
  ⟨h.batch_pos, fun k hk => Nat.le_of_lt (h.batches k hk)⟩

section Grid

variable {args : Args} {e : Export} {last : Nat}

/-- A chunk that starts at the next ledger is the one behind the chunk of
    `e`. -/
theorem ChunksFit.next (hg : OnGrid args e last) (hf : ChunksFit args last)
    (hnext : last + 1 = e.chunk_start.toNat + args.chunk_size.toNat →
      last + 1 + args.chunk_size.toNat < 2 ^ 32) : ChunksFit args (last + 1) := by
  intro k hk
  by_cases hle : args.start.toNat + k * args.chunk_size.toNat ≤ last
  · exact hf k hle
  -- Chunk starts are multiples apart, so the only new one is a whole chunk further.
  have heq : args.start.toNat + k * args.chunk_size.toNat = last + 1 := by omega
  obtain ⟨j, hj⟩ := hg.start
  have hstart := hg.start_le
  have hlast := hg.last_lt
  have hlt : j * args.chunk_size.toNat < k * args.chunk_size.toNat := by omega
  have hjk : j + 1 ≤ k := Nat.lt_of_mul_lt_mul_right hlt
  have hmul := Nat.mul_le_mul_right args.chunk_size.toNat hjk
  rw [Nat.add_mul, Nat.one_mul] at hmul
  have := hnext (by omega)
  omega

/-- The same chunk goes on. -/
theorem OnGrid.stay {e' : Export} (hg : OnGrid args e last)
    (hstart : e'.chunk_start = e.chunk_start)
    (hno : last + 1 ≠ e.chunk_start.toNat + args.chunk_size.toNat) : OnGrid args e' (last + 1) := by
  have hlast := hg.last_lt
  have hle := hg.start_le
  refine ⟨hstart ▸ hg.start, ?_, ?_⟩
  · rw [hstart]
    omega
  · rw [hstart]
    omega

/-- The next chunk starts. -/
theorem OnGrid.switch {e' : Export} (hg : OnGrid args e last) (hsize : args.chunk_size ≠ 0)
    (hstart : e'.chunk_start.toNat = last + 1)
    (heq : last + 1 = e.chunk_start.toNat + args.chunk_size.toNat) : OnGrid args e' (last + 1) := by
  obtain ⟨k, hk⟩ := hg.start
  have hpos : 0 < args.chunk_size.toNat := by
    rw [Nat.pos_iff_ne_zero]
    intro hzero
    exact hsize (UInt32.toNat_inj.mp hzero)
  refine ⟨⟨k + 1, ?_⟩, by omega, by omega⟩
  rw [Nat.add_mul, Nat.one_mul]
  omega

end Grid

/-! ## One ledger -/

section Runs

open Checked

variable {sha512half : Bytes → Hash256} {args : Args} {order : MapOrder}
  {get_node : Hash256 → Except Error SHAMapNode} {fuel : Nat} {ledger_db : LedgerIndex}
  {e e' : Export} {last : Nat}

theorem chunk_end_checked_fits {a chunk_end : UInt32}
    (h : (args.chunk_end_checked a).run = some (.ok chunk_end)) :
    a.toNat + args.chunk_size.toNat < 2 ^ 32 := by
  obtain ⟨n, hadd, -⟩ := bind_run_ok.mp h
  exact (add_run_ok.mp hadd).1

theorem chunk_end_checked_safe (hsize : args.chunk_size ≠ 0) {a : UInt32}
    (hfit : a.toNat + args.chunk_size.toNat < 2 ^ 32) :
    ¬ (args.chunk_end_checked a).Overflows := by
  have hpos : args.chunk_size.toNat ≠ 0 := fun hzero => hsize (UInt32.toNat_inj.mp hzero)
  have hone : (1 : UInt32) ≤ a + args.chunk_size := by
    rw [UInt32.le_iff_toNat_le, toNat_add_of_lt hfit, UInt32.toNat_one]
    omega
  unfold Args.chunk_end_checked
  rw [overflows_add_bind, overflows_sub_bind]
  rintro (hover | ⟨-, hover | ⟨-, hover⟩⟩)
  · omega
  · exact hover hone
  · exact not_overflows_pure _ hover

/-- How far a ledger is from the start of the chunk. -/
theorem written_eq {seq : UInt32} (hseq : seq.toNat = last + 1)
    (hstart : e.chunk_start.toNat ≤ last) :
    e.chunk_start ≤ seq ∧ (seq - e.chunk_start = args.chunk_size ↔
      last + 1 = e.chunk_start.toNat + args.chunk_size.toNat) := by
  have hle : e.chunk_start ≤ seq := by
    rw [UInt32.le_iff_toNat_le, hseq]
    omega
  refine ⟨hle, ?_⟩
  rw [← UInt32.toNat_inj, UInt32.toNat_sub_of_le _ _ hle, hseq]
  omega

theorem export_ledger_checked_ok {seq : UInt32} {info : LedgerInfo} {ledger_hash : Hash256}
    {d : SHAMapDiff} (hsize : args.chunk_size ≠ 0) (hseq : seq.toNat = last + 1)
    (hg : OnGrid args e last)
    (h : (export_ledger_checked sha512half args order get_node fuel e seq info ledger_hash d).run =
      some (.ok e')) :
    OnGrid args e' (last + 1) ∧ (ChunksFit args last → ChunksFit args (last + 1)) := by
  obtain ⟨-, hwritten⟩ := @written_eq args e last seq hseq hg.start_le
  obtain ⟨txns, -, h⟩ := bind_run_ok.mp h
  obtain ⟨written, hsub, h⟩ := bind_run_ok.mp h
  obtain ⟨-, rfl⟩ := sub_run_ok.mp hsub
  by_cases hcase : seq - e.chunk_start = args.chunk_size
  · -- The switch has checked the end of the new chunk.
    rw [if_pos hcase] at h
    obtain ⟨_, -, h⟩ := bind_run_ok.mp h
    obtain ⟨chunk_end, hend, h⟩ := bind_run_ok.mp h
    have hfit := chunk_end_checked_fits hend
    rw [run_pure] at h
    cases h
    refine ⟨hg.switch hsize hseq (hwritten.mp hcase), fun hf => hf.next hg fun _ => ?_⟩
    rwa [hseq] at hfit
  · rw [if_neg hcase, run_pure] at h
    cases h
    have hno := fun heq => hcase (hwritten.mpr heq)
    exact ⟨hg.stay rfl hno, fun hf => hf.next hg fun heq => absurd heq hno⟩

theorem export_ledger_checked_safe {seq : UInt32} {info : LedgerInfo} {ledger_hash : Hash256}
    {d : SHAMapDiff} (hsize : args.chunk_size ≠ 0) (hseq : seq.toNat = last + 1)
    (hg : OnGrid args e last) (hf : ChunksFit args (last + 1)) :
    ¬ (export_ledger_checked sha512half args order get_node fuel e seq info ledger_hash
        d).Overflows := by
  obtain ⟨hle, hwritten⟩ := @written_eq args e last seq hseq hg.start_le
  unfold export_ledger_checked
  rw [overflows_lift_bind]
  rintro ⟨txns, -, hover⟩
  rcases overflows_sub_bind.mp hover with hover | ⟨-, hover⟩
  · exact hover hle
  by_cases hcase : seq - e.chunk_start = args.chunk_size
  · -- The new chunk starts on the grid, where its end is known to fit.
    rw [if_pos hcase] at hover
    have hone : (1 : UInt32) ≤ seq := by
      rw [UInt32.le_iff_toNat_le, hseq]
      exact Nat.le_add_left 1 last
    have hswitch := @OnGrid.switch args e last { e with chunk_start := seq } hg hsize hseq
      (hwritten.mp hcase)
    obtain ⟨k, hk⟩ := hswitch.start
    have hfit : seq.toNat + args.chunk_size.toNat < 2 ^ 32 := by
      rw [show seq.toNat = _ from hk]
      exact hf k (hk ▸ le_of_eq hseq)
    rcases overflows_sub_bind.mp hover with hover | ⟨-, hover⟩
    · exact hover hone
    rcases overflows_bind.mp hover with hover | ⟨chunk_end, -, hover⟩
    · exact chunk_end_checked_safe hsize hfit hover
    · exact not_overflows_pure _ hover
  · rw [if_neg hcase] at hover
    exact not_overflows_pure _ hover

/-! ## One batch -/

theorem ChunksFit.mono {m n : Nat} (h : ChunksFit args n) (hle : m ≤ n) : ChunksFit args m :=
  fun k hk => h k (le_trans hk hle)

/-- The items are those of the ledgers behind `last`. -/
def Consecutive (last : Nat) (items : List BatchItem) : Prop :=
  items.map (fun item => item.2.1.toNat) = List.range' (last + 1) items.length

theorem Consecutive.cons {item : BatchItem} {items : List BatchItem}
    (h : Consecutive last (item :: items)) :
    item.2.1.toNat = last + 1 ∧ Consecutive (last + 1) items := by
  unfold Consecutive at h
  rw [List.map_cons, List.length_cons, List.range'_succ] at h
  exact List.cons.inj h

theorem export_items_ok (hsize : args.chunk_size ≠ 0) {items : List BatchItem}
    (hc : Consecutive last items) (hg : OnGrid args e last)
    (h : (items.foldlM (export_item_checked sha512half args order get_node fuel) e).run =
      some (.ok e')) :
    OnGrid args e' (last + items.length) ∧
      (ChunksFit args last → ChunksFit args (last + items.length)) := by
  -- The grid is what one ledger hands to the next.
  induction items generalizing e last with
  | nil =>
    rw [List.foldlM_nil, run_pure] at h
    cases h
    exact ⟨hg, id⟩
  | cons item items ih =>
    obtain ⟨hseq, hc⟩ := hc.cons
    rw [List.foldlM_cons] at h
    obtain ⟨e₁, hledger, h⟩ := bind_run_ok.mp h
    obtain ⟨hg₁, hf₁⟩ := export_ledger_checked_ok hsize hseq hg hledger
    obtain ⟨hg', hf'⟩ := ih hc hg₁ h
    have hlen : last + (item :: items).length = last + 1 + items.length := by
      rw [List.length_cons]
      omega
    rw [hlen]
    exact ⟨hg', fun hf => hf' (hf₁ hf)⟩

theorem export_items_safe (hsize : args.chunk_size ≠ 0) {items : List BatchItem}
    (hc : Consecutive last items) (hg : OnGrid args e last)
    (hf : ChunksFit args (last + items.length)) :
    ¬ (items.foldlM (export_item_checked sha512half args order get_node fuel) e).Overflows := by
  induction items generalizing e last with
  | nil => exact not_overflows_pure e
  | cons item items ih =>
    obtain ⟨hseq, hc⟩ := hc.cons
    have hlen : last + (item :: items).length = last + 1 + items.length := by
      rw [List.length_cons]
      omega
    rw [hlen] at hf
    rw [List.foldlM_cons, overflows_bind]
    rintro (hover | ⟨e₁, hledger, hover⟩)
    · exact export_ledger_checked_safe hsize hseq hg (hf.mono (Nat.le_add_right _ _)) hover
    · exact ih hc (export_ledger_checked_ok hsize hseq hg hledger).1 hf hover

theorem batch_pairs_length (running_prev : Hash256) (infos : List LedgerInfo) :
    (batch_pairs running_prev infos).length = infos.length := by
  induction infos generalizing running_prev with
  | nil => rfl
  | cons info infos ih => simp [batch_pairs, ih]

/-- The items of a batch are those of its numbers. -/
theorem batch_items {seqs : List UInt32} {infos : List LedgerInfo} {hashes : List Hash256}
    {diffs : List SHAMapDiff} {text : String} (hinfos : seqs.mapM ledger_db.get = .ok infos)
    (hhashes : ((infos.zip seqs).mapM fun (info, seq) => info.verify_ledger_hash sha512half seq) =
      .ok hashes)
    (hdiffs : with_context text (diff_batch_concurrent get_node fuel
      (batch_pairs e.prev_account_hash infos)) = .ok diffs) :
    (diffs.zip (seqs.zip (infos.zip hashes))).map (fun item => item.2.1) = seqs := by
  -- All four lists have the same length, so no zip drops anything.
  have hlen := mapM_length_ok hinfos
  have hlen' := mapM_length_ok hhashes
  have hlen'' := mapM_length_ok (with_context_eq_ok.mp hdiffs)
  rw [batch_pairs_length] at hlen''
  rw [List.length_zip] at hlen'
  have hsnd : (diffs.zip (seqs.zip (infos.zip hashes))).map Prod.snd =
      seqs.zip (infos.zip hashes) := by
    apply List.map_snd_zip
    simp only [List.length_zip]
    omega
  have hfst : (seqs.zip (infos.zip hashes)).map Prod.fst = seqs := by
    apply List.map_fst_zip
    simp only [List.length_zip]
    omega
  show (diffs.zip (seqs.zip (infos.zip hashes))).map (Prod.fst ∘ Prod.snd) = seqs
  rw [← List.map_map, hsnd, hfst]

theorem export_batch_checked_ok {seqs : List UInt32} {text : String}
    (h : (export_batch_checked sha512half args order get_node fuel ledger_db e seqs text).run =
      some (.ok e')) :
    ∃ items : List BatchItem, items.map (fun item => item.2.1) = seqs ∧
      (items.foldlM (export_item_checked sha512half args order get_node fuel) e).run =
        some (.ok e') := by
  obtain ⟨infos, hinfos, h⟩ := bind_run_ok.mp h
  obtain ⟨hashes, hhashes, h⟩ := bind_run_ok.mp h
  obtain ⟨diffs, hdiffs, h⟩ := bind_run_ok.mp h
  exact ⟨_, batch_items (Option.some.inj hinfos) (Option.some.inj hhashes)
    (Option.some.inj hdiffs), h⟩

theorem export_batch_checked_overflows {seqs : List UInt32} {text : String}
    (h : (export_batch_checked sha512half args order get_node fuel ledger_db e seqs
      text).Overflows) :
    ∃ items : List BatchItem, items.map (fun item => item.2.1) = seqs ∧
      (items.foldlM (export_item_checked sha512half args order get_node fuel) e).Overflows := by
  obtain ⟨infos, hinfos, h⟩ := overflows_lift_bind.mp h
  obtain ⟨hashes, hhashes, h⟩ := overflows_lift_bind.mp h
  obtain ⟨diffs, hdiffs, h⟩ := overflows_lift_bind.mp h
  exact ⟨_, batch_items hinfos hhashes hdiffs, h⟩

/-- Numbers that follow each other. -/
theorem consecutive_of_batch {items : List BatchItem} {seq batch_end : UInt32}
    (hseq : seq.toNat = last + 1) (hle : last ≤ batch_end.toNat)
    (h : items.map (fun item => item.2.1) = batch_seqs seq batch_end) :
    Consecutive last items ∧ last + items.length = batch_end.toNat := by
  have hlen := congrArg List.length h
  unfold batch_seqs at h hlen
  rw [List.length_map, List.length_map, List.length_range', hseq] at hlen
  have hnat := congrArg (List.map UInt32.toNat) h
  rw [List.map_map, List.map_map, hseq, ← hlen] at hnat
  have hid : ∀ n ∈ List.range' (last + 1) items.length, (UInt32.toNat ∘ UInt32.ofNat) n = n := by
    intro n hn
    have hmem := List.mem_range'_1.mp hn
    have hmax := batch_end.toNat_lt
    have hlt : n < 2 ^ 32 := by omega
    exact UInt32.toNat_ofNat_of_lt' hlt
  rw [List.map_congr_left hid, List.map_id'] at hnat
  exact ⟨hnat, by omega⟩

/-! ## The loop -/

/-- The last number of a batch that fits. -/
theorem batch_end_toNat {seq batch : UInt32} (hseq : seq.toNat = last + 1)
    (hfit : seq.toNat + batch.toNat < 2 ^ 32) :
    1 ≤ seq + batch ∧
      (min (seq + batch - 1) args.end).toNat = min (last + batch.toNat) args.end.toNat := by
  constructor
  · rw [UInt32.le_iff_toNat_le, toNat_add_of_lt hfit, UInt32.toNat_one]
    omega
  · rw [toNat_min_last (by omega) (Nat.le_of_lt hfit), hseq]
    omega

theorem batch_checked_ok (hsize : args.chunk_size ≠ 0) {seq batch_end : UInt32} {text : String}
    (hseq : seq.toNat = last + 1) (hle : last ≤ batch_end.toNat) (hg : OnGrid args e last)
    (h : (export_batch_checked sha512half args order get_node fuel ledger_db e
      (batch_seqs seq batch_end) text).run = some (.ok e')) :
    OnGrid args e' batch_end.toNat ∧
      (ChunksFit args last → ChunksFit args batch_end.toNat) := by
  obtain ⟨items, hitems, h⟩ := export_batch_checked_ok h
  obtain ⟨hc, hlen⟩ := consecutive_of_batch hseq hle hitems
  rw [← hlen]
  exact export_items_ok hsize hc hg h

theorem batch_checked_safe (hsize : args.chunk_size ≠ 0) {seq batch_end : UInt32} {text : String}
    (hseq : seq.toNat = last + 1) (hle : last ≤ batch_end.toNat) (hg : OnGrid args e last)
    (hf : ChunksFit args batch_end.toNat) :
    ¬ (export_batch_checked sha512half args order get_node fuel ledger_db e
      (batch_seqs seq batch_end) text).Overflows := by
  intro hover
  obtain ⟨items, hitems, hover⟩ := export_batch_checked_overflows hover
  obtain ⟨hc, hlen⟩ := consecutive_of_batch hseq hle hitems
  rw [← hlen] at hf
  exact export_items_safe hsize hc hg hf hover

/-- A loop that comes to its end has found that everything fits. -/
theorem export_loop_checked_ok (hsize : args.chunk_size ≠ 0) {batch : UInt32} {n : Nat}
    {seq : UInt32} (hseq : seq.toNat = last + 1) (hle : last < args.end.toNat)
    (hg : OnGrid args e last) (hf : ChunksFit args last)
    (h : (export_loop_checked sha512half args order get_node fuel ledger_db batch n seq e).run =
      some (.ok e')) :
    args.end.toNat + 1 < 2 ^ 32 ∧ ChunksFit args args.end.toNat ∧ 0 < batch.toNat ∧
      BatchesFit args batch (last + 1) := by
  -- By induction on the rounds. An empty batch goes round on the spot and never gets here.
  induction n generalizing seq e last with
  | zero => cases h
  | succ n ih =>
    have hin : seq ≤ args.end := by
      rw [UInt32.le_iff_toNat_le]
      omega
    unfold export_loop_checked at h
    rw [if_pos hin] at h
    obtain ⟨last₁, hadd, h⟩ := bind_run_ok.mp h
    obtain ⟨hfit, rfl⟩ := add_run_ok.mp hadd
    obtain ⟨last₂, hsub, h⟩ := bind_run_ok.mp h
    obtain ⟨-, rfl⟩ := sub_run_ok.mp hsub
    obtain ⟨e₁, hbatch, h⟩ := bind_run_ok.mp h
    obtain ⟨next, hadd_next, h⟩ := bind_run_ok.mp h
    obtain ⟨hnext, rfl⟩ := add_run_ok.mp hadd_next
    obtain ⟨-, hend⟩ := @batch_end_toNat args last seq batch hseq hfit
    generalize min (seq + batch - 1) args.end = batch_end at hbatch h hnext hend
    obtain ⟨hg₁, hf₁⟩ := batch_checked_ok hsize hseq (by omega) hg hbatch
    have hseq' := toNat_succ hnext
    have hfits : ∀ k, last + 1 + k * batch.toNat ≤ args.end.toNat → k = 0 →
        last + 1 + k * batch.toNat + batch.toNat < 2 ^ 32 := by
      rintro k - rfl
      omega
    by_cases hlast : batch_end.toNat < args.end.toNat
    · -- The next batch starts behind this one.
      obtain ⟨hmax, hchunks, hpos, hbatches⟩ := ih hseq' hlast hg₁ (hf₁ hf) h
      refine ⟨hmax, hchunks, hpos, fun k hk => ?_⟩
      cases k with
      | zero => exact hfits 0 hk rfl
      | succ k =>
        rw [Nat.add_mul, Nat.one_mul] at hk ⊢
        have hfrom : batch_end.toNat = last + batch.toNat := by omega
        have := hbatches k (by omega)
        omega
    · -- This is the last batch.
      have heq : batch_end.toNat = args.end.toNat := by omega
      rw [heq] at hf₁ hnext
      refine ⟨hnext, hf₁ hf, by omega, fun k hk => ?_⟩
      cases k with
      | zero => exact hfits 0 hk rfl
      | succ k =>
        rw [Nat.add_mul, Nat.one_mul] at hk
        omega

/-- If everything fits the loop does not overflow. -/
theorem export_loop_checked_safe (hsize : args.chunk_size ≠ 0) {batch : UInt32}
    (hmax : args.end.toNat + 1 < 2 ^ 32) (hf : ChunksFit args args.end.toNat) {n : Nat}
    {seq : UInt32} (hseq : seq.toNat = last + 1) (hg : OnGrid args e last)
    (hb : BatchesFit args batch (last + 1)) :
    ¬ (export_loop_checked sha512half args order get_node fuel ledger_db batch n seq
      e).Overflows := by
  induction n generalizing seq e last with
  | zero =>
    intro hover
    cases hover
  | succ n ih =>
    unfold export_loop_checked
    by_cases hin : seq ≤ args.end
    · rw [if_pos hin]
      rw [UInt32.le_iff_toNat_le] at hin
      have hfit : seq.toNat + batch.toNat < 2 ^ 32 := by
        have := hb 0
        omega
      obtain ⟨hone, hend⟩ := @batch_end_toNat args last seq batch hseq hfit
      intro hover
      rcases overflows_add_bind.mp hover with hover | ⟨-, hover⟩
      · omega
      rcases overflows_sub_bind.mp hover with hover | ⟨-, hover⟩
      · exact hover hone
      generalize min (seq + batch - 1) args.end = batch_end at hover hend
      have hle : last ≤ batch_end.toNat := by omega
      rcases overflows_bind.mp hover with hover | ⟨e₁, hbatch, hover⟩
      · exact batch_checked_safe hsize hseq hle hg (hf.mono (by omega)) hover
      obtain ⟨hg₁, -⟩ := batch_checked_ok hsize hseq hle hg hbatch
      rcases overflows_add_bind.mp hover with hover | ⟨hnext, hover⟩
      · rw [UInt32.toNat_one] at hover
        omega
      have hseq' := toNat_succ hnext
      refine ih hseq' hg₁ (fun k hk => ?_) hover
      -- A later batch, or a number behind the range.
      have := hb (k + 1)
      rw [Nat.add_mul, Nat.one_mul] at this
      omega
    · rw [if_neg hin]
      exact not_overflows_pure e

/-! ## Whole runs -/

variable {concurrency : Nat} {files : List ChunkFile}

theorem export_start_checked_ok
    (h : (export_start_checked sha512half args order get_node fuel ledger_db concurrency).run =
      some (.ok e)) :
    e.chunk_start = args.start ∧ args.start.toNat + args.chunk_size.toNat < 2 ^ 32 := by
  obtain ⟨info, -, h⟩ := bind_run_ok.mp h
  obtain ⟨hash, -, h⟩ := bind_run_ok.mp h
  obtain ⟨nodes, -, h⟩ := bind_run_ok.mp h
  obtain ⟨txns, -, h⟩ := bind_run_ok.mp h
  obtain ⟨chunk_end, hend, h⟩ := bind_run_ok.mp h
  have hfit := chunk_end_checked_fits hend
  rw [run_pure] at h
  cases h
  exact ⟨rfl, hfit⟩

theorem export_start_checked_safe (hsize : args.chunk_size ≠ 0)
    (hfit : args.start.toNat + args.chunk_size.toNat < 2 ^ 32) :
    ¬ (export_start_checked sha512half args order get_node fuel ledger_db
      concurrency).Overflows := by
  intro hover
  obtain ⟨info, -, hover⟩ := overflows_lift_bind.mp hover
  obtain ⟨hash, -, hover⟩ := overflows_lift_bind.mp hover
  obtain ⟨nodes, -, hover⟩ := overflows_lift_bind.mp hover
  obtain ⟨txns, -, hover⟩ := overflows_lift_bind.mp hover
  rcases overflows_bind.mp hover with hover | ⟨chunk_end, -, hover⟩
  · exact chunk_end_checked_safe hsize hfit hover
  · exact not_overflows_pure _ hover

/-- The first chunk starts at the start. -/
theorem OnGrid.first (hsize : args.chunk_size ≠ 0) (h : e.chunk_start = args.start) :
    OnGrid args e args.start.toNat := by
  have hpos : args.chunk_size.toNat ≠ 0 := fun hzero => hsize (UInt32.toNat_inj.mp hzero)
  refine ⟨⟨0, ?_⟩, ?_, ?_⟩
  · rw [h, Nat.zero_mul, Nat.add_zero]
  · rw [h]
  · rw [h]
    omega

theorem ChunksFit.first (hfit : args.start.toNat + args.chunk_size.toNat < 2 ^ 32) :
    ChunksFit args args.start.toNat := by
  intro k hk
  have hzero : k * args.chunk_size.toNat = 0 := by omega
  omega

/-- A run that comes to its end has found that all numbers fit. -/
theorem export_main_checked_fits
    (h : (export_main_checked sha512half args order get_node fuel ledger_db concurrency).run =
      some (.ok files)) : NumbersFit args (batch_size concurrency) := by
  obtain ⟨_, hrange, h⟩ := bind_run_ok.mp h
  obtain ⟨_, hsize, h⟩ := bind_run_ok.mp h
  have hrange := UInt32.not_le.mp (bail_if_eq_ok.mp (Option.some.inj hrange))
  have hsize := bail_if_eq_ok.mp (Option.some.inj hsize)
  obtain ⟨e, hstart, h⟩ := bind_run_ok.mp h
  obtain ⟨seq, hadd, h⟩ := bind_run_ok.mp h
  obtain ⟨-, rfl⟩ := add_run_ok.mp hadd
  obtain ⟨e', hloop, -⟩ := bind_run_ok.mp h
  obtain ⟨hfirst, hfit⟩ := export_start_checked_ok hstart
  obtain ⟨hmax, hchunks, hpos, hbatches⟩ := export_loop_checked_ok hsize (toNat_succ_of_lt hrange)
    (UInt32.lt_iff_toNat_lt.mp hrange) (.first hsize hfirst) (.first hfit) hloop
  exact ⟨hmax, hchunks, hpos, hbatches⟩

/-- No run overflows if all numbers fit. -/
theorem export_main_checked_safe (hf : NumbersFit args (batch_size concurrency)) :
    ¬ (export_main_checked sha512half args order get_node fuel ledger_db
      concurrency).Overflows := by
  intro hover
  obtain ⟨_, hrange, hover⟩ := overflows_lift_bind.mp hover
  obtain ⟨_, hsize, hover⟩ := overflows_lift_bind.mp hover
  have hrange := UInt32.not_le.mp (bail_if_eq_ok.mp hrange)
  have hsize := bail_if_eq_ok.mp hsize
  have hnext := toNat_succ_of_lt hrange
  have hlt := UInt32.lt_iff_toNat_lt.mp hrange
  have hstart_fit : args.start.toNat + args.chunk_size.toNat < 2 ^ 32 := by
    have := hf.chunks 0
    omega
  rcases overflows_bind.mp hover with hover | ⟨e, hstart, hover⟩
  · exact export_start_checked_safe hsize hstart_fit hover
  obtain ⟨hfirst, -⟩ := export_start_checked_ok hstart
  rcases overflows_add_bind.mp hover with hover | ⟨-, hover⟩
  · have hmax := args.end.toNat_lt
    rw [UInt32.toNat_one] at hover
    omega
  rcases overflows_bind.mp hover with hover | ⟨e', -, hover⟩
  · exact export_loop_checked_safe hsize hf.end_lt hf.chunks hnext (.first hsize hfirst)
      hf.batches hover
  rcases overflows_sub_bind.mp hover with hover | ⟨-, hover⟩
  · exact hover (UInt32.le_of_lt hrange)
  · exact not_overflows_pure _ hover

end Runs

end LedgerArchive
