import LedgerArchive.Import.Bounds
import LedgerArchive.Import.Overlap
import LedgerArchive.Lib.Alike

/-! # Verifying without writing (`xrla-import/src/main.rs`, `verify_only`)

    `--verify-only` replays the files with a sink that claims to hold every
    node, so that no node is even encoded. An import of the same files goes
    through the same checks in the same order: it returns when `verify_only`
    does and ends in the same error when that fails. With `--txdb` it fails
    besides where a transaction cannot be decoded (`verify_only_agrees`). -/

namespace LedgerArchive

open Lib

/-- `verify_only`: the number of ledgers of all files. -/
def verify_only (sha512half : Bytes → Hash256) (fuel : Nat) (files : List Bytes) :
    Except Error Nat := do
  let (ledgers, _) ← files.foldlM (fun (acc : Nat × Outputs Unit Unit) file => do
    let (replay, out) ← import_chunk NullSink NoTxDb sha512half fuel true file acc.2
    pure (acc.1 + (replay.ledger_rows.length + 1), out))
    (0, { sink := (), txdb := none, calls := [] })
  pure ledgers

/-! ## Two replays with different outputs -/

/-- Both replays are at the same point, whatever their outputs hold. -/
structure InStep {σ τ σ' τ' : Type} (r : Replay σ τ) (q : Replay σ' τ') : Prop where
  state : r.state = q.state
  current_root : r.current_root = q.current_root
  prev_ledger_hash : r.prev_ledger_hash = q.prev_ledger_hash
  ledger_rows : r.ledger_rows = q.ledger_rows

/-- The outputs of the first replay never fail; those of the second fail
    with errors in `own`. -/
structure OutputsFail {σ τ σ' τ' : Type} (own : Error → Prop) (S : NodeSink σ) (T : TxDb τ)
    (S' : NodeSink σ') (T' : TxDb τ') : Prop where
  never : OutputErrorsIn (fun _ => False) S T
  own : OutputErrorsIn own S' T'

namespace OutputsFail

variable {σ τ σ' τ' : Type} {own : Error → Prop} {S : NodeSink σ} {T : TxDb τ}
  {S' : NodeSink σ'} {T' : TxDb τ'} {sha512half : Bytes → Hash256}
  (hO : OutputsFail own S T S' T')

include hO

theorem apply_delta (verify : Bool) (state : StateMap) (out : Outputs σ τ) (out' : Outputs σ' τ')
    (delta : LedgerDelta) :
    Alike own (fun a b => a.1 = b.1) (apply_delta S verify state out delta)
      (apply_delta S' verify state out' delta) := by
  apply Alike.bind_same
  intro _
  apply Alike.bind (R := fun a b => a.1 = b.1)
  · apply Alike.foldlM
    · intro a b node hab
      -- Only the sinks can differ, and only the second one can fail.
      have hsunk : Alike own (fun _ _ => True) (sink_node S a.2 node) (sink_node S' b.2 node) :=
        .of_errors (sink_nodes_errors hO.never a.2 [node]).of_bind
          (sink_nodes_errors hO.own b.2 [node]).of_bind
      apply hsunk.bind
      intro o o' _
      refine .ok ?_
      rw [hab]
    · rfl
  rintro ⟨s, o⟩ ⟨_, o'⟩ rfl
  apply Alike.bind_same
  intro _
  exact .ok rfl

theorem close_ledger (verify : Bool) {r : Replay σ τ} {q : Replay σ' τ'} (hrq : InStep r q)
    (delta : LedgerDelta) (tx_map : TxMap) (state : StateMap) (out : Outputs σ τ)
    (out' : Outputs σ' τ') :
    Alike own InStep (close_ledger S T sha512half verify r delta tx_map state out)
      (close_ledger S' T' sha512half verify q delta tx_map state out') := by
  unfold LedgerArchive.close_ledger
  rw [hrq.current_root, hrq.prev_ledger_hash, hrq.ledger_rows]
  apply Alike.bind_same
  intro _
  apply Alike.bind_same
  intro new_root
  apply Alike.bind_same
  intro tree
  -- The nodes of the transaction tree go to the sinks.
  apply (Alike.of_errors (sink_nodes_errors hO.never out tree.2)
    (sink_nodes_errors hO.own out' tree.2)).bind
  intro o o' _
  apply Alike.bind_same
  intro _
  -- So do the header and the rows of the ledger.
  apply (Alike.of_errors (write_ledger_outputs_errors hO.never o tx_map _ _ _)
    (write_ledger_outputs_errors hO.own o' tx_map _ _ _)).bind
  intro o o' _
  exact .ok ⟨rfl, rfl, rfl, rfl⟩

theorem ledger_step (verify : Bool) {r : Replay σ τ} {q : Replay σ' τ'} (hrq : InStep r q)
    (ledger : LedgerDelta × TxMap) :
    Alike own InStep (ledger_step S T sha512half verify r ledger)
      (ledger_step S' T' sha512half verify q ledger) := by
  unfold LedgerArchive.ledger_step
  rw [hrq.state]
  apply (hO.apply_delta verify q.state r.out q.out ledger.1).bind
  rintro ⟨s, o⟩ ⟨_, o'⟩ rfl
  exact hO.close_ledger verify hrq ledger.1 ledger.2 s o o'

theorem open_ledger (cp : TxMap) (state : StateMap) (out : Outputs σ τ) (out' : Outputs σ' τ') :
    Alike own InStep (open_ledger S T sha512half cp state out)
      (open_ledger S' T' sha512half cp state out') := by
  apply (Alike.of_errors (Outputs.write_ledger_errors hO.never out cp)
    (Outputs.write_ledger_errors hO.own out' cp)).bind
  intro o o' _
  apply Alike.bind_same
  intro tree
  apply (Alike.of_errors (sink_nodes_errors hO.never o tree.2)
    (sink_nodes_errors hO.own o' tree.2)).bind
  intro o o' _
  exact .ok ⟨rfl, rfl, rfl, rfl⟩

omit hO in
theorem finish_replay (fuel : Nat) (verify : Bool) {r : Replay σ τ} {q : Replay σ' τ'}
    (hrq : InStep r q) :
    Alike own (fun a b => a.1.ledger_rows = b.1.ledger_rows) (finish_replay fuel verify r)
      (finish_replay fuel verify q) := by
  unfold LedgerArchive.finish_replay
  rw [hrq.current_root, hrq.state]
  apply Alike.bind_same
  intro _
  exact .ok hrq.ledger_rows

/-! ## Buffered -/

theorem replay_chunk (fuel : Nat) (chunk : Chunk) (verify : Bool) (out : Outputs σ τ)
    (out' : Outputs σ' τ') :
    Alike own (fun a b => a.1.ledger_rows = b.1.ledger_rows)
      (replay_chunk S T sha512half fuel chunk verify out)
      (replay_chunk S' T' sha512half fuel chunk verify out') := by
  -- The checkpoint, then what is asked of it, then ledger by ledger.
  apply (Alike.of_errors (sink_nodes_errors hO.never out _)
    (sink_nodes_errors hO.own out' _)).bind
  intro o o' _
  apply Alike.bind_same
  intro cp
  apply Alike.bind_same
  intro _
  apply Alike.bind_same
  intro _
  apply Alike.bind_same
  intro _
  apply (hO.open_ledger cp _ o o').bind
  intro r q hrq
  apply Alike.bind (R := InStep)
  · refine Alike.foldlM (fun r q di hrq => ?_) hrq
    rw [hrq.state]
    apply (hO.apply_delta verify q.state r.out q.out di.1).bind
    rintro ⟨s, o⟩ ⟨_, o'⟩ rfl
    apply Alike.bind_same
    intro tx_map
    exact hO.close_ledger verify hrq di.1 tx_map s o o'
  · intro r q hrq
    exact finish_replay fuel verify hrq

/-! ## Streamed -/

omit hO in
/-- The loads of the checkpoint: the second one may have met an error of
    its sink. -/
structure LoadInStep (own : Error → Prop) (l : CheckpointLoad σ τ) (m : CheckpointLoad σ' τ') :
    Prop where
  state : l.state = m.state
  bad : l.bad_checkpoint_hash = m.bad_checkpoint_hash
  never : l.sink_err = none
  own : ∀ e, m.sink_err = some e → own e

theorem load_node (verify : Bool) {l : CheckpointLoad σ τ} {m : CheckpointLoad σ' τ'}
    (hlm : LoadInStep own l m) (node : SHAMapNode) :
    LoadInStep own (l.node S sha512half verify node) (m.node S' sha512half verify node) := by
  refine ⟨?_, ?_, ?_, ?_⟩
  · show l.state.insert node.hash node = m.state.insert node.hash node
    rw [hlm.state]
  · unfold CheckpointLoad.node
    simp only [hlm.bad]
  · have hsunk := (sink_nodes_errors hO.never l.out [node]).of_bind
    unfold CheckpointLoad.node
    simp only [hlm.never]
    cases hs : sink_node S l.out node with
    | ok o => rfl
    | error e => exact (hsunk e hs).elim
  · -- The second sink keeps its first error, or this node brings one.
    have hsunk := (sink_nodes_errors hO.own m.out [node]).of_bind
    intro e he
    unfold CheckpointLoad.node at he
    cases herr : m.sink_err with
    | some e' =>
      simp only [herr, Option.some.injEq] at he
      exact he ▸ hlm.own e' herr
    | none =>
      simp only [herr] at he
      cases hs : sink_node S' m.out node with
      | ok o =>
        simp only [hs] at he
        cases he
      | error e' =>
        simp only [hs, Option.some.injEq] at he
        exact he ▸ hsunk e' hs

theorem checkpoint_nodes (verify : Bool) (n : Nat) {l : CheckpointLoad σ τ}
    {m : CheckpointLoad σ' τ'} (hlm : LoadInStep own l m) (r : HashingReader) :
    Alike own (fun a b => LoadInStep own a.1 b.1 ∧ a.2 = b.2)
      (ChunkReader.checkpoint_nodes (CheckpointLoad.node S sha512half verify) n l r)
      (ChunkReader.checkpoint_nodes (CheckpointLoad.node S' sha512half verify) n m r) := by
  induction n generalizing l m r with
  | zero => exact .ok ⟨hlm, rfl⟩
  | succ n ih =>
    apply Alike.bind_same
    rintro ⟨node, r'⟩
    exact ih (hO.load_node verify hlm node) r'

theorem for_each_delta (verify : Bool) (n : Nat) {r : Replay σ τ} {q : Replay σ' τ'}
    (hrq : InStep r q) (reader : ChunkReader) :
    Alike own (fun a b => InStep a.1 b.1 ∧ a.2 = b.2)
      (reader.for_each_delta (fun r delta tx_map =>
        LedgerArchive.ledger_step S T sha512half verify r (delta, tx_map)) n r)
      (reader.for_each_delta (fun q delta tx_map =>
        LedgerArchive.ledger_step S' T' sha512half verify q (delta, tx_map)) n q) := by
  induction n generalizing r q reader with
  | zero => exact .error Error.fuel
  | succ n ih =>
    apply Alike.bind_same
    rintro ⟨next, reader'⟩
    cases next with
    | none => exact .ok ⟨hrq, rfl⟩
    | some ledger =>
      apply (hO.ledger_step verify hrq ledger).bind
      intro r' q' hrq'
      exact ih hrq' reader'

theorem replay_chunk_streaming (fuel : Nat) (file : Bytes) (verify : Bool) (out : Outputs σ τ)
    (out' : Outputs σ' τ') :
    Alike own (fun a b => a.1.ledger_rows = b.1.ledger_rows)
      (replay_chunk_streaming S T sha512half fuel file verify out)
      (replay_chunk_streaming S' T' sha512half fuel file verify out') := by
  apply Alike.bind_same
  intro reader
  apply Alike.bind (R := fun a b => LoadInStep own a.1 b.1 ∧ a.2 = b.2)
  · apply Alike.bind_same
    rintro ⟨count, r⟩
    apply (hO.checkpoint_nodes verify count.toNat (l := ⟨∅, out, none, none⟩)
      (m := ⟨∅, out', none, none⟩) ⟨rfl, rfl, rfl, fun e he => by cases he⟩ r).bind
    rintro ⟨l, r⟩ ⟨m, r'⟩ ⟨hlm, rfl⟩
    exact .ok ⟨hlm, rfl⟩
  rintro ⟨l, reader⟩ ⟨m, reader'⟩ ⟨hlm, rfl⟩
  dsimp only
  rw [hlm.never]
  cases herr : m.sink_err with
  | some e => exact .own _ (hlm.own e herr)
  | none =>
    rw [hlm.bad, hlm.state]
    apply Alike.bind_same
    intro _
    apply Alike.bind_same
    rintro ⟨cp, reader⟩
    apply Alike.bind_same
    intro _
    apply Alike.bind_same
    intro _
    apply Alike.bind_same
    intro _
    apply (hO.open_ledger cp m.state l.out m.out).bind
    intro r q hrq
    apply (hO.for_each_delta verify _ hrq reader).bind
    rintro ⟨r, reader⟩ ⟨q, reader'⟩ ⟨hrq, rfl⟩
    apply Alike.bind_same
    intro _
    exact finish_replay fuel verify hrq

theorem import_chunk (fuel : Nat) (verify : Bool) (file : Bytes) (out : Outputs σ τ)
    (out' : Outputs σ' τ') :
    Alike own (fun a b => a.1.ledger_rows = b.1.ledger_rows)
      (import_chunk S T sha512half fuel verify file out)
      (import_chunk S' T' sha512half fuel verify file out') := by
  apply Alike.bind_same
  intro version
  by_cases hv : version = FORMAT_VERSION_STREAMED
  · rw [if_pos hv, if_pos hv]
    exact hO.replay_chunk_streaming fuel file verify out out'
  · rw [if_neg hv, if_neg hv]
    apply Alike.bind_same
    intro chunk
    exact hO.replay_chunk fuel chunk verify out out'

end OutputsFail

section Agrees

variable {σ τ : Type} {S : NodeSink σ} {T : TxDb τ} {sha512half : Bytes → Hash256} {fuel : Nat}
  {files : List Bytes}

/-- The two loops over the files count the same ledgers. -/
theorem verify_only_files {own : Error → Prop} (hO : OutputErrorsIn own S T)
    (a : Nat × Outputs Unit Unit) (b : List LedgerDbRow × Outputs σ τ) :
    Alike own (fun a' b' => a'.1 + b.1.length = a.1 + b'.1.length + files.length)
      (files.foldlM (fun (acc : Nat × Outputs Unit Unit) file => do
        let (replay, out) ← import_chunk NullSink NoTxDb sha512half fuel true file acc.2
        pure (acc.1 + (replay.ledger_rows.length + 1), out)) a)
      (files.foldlM (fun (acc : List LedgerDbRow × Outputs σ τ) file => do
        let (replay, out) ← import_chunk S T sha512half fuel true file acc.2
        pure (acc.1 ++ replay.ledger_rows, out)) b) := by
  have hboth : OutputsFail own NullSink NoTxDb S T :=
    ⟨⟨fun _ _ _ => errorsIn_ok _, fun _ _ => errorsIn_ok _⟩, hO⟩
  induction files generalizing a b with
  | nil => exact .ok rfl
  | cons file files ih =>
    rw [List.foldlM_cons, List.foldlM_cons]
    -- The checkpoint ledger is counted by `verify_only` and has no row.
    apply Alike.bind (R := fun a' b' => a'.1 + b.1.length = a.1 + b'.1.length + 1)
    · apply (hboth.import_chunk fuel true file a.2 b.2).bind
      rintro ⟨r, o⟩ ⟨q, o'⟩ hrows
      refine .ok ?_
      show a.1 + (r.ledger_rows.length + 1) + b.1.length =
        a.1 + (b.1 ++ q.ledger_rows).length + 1
      rw [show r.ledger_rows = q.ledger_rows from hrows, List.length_append]
      omega
    · intro a' b' hab
      apply (ih a' b').mono
      intro a'' b'' hab'
      rw [List.length_cons]
      omega

/-- `verify_only` next to an import whose outputs fail with errors in `own`. -/
theorem verify_only_alike {own : Error → Prop} (hO : OutputErrorsIn own S T) (out : Outputs σ τ) :
    Alike own (fun n r => n = r.1.length + files.length) (verify_only sha512half fuel files)
      (import_chunks S T sha512half fuel true files out) := by
  unfold verify_only import_chunks
  rw [← bind_pure (files.foldlM (m := Except Error) _ ([], out))]
  apply (verify_only_files hO (0, ⟨(), none, []⟩) ([], out)).bind
  intro a b hab
  refine .ok ?_
  simpa using hab

/-! ## A database that refuses ledgers -/

/-- The database without its errors: what it refuses is left out. -/
def TxDb.lenient (T : TxDb τ) : TxDb τ :=
  ⟨fun t m => match T.write_ledger t m with
    | .ok t' => .ok t'
    | .error _ => .ok t⟩

theorem TxDb.lenient_errors (T : TxDb τ) (t : τ) (m : TxMap) {own : Error → Prop} :
    ErrorsIn own (T.lenient.write_ledger t m) := by
  unfold TxDb.lenient
  dsimp only
  split
  · exact errorsIn_ok _
  · exact errorsIn_ok _

theorem TxDb.lenient_eq {T : TxDb τ} {m : TxMap} (h : ∀ t, ∃ t', T.write_ledger t m = .ok t')
    (t : τ) : T.lenient.write_ledger t m = T.write_ledger t m := by
  obtain ⟨t', ht'⟩ := h t
  unfold TxDb.lenient
  dsimp only
  rw [ht']

variable {T' : TxDb τ} {verify : Bool}

/-- Databases that take a ledger the same way are written the same way. -/
theorem write_ledger_congr {m : TxMap} (h : ∀ t, T.write_ledger t m = T'.write_ledger t m)
    (out : Outputs σ τ) : out.write_ledger T m = out.write_ledger T' m := by
  unfold Outputs.write_ledger
  cases out.txdb with
  | none => rfl
  | some t =>
    dsimp only
    rw [h t]

theorem ledger_step_congr {l : LedgerDelta × TxMap}
    (h : ∀ t, T.write_ledger t l.2 = T'.write_ledger t l.2) (r : Replay σ τ) :
    ledger_step S T sha512half verify r l = ledger_step S T' sha512half verify r l := by
  have hwrite : ∀ (out : Outputs σ τ) parent_hash tx_hash account_hash,
      write_ledger_outputs S T out l.2 parent_hash tx_hash account_hash =
        write_ledger_outputs S T' out l.2 parent_hash tx_hash account_hash := by
    intro out parent_hash tx_hash account_hash
    unfold write_ledger_outputs
    simp only [write_ledger_congr h]
  unfold ledger_step close_ledger
  simp only [hwrite]

/-- A replay looks at a database only where it writes a ledger of the chunk. -/
theorem ReplaySteps.congr {chunk : Chunk} {out : Outputs σ τ} {cp : TxMap} {out₁ : Outputs σ τ}
    {r₀ r₁ : Replay σ τ} {res : ReplayResult × Outputs σ τ}
    (hs : ReplaySteps S T sha512half fuel chunk verify out cp out₁ r₀ r₁ res)
    (h : ∀ m ∈ chunk.tx_maps, ∀ t, T.write_ledger t m = T'.write_ledger t m) :
    ReplaySteps S T' sha512half fuel chunk verify out cp out₁ r₀ r₁ res := by
  refine { hs with opened := ?_, replayed := ?_ }
  · have hopened := hs.opened
    unfold open_ledger at hopened ⊢
    rw [← write_ledger_congr (h cp (List.mem_of_mem_head? hs.first))]
    exact hopened
  · have hmem : ∀ l ∈ chunk.ledgers, l.2 ∈ chunk.tx_maps := by
      intro l hl
      exact List.mem_of_mem_tail (List.of_mem_zip hl).2
    refine foldlM_ok_mono (fun l hl r r' hstep => ?_) hs.replayed
    rwa [← ledger_step_congr (h l.2 (hmem l hl))]

theorem import_chunk_congr {file : Bytes} {out : Outputs σ τ} {res : ReplayResult × Outputs σ τ}
    (h : ∀ chunk, FileHolds sha512half file chunk → ∀ m ∈ chunk.tx_maps, ∀ t,
      T.write_ledger t m = T'.write_ledger t m)
    (hrun : import_chunk S T sha512half fuel verify file out = .ok res) :
    import_chunk S T' sha512half fuel verify file out = .ok res := by
  obtain ⟨chunk, hheld, -⟩ := import_chunk_ok hrun
  unfold import_chunk at hrun ⊢
  obtain ⟨v, hv, hrun⟩ := bind_eq_ok.mp hrun
  refine bind_eq_ok.mpr ⟨v, hv, ?_⟩
  have hv4 := detect_version_ok hv
  by_cases h3 : v = FORMAT_VERSION_STREAMED
  · rw [if_pos h3] at hrun ⊢
    obtain ⟨header, body, rest, chunk', hl, hhash, cp, out₁, r₀, r₁, hs⟩ :=
      replay_chunk_streaming_ok.mp hrun
    have hheld' : FileHolds sha512half file chunk' := by
      unfold FileHolds
      rw [if_pos (by rw [hv4, h3])]
      exact ⟨header, body, rest, hl⟩
    exact replay_chunk_streaming_ok.mpr
      ⟨header, body, rest, chunk', hl, hhash, cp, out₁, r₀, r₁, hs.congr (h chunk' hheld')⟩
  · rw [if_neg h3] at hrun ⊢
    obtain ⟨chunk', hparse, hrun⟩ := bind_eq_ok.mp hrun
    have hheld' : FileHolds sha512half file chunk' := by
      unfold FileHolds
      rw [if_neg fun hc => h3 (Option.some.inj (hv4.symm.trans hc))]
      exact from_chunk_eq_ok.mp hparse
    obtain ⟨hlen, cp, out₁, r₀, r₁, hs⟩ := replay_chunk_ok.mp hrun
    exact bind_eq_ok.mpr ⟨chunk', hparse,
      replay_chunk_ok.mpr ⟨hlen, cp, out₁, r₀, r₁, hs.congr (h chunk' hheld')⟩⟩

theorem import_chunks_congr {out : Outputs σ τ} {res : List LedgerDbRow × Outputs σ τ}
    (h : ∀ file ∈ files, ∀ chunk, FileHolds sha512half file chunk → ∀ m ∈ chunk.tx_maps, ∀ t,
      T.write_ledger t m = T'.write_ledger t m)
    (hrun : import_chunks S T sha512half fuel verify files out = .ok res) :
    import_chunks S T' sha512half fuel verify files out = .ok res := by
  refine foldlM_ok_mono (fun file hfile acc acc' hstep => ?_) hrun
  obtain ⟨r, hr, hacc⟩ := bind_eq_ok.mp hstep
  exact bind_eq_ok.mpr ⟨r, import_chunk_congr (h file hfile) hr, hacc⟩

end Agrees

/-! ## Imports -/

/-- An error of a transaction that cannot be decoded. -/
def Undecodable (sha256 : Bytes → Hash256) (e : Error) : Prop :=
  ∃ seq tx, transaction_rows sha256 seq tx = .error e

theorem tx_db_errors (sha256 : Bytes → Hash256) (db : TxDbSink) (m : TxMap) :
    ErrorsIn (Undecodable sha256) (db.write_ledger sha256 m) := by
  apply errorsIn_foldlM
  intro tx _ db
  apply ErrorsIn.bind
  · intro e he
    exact ⟨m.ledger_seq, tx, he⟩
  · intro rows _
    exact errorsIn_ok _

theorem node_sink_errors {own : Error → Prop} (xxh64 : Bytes → UInt64 → UInt64) (s : NuDbSink)
    (hash : Hash256) (value : Bytes) :
    ErrorsIn own ((NuDbSink.node_sink xxh64).write_node s hash value) :=
  errorsIn_ok _

section Imports

variable (sha256 : Bytes → Hash256) (xxh64 : Bytes → UInt64 → UInt64)
  (sha512half : Bytes → Hash256) (fuel : Nat) (files : List Bytes)

theorem verify_only_eq : verify_only sha512half fuel files =
    (import_main xxh64 sha512half fuel true files).map fun r => r.1.length + files.length := by
  have hO : OutputErrorsIn (fun _ => False) (NuDbSink.node_sink xxh64) NoTxDb :=
    ⟨node_sink_errors xxh64, fun _ _ => errorsIn_ok _⟩
  have hlike := @verify_only_alike _ _ _ _ sha512half fuel files _ hO
    { sink := NuDbSink.create, txdb := none, calls := [] }
  have hmain : Alike (fun _ => False) (fun n r => n = r.1.length + files.length)
      (verify_only sha512half fuel files) (import_main xxh64 sha512half fuel true files) := by
    rw [← bind_pure (verify_only sha512half fuel files)]
    apply hlike.bind
    intro n r hn
    exact .ok hn
  have hmap := hmain.map_eq (p := id) fun n r hn => hn
  rwa [Except.map_id] at hmap

theorem verify_only_txdb (dest : String) :
    Alike (Undecodable sha256) (fun n r => n = r.1.length + files.length)
      (verify_only sha512half fuel files)
      (import_main_txdb sha256 xxh64 sha512half fuel true false dest files) := by
  have hO : OutputErrorsIn (Undecodable sha256) (NuDbSink.node_sink xxh64)
      (TxDbSink.tx_db sha256) := ⟨node_sink_errors xxh64, tx_db_errors sha256⟩
  have hlike := @verify_only_alike _ _ _ _ sha512half fuel files _ hO
    { sink := NuDbSink.create, txdb := some TxDbSink.fresh, calls := [] }
  have hkept := hlike.and_right (P := fun r => r.2.txdb.isSome) fun r hr => by
    obtain ⟨-, -, t, ht, -⟩ := import_chunks_txdb rfl hr
    rw [ht]
    rfl
  rw [← bind_pure (verify_only sha512half fuel files)]
  apply hkept.bind
  rintro n ⟨rows, out⟩ ⟨hn, hsome⟩
  obtain ⟨t, ht⟩ := Option.isSome_iff_exists.mp hsome
  dsimp only at ht ⊢
  rw [ht]
  exact .ok hn

/-- With a database that takes what can be decoded, an import returns when
    `verify_only` does. -/
theorem import_main_txdb_of_decodable (dest : String) {n : Nat}
    (hverify : verify_only sha512half fuel files = .ok n)
    (hdecodable : ∀ file ∈ files, ∀ chunk, FileHolds sha512half file chunk →
      ∀ m ∈ chunk.tx_maps, Decodable sha256 m) :
    ∃ res, import_main_txdb sha256 xxh64 sha512half fuel true false dest files = .ok res := by
  have hO : OutputErrorsIn (fun _ => False) (NuDbSink.node_sink xxh64)
      (TxDbSink.tx_db sha256).lenient := ⟨node_sink_errors xxh64, fun t m => TxDb.lenient_errors _ t m⟩
  obtain ⟨⟨rows, out⟩, hlenient⟩ := (@verify_only_alike _ _ _ _ sha512half fuel files _ hO
    { sink := NuDbSink.create, txdb := some TxDbSink.fresh, calls := [] }).exists_ok hverify
  have hrun : import_chunks (NuDbSink.node_sink xxh64) (TxDbSink.tx_db sha256) sha512half fuel true
      files { sink := NuDbSink.create, txdb := some TxDbSink.fresh, calls := [] } =
      .ok (rows, out) := by
    refine import_chunks_congr (fun file hfile chunk hheld m hm t => ?_) hlenient
    exact TxDb.lenient_eq (write_ledger_exists (hdecodable file hfile chunk hheld m hm)) t
  obtain ⟨-, -, t, ht, -⟩ := import_chunks_txdb rfl hrun
  exact ⟨_, bind_eq_ok.mpr ⟨.fresh, rfl, bind_eq_ok.mpr ⟨(rows, out), hrun,
    bind_eq_ok.mpr ⟨t, ok_or_eq_ok.mpr ht, rfl⟩⟩⟩⟩

/-- `verify_only` returns what a verified import returns, down to the error.
    With `--txdb` the import returns if and only if, besides, all
    transactions of the files can be decoded, and any other error is that of
    a transaction. -/
theorem verify_only_agrees (dest : String) :
    verify_only sha512half fuel files =
        (import_main xxh64 sha512half fuel true files).map (fun r => r.1.length + files.length) ∧
      Alike (Undecodable sha256) (fun n r => n = r.1.length + files.length)
        (verify_only sha512half fuel files)
        (import_main_txdb sha256 xxh64 sha512half fuel true false dest files) ∧
      ((∃ res, import_main_txdb sha256 xxh64 sha512half fuel true false dest files = .ok res) ↔
        (∃ n, verify_only sha512half fuel files = .ok n) ∧
          ∀ file ∈ files, ∀ chunk, FileHolds sha512half file chunk →
            ∀ m ∈ chunk.tx_maps, Decodable sha256 m) := by
  have htxdb := verify_only_txdb sha256 xxh64 sha512half fuel files dest
  refine ⟨verify_only_eq xxh64 sha512half fuel files, htxdb, ?_, ?_⟩
  · rintro ⟨⟨rows, store, db⟩, hres⟩
    refine ⟨htxdb.ok_left hres, fun file hfile chunk hheld m hm => ?_⟩
    obtain ⟨chunks, hchunks, sink, hsink, -⟩ := import_main_txdb_ok hres
    obtain ⟨i, hi, rfl⟩ := List.getElem_of_mem hfile
    have hi' : i < chunks.length := hchunks.length_eq ▸ hi
    have hheld' : FileHolds sha512half files[i] chunks[i] := hchunks.get hi hi'
    rw [hheld.unique hheld'] at hm
    exact hsink.decodable m (List.mem_flatMap.mpr ⟨_, List.getElem_mem hi', hm⟩)
  · rintro ⟨⟨n, hn⟩, hdecodable⟩
    exact import_main_txdb_of_decodable sha256 xxh64 sha512half fuel files dest hn hdecodable

end Imports

end LedgerArchive
